namespace LoadOrder.Script

/-- A place in a text: line and column, both counted in characters from one. -/
structure Position where
  line : Nat
  column : Nat
deriving DecidableEq, Repr, Inhabited

namespace Position

def start : Position := ⟨1, 1⟩

def next (p : Position) (c : Char) : Position :=
  if c = '\n' then ⟨p.line + 1, 1⟩ else ⟨p.line, p.column + 1⟩

def after (p : Position) (text : List Char) : Position := text.foldl next p

def text (p : Position) : String :=
  "line " ++ toString p.line ++ ", column " ++ toString p.column

def Before (p q : Position) : Prop :=
  p.line < q.line ∨ p.line = q.line ∧ p.column < q.column

@[simp] theorem after_nil (p : Position) : p.after [] = p := rfl

@[simp] theorem after_cons (p : Position) (c : Char) (s : List Char) :
    p.after (c :: s) = (p.next c).after s := rfl

theorem before_next (p : Position) (c : Char) : p.Before (p.next c) := by
  unfold Before next
  split <;> simp

theorem Before.trans {p q r : Position} (h : p.Before q) (h' : q.Before r) : p.Before r := by
  unfold Before at *
  omega

theorem before_after {p : Position} {s : List Char} (h : s ≠ []) : p.Before (p.after s) := by
  induction s generalizing p with
  | nil => exact absurd rfl h
  | cons c s ih =>
    by_cases hs : s = []
    · subst hs
      exact before_next p c
    · exact (before_next p c).trans (ih hs)

end Position

end LoadOrder.Script

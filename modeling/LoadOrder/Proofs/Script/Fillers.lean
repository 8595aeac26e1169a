import Mathlib.Data.List.TakeWhile
import LoadOrder.Proofs.Script.Rejoined

namespace LoadOrder.Script

/-- What may stand between two tokens: blanks, byte order marks, and comments with the ends of their
lines. -/
inductive Filler : List Char → Prop
  | nil : Filler []
  | gap {c s} (hc : isGap c) (h : Filler s) : Filler (c :: s)
  | comment {body s} (hbody : '\n' ∉ body) (h : Filler s) : Filler ('#' :: body ++ '\n' :: s)

/-- What may stand behind the last token: a filler, and a comment up to the end of the text. -/
inductive Trailer : List Char → Prop
  | filler {s} (h : Filler s) : Trailer s
  | comment {s body} (h : Filler s) (hbody : '\n' ∉ body) : Trailer (s ++ '#' :: body)

/-- A token with what stands in front of it. -/
structure Piece where
  filler : List Char
  token : Token

def Piece.text (x : Piece) : List Char := x.filler ++ x.token.source.toList

/-- Tokens written out one after the other, each behind its filler. -/
def textOf (pieces : List Piece) : List Char := pieces.flatMap Piece.text

theorem takeWhile_line {body : List Char} (hbody : '\n' ∉ body) {s : List Char} (hs : Ended s) :
    (body ++ s).takeWhile (· != '\n') = body := by
  have hall : ∀ c ∈ body, (c != '\n') = true := fun c hc =>
    bne_iff_ne.mpr fun heq => hbody (heq ▸ hc)
  rw [hs.takeWhile_append, List.takeWhile_eq_self_iff.mpr hall]

theorem front_of_comment {body : List Char} (hbody : '\n' ∉ body) {s : List Char} (hs : Ended s) :
    Front.of '#' (body ++ s) = .gap (body.length + 1) := by
  simp [Front.of, show isGap '#' = false by decide, takeWhile_line hbody hs]

theorem Lexes.comment {body s : List Char} {tokens : List Token} (hbody : '\n' ∉ body)
    (hs : Ended s) (h : Lexes s tokens) : Lexes ('#' :: body ++ s) tokens :=
  .of_gap (front_of_comment hbody hs) (by simpa using h)

section Filler

variable {g rest : List Char} {tokens : List Token}

theorem Lexes.filler (hg : Filler g) (h : Lexes rest tokens) : Lexes (g ++ rest) tokens := by
  induction hg with
  | nil => exact h
  | gap hc _ ih => exact ih.gap hc
  | comment hbody _ ih =>
    rw [List.append_assoc]
    exact .comment hbody (ended_newline _) (ih.gap (by decide))

theorem Lexes.trailer (h : Trailer rest) : Lexes rest [] := by
  cases h with
  | filler h => simpa using Lexes.nil.filler h
  | comment h hbody =>
    refine .filler h ?_
    simpa using Lexes.nil.comment hbody ended_nil

theorem Filler.parted (h : Filler g) (hne : g ≠ []) (rest : List Char) : Parted (g ++ rest) := by
  cases h with
  | nil => exact absurd rfl hne
  | gap hc => exact parted_cons hc _
  | comment => simp [Parted]

theorem Trailer.parted (h : Trailer rest) : Parted rest := by
  cases h with
  | filler h =>
    by_cases hne : rest = []
    · rw [hne]
      exact parted_nil
    · simpa using h.parted hne []
  | @comment s body h =>
    by_cases hne : s = []
    · simp [hne, Parted]
    · exact h.parted hne _

theorem filler_space : Filler [' '] := .gap (by decide) .nil

end Filler

theorem Lexes.token {t : Token} {rest : List Char} {tokens : List Token} (ht : t.WellFormed)
    (hp : Parted rest) (h : Lexes rest tokens) :
    Lexes (t.source.toList ++ rest) (t :: tokens) := by
  cases t with
  | atom a => exact h.atom ht hp
  | operator o => exact h.operator o hp
  | opening => exact h.opening
  | closing => exact h.closing

def Apart (pieces : List Piece) : Prop := ∀ x ∈ pieces.tail, x.filler ≠ []

theorem parted_textOf {pieces : List Piece} {rest : List Char}
    (hfiller : ∀ x ∈ pieces, Filler x.filler) (hapart : ∀ x ∈ pieces, x.filler ≠ [])
    (hrest : Trailer rest) : Parted (textOf pieces ++ rest) := by
  cases pieces with
  | nil => exact hrest.parted
  | cons x more =>
    rw [textOf, List.flatMap_cons, Piece.text, List.append_assoc, List.append_assoc]
    exact (hfiller x List.mem_cons_self).parted (hapart x List.mem_cons_self) _

/-- Tokens that are kept apart are read, whatever stands between them. -/
theorem lexes_textOf {pieces : List Piece} {rest : List Char}
    (hwell : ∀ x ∈ pieces, x.token.WellFormed) (hfiller : ∀ x ∈ pieces, Filler x.filler)
    (hapart : Apart pieces) (hrest : Trailer rest) :
    Lexes (textOf pieces ++ rest) (pieces.map Piece.token) := by
  induction pieces with
  | nil => exact .trailer hrest
  | cons x more ih =>
    rw [List.forall_mem_cons] at hwell hfiller
    have hmore : Lexes (textOf more ++ rest) (more.map Piece.token) :=
      ih hwell.2 hfiller.2 fun y hy => hapart y (List.mem_of_mem_tail hy)
    have hx := (hmore.token hwell.1 (parted_textOf hfiller.2 hapart hrest)).filler hfiller.1
    simpa [textOf, Piece.text] using hx

theorem wellFormed_of_pieces {text : String} {ts : List Located} {pieces : List Piece}
    (h : tokens text = .ok ts) (hsame : pieces.map Piece.token = ts.map (·.token)) :
    ∀ x ∈ pieces, x.token.WellFormed := by
  rw [← List.forall_mem_map (f := Piece.token) (P := Token.WellFormed), hsame, List.forall_mem_map]
  exact tokensFrom_wellFormed h

theorem exists_text {all : List Token} (hwell : ∀ t ∈ all, t.WellFormed) :
    ∃ text ts, tokens text = .ok ts ∧ ts.map (·.token) = all := by
  let pieces : List Piece := all.map (⟨[' '], ·⟩)
  have hpieces : pieces.map Piece.token = all := by
    rw [List.map_map]
    exact List.map_id all
  have hspace : ∀ x ∈ pieces, x.filler = [' '] := List.forall_mem_map.mpr fun _ _ => rfl
  have hfiller : ∀ x ∈ pieces, Filler x.filler := fun x hx => hspace x hx ▸ filler_space
  have hapart : Apart pieces := fun x hx =>
    hspace x (List.mem_of_mem_tail hx) ▸ List.cons_ne_nil _ _
  obtain ⟨ts, hts, hmap⟩ :=
    lexes_textOf (List.forall_mem_map.mpr hwell) hfiller hapart (.filler .nil) .start
  refine ⟨String.ofList (textOf pieces ++ []), ts, ?_, hmap.trans hpieces⟩
  rw [tokens, String.toList_ofList]
  exact hts

end LoadOrder.Script

import LoadOrder.Script.Statement

namespace LoadOrder.Script

def Head.layout (h : Head) : List Char :=
  h.key.source.toList ++ ' ' :: h.operator.text.toList ++ [' ']

/-- A key with its operator and the space after it; nothing without a key. -/
def headLayout (h : Option Head) : List Char := (h.map Head.layout).getD []

mutual

/-- A statement after its indentation, with its clauses indented deeper than `indent`. -/
def Statement.layout (indent : Nat) : Statement → List Char
  | .leaf h a _ => headLayout h ++ a.source.toList
  | .clause h body _ => headLayout h ++ clauseLayout indent body

def clauseLayout (indent : Nat) : List Statement → List Char
  | [] => ['\x7b', ' ', '\x7d']
  | s :: rest =>
    '\x7b' :: '\n' :: (List.replicate (indent + 1) '\t' ++ s.layout (indent + 1) ++ '\n' ::
      linesLayout (indent + 1) rest) ++ List.replicate indent '\t' ++ ['\x7d']

def linesLayout (indent : Nat) : List Statement → List Char
  | [] => []
  | s :: rest => List.replicate indent '\t' ++ s.layout indent ++ '\n' :: linesLayout indent rest

end

def Statement.print (s : Statement) : String := String.ofList (s.layout 0)

/-- The text of a statement's value: an atom without quotes, or a clause. -/
def Statement.valueText : Statement → String
  | .leaf _ a _ => a.text
  | .clause _ body _ => String.ofList (clauseLayout 0 body)

/-- Drops the characters equal to `c` at both ends. -/
def stripEnds (c : Char) (s : List Char) : List Char :=
  Text.dropEndWhile (· == c) (s.dropWhile (· == c))

/-- The text of a statement as definitions keep it: no carriage returns, no newlines at the ends,
and four spaces for a tab. -/
def Statement.code (s : Statement) : String :=
  String.ofList ((stripEnds '\n' ((s.layout 0).filter (· != '\r'))).flatMap fun c =>
    if c = '\t' then [' ', ' ', ' ', ' '] else [c])

theorem clauseLayout_cons (indent : Nat) (s : Statement) (rest : List Statement) :
    clauseLayout indent (s :: rest) =
      '\x7b' :: '\n' :: linesLayout (indent + 1) (s :: rest) ++
        List.replicate indent '\t' ++ ['\x7d'] := by
  simp [clauseLayout, linesLayout]

end LoadOrder.Script

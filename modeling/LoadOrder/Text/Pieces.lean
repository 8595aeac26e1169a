namespace LoadOrder.Text

/-- Puts a character in front of the first piece. -/
def consFirst (c : Char) : List (List Char) → List (List Char)
  | [] => [[c]]
  | piece :: pieces => (c :: piece) :: pieces

/-- The pieces between the characters that satisfy `p`: one more than there are such characters. -/
def split (p : Char → Bool) : List Char → List (List Char)
  | [] => [[]]
  | c :: rest => if p c then [] :: split p rest else consFirst c (split p rest)

/-- The lines of a text. A line ends at a newline or at a carriage return with a newline; what
follows the last newline is a line only if it is not empty. -/
def lines : List Char → List (List Char)
  | [] => []
  | '\r' :: '\n' :: rest => [] :: lines rest
  | '\n' :: rest => [] :: lines rest
  | c :: rest => consFirst c (lines rest)

def linesOf (s : String) : List String := (lines s.toList).map String.ofList

/-- The pieces put back together with `separator` between them. -/
def join (separator : String) (pieces : List String) : String :=
  String.intercalate separator pieces

def forwardSlashes (s : String) : String :=
  String.ofList (s.toList.map fun c => if c = '\\' then '/' else c)

theorem split_ne_nil (p : Char → Bool) (s : List Char) : split p s ≠ [] := by
  cases s with
  | nil => simp [split]
  | cons c rest =>
    simp only [split]
    split
    · simp
    · cases split p rest <;> simp [consFirst]

end LoadOrder.Text

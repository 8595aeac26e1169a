import LoadOrder.Text.Blank
import LoadOrder.Text.Letter
import LoadOrder.Text.LowerCase
import LoadOrder.Text.Pieces

namespace LoadOrder.Line

def untab (s : List Char) : List Char := s.map fun c => if c = '\t' then ' ' else c

def words (s : List Char) : List (List Char) :=
  (Text.split (· == ' ') s).filter (· != [])

/-- Trimmed, and with one space for every run of spaces and tabs. -/
def collapse (s : List Char) : List Char :=
  [' '].intercalate (words (untab (Text.trim s)))

def dropSpaceBefore (t : Char) : List Char → List Char
  | [] => []
  | c :: rest =>
    if c = ' ' ∧ rest.head? = some t then dropSpaceBefore t rest
    else c :: dropSpaceBefore t rest

def dropSpaceAfter (t : Char) : List Char → List Char
  | [] => []
  | [c] => [c]
  | c :: d :: rest =>
    if c = t ∧ d = ' ' then c :: dropSpaceAfter t rest
    else c :: dropSpaceAfter t (d :: rest)

/-- The characters that stand without spaces in the tight form. -/
def marks : List Char := ['=', '\x7b', '\x7d']

def isBrace (c : Char) : Bool := c == '\x7b' || c == '\x7d'

def tightenChars (s : List Char) : List Char :=
  marks.foldl (fun s t => dropSpaceAfter t (dropSpaceBefore t s)) (collapse s)

/-- The line with single spaces, and none around `=` and braces. -/
def tighten (line : String) : String := String.ofList (tightenChars line.toList)

def pad (s : List Char) : List Char :=
  s.flatMap fun c => if marks.contains c then [' ', c, ' '] else [c]

def spreadChars (s : List Char) : List Char := collapse (pad (tightenChars s))

/-- The line with single spaces, and one on each side of `=` and braces. -/
def spread (line : String) : String := String.ofList (spreadChars line.toList)

def leadingChars (s : List Char) : List Char :=
  s.takeWhile fun c => !Text.isBlank c && !isBrace c

def leading (text : String) : String := String.ofList (leadingChars text.toList)

/-- The text without spaces and tabs, to compare code by. -/
def squeeze (text : String) : String :=
  String.ofList (Text.trim (text.toList.filter fun c => c != ' ' && c != '\t'))

/-- A text begins with `token`, whatever the case of the letters A to Z. -/
def startsWith (token s : List Char) : Bool :=
  (s.take token.length).map Char.toLower == token.map Char.toLower

/-- Splits a text at the first place where `token` stands after a character that `guard` admits.
`last` is the character before the text. Occurrences do not overlap: a refused one is passed over
as a whole, which `skip` counts. -/
def findToken? (token : List Char) (guard : Option Char → Bool) :
    (last : Option Char) → (skip : Nat) → List Char → Option (List Char × List Char)
  | _, _, [] => none
  | last, skip, c :: rest =>
    if skip = 0 ∧ startsWith token (c :: rest) then
      if guard last then some ([], c :: rest)
      else (findToken? token guard (some c) (token.length - 1) rest).map fun (before, after) =>
        (c :: before, after)
    else (findToken? token guard (some c) (skip - 1) rest).map fun (before, after) =>
      (c :: before, after)

def beforeToken (token : List Char) : List Char → List Char
  | [] => []
  | c :: rest => if startsWith token (c :: rest) then [] else c :: beforeToken token rest

def dropTokens (token : List Char) (s : List Char) : List Char :=
  if _h : token ≠ [] ∧ s ≠ [] ∧ startsWith token s then dropTokens token (s.drop token.length)
  else s
termination_by s.length
decreasing_by
  obtain ⟨h₁, h₂, _⟩ := _h
  have := List.length_pos_iff.mpr h₁
  have := List.length_pos_iff.mpr h₂
  simp only [List.length_drop]
  omega

/-- The text between the first two quotes that stand in one line. -/
def quotedSpan? : List Char → Option (List Char)
  | [] => none
  | c :: rest =>
    if c = '"' then
      let body := rest.takeWhile fun c => c != '"' && c != '\n'
      if (rest.drop body.length).head? = some '"' then some body else quotedSpan? rest
    else quotedSpan? rest

/-- The plain text of one side of a pair: a quoted text without its quotes, or what stands before
the first blank or brace. -/
def plain (part : List Char) : List Char :=
  let part := Text.trim part
  if part.head? = some '"' then (quotedSpan? part).getD []
  else leadingChars (part.filter (· != '"'))

/-- The key in front of the first `token` that no blank stands before. -/
def key (line token : String) : String :=
  let guard : Option Char → Bool := fun c => !c.any Text.isBlank
  if token = "" then ""
  else
    match findToken? token.toList guard none 0 (tightenChars line.toList) with
    | some (before, _) => String.ofList (plain before)
    | none => ""

/-- A token that begins with a letter, digit, `_` or `@` is a name. -/
def isNameToken (token : List Char) : Bool :=
  token.head?.any fun c => Text.isAlphanumeric c || c == '_' || c == '@'

/-- The value after the first `token`. A token that is a name has to stand at the start or after a
blank or brace. -/
def value (line token : String) : String :=
  let guard : Option Char → Bool := fun c =>
    !isNameToken token.toList || c.all fun c => Text.isBlank c || isBrace c
  if token = "" then ""
  else
    match findToken? token.toList guard none 0 (tightenChars line.toList) with
    | some (_, after) =>
      String.ofList (plain (beforeToken token.toList (dropTokens token.toList after)))
    | none => ""

end LoadOrder.Line

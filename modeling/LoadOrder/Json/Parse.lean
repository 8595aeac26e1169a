import LoadOrder.Json.Basic

namespace LoadOrder.Json

def skipSpace (s : List Char) : List Char :=
  s.dropWhile fun c => c == ' ' || c == '\n' || c == '\t' || c == '\r'

/-- A part of a string: a character, or half of a surrogate pair. -/
inductive Piece
  | char (c : Char)
  | half (unit : Nat)
deriving DecidableEq, Repr

def hexValue? (c : Char) : Option Nat :=
  if c.isDigit then some (c.toNat - '0'.toNat)
  else if 'a' ≤ c ∧ c ≤ 'f' then some (c.toNat - 'a'.toNat + 10)
  else if 'A' ≤ c ∧ c ≤ 'F' then some (c.toNat - 'A'.toNat + 10)
  else none

/-- What four hexadecimal digits stand for. -/
def unitPiece? (a b c d : Char) : Option Piece := do
  let n := 4096 * (← hexValue? a) + 256 * (← hexValue? b) + 16 * (← hexValue? c) + (← hexValue? d)
  return if 0xD800 ≤ n ∧ n < 0xE000 then .half n else .char (Char.ofNat n)

def escaped? (c : Char) : Option Char :=
  match c with
  | '"' => some '"'
  | '\\' => some '\\'
  | '/' => some '/'
  | 'b' => some '\x08'
  | 'f' => some '\x0c'
  | 'n' => some '\n'
  | 'r' => some '\r'
  | 't' => some '\t'
  | _ => none

/-- The parts of a string up to its closing quote, and what follows. -/
def pieces? : List Char → Option (List Piece × List Char)
  | [] => none
  | '"' :: rest => some ([], rest)
  | '\\' :: 'u' :: a :: b :: c :: d :: rest => do
    let piece ← unitPiece? a b c d
    let (pieces, rest) ← pieces? rest
    return (piece :: pieces, rest)
  | '\\' :: e :: rest => do
    let c ← escaped? e
    let (pieces, rest) ← pieces? rest
    return (.char c :: pieces, rest)
  | c :: rest =>
    if c.toNat < 0x20 then none
    else do
      let (pieces, rest) ← pieces? rest
      return (.char c :: pieces, rest)

/-- The characters of a string; none if half of a pair stands alone. -/
def chars? : List Piece → Option (List Char)
  | [] => some []
  | .char c :: rest => (chars? rest).map (c :: ·)
  | .half high :: .half low :: rest =>
    if high < 0xDC00 ∧ 0xDC00 ≤ low then
      (chars? rest).map (Char.ofNat (0x10000 + 1024 * (high - 0xD800) + (low - 0xDC00)) :: ·)
    else none
  | .half _ :: _ => none

/-- The string after an opening quote, none if it is broken, and what follows it. -/
def string? (s : List Char) : Option (Option String × List Char) := do
  let (pieces, rest) ← pieces? s
  return ((chars? pieces).map String.ofList, rest)

/-- The digits in front of a text, at least one, and what follows them. -/
def digits? (s : List Char) : Option (List Char × List Char) :=
  match s.takeWhile Char.isDigit with
  | [] => none
  | digits => some (digits, s.drop digits.length)

/-- The point and digits in front of a text, if there is a point. -/
def fraction? : List Char → Option (List Char × List Char)
  | '.' :: rest => (digits? rest).map fun (digits, rest) => ('.' :: digits, rest)
  | s => some ([], s)

/-- The exponent in front of a text, if there is one. -/
def exponent? : List Char → Option (List Char × List Char)
  | c :: rest =>
    if c = 'e' ∨ c = 'E' then
      match rest with
      | s :: more =>
        if s = '+' ∨ s = '-' then
          (digits? more).map fun (digits, rest) => (c :: s :: digits, rest)
        else (digits? rest).map fun (digits, rest) => (c :: digits, rest)
      | [] => none
    else some ([], c :: rest)
  | [] => some ([], [])

def naturalOf (digits : List Char) : Nat :=
  digits.foldl (fun n c => 10 * n + (c.toNat - '0'.toNat)) 0

/-- A number written with digits only. It is whole if it fits in 64 bits; any other is a number in
double precision, which its literal shows by a decimal place. -/
def wholeNumber (negative : Bool) (digits : List Char) : Json :=
  let n := naturalOf digits
  if negative then
    let isWhole := 0 < n ∧ n ≤ Nat.pow 2 63
    .number (String.ofList ('-' :: digits ++ if isWhole then [] else ['.', '0']))
  else if n < Nat.pow 2 64 then .natural n
  else .number (String.ofList (digits ++ ['.', '0']))

/-- The number in front of a text. A number has no needless zeros in front. -/
def number? (s : List Char) : Option (Json × List Char) := do
  let negative := s.head? == some '-'
  let (digits, rest) ← digits? (if negative then s.tail else s)
  if digits.head? = some '0' ∧ digits.length ≠ 1 then failure
  let (fraction, rest) ← fraction? rest
  let (exponent, rest) ← exponent? rest
  if fraction = [] ∧ exponent = [] then return (wholeNumber negative digits, rest)
  else
    let sign := if negative then ['-'] else []
    return (.number (String.ofList (sign ++ digits ++ fraction ++ exponent)), rest)

/-- The object with members that have been read, given with keys that may be broken. -/
def ofMembers (members : List (Option String × Json)) : Json :=
  match members.mapM fun (key, j) => key.map (·, j) with
  | some members => .object members
  | none => .broken

mutual

def value? : (fuel : Nat) → List Char → Option (Json × List Char)
  | 0, _ => none
  | fuel + 1, s =>
    match skipSpace s with
    | 'n' :: 'u' :: 'l' :: 'l' :: rest => some (.null, rest)
    | 't' :: 'r' :: 'u' :: 'e' :: rest => some (.bool true, rest)
    | 'f' :: 'a' :: 'l' :: 's' :: 'e' :: rest => some (.bool false, rest)
    | '"' :: rest =>
      (string? rest).map fun (s, rest) => (s.elim .broken .text, rest)
    | '[' :: rest =>
      match skipSpace rest with
      | ']' :: rest => some (.array [], rest)
      | rest => (items? fuel rest).map fun (items, rest) => (.array items, rest)
    | '\x7b' :: rest =>
      match skipSpace rest with
      | '\x7d' :: rest => some (.object [], rest)
      | rest => (members? fuel rest).map fun (members, rest) => (ofMembers members, rest)
    | s => number? s

def items? : (fuel : Nat) → List Char → Option (List Json × List Char)
  | 0, _ => none
  | fuel + 1, s => do
    let (j, rest) ← value? fuel s
    match skipSpace rest with
    | ',' :: rest => (items? fuel rest).map fun (items, rest) => (j :: items, rest)
    | ']' :: rest => some ([j], rest)
    | _ => none

def members? : (fuel : Nat) → List Char → Option (List (Option String × Json) × List Char)
  | 0, _ => none
  | fuel + 1, s =>
    match skipSpace s with
    | '"' :: rest => do
      let (key, rest) ← string? rest
      match skipSpace rest with
      | ':' :: rest =>
        let (j, rest) ← value? fuel rest
        match skipSpace rest with
        | ',' :: rest => (members? fuel rest).map fun (members, rest) => ((key, j) :: members, rest)
        | '\x7d' :: rest => some ([(key, j)], rest)
        | _ => none
      | _ => none
    | _ => none

end

def parse? (text : String) : Option Json :=
  match value? (2 * text.toList.length + 2) text.toList with
  | some (j, rest) => if skipSpace rest = [] then some j else none
  | none => none

end LoadOrder.Json

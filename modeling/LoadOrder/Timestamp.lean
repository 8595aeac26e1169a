import LoadOrder.Text.Blank

namespace LoadOrder

/-- A point of time in the calendar of UTC. A leap second is second 60. -/
structure Timestamp where
  year : Int
  month : Nat
  day : Nat
  hour : Nat
  minute : Nat
  second : Nat
  nanosecond : Nat
deriving DecidableEq, Repr

namespace Timestamp

def isLeapYear (year : Int) : Bool :=
  year % 4 == 0 && (year % 100 != 0 || year % 400 == 0)

def daysInMonth (year : Int) (month : Nat) : Nat :=
  if month == 2 then (if isLeapYear year then 29 else 28)
  else if month == 4 || month == 6 || month == 9 || month == 11 then 30
  else 31

def isYear (year : Int) : Bool := -262143 ≤ year && year ≤ 262142

def dayBefore (year : Int) (month day : Nat) : Int × Nat × Nat :=
  if 1 < day then (year, month, day - 1)
  else if 1 < month then (year, month - 1, daysInMonth year (month - 1))
  else (year - 1, 12, 31)

def dayAfter (year : Int) (month day : Nat) : Int × Nat × Nat :=
  if day < daysInMonth year month then (year, month, day + 1)
  else if month < 12 then (year, month + 1, 1)
  else (year + 1, 1, 1)

/-- The same point of time with the clock set back by some minutes, less than a day. -/
def setBack? (t : Timestamp) (minutes : Int) : Option Timestamp :=
  let clock : Int := 60 * t.hour + t.minute - minutes
  let (year, month, day) :=
    if clock < 0 then dayBefore t.year t.month t.day
    else if clock < 1440 then (t.year, t.month, t.day)
    else dayAfter t.year t.month t.day
  let clock := (clock % 1440).toNat
  if isYear year then
    some { t with year, month, day, hour := clock / 60, minute := clock % 60 }
  else none

/-- At most `width` digits in front of a text, at least one. -/
def digits? (width : Nat) (s : List Char) : Option (List Char × List Char) :=
  match (s.take width).takeWhile Char.isDigit with
  | [] => none
  | digits => some (digits, s.drop digits.length)

def digitsValue (digits : List Char) : Nat :=
  digits.foldl (fun n c => 10 * n + (c.toNat - '0'.toNat)) 0

/-- A number of at most two digits, between bounds, after blanks. -/
def twoDigits? (low high : Nat) (s : List Char) : Option (Nat × List Char) := do
  let (digits, rest) ← digits? 2 (Text.trimStart s)
  let n := digitsValue digits
  if low ≤ n ∧ n ≤ high then return (n, rest) else failure

/-- A year: at most four digits, or a sign and any number of them. -/
def year? (s : List Char) : Option (Int × List Char) := do
  let s := Text.trimStart s
  match s with
  | '-' :: rest =>
    let (digits, rest) ← digits? rest.length rest
    return (-(digitsValue digits : Int), rest)
  | '+' :: rest =>
    let (digits, rest) ← digits? rest.length rest
    return (digitsValue digits, rest)
  | s =>
    let (digits, rest) ← digits? 4 s
    return (digitsValue digits, rest)

def mark? (c : Char) (s : List Char) : Option (List Char) :=
  match Text.trimStart s with
  | d :: rest => if c = d then some rest else none
  | [] => none

/-- The fraction of a second in nanoseconds, zero without a point. Digits after the ninth do not
count. -/
def fraction? : List Char → Option (Nat × List Char)
  | '.' :: rest => do
    let (digits, rest) ← digits? 9 rest
    return (digitsValue digits * Nat.pow 10 (9 - digits.length), rest.dropWhile Char.isDigit)
  | s => some (0, s)

/-- Blanks and colons, which may stand between the hours and minutes of an offset. -/
def isOffsetGap (c : Char) : Bool := c == ':' || Text.isBlank c

def offset? (s : List Char) : Option (Int × List Char) :=
  let s := Text.trimStart s
  if (s.take 3).map Char.toUpper = ['U', 'T', 'C'] then some (0, s.drop 3)
  else
    match s with
    | [] => none
    | sign :: rest =>
      if sign = 'Z' ∨ sign = 'z' then some (0, rest)
      else if sign = '+' ∨ sign = '-' ∨ sign = '\u2212' then do
        let (hours, rest) ← digits? 2 rest
        let (minutes, rest) ← digits? 2 (rest.dropWhile isOffsetGap)
        if hours.length = 2 ∧ minutes.length = 2 ∧ digitsValue hours < 24 ∧
            digitsValue minutes < 60 then
          let offset : Int := 60 * digitsValue hours + digitsValue minutes
          return (if sign = '+' then offset else -offset, rest)
        else failure
      else none

/-- Reads a date, one of `T`, `t` and a space, a time and an offset. -/
def parse? (text : String) : Option Timestamp := do
  let (year, s) ← year? text.toList
  let (month, s) ← twoDigits? 1 12 (← mark? '-' s)
  let (day, s) ← twoDigits? 1 31 (← mark? '-' s)
  let separator ← s.head?
  if separator ≠ 'T' ∧ separator ≠ 't' ∧ separator ≠ ' ' then failure
  let (hour, s) ← twoDigits? 0 23 s.tail
  let (minute, s) ← twoDigits? 0 59 (← mark? ':' s)
  let (second, s) ← twoDigits? 0 60 (← mark? ':' s)
  let (nanosecond, s) ← fraction? s
  let (offset, s) ← offset? s
  if Text.trimStart s ≠ [] then failure
  if !isYear year ∨ daysInMonth year month < day then failure
  (⟨year, month, day, hour, minute, second, nanosecond⟩ : Timestamp).setBack? offset

def padded (width n : Nat) : String :=
  let digits := (toString n).toList
  String.ofList (List.replicate (width - digits.length) '0' ++ digits)

/-- A year has a sign if it has not four digits. -/
def yearText (year : Int) : String :=
  if 0 ≤ year ∧ year ≤ 9999 then padded 4 year.toNat
  else (if year < 0 then "-" else "+") ++ padded 4 year.natAbs

/-- A fraction in thousandths, millionths or smaller, as few as are exact. -/
def fractionText (nanosecond : Nat) : String :=
  if nanosecond = 0 then ""
  else if nanosecond % 1000000 = 0 then "." ++ padded 3 (nanosecond / 1000000)
  else if nanosecond % 1000 = 0 then "." ++ padded 6 (nanosecond / 1000)
  else "." ++ padded 9 nanosecond

def text (t : Timestamp) : String :=
  yearText t.year ++ "-" ++ padded 2 t.month ++ "-" ++ padded 2 t.day ++ "T" ++
    padded 2 t.hour ++ ":" ++ padded 2 t.minute ++ ":" ++ padded 2 t.second ++
    fractionText t.nanosecond ++ "Z"

end Timestamp

end LoadOrder

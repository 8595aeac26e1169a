namespace LoadOrder

/-- A JSON document. Members keep their order and may repeat a key. -/
inductive Json
  | null
  | bool (value : Bool)
  /-- a number written with digits only that fits in 64 bits -/
  | natural (value : Nat)
  /-- any other number, as it was written, or with a decimal place if it exceeds 64 bits -/
  | number (literal : String)
  | text (value : String)
  | array (items : List Json)
  | object (members : List (String × Json))
  /-- a string with half of a surrogate pair, or an object with such a key -/
  | broken
deriving Repr, Inhabited

namespace Json

/-- How deep a typed value may nest, itself included, plus one. -/
def maxRoom : Nat := 128

def text? : Json → Option String
  | text s => some s
  | _ => none

def word64? : Json → Option Nat
  | natural n => if n < Nat.pow 2 64 then some n else none
  | _ => none

/-- The items of an array, each read by `read`. -/
def list? {α : Type} (room : Nat) (read : Json → Option α) : Json → Option (List α)
  | array items => if 1 < room then items.mapM read else none
  | _ => none

def texts? (room : Nat) (j : Json) : Option (List String) := list? room text? j

def option? {α : Type} (read : Json → Option α) : Json → Option (Option α)
  | null => some none
  | j => (read j).map some

/-- The only member with a key, if there is one. A key given twice is refused. -/
def member? (members : List (String × Json)) (key : String) : Option (Option Json) :=
  match members.filter (·.1 == key) with
  | [] => some none
  | [(_, j)] => some (some j)
  | _ => none

/-- The values of a record's fields, in the order of `names`. A record is an object, whose other
members do not count, or an array that begins with the values of the first fields. -/
def fields? (room : Nat) (names : List String) : Json → Option (List (Option Json))
  | object members => if 1 < room then names.mapM (member? members) else none
  | array items =>
    if 1 < room ∧ items.length ≤ names.length then
      some (items.map some ++ List.replicate (names.length - items.length) none)
    else none
  | _ => none

/-- The value of a field, or the default if it is missing. -/
def fieldOr? {α : Type} (default : α) (read : Json → Option α) : Option Json → Option α
  | none => some default
  | some j => read j

/-- One of some named constants: its name, or an object with the name as its key and null as value.
-/
def constant? {α : Type} (room : Nat) (name : α → String) (all : List α) : Json → Option α
  | text s => all.find? (name · == s)
  | object [(s, null)] => if 1 < room then all.find? (name · == s) else none
  | _ => none

def ofTexts (texts : List String) : Json := array (texts.map text)

end Json

end LoadOrder

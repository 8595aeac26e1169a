import LoadOrder.Text.Letter
import LoadOrder.Text.LowerCase
import LoadOrder.Definition

namespace LoadOrder

def isNameChar (c : Char) : Bool :=
  Text.isAlphanumeric c || c == '_' || c == '@' || c == '.' || c == ':' || c == '$'

def isNameEdge (neighbour : Option Char) : Bool := !neighbour.any isNameChar

/-- Replaces the whole names `old` in a text that follows the character `last`. Occurrences of `old`
do not overlap, whether they are replaced or not. -/
def renameFrom (old new : List Char) (last : Option Char) : List Char → List Char
  | [] => []
  | c :: rest =>
    if old.isPrefixOf (c :: rest) then
      let after := rest.drop (old.length - 1)
      (if isNameEdge last && isNameEdge after.head? then new else old) ++
        renameFrom old new old.getLast? after
    else c :: renameFrom old new (some c) rest
termination_by s => s.length
decreasing_by all_goals simp only [List.length_drop, List.length_cons]; omega

/-- Replaces `old` by `new` where it stands as a whole name. -/
def rename (text old new : String) : String :=
  if old = "" then text else String.ofList (renameFrom old.toList new.toList none text.toList)

def numberedName (id : String) (n : Nat) : String := id ++ "_" ++ toString n

/-- Some definition goes by the name, whatever the case of its letters A to Z. -/
def isTaken (definitions : List Definition) (name : String) : Bool :=
  definitions.any fun d => Text.sameIgnoringCase d.id name

/-- The first number from `n` on whose name is free, looking at `fuel` further ones at most. -/
def freeNumber (definitions : List Definition) (id : String) : (fuel n : Nat) → Nat
  | 0, n => n
  | fuel + 1, n =>
    if isTaken definitions (numberedName id n) then freeNumber definitions id fuel (n + 1) else n

/-- The first free name `id_n`, where `n` is greater than the number of definitions called `id`. As
many tries as there are definitions are enough. -/
def freeName (definitions : List Definition) (id : String) : String :=
  let called := definitions.countP fun d => Text.sameIgnoringCase d.id id
  numberedName id (freeNumber definitions id definitions.length (called + 1))

end LoadOrder

import LoadOrder.Definition.Index
import LoadOrder.Rules

namespace LoadOrder

/-- The mods of some definitions in the order in which they occur. -/
def modNames (definitions : List Definition) : List String :=
  definitions.foldl (fun names d =>
    if names.contains d.modName then names else names ++ [d.modName]) []

/-- The mod that most definitions come from; of several the one that occurs first. -/
def dominantMod? (definitions : List Definition) : Option String :=
  let share := fun (name : String) => definitions.countP (·.modName == name)
  match modNames definitions with
  | [] => none
  | name :: rest =>
    some (rest.foldl (fun best name => if share best < share name then name else best) name)

def firstByFile? : List Definition → Option Definition
  | [] => none
  | d :: rest => some (rest.foldl (fun best d => if d.file < best.file then d else best) d)

def lastByFile? : List Definition → Option Definition
  | [] => none
  | d :: rest => some (rest.foldl (fun best d => if d.file < best.file then best else d) d)

/-- Which of the dominant mod's copies of an object gives the object its order. -/
def orderModel? (copies : List Definition) (rules : Option Rules) (d : Definition) :
    Option Definition :=
  match copies with
  | [] => none
  | [copy] => some copy
  | copies =>
    match copies.find? (·.fileKey == d.fileKey) with
    | some copy => some copy
    | none =>
      if rules.any (·.orderFor d == some .first) then firstByFile? copies else lastByFile? copies

/-- Gives the entries of other mods the order that the dominant mod has for them. -/
def alignOrder (exported : List Definition) (all : Index) (rules : Option Rules) :
    List Definition :=
  if (modNames exported).length < 2 then exported
  else
    match dominantMod? exported with
    | none => exported
    | some dominant =>
      exported.map fun d =>
        if d.modName = dominant then d
        else
          let copies := (all.withIdentity d.identity).filter (·.modName == dominant)
          match orderModel? copies rules d with
          | some copy => { d with order := copy.order }
          | none => d

end LoadOrder

import LoadOrder.Definition.Index
import LoadOrder.Priority

namespace LoadOrder

/-- The place of a mod in the load order, from one; a name listed twice counts where it is last. A
mod that is not listed comes before all others. -/
def rank (modOrder : List String) (modName : String) : Nat :=
  match modOrder.reverse.idxOf? modName with
  | some i => modOrder.length - i
  | none => 0

/-- Definitions in the load order of their mods. Those of one mod keep their order. -/
def sortByMods (modOrder : List String) (definitions : List Definition) : List Definition :=
  definitions.mergeSort fun a b => rank modOrder a.modName ≤ rank modOrder b.modName

def severalMods : List Definition → Bool
  | [] => false
  | d :: rest => rest.any (·.modName != d.modName)

/-- How the definitions of a collection stand to each other, and what has been decided about them.
-/
structure Analysis where
  all : Index
  /-- identities that several mods define in several files -/
  conflicts : Index
  resolved : Index
  ignored : Index
  /-- definitions that are exported as they are -/
  custom : Index
  /-- the winners of identities that several mods define in one file -/
  overwritten : Index
  /-- definitions that are lost with a file that a later mod overwrites -/
  orphans : Index
deriving BEq, Repr

/-- What one identity contributes to the conflicts and to the overwritten definitions. -/
def classify (modOrder : List String) (rules : Option Rules) (group : List Definition) :
    List Definition × List Definition :=
  let members := sortByMods modOrder (group.filter (!·.isSupport))
  if !severalMods members then ([], [])
  else if inOneFile members then ([], ((winner? members rules).map (·.1)).toList)
  else (members, [])

/-- The definitions of a file that are lost when the mod that loads last overwrites the file. -/
def lostIn (modOrder : List String) (inFile : List Definition) : List Definition :=
  if !severalMods inFile then []
  else
    let members := sortByMods modOrder inFile
    match members.getLast? with
    | none => []
    | some last =>
      let kept := (members.filter (·.modName == last.modName)).map Definition.identity
      members.filter fun d =>
        d.modName != last.modName && !d.isSupport && d.kind != .emptyFile &&
          !kept.contains d.identity

/-- Classifies the definitions of a collection. Nothing is decided yet. -/
def Analysis.of (all : Index) (modOrder : List String) (rules : Option Rules) : Analysis :=
  let classes := all.identities.map fun k => classify modOrder rules (all.withIdentity k)
  { all
    conflicts := .build (classes.flatMap (·.1)) true
    resolved := .empty
    ignored := .empty
    custom := .empty
    overwritten := .build (classes.flatMap (·.2)) true
    orphans := .build (all.files.flatMap fun file => lostIn modOrder (all.inFile file)) true }

end LoadOrder

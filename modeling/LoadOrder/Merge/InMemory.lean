import LoadOrder.Cache
import LoadOrder.Merge.Run

namespace LoadOrder

inductive Call
  | catalog (game : String)
  | purge (root path : String)
  | create (root path : String)
  | descriptor (root path : String) (descriptor : Mod)
  | patchState (root patch : String)
  | list (path : String)
  | copy (root file path : String)
  | export (path game : String) (definitions : List Definition)
  | progress (event : Event)

def Call.name : Call → String
  | .catalog _ => "catalog"
  | .purge _ _ => "purge"
  | .create _ _ => "create"
  | .descriptor _ _ _ => "descriptor"
  | .patchState _ _ => "patch_state"
  | .list _ => "list"
  | .copy _ _ _ => "copy"
  | .export _ _ _ => "export"
  | .progress _ => "progress"

/-- The request of one name that fails, after some that succeed. -/
structure Failure where
  call : String
  after : Nat
deriving DecidableEq, Repr

structure Memory where
  installed : List Mod
  state : Option PatchState
  files : List (String × List String)
  cache : Cache
  failure : Option Failure
  log : List Call

namespace Memory

/-- Writes a request down, and fails if it is the one that is to fail. -/
def request (call : Call) : ExceptT Error (StateM Memory) Unit := do
  let world ← get
  set { world with log := call :: world.log }
  match world.failure with
  | some ⟨name, after⟩ =>
    if name = call.name then
      if after = 0 then throw (.invalidConfig (name ++ " failed"))
      else modify fun world => { world with failure := some ⟨name, after - 1⟩ }
  | none => return

def collaborators : Collaborators (StateM Memory) where
  installed game := do
    request (.catalog game.key)
    return (← get).installed
  purge root path := request (.purge root path)
  createFolder root path := request (.create root path)
  writeDescriptor root path descriptor := request (.descriptor root path descriptor)
  patchState root patch := do
    request (.patchState root patch)
    return (← get).state
  listFiles path := do
    request (.list path)
    return ((← get).files.lookup path).getD []
  exportDefinitions path definitions game := request (.export path game definitions)
  exportFile root file path := request (.copy root file path)
  publish event := modify fun world => { world with log := .progress event :: world.log }
  listing game := do return ((← get).cache.get? game.cacheKey).bind Mod.listOfJson?
  storeListing game mods :=
    modify fun world =>
      { world with cache := world.cache.insert game.cacheKey (Mod.listToJson mods) }
  dropListing game :=
    modify fun world => { world with cache := world.cache.erase game.cacheKey }

end Memory

end LoadOrder

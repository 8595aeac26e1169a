import LoadOrder.Error
import LoadOrder.Merge.Plan

namespace LoadOrder

/-- What a merge needs of the world around it. Reports and the stored listing cannot fail. -/
structure Collaborators (m : Type → Type) where
  installed : Game → ExceptT Error m (List Mod)
  /-- removes a folder below the user directory -/
  purge : (root path : String) → ExceptT Error m Unit
  createFolder : (root path : String) → ExceptT Error m Unit
  writeDescriptor : (root path : String) → Mod → ExceptT Error m Unit
  /-- the stored decisions under a name, below the folder of the mods -/
  patchState : (root patch : String) → ExceptT Error m (Option PatchState)
  listFiles : (path : String) → ExceptT Error m (List String)
  exportDefinitions : (path : String) → List Definition → (game : String) → ExceptT Error m Unit
  /-- copies a file from one folder to the same place in another -/
  exportFile : (root file path : String) → ExceptT Error m Unit
  publish : Event → m Unit
  /-- the stored listing of a game's mods -/
  listing : Game → m (Option (List Mod))
  storeListing : Game → List Mod → m Unit
  dropListing : Game → m Unit

structure Target where
  descriptor : Mod
  exportPath : String
deriving DecidableEq, Repr

/-- The descriptor of the mod that a merge makes. -/
def Game.target (game : Game) (name : String) (installed : List Mod) : Target where
  descriptor := {
    name := name
    descriptorFile := modFolder ++ "/" ++ safeName name ++ descriptorEnding
    path := game.modDirectory (safeName name)
    version := highestVersion (installed.map (·.version))
    source := .onDisk
    dependencies := [] }
  exportPath := Path.join (Path.join game.userDirectory modFolder) (safeName name)

namespace Collaborators

variable {m : Type → Type} [Monad m] (c : Collaborators m)

/-- The installed mods of a game, from the stored listing if there is one. -/
def installedMods (game : Game) : ExceptT Error m (List Mod) := do
  match ← c.listing game with
  | some mods => return mods
  | none =>
    let mods ← c.installed game
    c.storeListing game mods
    return mods

/-- Removes what an earlier merge left, and writes the descriptor of the new mod. -/
def prepare (game : Game) (name : String) (installed : List Mod) : ExceptT Error m Target := do
  let root := game.userDirectory
  let path := modFolder ++ "/" ++ safeName name
  let target := game.target name installed
  c.purge root path
  c.createFolder root modFolder
  c.createFolder root path
  c.writeDescriptor root target.descriptor.descriptorFile target.descriptor
  c.dropListing game
  return target

def act (game : Game) (target : Target) : Action → ExceptT Error m Unit
  | .export d => c.exportDefinitions target.exportPath [d] game.key
  | .report e => c.publish e

/-- Merges a collection definition by definition into a new mod. Without a game, a collection or
definitions nothing is done. -/
def mergeDefinitions (rules : List Rules) (policy : DuplicatePolicy) (game : Option Game)
    (collection : Option Collection) (analysis : Analysis) (modOrder : List String)
    (name : String) : ExceptT Error m (Option Mod) := do
  match game, collection with
  | some game, some collection =>
    if analysis.all.isEmpty then return none
    let installed ← c.installedMods game
    let target ← c.prepare game name installed
    let state ← c.patchState (Path.join game.userDirectory modFolder) (patchName collection.name)
    let setting :=
      Setting.of analysis (state.getD .blank) modOrder (Rules.forGame? rules game.key) policy
    setting.actions.forM (c.act game target)
    return some target.descriptor
  | _, _ => return none

def copyFiles (target : Target) (source : Mod) : Tracker → List String → ExceptT Error m Tracker
  | t, [] => return t
  | t, file :: rest => do
    c.exportFile source.path file target.descriptor.path
    let (t, p) := t.advance 1
    if let some p := p then c.publish (.files 2 p)
    copyFiles target source t rest

def copyMods (target : Target) : Tracker → List (Mod × List String) → ExceptT Error m Unit
  | _, [] => return
  | t, (source, files) :: rest => do
    copyMods target (← c.copyFiles target source t files) rest

/-- Copies every file of a collection's mods that the game owns into a new mod. Without a game, a
collection, a name or an installed mod nothing is done. -/
def mergeFiles (game : Option Game) (collection : Option Collection) (name : String) :
    ExceptT Error m (Option Mod) := do
  match game, collection with
  | some game, some collection =>
    if Text.isBlankText name then return none
    let installed ← c.installedMods game
    let mods := collection.resolve installed
    if mods.isEmpty then return none
    let target ← c.prepare game name installed
    let mods := mods ++ (installed.find? (·.name == patchName collection.name)).toList
    c.publish (.files 1 0)
    let listed ← mods.mapM fun source => do
      return (source, (← c.listFiles source.path).filter game.owns)
    c.publish (.files 1 100)
    c.copyMods target (Tracker.start (listed.flatMap (·.2)).length 100) listed
    return some target.descriptor
  | _, _ => return none

end Collaborators

end LoadOrder

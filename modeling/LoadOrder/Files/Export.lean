import LoadOrder.Cache
import LoadOrder.Config
import LoadOrder.Files.Descriptor
import LoadOrder.Merge.Run

namespace LoadOrder

/-- Texts by the file they go to. Files are told apart and ordered by the components of their paths.
-/
abbrev Texts := List (String × String)

/-- Adds a text to a file's, on a line of its own. -/
def Texts.add (path text : String) : Texts → Texts
  | [] => [(path, text)]
  | (p, t) :: rest =>
    match compare (Path.components path) (Path.components p) with
    | .lt => (path, text) :: (p, t) :: rest
    | .eq =>
      let gap := if t = "" ∨ t.toList.getLast? = some '\n' then "" else "\n"
      (p, t ++ gap ++ text) :: rest
    | .gt => (p, t) :: add path text rest

namespace FileSystem

variable {m : Type → Type} [Monad m] (fs : FileSystem m)

/-- An operation whose failure has no more to tell. -/
def lift {α : Type} (act : ExceptT FileError m α) : ExceptT Error m α := ExceptT.adapt .file act

def ensureParent (path : String) : ExceptT Error m Unit :=
  match Path.parent? path with
  | some parent => lift (fs.createFolders parent)
  | none => return

/-- Copies a file and makes the folder for it. -/
def copyTo (source target : String) : ExceptT Error m Unit := do
  fs.ensureParent target
  ExceptT.adapt (.fileRead source) (fs.copy source target)

/-- Writes a file and makes the folder for it. -/
def writeTo (target text : String) : ExceptT Error m Unit := do
  fs.ensureParent target
  lift (fs.write target text)

/-- Copies the files among some definitions, and collects the texts of the others. -/
def collect (path : String) : Texts → List Definition → ExceptT Error m Texts
  | texts, [] => return texts
  | texts, d :: rest => do
    let target := Path.join path (Text.forwardSlashes d.file)
    if d.kind = .binary then
      fs.copyTo d.diskFile target
      collect path texts rest
    else collect path (texts.add target d.code) rest

def exportDefinitions (path : String) (definitions : List Definition) : ExceptT Error m Unit := do
  (← fs.collect path [] definitions).forM fun (target, text) => fs.writeTo target text

/-- Copies a file of a mod's folder to the same place below `path`. -/
def exportFile (root file path : String) : ExceptT Error m Unit :=
  let file := Text.forwardSlashes file
  fs.copyTo (Path.join root file) (Path.join path file)

/-- Removes a folder below `root`, if it is there. -/
def purge (root path : String) : ExceptT Error m Unit := do
  match ← (fs.removeFolder (Path.join root path)).run with
  | .ok () => return
  | .error .notFound => return
  | .error e => throw (.file e)

def createFolder (root path : String) : ExceptT Error m Unit :=
  lift (fs.createFolders (Path.join root path))

def writeDescriptor (root path : String) (descriptor : Mod) : ExceptT Error m Unit :=
  fs.writeTo (Path.join root path) descriptor.descriptorText

/-- The stored decisions under a name, if there are any. -/
def patchState (root patch : String) : ExceptT Error m (Option PatchState) := do
  let path := PatchState.file root patch
  match ← (fs.read path).run with
  | .error .notFound => return none
  | .error e => throw (.fileRead path e)
  | .ok text =>
    match PatchState.ofText? text with
    | some state => return some state
    | none => throw .json

/-- The stored decisions in a file, if it is there. -/
def loadPatchState (path : String) : ExceptT Error m (Option PatchState) := do
  if !(← fs.isThere path) then return none
  match PatchState.ofText? (← fs.readText path) with
  | some state => return some state
  | none => throw .json

/-- Stores decisions with the time they are stored at. -/
def savePatchState (path : String) (state : PatchState) (now : Timestamp) :
    ExceptT Error m PatchState := do
  let state := { state with updatedAt := some now }
  fs.writeTo path state.print
  return state

def loadConfig (path : String) : ExceptT Error m Config := do
  match Config.ofText (← fs.readText path) with
  | .ok config => return config
  | .error e => throw e

def saveConfig (path : String) (config : Config) : ExceptT Error m Unit :=
  lift (fs.write path config.print)

/-- An operation that leaves the cache as it is. -/
def keep {α : Type} (act : ExceptT Error m α) : ExceptT Error (StateT Cache m) α :=
  ExceptT.mk (StateT.lift act.run)

/-- The collaborators of a merge on a file system. Mods in `configured` count as installed. The
listing of the mods is kept in a cache. -/
def collaborators (configured : List Mod) : Collaborators (StateT Cache m) where
  installed game := keep (fs.installedMods game configured)
  purge root path := keep (fs.purge root path)
  createFolder root path := keep (fs.createFolder root path)
  writeDescriptor root path descriptor := keep (fs.writeDescriptor root path descriptor)
  patchState root patch := keep (fs.patchState root patch)
  listFiles path := keep (fs.modFiles path)
  exportDefinitions path definitions _ := keep (fs.exportDefinitions path definitions)
  exportFile root file path := keep (fs.exportFile root file path)
  publish _ := return
  listing game := do return ((← get).get? game.cacheKey).bind Mod.listOfJson?
  storeListing game mods := modify (·.insert game.cacheKey (Mod.listToJson mods))
  dropListing game := modify (·.erase game.cacheKey)

end FileSystem

end LoadOrder

import LoadOrder.Definition.Extract
import LoadOrder.Definition.Index
import LoadOrder.FileSystem
import LoadOrder.Mod

namespace LoadOrder

/-- Endings of script files. All other files are copied as they are. -/
def scriptEndings : List String := ["txt", "gui", "gfx", "asset"]

def isScript (file : String) : Bool :=
  (Path.extension? file).any fun ending => scriptEndings.any (Text.sameIgnoringCase · ending)

/-- The descriptor at the root of a mod, which is not part of its content. -/
def isDescriptor (file : String) : Bool := Text.sameIgnoringCase file "descriptor.mod"

namespace FileSystem

variable {m : Type → Type} [Monad m] (fs : FileSystem m)

/-- The text of a file that has to be there. -/
def readText (path : String) : ExceptT Error m String :=
  ExceptT.adapt (.fileRead path) (fs.read path)

/-- The files of a mod in order, relative to its folder. -/
def modFiles (path : String) : ExceptT Error m (List String) := do
  let files ← ExceptT.adapt (fun (path, cause) => .walk path cause) (fs.filesBelow path)
  return ((files.map Text.forwardSlashes).filter fun file => !isDescriptor file).mergeSort
    fun a b => a ≤ b

/-- A file counts as content of a game's mods. A game without folders takes every file. -/
def considers (game : Game) (file : String) : Bool := game.folders.isEmpty || game.owns file

/-- The definitions of one file of a mod. A script with a fault has none. -/
def scanFile (source : Mod) (rules : Option Rules) (file : String) :
    ExceptT Error m (List Definition) := do
  let path := Path.join source.path file
  if !isScript file then return [Definition.ofFile file path source.name]
  let text ← fs.readText path
  let source : Source := {
    file
    diskFile := path
    modName := source.name
    dependencies := source.dependencies
    lines := Text.linesOf text
    tagged := rules.any (·.isTagged file) }
  match source.definitions with
  | .ok definitions => return definitions
  | .error _ => return []

def scanMod (game : Game) (source : Mod) (rules : Option Rules) :
    ExceptT Error m (List Definition) := do
  let files ← fs.modFiles source.path
  return (← (files.filter (considers game)).mapM (fs.scanFile source rules)).flatten

/-- The definitions of some mods in load order, indexed. -/
def scanMods (game : Game) (mods : List Mod) (rules : Option Rules) : ExceptT Error m Index := do
  return Index.build (← mods.mapM fun source => fs.scanMod game source rules).flatten false

def readScript (path : String) : ExceptT Error m Script.File := do
  match Script.File.ofText path (← fs.readText path) with
  | .ok file => return file
  | .error e => throw (.script path e)

end FileSystem

end LoadOrder

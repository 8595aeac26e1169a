import LoadOrder.Files.Scan

namespace LoadOrder

def Mod.descriptorText (m : Mod) : String :=
  "name=\"" ++ m.name ++ "\"\npath=\"" ++ Text.forwardSlashes m.path ++ "\"\nversion=\"" ++
    m.version ++ "\"\n" ++
    if m.dependencies.isEmpty then ""
    else
      "dependencies=\x7b\n\t" ++ Text.join "\n\t" (m.dependencies.map fun d => "\"" ++ d ++ "\"") ++
        "\n\x7d\n"

def Mod.ofDescriptor (game : Game) (file : String) (script : Script.File) : Mod :=
  let value := fun key => (Script.findValue? script.children key).getD ""
  { name := value "name"
    descriptorFile := modFolder ++ "/" ++ file
    path := Path.join game.userDirectory (value "path")
    version := value "version"
    source := .onDisk
    dependencies :=
      match Script.findClause? script.children "dependencies" with
      | some (_, children, _) => children.filterMap fun
        | .value value _ => some value
        | _ => none
      | none => [] }

namespace FileSystem

variable {m : Type → Type} [Monad m] (fs : FileSystem m)

def readDescriptor (game : Game) (path : String) : ExceptT Error m Mod := do
  let text ← fs.readText path
  let file := (Path.fileName? path).getD ""
  match Script.File.ofText file text with
  | .ok script => return Mod.ofDescriptor game file script
  | .error e => throw (.script file e)

/-- The mods of some descriptor files, after others that go first. A file that cannot be read, or
without a name or with one that is there already, does not count. -/
def readDescriptors (game : Game) : List Mod → List String → m (List Mod)
  | mods, [] => return mods
  | mods, path :: rest => do
    match ← fs.readDescriptor game path with
    | .ok found =>
      if found.name = "" ∨ mods.any (·.name == found.name) then
        readDescriptors game mods rest
      else readDescriptors game (mods ++ [found]) rest
    | .error _ => readDescriptors game mods rest

/-- The installed mods of a game: the configured ones, and those with a descriptor. -/
def installedMods (game : Game) (configured : List Mod) : ExceptT Error m (List Mod) := do
  let folder := Path.join game.userDirectory modFolder
  if !(← fs.isFolder folder) then return configured
  let names ← ExceptT.adapt .file (fs.names folder)
  let named := names.filter fun name => descriptorEnding.toList.isSuffixOf name.toList
  let paths := (named.mergeSort fun a b => a ≤ b).map (Path.join folder)
  let files ← paths.filterM fun path => fs.isFile path
  fs.readDescriptors game configured files

end FileSystem

end LoadOrder

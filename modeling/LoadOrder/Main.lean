import LoadOrder.CommandLine.Run

namespace LoadOrder

/-- The number of a failure, which the system gives with either sign. -/
def isCode (number code : UInt32) : Bool := code == number || code == -number

def FileError.ofSystem : IO.Error → FileError
  | .noFileOrDirectory _ _ _ => .notFound
  | .noSuchThing _ _ _ => .notFound
  | .alreadyExists _ _ _ => .alreadyThere
  | .inappropriateType _ code _ => if isCode 21 code then .isFolder else .notFolder
  | .unsatisfiedConstraints _ _ => .notEmpty
  | .invalidArgument _ code _ => if isCode 36 code then .nameTooLong else .invalidPath
  | e => .other (toString e)

def attempt {α : Type} (path : String) (act : IO α) : ExceptT FileError IO α := do
  if Path.hasNul path then throw .nulInPath
  match ← (act.toBaseIO : BaseIO _) with
  | .ok a => return a
  | .error e => throw (.ofSystem e)

def placeOf (path : String) : IO.FS.DirEntry := ⟨path, ""⟩

def kindAt (path : String) : ExceptT FileError IO IO.FS.FileType := do
  return (← attempt path (placeOf path).root.metadata).type

/-- What is at a path, if it is there. -/
def kindAt? (path : String) : IO (Option IO.FS.FileType) := do
  return (← (kindAt path).run).toOption

def namesIn (folder : String) : ExceptT FileError IO (List String) := do
  return (← attempt folder (placeOf folder).root.readDir).toList.map (·.fileName)

/-- The files below a folder by the names that lead to them, after the names in `before`. -/
partial def filesOnDisk (folder before : String) :
    ExceptT (String × FileError) IO (List String) := do
  let mut files : List String := []
  for name in ← ExceptT.adapt (folder, ·) (namesIn folder) do
    let path := Path.join folder name
    if (← kindAt? path) == some .dir then
      files := files ++ (← filesOnDisk path (before ++ name ++ "/"))
    else files := files ++ [before ++ name]
  return files

def machine : FileSystem IO where
  read path := do
    match String.fromUTF8? (← attempt path (IO.FS.readBinFile path)) with
    | some text => return text
    | none => throw .notText
  write path text := attempt path (IO.FS.writeFile path text)
  createFolders path := if path = "" then return else attempt path (IO.FS.createDirAll path)
  removeFolder path := do
    let _ ← namesIn path
    attempt path (IO.FS.removeDirAll path)
  copy source target := do
    if (← kindAt source) == .dir then throw .notRegular
    let bytes ← attempt source (IO.FS.readBinFile source)
    attempt target (IO.FS.writeBinFile target bytes)
  filesBelow path := do
    if (← ExceptT.adapt (path, ·) (kindAt path)) == .dir then filesOnDisk path "" else return [""]
  names path := namesIn path
  isFile path := do return (← kindAt? path) == some .file
  isFolder path := do return (← kindAt? path) == some .dir
  isThere path := do return (← kindAt? path).isSome

end LoadOrder

def main (arguments : List String) : IO UInt32 := do
  let outcome ← LoadOrder.CommandLine.run LoadOrder.machine arguments
  IO.print outcome.out
  IO.eprint outcome.err
  return outcome.code.toUInt32

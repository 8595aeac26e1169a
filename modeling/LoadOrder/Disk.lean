import LoadOrder.FileSystem
import LoadOrder.Path
import LoadOrder.Text.Blank

namespace LoadOrder

/-- What a file holds: a text, or bytes that are none. -/
inductive Content
  | text (text : String)
  | bytes (bytes : List UInt8)
deriving DecidableEq, Repr

inductive DiskEntry
  | folder
  | file (content : Content)
deriving DecidableEq, Repr

/-- The names that lead from the root to an entry. -/
abbrev Place := List String

structure Disk where
  /-- the folder in which relative paths begin -/
  current : Place
  /-- every entry but the root, each place at most once -/
  entries : List (Place × DiskEntry)
deriving Repr

namespace Disk

/-- A disk with nothing but the folders that lead to the current one. -/
def empty (current : Place) : Disk :=
  ⟨current, (List.range current.length).map fun n => (current.take (n + 1), .folder)⟩

def entry? (d : Disk) (place : Place) : Option DiskEntry :=
  if place = [] then some .folder else d.entries.lookup place

def put (d : Disk) (place : Place) (entry : DiskEntry) : Disk :=
  { d with entries := (place, entry) :: d.entries.filter (·.1 != place) }

/-- Removes all entries at and below a place. -/
def prune (d : Disk) (place : Place) : Disk :=
  { d with entries := d.entries.filter fun (p, _) => !place.isPrefixOf p }

/-- Where a piece of a path leads. -/
def step (place : Place) (piece : String) : Place :=
  if piece = "" ∨ piece = "." then place
  else if piece = ".." then place.dropLast
  else place ++ [piece]

def maxName : Nat := 255

def maxPath : Nat := 4095

/-- Follows a path. Every place but the last has to be a folder, and every name short enough to be
looked up in its folder. -/
def follow (d : Disk) : Place → List String → Except FileError Place
  | place, [] => .ok place
  | place, piece :: rest =>
    match d.entry? place with
    | none => .error .notFound
    | some (.file _) => .error .notFolder
    | some .folder =>
      if maxName < piece.utf8ByteSize then .error .nameTooLong
      else d.follow (step place piece) rest

def pieces (path : String) : List String :=
  (Text.split (· == '/') path.toList).map String.ofList

def origin (d : Disk) (path : String) : Place := if Path.isAbsolute path then [] else d.current

/-- What keeps a path from leading anywhere, whatever is on the disk. -/
def pathFault? (path : String) : Option FileError :=
  if Path.hasNul path then some .nulInPath
  else if path = "" then some .notFound
  else if maxPath < path.utf8ByteSize then some .nameTooLong
  else none

/-- Follows the pieces of a path from where it begins. -/
def followPath (d : Disk) (path : String) (pieces : List String) : Except FileError Place :=
  match pathFault? path with
  | some fault => .error fault
  | none => d.follow (d.origin path) pieces

/-- The place that a path leads to, which may be free. -/
def locate (d : Disk) (path : String) : Except FileError Place := d.followPath path (pieces path)

/-- The place and entry that a path leads to. -/
def find (d : Disk) (path : String) : Except FileError (Place × DiskEntry) := do
  let place ← d.locate path
  match d.entry? place with
  | some entry => return (place, entry)
  | none => throw .notFound

/-- The path without slashes at its end, in pieces. -/
def piecesToNew (path : String) : List String :=
  (pieces (String.ofList (Text.dropEndWhile (· == '/') path.toList)))

/-- The place where a path may make an entry. -/
def locateNew (d : Disk) (path : String) : Except FileError Place :=
  d.followPath path (piecesToNew path)

/-- The place where a path may make or replace a file. A slash at the end tells of a folder, whose
name is not looked up. -/
def locateFile (d : Disk) (path : String) : Except FileError Place := do
  if path.toList.getLast? = some '/' then
    let _ ← d.followPath path ((piecesToNew path).dropLast ++ [""])
    throw .isFolder
  let place ← d.locateNew path
  if d.entry? place = some .folder then throw .isFolder
  return place

def read (d : Disk) (path : String) : Except FileError String := do
  match ← d.find path with
  | (_, .file (.text text)) => return text
  | (_, .file (.bytes _)) => throw .notText
  | (_, .folder) => throw .isFolder

def write (d : Disk) (path : String) (content : Content) : Except FileError Disk := do
  return d.put (← d.locateFile path) (.file content)

def createFolder (d : Disk) (path : String) : Except FileError Disk := do
  let place ← d.locateNew path
  match d.entry? place with
  | some _ => throw .alreadyThere
  | none => return d.put place .folder

def isFolder (d : Disk) (path : String) : Bool :=
  match d.find path with
  | .ok (_, .folder) => true
  | _ => false

def isFile (d : Disk) (path : String) : Bool :=
  match d.find path with
  | .ok (_, .file _) => true
  | _ => false

def isThere (d : Disk) (path : String) : Bool :=
  match d.find path with
  | .ok _ => true
  | .error _ => false

/-- A path and the paths of its ancestors, up to the root or the empty path. -/
def lineage (path : String) : List String :=
  let components := Path.components path
  let least := if Path.isAbsolute path then 1 else 0
  path :: ((List.range components.length).filter (least ≤ ·)).reverse.map fun n =>
    Path.ofComponents (components.take n)

/-- The disk with the first folder of a lineage. Ancestors that are missing are made before it, and
stay even if the folder cannot be made. -/
def createLineage (d : Disk) : List String → Disk × Except FileError Unit
  | [] => (d, .error (.other "failed to create whole tree"))
  | "" :: _ => (d, .ok ())
  | path :: ancestors =>
    let finish (d : Disk) : Disk × Except FileError Unit :=
      match d.createFolder path with
      | .ok d => (d, .ok ())
      | .error e => (d, if d.isFolder path then .ok () else .error e)
    match d.createFolder path with
    | .ok d => (d, .ok ())
    | .error .notFound =>
      match d.createLineage ancestors with
      | (d, .ok ()) => finish d
      | (d, .error e) => (d, .error e)
    | .error _ => finish d

def createFolders (d : Disk) (path : String) : Disk × Except FileError Unit :=
  d.createLineage (lineage path)

/-- The disk without the content of a folder, or without the folder itself: the folder goes last, by
a path that has to lead to it still and that must not end in `.` or `..`. -/
def removeFolder (d : Disk) (path : String) : Disk × Except FileError Unit :=
  match d.find path with
  | .error e => (d, .error e)
  | .ok (_, .file _) => (d, .error .notFolder)
  | .ok (place, .folder) =>
    let emptied := (d.prune place).put place .folder
    match emptied.locateNew path, (piecesToNew path).getLast? with
    | .error e, _ => (emptied, .error e)
    | .ok _, some "." => (emptied, .error .invalidPath)
    | .ok _, some ".." => (emptied, .error .notEmpty)
    | .ok _, _ => (d.prune place, .ok ())

def copy (d : Disk) (source target : String) : Except FileError Disk := do
  match ← d.find source with
  | (_, .folder) => throw .notRegular
  | (place, .file content) =>
    let copied ← d.locateFile target
    return d.put copied (.file (if copied = place then .text "" else content))

/-- The entries below a place, by the names that lead from it to them. -/
def below (d : Disk) (place : Place) : List (Place × DiskEntry) :=
  d.entries.filterMap fun (p, entry) =>
    match place.isPrefixOf? p with
    | some names => if names = [] then none else some (names, entry)
    | none => none

/-- The files below a folder, relative to it. Every folder on the way is entered by its whole path.
-/
def filesBelow (d : Disk) (path : String) : Except (String × FileError) (List String) := do
  match d.find path with
  | .error cause => throw (path, cause)
  | .ok (_, .file _) => return [""]
  | .ok (place, .folder) =>
    let folders := (d.below place).filterMap fun
      | (names, .folder) => some (names.foldl Path.join path)
      | (_, .file _) => none
    let faults := (folders.mergeSort (· ≤ ·)).filterMap fun folder =>
      (pathFault? folder).map (folder, ·)
    match faults with
    | fault :: _ => throw fault
    | [] =>
      return (d.below place).filterMap fun
        | (names, .file _) => some (Text.join "/" names)
        | (_, .folder) => none

/-- The files and the folders without entries at and below a path, by path. -/
def listing (d : Disk) (path : String) : List (String × Option Content) :=
  match d.find path with
  | .error _ => []
  | .ok (_, .file content) => [(path, some content)]
  | .ok (place, .folder) =>
    let isEmpty := fun (place : Place) => (d.below place).isEmpty
    let entries := (d.below place).filterMap fun
      | (names, .file content) => some (names.foldl Path.join path, some content)
      | (names, .folder) =>
        if isEmpty (place ++ names) then some (names.foldl Path.join path, none) else none
    let self := if isEmpty place then [(path, none)] else []
    (self ++ entries).mergeSort fun a b => a.1 ≤ b.1

def names (d : Disk) (path : String) : Except FileError (List String) := do
  match ← d.find path with
  | (_, .file _) => throw .notFolder
  | (place, .folder) =>
    return (d.below place).filterMap fun
      | ([name], _) => some name
      | _ => none

def change (f : Disk → Except FileError Disk) : ExceptT FileError (StateM Disk) Unit := do
  match f (← get) with
  | .ok d => set d
  | .error e => throw e

/-- Takes over the disk that an operation leaves, whether it fails or not. -/
def changeAlways (f : Disk → Disk × Except FileError Unit) :
    ExceptT FileError (StateM Disk) Unit := do
  let (d, result) := f (← get)
  set d
  match result with
  | .ok () => return
  | .error e => throw e

def ask {ε α : Type} (f : Disk → Except ε α) : ExceptT ε (StateM Disk) α := do
  match f (← get) with
  | .ok a => return a
  | .error e => throw e

def system : FileSystem (StateM Disk) where
  read path := ask (·.read path)
  write path text := change (·.write path (.text text))
  createFolders path := changeAlways (·.createFolders path)
  removeFolder path := changeAlways (·.removeFolder path)
  copy source target := change (·.copy source target)
  filesBelow path := ask (·.filesBelow path)
  names path := ask (·.names path)
  isFile path := do return (← get).isFile path
  isFolder path := do return (← get).isFolder path
  isThere path := do return (← get).isThere path

end Disk

end LoadOrder

import LoadOrder.Text.LowerCase
import LoadOrder.Text.Pieces
import LoadOrder.Path

namespace LoadOrder

inductive Kind
  | object
  | variable
  | namespace
  /-- a file that is copied as it is -/
  | binary
  /-- the mark of a script file without statements -/
  | emptyFile
deriving DecidableEq, Repr, Inhabited

namespace Kind

def all : List Kind := [object, .variable, .namespace, binary, emptyFile]

def name : Kind → String
  | object => "Object"
  | .variable => "Variable"
  | .namespace => "Namespace"
  | binary => "Binary"
  | emptyFile => "EmptyFile"

/-- Variables and namespaces only exist for the sake of objects. -/
def isSupport : Kind → Bool
  | .variable => true
  | .namespace => true
  | _ => false

end Kind

structure Definition where
  id : String
  /-- the folder it is defined in, with the tag of its block -/
  type : String
  kind : Kind
  file : String
  diskFile : String
  modName : String
  code : String
  /-- the code as it was read, up to renamed variables -/
  originalCode : String
  /-- key of the enclosing block, empty at the top level -/
  codeTag : String
  codeSeparator : String
  /-- place among the definitions of the file, from one -/
  order : Nat
  scope : List Definition
  /-- mods that the owning mod depends on -/
  dependencies : List String
deriving BEq, Repr, Inhabited

namespace Definition

def blank : Definition := ⟨"", "", .object, "", "", "", "", "", "", "", 0, [], []⟩

/-- What the same object of several mods has in common. -/
def identity (d : Definition) : String := Text.lowercase (d.type ++ "-" ++ d.id)

def fileKey (d : Definition) : String := Text.lowercase d.file

def isSupport (d : Definition) : Bool := d.kind.isSupport

def hasVariables (d : Definition) : Bool := !d.scope.isEmpty

end Definition

/-- The folder of a file in small letters: what stands before the last slash. -/
def folderType (file : String) : String :=
  let chars := (Text.forwardSlashes file).toList
  if chars.contains '/' then
    Text.lowercase (String.ofList ((chars.reverse.dropWhile (· != '/')).drop 1).reverse)
  else ""

def fileName (file : String) : String :=
  let path := Text.forwardSlashes file
  (Path.fileName? path).getD path

def Definition.ofFile (file diskFile modName : String) : Definition :=
  { Definition.blank with
    id := fileName file
    type := folderType file
    kind := .binary
    file, diskFile, modName
    order := 1 }

def onlySupport (definitions : List Definition) : Bool := definitions.all Definition.isSupport

end LoadOrder

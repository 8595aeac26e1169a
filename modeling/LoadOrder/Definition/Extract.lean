import LoadOrder.Script.Read
import LoadOrder.Definition

namespace LoadOrder

/-- A script file of a mod that definitions are read from. -/
structure Source where
  file : String
  diskFile : String
  modName : String
  dependencies : List String
  lines : List String
  /-- top-level blocks are tags, and their elements are the definitions -/
  tagged : Bool
deriving Repr

/-- What an element contributes before the file is known: the tag is empty at the top level. -/
structure Entry where
  id : String
  kind : Kind
  code : String
  tag : String
  separator : String
deriving DecidableEq, Repr

namespace Entry

def isVariableName (key : String) : Bool := key.toList.head? == some '@'

/-- The entry of an element at the top level. -/
def ofTop (node : Script.Node) : Entry :=
  let code := node.code.getD ""
  match node with
  | .pair key value _ =>
    if isVariableName key then ⟨key, .variable, code, "", ""⟩
    else if Text.sameIgnoringCase key "namespace" then ⟨value, .namespace, code, "", ""⟩
    else ⟨key, .object, code, "", ""⟩
  | .clause key _ children => ⟨(Script.findValue? children "id").getD key, .object, code, "", ""⟩
  | .value value _ => ⟨value, .object, code, "", ""⟩

/-- The entry of an element in the block of a tag. -/
def ofTagged (tag : String) (node : Script.Node) : Entry :=
  let code := node.code.getD ""
  match node with
  | .pair key _ _ => ⟨key, if isVariableName key then .variable else .object, code, tag, "\x7b"⟩
  | .clause key _ _ => ⟨key, .object, code, tag, "\x7b"⟩
  | .value value _ => ⟨value, .object, code, tag, "\x7b"⟩

def ofNodes (tagged : Bool) (nodes : List Script.Node) : List Entry :=
  nodes.flatMap fun
    | .clause key code children =>
      if tagged then children.map (ofTagged key) else [ofTop (.clause key code children)]
    | node => [ofTop node]

end Entry

namespace Source

/-- An entry as a definition of the file at a place. -/
def definition (source : Source) (entry : Entry) (order : Nat) : Definition where
  id := entry.id
  type :=
    if entry.separator = "" then folderType source.file
    else folderType source.file ++ "-" ++ entry.tag
  kind := entry.kind
  file := source.file
  diskFile := source.diskFile
  modName := source.modName
  code := entry.code
  originalCode := entry.code
  codeTag := entry.tag
  codeSeparator := entry.separator
  order := order
  scope := []
  dependencies := source.dependencies

/-- The definitions of the entries in order. A file without any is marked as empty. -/
def number (source : Source) (entries : List Entry) : List Definition :=
  let entries :=
    if entries.isEmpty then [⟨fileName source.file, .emptyFile, "", "", ""⟩] else entries
  entries.zipIdx.map fun (entry, i) => source.definition entry (i + 1)

end Source

/-- A variable or namespace is in scope at the top level or in the block of its tag. -/
def Definition.inScope (support d : Definition) : Bool :=
  support.codeTag = "" || Text.sameIgnoringCase support.codeTag d.codeTag

/-- Every object gets the variables and namespaces in its scope. -/
def attachVariables (definitions : List Definition) : List Definition :=
  let support := definitions.filter Definition.isSupport
  definitions.map fun d =>
    if d.isSupport then d else { d with scope := support.filter (·.inScope d) }

def Source.definitions (source : Source) : Except Script.SyntaxError (List Definition) :=
  (Script.File.ofLines source.file source.lines).map fun file =>
    attachVariables (source.number (Entry.ofNodes source.tagged file.children))

end LoadOrder

import LoadOrder.Text.Blank
import LoadOrder.Definition

namespace LoadOrder

/-- Which of several files that define an identity decides. -/
inductive SourceOrder
  | first
  | last
deriving DecidableEq, Repr

structure Rules where
  /-- whether the rules are those of a game -/
  covers : (game : String) → Bool
  /-- which file decides about a definition; none if load order does -/
  orderFor : Definition → Option SourceOrder
  /-- whether `file` keeps its definitions in blocks of tags -/
  isTagged : (file : String) → Bool

/-- One of the folders is the file, or an ancestor of it. -/
def underAny (folders : List String) (file : String) : Bool :=
  let file := (Text.lowercase (Text.forwardSlashes file)).toList
  folders.any fun folder =>
    let folder := Text.dropEndWhile (· == '/') (Text.lowercase (Text.forwardSlashes folder)).toList
    folder != [] && (file == folder || (folder ++ ['/']).isPrefixOf file)

structure FolderRules where
  game : String
  firstFolders : List String
  lastFolders : List String
  taggedFolders : List String
deriving DecidableEq, Repr

def FolderRules.rules (r : FolderRules) : Rules where
  covers game := Text.sameIgnoringCase r.game game
  orderFor d :=
    if underAny r.firstFolders d.file then some .first
    else if underAny r.lastFolders d.file then some .last
    else none
  isTagged file := underAny r.taggedFolders file

namespace Rules

/-- Rules for every game that always answer the same and know no tags. -/
def constant (order : Option SourceOrder) : Rules where
  covers _ := true
  orderFor _ := order
  isTagged _ := false

/-- What the rules say of an object of which only the file is known. -/
def sourceOrder (rules : Rules) (file : String) : Option SourceOrder :=
  rules.orderFor { Definition.blank with file }

def prefersFirst (rules : Rules) (file : String) : Bool := rules.sourceOrder file == some .first

def forGame? (all : List Rules) (game : String) : Option Rules := all.find? (·.covers game)

end Rules

end LoadOrder

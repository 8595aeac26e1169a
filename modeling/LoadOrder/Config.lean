import LoadOrder.Error
import LoadOrder.Json.Parse
import LoadOrder.Json.Print
import LoadOrder.Mod

namespace LoadOrder

/-- What happens to an identity that one mod ships in several files. -/
inductive DuplicatePolicy
  | oncePerIdentity
  /-- it is exported into every file that has it -/
  | oncePerFile
deriving DecidableEq, Repr

def DuplicatePolicy.all : List DuplicatePolicy := [oncePerIdentity, oncePerFile]

def DuplicatePolicy.name : DuplicatePolicy → String
  | oncePerIdentity => "OncePerIdentity"
  | oncePerFile => "OncePerFile"

namespace Config

structure GameSection where
  key : String
  userDirectory : String
  /-- where relative paths of mods begin, if not in the user directory -/
  modDirectory : Option String
  folders : List String
  firstFolders : List String
  lastFolders : List String
  taggedFolders : List String
deriving DecidableEq, Repr

structure ModSection where
  name : String
  path : String
  version : String
  dependencies : List String
deriving DecidableEq, Repr

/-- The collection of a configuration, its mods in load order. -/
structure CollectionSection where
  name : String
  mods : List ModSection
deriving DecidableEq, Repr

end Config

structure Config where
  game : Config.GameSection
  collection : Config.CollectionSection
  duplicatePolicy : DuplicatePolicy
deriving DecidableEq, Repr

namespace Config

def GameSection.toJson (g : GameSection) : Json :=
  .object [("key", .text g.key), ("user_directory", .text g.userDirectory),
    ("mod_directory", g.modDirectory.elim .null .text), ("game_folders", Json.ofTexts g.folders),
    ("fios_paths", Json.ofTexts g.firstFolders), ("lios_paths", Json.ofTexts g.lastFolders),
    ("tagged_paths", Json.ofTexts g.taggedFolders)]

def ModSection.toJson (m : ModSection) : Json :=
  .object [("name", .text m.name), ("path", .text m.path), ("version", .text m.version),
    ("dependencies", Json.ofTexts m.dependencies)]

def CollectionSection.toJson (c : CollectionSection) : Json :=
  .object [("name", .text c.name), ("mods", .array (c.mods.map ModSection.toJson))]

def toJson (c : Config) : Json :=
  .object [("game", c.game.toJson), ("collection", c.collection.toJson),
    ("duplicate_policy", .text c.duplicatePolicy.name)]

def GameSection.ofJson? (room : Nat) (j : Json) : Option GameSection := do
  match ← Json.fields? room ["key", "user_directory", "mod_directory", "game_folders",
    "fios_paths", "lios_paths", "tagged_paths"] j with
  | [key, userDirectory, modDirectory, folders, firstFolders, lastFolders, taggedFolders] =>
    let text := Json.fieldOr? "" Json.text?
    let texts := Json.fieldOr? [] (Json.texts? (room - 1))
    return {
      key := ← text key
      userDirectory := ← text userDirectory
      modDirectory := ← Json.fieldOr? none (Json.option? Json.text?) modDirectory
      folders := ← texts folders
      firstFolders := ← texts firstFolders
      lastFolders := ← texts lastFolders
      taggedFolders := ← texts taggedFolders }
  | _ => none

def ModSection.ofJson? (room : Nat) (j : Json) : Option ModSection := do
  match ← Json.fields? room ["name", "path", "version", "dependencies"] j with
  | [name, path, version, dependencies] =>
    let text := Json.fieldOr? "" Json.text?
    return {
      name := ← text name
      path := ← text path
      version := ← text version
      dependencies := ← Json.fieldOr? [] (Json.texts? (room - 1)) dependencies }
  | _ => none

def CollectionSection.ofJson? (room : Nat) (j : Json) : Option CollectionSection := do
  match ← Json.fields? room ["name", "mods"] j with
  | [name, mods] =>
    return {
      name := ← Json.fieldOr? "" Json.text? name
      mods := ← Json.fieldOr? [] (Json.list? (room - 1) (ModSection.ofJson? (room - 2))) mods }
  | _ => none

/-- Reads a configuration. Game and collection have to be there. -/
def ofJson? (room : Nat) (j : Json) : Option Config := do
  match ← Json.fields? room ["game", "collection", "duplicate_policy"] j with
  | [some game, some collection, policy] =>
    return {
      game := ← GameSection.ofJson? (room - 1) game
      collection := ← CollectionSection.ofJson? (room - 1) collection
      duplicatePolicy := ← Json.fieldOr? .oncePerIdentity
        (Json.constant? (room - 1) DuplicatePolicy.name DuplicatePolicy.all) policy }
  | _ => none

/-- The first fault of some mods, of which the first is number `i`; `before` are the names of those
before. -/
def modsFault? (before : List String) (i : Nat) : List ModSection → Option String
  | [] => none
  | m :: rest =>
    if Text.isBlankText m.name then some ("collection.mods[" ++ toString i ++ "] has no name")
    else if before.contains m.name then some ("mod '" ++ m.name ++ "' is listed twice")
    else modsFault? (m.name :: before) (i + 1) rest

def fault? (c : Config) : Option String :=
  if Text.isBlankText c.game.key then some "game.key is empty"
  else if Text.isBlankText c.collection.name then some "collection.name is empty"
  else modsFault? [] 0 c.collection.mods

def print (c : Config) : String := c.toJson.print

/-- The configuration that a text is, if a merge can run with it. -/
def ofText (text : String) : Except Error Config :=
  match (Json.parse? text).bind (ofJson? Json.maxRoom) with
  | none => .error .json
  | some c =>
    match c.fault? with
    | some fault => .error (.invalidConfig fault)
    | none => .ok c

def template : Config where
  game := {
    key := "stellaris"
    userDirectory := "/path/to/Paradox Interactive/Stellaris"
    modDirectory := none
    folders := ["common", "events", "gfx", "interface", "localisation"]
    firstFolders := ["common/scripted_effects"]
    lastFolders := []
    taggedFolders := ["common/defines"] }
  collection := { name := "My Collection", mods := [⟨"First Mod", "mod/first_mod", "1.0", []⟩] }
  duplicatePolicy := .oncePerIdentity

def toGame (c : Config) : Game := ⟨c.game.key, c.game.userDirectory, c.game.folders⟩

def toCollection (c : Config) : Collection := ⟨c.collection.name, c.collection.mods.map (·.name)⟩

def folderRules (c : Config) : FolderRules :=
  ⟨c.game.key, c.game.firstFolders, c.game.lastFolders, c.game.taggedFolders⟩

def installed (c : Config) : List Mod :=
  c.collection.mods.map fun m => {
    name := m.name
    descriptorFile := ""
    path := Path.join (c.game.modDirectory.getD c.game.userDirectory) m.path
    version := m.version
    source := .onDisk
    dependencies := m.dependencies }

end Config

end LoadOrder

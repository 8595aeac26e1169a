import LoadOrder.Text.Blank
import LoadOrder.Rules
import LoadOrder.Path

namespace LoadOrder

structure Game where
  key : String
  /-- the folder that holds the folder of the mods -/
  userDirectory : String
  /-- the folders of a mod that carry content -/
  folders : List String
deriving DecidableEq, Repr

/-- A file of a mod lies in one of the folders that carry content. -/
def Game.owns (game : Game) (file : String) : Bool := underAny game.folders file

inductive ModSource
  | onDisk
  | steam
  | paradox
deriving DecidableEq, Repr

def ModSource.all : List ModSource := [onDisk, steam, paradox]

def ModSource.name : ModSource → String
  | onDisk => "Local"
  | steam => "Steam"
  | paradox => "Paradox"

structure Mod where
  name : String
  /-- the descriptor, relative to the user directory -/
  descriptorFile : String
  path : String
  version : String
  source : ModSource
  dependencies : List String
deriving DecidableEq, Repr

def Mod.blank : Mod := ⟨"", "", "", "", .onDisk, []⟩

structure Collection where
  name : String
  mods : List String
deriving DecidableEq, Repr

/-- The installed mods of a collection in load order; of several with one name the first. -/
def Collection.resolve (collection : Collection) (installed : List Mod) : List Mod :=
  collection.mods.filterMap fun name => installed.find? (·.name == name)

/-- The folder of the mods, in the user directory. -/
def modFolder : String := "mod"

def descriptorEnding : String := ".mod"

def Game.modDirectory (game : Game) (name : String) : String :=
  Path.join (Path.join game.userDirectory modFolder) name

/-- Characters that some system does not admit in the name of a file. -/
def isForbidden (c : Char) : Bool :=
  Text.isControl c || c == '<' || c == '>' || c == ':' || c == '"' || c == '/' || c == '\\' ||
    c == '|' || c == '?' || c == '*'

def safeChars (name : List Char) : List Char :=
  Text.dropEndWhile (· == '.') (Text.trim (name.filter fun c => !isForbidden c))

def safeName (name : String) : String := String.ofList (safeChars name.toList)

/-- The name of the mod that keeps the decisions about a collection. -/
def patchName (collection : String) : String := "pdx_merge_" ++ safeName collection

/-- A part of a version as a number. What is not a number below 2 ^ 64 counts as zero. -/
def versionPart (part : List Char) : Nat :=
  let part := Text.trim part
  let digits := if part.head? = some '+' then part.tail else part
  if digits ≠ [] ∧ digits.all Char.isDigit then
    let n := digits.foldl (fun n c => 10 * n + (c.toNat - '0'.toNat)) 0
    if n < Nat.pow 2 64 then n else 0
  else 0

def versionNumbers (version : String) : List Nat :=
  (Text.split (· == '.') (version.toList.dropWhile fun c => c == 'v' || c == 'V')).map versionPart

def compareNumbers : List Nat → List Nat → Ordering
  | [], [] => .eq
  | a :: as, [] => (compare a 0).then (compareNumbers as [])
  | [], b :: bs => (compare 0 b).then (compareNumbers [] bs)
  | a :: as, b :: bs => (compare a b).then (compareNumbers as bs)

def compareVersions (a b : String) : Ordering :=
  compareNumbers (versionNumbers a) (versionNumbers b)

/-- The highest of some versions; of equal ones the last. Empty if there is none. -/
def highestVersion : List String → String
  | [] => ""
  | v :: rest => rest.foldl (fun best v => if compareVersions best v = .gt then best else v) v

end LoadOrder

import LoadOrder.Definition.Record
import LoadOrder.Json.Parse
import LoadOrder.Json.Print
import LoadOrder.Path
import LoadOrder.Timestamp

namespace LoadOrder

inductive PatchMode
  | none
  | default
  | advanced
deriving DecidableEq, Repr

def PatchMode.all : List PatchMode := [none, default, advanced]

def PatchMode.name : PatchMode → String
  | none => "None"
  | default => "Default"
  | advanced => "Advanced"

/-- The stored decisions about the conflicts of a collection. -/
structure PatchState where
  mode : PatchMode
  resolved : List Definition
  ignored : List Definition
  history : List Definition
  custom : List Definition
  updatedAt : Option Timestamp
deriving BEq, Repr

namespace PatchState

def blank : PatchState := ⟨.default, [], [], [], [], none⟩

def toJson (s : PatchState) : Json :=
  .object [("mode", .text s.mode.name),
    ("resolved_conflicts", .array (Definition.listToJson s.resolved)),
    ("ignored_conflicts", .array (Definition.listToJson s.ignored)),
    ("conflict_history", .array (Definition.listToJson s.history)),
    ("custom_conflicts", .array (Definition.listToJson s.custom)),
    ("updated_at", s.updatedAt.elim .null fun t => .text t.text)]

def ofJson? (room : Nat) (j : Json) : Option PatchState := do
  match ← Json.fields? room ["mode", "resolved_conflicts", "ignored_conflicts",
    "conflict_history", "custom_conflicts", "updated_at"] j with
  | [mode, resolved, ignored, history, custom, updatedAt] =>
    let list := Json.fieldOr? [] (Json.list? (room - 1) (Definition.ofJson? (room - 2)))
    return {
      mode := ← Json.fieldOr? .default (Json.constant? (room - 1) PatchMode.name PatchMode.all) mode
      resolved := ← list resolved
      ignored := ← list ignored
      history := ← list history
      custom := ← list custom
      updatedAt := ← Json.fieldOr? none
        (Json.option? fun j => j.text?.bind Timestamp.parse?) updatedAt }
  | _ => none

def ofText? (text : String) : Option PatchState :=
  (Json.parse? text).bind (ofJson? Json.maxRoom)

def print (s : PatchState) : String := s.toJson.print

/-- The file of a state, below the folder of the mods. -/
def file (root patch : String) : String := Path.join (Path.join root patch) "state.json"

end PatchState

end LoadOrder

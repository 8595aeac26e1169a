import LoadOrder.Conflict
import LoadOrder.Config
import LoadOrder.Definition.Extract
import LoadOrder.Merge.Align
import LoadOrder.Merge.Compose
import LoadOrder.Merge.Fold
import LoadOrder.PatchState
import LoadOrder.Progress

namespace LoadOrder

structure Setting where
  analysis : Analysis
  history : Index
  modOrder : List String
  rules : Option Rules
  policy : DuplicatePolicy

/-- The analysis with the stored decisions of a collection. -/
def Setting.of (analysis : Analysis) (state : PatchState) (modOrder : List String)
    (rules : Option Rules) (policy : DuplicatePolicy) : Setting where
  analysis := { analysis with
    resolved := .build state.resolved true
    ignored := .build state.ignored true
    custom := .build state.custom false }
  history := .build state.history false
  modOrder := modOrder
  rules := rules
  policy := policy

/-- The identities exported so far in the whole merge, and the definitions of the current file. -/
structure Harvest where
  done : List String
  exported : List Definition

namespace Harvest

def mark (h : Harvest) (identity : String) : Harvest :=
  if h.done.contains identity then h else { h with done := identity :: h.done }

def push (h : Harvest) (d : Definition) : Harvest :=
  let (exported, d) := foldSupport h.exported d
  { h.mark d.identity with exported := exported ++ [d] }

end Harvest

/-- The objects in the code of a chosen definition, with the variables and namespaces in that code.
Code that is no script leaves the definition as it is. -/
def reread (rules : Option Rules) (d : Definition) (code : String) : List Definition :=
  let source : Source := {
    file := d.file
    diskFile := d.diskFile
    modName := d.modName
    dependencies := d.dependencies
    lines := Text.linesOf code
    tagged := rules.any (·.isTagged d.file) }
  match source.definitions with
  | .error _ => [d]
  | .ok parsed =>
    let support := parsed.filter Definition.isSupport
    (parsed.filter fun d => !d.isSupport && d.kind != .emptyFile).map fun d =>
      { d with scope := support }

namespace Setting

def latestCode (s : Setting) (d : Definition) : String :=
  ((s.history.withIdentity d.identity).head?.map (·.code)).getD d.code

/-- Exports a chosen definition, unless its identity is exported already. -/
def harvestChosen (s : Setting) (h : Harvest) (d : Definition) : Harvest :=
  if h.done.contains d.identity then h
  else if d.kind = .binary then { h.mark d.identity with exported := h.exported ++ [d] }
  else (reread s.rules d (s.latestCode d)).foldl Harvest.push h

/-- Exports the winner of an overwritten identity, unless it is exported already. -/
def harvestOverwritten (h : Harvest) (d : Definition) : Harvest :=
  if h.done.contains d.identity then h else h.push d

/-- The files in which a mod has one of some definitions. -/
def filesOf (definitions : List Definition) (modName : String) : List String :=
  ((definitions.filter (·.modName == modName)).map Definition.fileKey).eraseDups

/-- A mod has one of the definitions in several files. -/
def inSeveralFiles (definitions : List Definition) (modName : String) : Bool :=
  1 < (filesOf definitions modName).length

/-- The conflicting definitions that compete for a file: of a mod that has them in several files,
only the ones in this file. -/
def candidates (conflicting : List Definition) (file : String) : List Definition :=
  conflicting.filter fun d =>
    !inSeveralFiles conflicting d.modName || d.fileKey == Text.lowercase file

/-- All members of a group are lost with their file. -/
def isLost (orphans : Index) (group : List Definition) : Bool :=
  match group with
  | [] => false
  | first :: _ =>
    let lost := orphans.withIdentity first.identity
    group.all fun d => lost.any fun o => o.modName == d.modName && o.fileKey == d.fileKey

/-- Exports the winner of the group of `file` that begins with `first`. An identity is exported
once, or once in every file if some mod has it in several and the policy says so. -/
def harvestWinner (s : Setting) (file : String) (h : Harvest) (first : Definition) : Harvest :=
  let conflicting := s.analysis.conflicts.withIdentity first.identity
  let winner? :=
    if conflicting.isEmpty then some first
    else (winner? (sortByMods s.modOrder (candidates conflicting file)) s.rules).map (·.1)
  let again :=
    s.policy == .oncePerFile && conflicting.any fun d => inSeveralFiles conflicting d.modName
  match winner? with
  | none => h
  | some d => if again || !h.done.contains d.identity then h.push d else h

/-- What the definitions of one identity in `file` contribute. -/
def harvestGroup (s : Setting) (file : String) (h : Harvest) (group : List Definition) : Harvest :=
  match group with
  | [] => h
  | first :: _ =>
    let resolved := s.analysis.resolved.withIdentity first.identity
    let overwritten := s.analysis.overwritten.withIdentity first.identity
    if !resolved.isEmpty then resolved.foldl s.harvestChosen h
    else if isLost s.analysis.orphans group then h
    else if !overwritten.isEmpty then overwritten.foldl harvestOverwritten h
    else s.harvestWinner file h first

end Setting

/-- What a merge makes of one file. -/
structure FilePlan where
  file : String
  /-- the sizes of the groups of objects, in order -/
  groups : List Nat
  exported : List Definition

namespace Setting

/-- The groups of a file: definitions by identity, without marks of empty files. -/
def groups (s : Setting) (file : String) : List (List Definition) :=
  (Buckets.group Definition.identity
    ((s.analysis.all.inFile file).filter (·.kind != .emptyFile))).map (·.2)

def objectGroups (s : Setting) (file : String) : List (List Definition) :=
  (s.groups file).filter fun group => group.head?.any (!·.isSupport)

/-- The plan of one file, and the identities exported after it. Variables and namespaces alone are
not exported. -/
def planFile (s : Setting) (done : List String) (file : String) : List String × FilePlan :=
  let h := (s.objectGroups file).foldl (s.harvestGroup file) ⟨done, []⟩
  (h.done, ⟨file, (s.objectGroups file).map List.length,
    if onlySupport h.exported then [] else h.exported⟩)

def planFiles (s : Setting) : (done files : List String) → List FilePlan
  | _, [] => []
  | done, file :: rest =>
    let (done, plan) := s.planFile done file
    plan :: planFiles s done rest

def plan (s : Setting) : List FilePlan := s.planFiles [] s.analysis.all.files

/-- The one definition that a file's export set becomes, under the name the file has. -/
def composed? (s : Setting) (plan : FilePlan) : Option Definition :=
  (composeExport? (alignOrder plan.exported s.analysis.all s.rules)).map fun d =>
    match s.analysis.all.inFile plan.file with
    | [] => d
    | source :: _ => { d with file := source.file }

/-- The definition of the user that is exported for a file. -/
def customExport? (s : Setting) (file : String) : Option Definition :=
  (s.analysis.custom.inFile file).head?.map fun d => { d with code := s.latestCode d }

/-- What the progress of a merge is counted against. -/
def total (s : Setting) : Nat :=
  (s.analysis.all.all.filter (!·.isSupport)).length + s.analysis.custom.size

end Setting

/-- What is told about a merge while it goes on. -/
inductive Event
  | definitions (percentage : Percent)
  /-- step 1 lists files, step 2 copies them -/
  | files (step : Nat) (percentage : Percent)
deriving DecidableEq

inductive Action
  | export (definition : Definition)
  | report (event : Event)

/-- The reports of a percentage, if there is one. -/
def reports (event : Percent → Event) (p : Option Percent) : List Action :=
  (p.map fun p => Action.report (event p)).toList

def count (t : Tracker) (count : Nat) : Tracker × List Action :=
  let (t, p) := t.advance count
  (t, reports .definitions p)

namespace Setting

def customActions (s : Setting) : Tracker → List String → Tracker × List Action
  | t, [] => (t, [])
  | t, file :: rest =>
    let (t, told) := count t 1
    let (t, later) := customActions s t rest
    (t, (s.customExport? file).toList.map .export ++ told ++ later)

def groupActions : Tracker → List Nat → Tracker × List Action
  | t, [] => (t, [])
  | t, size :: rest =>
    let (t, told) := count t size
    let (t, later) := groupActions t rest
    (t, told ++ later)

def fileActions (s : Setting) : Tracker → List FilePlan → Tracker × List Action
  | t, [] => (t, [])
  | t, plan :: rest =>
    let (t, told) := groupActions t plan.groups
    let (t, later) := fileActions s t rest
    (t, told ++ (s.composed? plan).toList.map .export ++ later)

def ceiling : Percent := .of (Number.nearest 99.9)

/-- All acts of a merge in order: the definitions of the user, the files of the mods, and the last
report. -/
def actions (s : Setting) : List Action :=
  let t := Tracker.start s.total ceiling
  let (t, custom) := s.customActions t s.analysis.custom.files
  let (t, files) := s.fileActions t s.plan
  custom ++ files ++ reports .definitions t.finish.2

end Setting

end LoadOrder

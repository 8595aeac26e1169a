import LoadOrder.Proofs.Definition.History
import LoadOrder.Proofs.Merge.Requests

namespace LoadOrder

def Request.isLookup : Request → Bool
  | .listing _ => true
  | .installed _ => true
  | .storeListing _ _ => true
  | _ => false

/-- Requests to the writer and to the exporter, for the decisions, and to forget the stored listing.
-/
def Request.isStep : Request → Bool
  | .purge _ _ => true
  | .createFolder _ _ => true
  | .writeDescriptor _ _ _ => true
  | .dropListing _ => true
  | .patchState _ _ => true
  | .exportDefinitions _ _ _ => true
  | .exportFile _ _ _ => true
  | _ => false

def stepsOf (log : List Note) : List Request := (log.map Note.request).filter Request.isStep

def Game.steps (game : Game) (collection : Collection) (name : String) (installed : List Mod)
    (exports : List Definition) : List Request :=
  let target := game.target name installed
  game.preparation name installed ++ game.stateRequest collection ::
    exports.map fun d => .exportDefinitions target.exportPath [d] game.key

/-- What is asked for in a merge with a result keeps to some steps. -/
structure KeepsTo (steps : List Request) (result : Except Error (Option Mod))
    (log : List Note) : Prop where
  steps_prefix : stepsOf log <+: steps
  steps_eq : ∀ made, result = .ok (some made) → stepsOf log = steps
  /-- the stored listing is forgotten exactly if the descriptor has been written -/
  drops_iff : (∃ game, .dropListing game ∈ log.map Note.request) ↔
    ∃ root path descriptor, .done (.writeDescriptor root path descriptor) ∈ log
  failure_eq : log.findSome? Note.failure = failureOf result
  failure_last : ∀ note ∈ log.dropLast, note.failure = none
  lookups_of_none : result = .ok none → ∀ note ∈ log, note.request.isLookup

theorem keepsTo_of_nothing (steps : List Request) : KeepsTo steps (.ok none) [] where
  steps_prefix := List.nil_prefix
  steps_eq := nofun
  drops_iff := by simp
  failure_eq := rfl
  failure_last := by simp
  lookups_of_none _ := by simp

section Steps

variable {m : Type → Type} [Monad m] {σ : Type} (E : Execution m σ) {c : Collaborators m}
  {game : Game} {collection : Collection} {name : String} {installed : List Mod}

theorem isLookup_of_mem_lookups {w : σ} {request : Request} (h : request ∈ c.lookups E game w) :
    request.isLookup := by
  unfold Collaborators.lookups at h
  rcases List.mem_cons.mp h with rfl | h
  · rfl
  · split at h
    · cases h
    · rcases List.mem_pair.mp h with rfl | rfl <;> rfl

theorem isStep_eq_false_of_isLookup {request : Request} (h : request.isLookup) :
    request.isStep = false := by
  cases request <;> first | rfl | cases h

theorem filter_isStep_acts (target : Target) (actions : List Action) :
    (actions.map (Action.request game target)).filter Request.isStep =
      (actions.filterMap Action.export?).map fun d =>
        .exportDefinitions target.exportPath [d] game.key := by
  induction actions with
  | nil => rfl
  | cons action actions ih =>
    cases action with
    | «export» d => exact congrArg (_ :: ·) ih
    | report e => exact ih

theorem mem_stepsOf {log : List Note} {request : Request} :
    request ∈ stepsOf log ↔ request ∈ log.map Note.request ∧ request.isStep := List.mem_filter

theorem mem_steps {exports : List Definition} {request : Request} :
    request ∈ game.steps collection name installed exports ↔
      request ∈ game.clearing name ∨ request = game.announcement name installed ∨
        request = .dropListing game ∨ request = game.stateRequest collection ∨
          ∃ d ∈ exports, .exportDefinitions (game.target name installed).exportPath [d] game.key =
            request := by
  simp [Game.steps, Game.preparation]

theorem drops_iff_of_written {exports : List Definition} {w : σ} {later : List Request}
    {result : Except Error (Option Mod)} {log : List Note}
    (h : Written ((c.lookups E game w ++ (game.preparation name installed ++
      [game.stateRequest collection])) ++ later) result log)
    (hsteps : stepsOf log <+: game.steps collection name installed exports) :
    (∃ game, .dropListing game ∈ log.map Note.request) ↔
      ∃ root path descriptor, .done (.writeDescriptor root path descriptor) ∈ log := by
  have hbefore : ∀ request : Request, request.isLookup = false →
      request ∉ game.clearing name → request ∉ c.lookups E game w ++ game.clearing name := by
    intro request hlookup hclearing hmem
    rcases List.mem_append.mp hmem with hmem | hmem
    · rw [isLookup_of_mem_lookups E hmem] at hlookup
      cases hlookup
    · exact hclearing hmem
  have hiff : .done (.dropListing game) ∈ log ↔ .done (game.announcement name installed) ∈ log := by
    have hnext : Written ((c.lookups E game w ++ game.clearing name) ++
        game.announcement name installed :: .dropListing game ::
          (game.stateRequest collection :: later)) result log := by
      simpa [Game.preparation] using h
    exact hnext.done_mem_iff rfl (hbefore _ rfl (by simp [Game.clearing, Game.announcement]))
      (hbefore _ rfl (by simp [Game.clearing]))
  have hstep {request : Request} (hmem : request ∈ log.map Note.request)
      (hrequest : request.isStep) := mem_steps.mp (hsteps.subset (mem_stepsOf.mpr ⟨hmem, hrequest⟩))
  constructor
  · rintro ⟨game', hmem⟩
    obtain rfl : game' = game := by
      simpa [Game.clearing, Game.announcement, Game.stateRequest] using hstep hmem rfl
    exact ⟨_, _, _, hiff.mp (h.done_of_mem rfl hmem)⟩
  · rintro ⟨root, path, descriptor, hmem⟩
    have hrequest : .writeDescriptor root path descriptor ∈ log.map Note.request :=
      List.mem_map_of_mem (f := Note.request) hmem
    have hwritten : Request.writeDescriptor root path descriptor =
        game.announcement name installed := by
      simpa [Game.clearing, Game.stateRequest] using hstep hrequest rfl
    rw [hwritten] at hmem
    exact ⟨game, List.mem_map_of_mem (f := Note.request) (hiff.mpr hmem)⟩

end Steps

section Ordered

variable {α : Type} {l : List α} {key : α → String} {pick : α → Option Definition}

theorem fileKeys_sublist (h : ∀ a ∈ l, ∀ d ∈ pick a, d.fileKey = key a) :
    ((l.filterMap pick).map Definition.fileKey).Sublist (l.map key) := by
  induction l with
  | nil => exact .slnil
  | cons a l ih =>
    rw [List.forall_mem_cons] at h
    rw [List.map_cons, List.filterMap_cons]
    cases hpick : pick a with
    | none => exact (ih h.2).cons _
    | some d =>
      rw [List.map_cons, h.1 d hpick]
      exact (ih h.2).cons_cons _

theorem fileKeys_eq (h : ∀ a ∈ l, ∃ d ∈ pick a, d.fileKey = key a) :
    (l.filterMap pick).map Definition.fileKey = l.map key := by
  induction l with
  | nil => rfl
  | cons a l ih =>
    rw [List.forall_mem_cons] at h
    obtain ⟨⟨d, hpick, hkey⟩, hrest⟩ := h
    rw [List.map_cons, List.filterMap_cons_some hpick, List.map_cons, hkey, ih hrest]

end Ordered

namespace Index

variable {index : Index} {file : String}

theorem Faithful.exists_head (h : index.Faithful) (hfile : file ∈ index.files) :
    ∃ d rest, index.inFile file = d :: rest ∧ d.fileKey = file := by
  obtain ⟨d, hd, hkey⟩ := (h.mem_files file).mp hfile
  have hlower : Text.lowercase file = file := by
    rw [← hkey, lowercase_fileKey]
  have hin := h.inFile_eq file
  rw [hlower] at hin
  have hmem : d ∈ index.inFile file := by
    rw [hin]
    exact List.mem_filter.mpr ⟨hd, beq_iff_eq.mpr hkey⟩
  obtain ⟨first, rest, hfirst⟩ := List.exists_cons_of_ne_nil (List.ne_nil_of_mem hmem)
  have hfirst' : first ∈ index.inFile file := hfirst ▸ List.mem_cons_self
  rw [hin, List.mem_filter, beq_iff_eq] at hfirst'
  exact ⟨first, rest, hfirst, hfirst'.2⟩

end Index

namespace Setting

variable {s : Setting}

theorem fileKeys_customs (h : s.analysis.custom.Faithful) :
    (s.analysis.custom.files.filterMap s.customExport?).map Definition.fileKey =
      s.analysis.custom.files := by
  have hkeys : (s.analysis.custom.files.filterMap s.customExport?).map Definition.fileKey =
      s.analysis.custom.files.map id := by
    refine fileKeys_eq fun file hfile => ?_
    obtain ⟨first, rest, hfirst, hkey⟩ := h.exists_head hfile
    refine ⟨{ first with code := s.latestCode first }, ?_, hkey⟩
    rw [customExport?, hfirst]
    rfl
  rw [hkeys, List.map_id]

theorem fileKeys_merged (h : s.analysis.all.Faithful) :
    ((s.plan.filterMap s.composed?).map Definition.fileKey).Sublist s.analysis.all.files := by
  have hfiles : s.plan.map FilePlan.file = s.analysis.all.files := planFiles_map_file s [] _
  rw [← hfiles]
  refine fileKeys_sublist fun plan hplan d hd => ?_
  have hfile : plan.file ∈ s.analysis.all.files := hfiles ▸ List.mem_map_of_mem hplan
  obtain ⟨first, rest, hfirst, hkey⟩ := h.exists_head hfile
  obtain ⟨composed, -, rfl⟩ := Option.map_eq_some_iff.mp hd
  rw [hfirst]
  exact hkey

end Setting

section Merges

variable {m : Type → Type} [Monad m] {σ : Type} (c : Collaborators m) (E : Execution m σ)
  (rules : List Rules) (policy : DuplicatePolicy) (modOrder : List String) (name : String) (w : σ)

def Collaborators.steps (analysis : Analysis) : Option Game → Option Collection → List Request
  | some game, some collection =>
    game.steps collection name (c.found E game w)
      (c.setting E rules policy game collection analysis modOrder name w).exports
  | _, _ => []

variable {c E rules policy modOrder name w}

/-- Reports and look-ups apart, a merge asks for its steps. -/
theorem filter_isStep_requests {game : Game} {collection : Collection} {analysis : Analysis} :
    (c.requests E rules policy game collection analysis modOrder name w).filter Request.isStep =
      c.steps E rules policy modOrder name w analysis (some game) (some collection) := by
  have hlookups : (c.lookups E game w).filter Request.isStep = [] := by
    rw [List.filter_eq_nil_iff]
    intro request hrequest
    rw [isStep_eq_false_of_isLookup (isLookup_of_mem_lookups E hrequest)]
    exact Bool.false_ne_true
  have hready : (game.preparation name (c.found E game w) ++
      [game.stateRequest collection]).filter Request.isStep =
        game.preparation name (c.found E game w) ++ [game.stateRequest collection] := rfl
  rw [Collaborators.requests, List.filter_append, List.filter_append, hlookups, hready,
    filter_isStep_acts, Setting.filterMap_actions, List.nil_append, List.append_assoc]
  rfl

theorem keepsTo_of_written {game : Game} {collection : Collection} {analysis : Analysis}
    {result : Except Error (Option Mod)} {log : List Note} (hnone : result ≠ .ok none)
    (h : Written (c.requests E rules policy game collection analysis modOrder name w) result log) :
    KeepsTo (c.steps E rules policy modOrder name w analysis (some game) (some collection)) result
      log := by
  have hmade : stepsOf log <+: c.steps E rules policy modOrder name w analysis (some game)
      (some collection) := by
    rw [← filter_isStep_requests]
    exact h.requests_prefix.filter _
  refine ⟨hmade, fun made hok => ?_, drops_iff_of_written E h hmade, h.findSome?_failure,
    h.failure_of_mem_dropLast, fun hok => absurd hok hnone⟩
  rw [← filter_isStep_requests, ← h.requests_eq hok]
  rfl

variable [LawfulMonad m]

theorem exists_lookups_of_mergeFiles {game : Option Game} {collection : Option Collection}
    {log : List Note} {w' : σ}
    (h : (recordActs E).attempt (c.recorded.mergeFiles game collection name) ([], w) =
      (.ok none, (log, w'))) :
    ∃ requests : List Request, (∀ request ∈ requests, request.isLookup) ∧
      log = requests.map .done := by
  have hnothing (hpure : (recordActs E).attempt
      (pure none : ExceptT Error (Recording m) (Option Mod)) ([], w) = (.ok none, (log, w'))) :
      ∃ requests : List Request, (∀ request ∈ requests, request.isLookup) ∧
        log = requests.map .done := by
    rw [(recordActs E).attempt_pure] at hpure
    cases hpure
    exact ⟨[], by simp, rfl⟩
  match game, collection with
  | none, _ => exact hnothing h
  | some _, none => exact hnothing h
  | some game, some collection =>
    unfold Collaborators.mergeFiles at h
    dsimp only at h
    split at h
    · exact hnothing h
    obtain ⟨installed, ⟨found, w₁⟩, hinstalled, h⟩ := (recordActs E).attempt_bind_eq_ok.mp h
    split at h
    · rw [(recordActs E).attempt_pure] at h
      cases h
      obtain ⟨-, rfl⟩ := (asks_installedMods E w).eq_of_ok hinstalled
      exact ⟨c.lookups E game w, fun request => isLookup_of_mem_lookups E, rfl⟩
    · obtain ⟨_, _, -, h⟩ := (recordActs E).attempt_bind_eq_ok.mp h
      obtain ⟨_, _, -, h⟩ := (recordActs E).attempt_bind_eq_ok.mp h
      obtain ⟨_, _, -, h⟩ := (recordActs E).attempt_bind_eq_ok.mp h
      obtain ⟨_, _, -, h⟩ := (recordActs E).attempt_bind_eq_ok.mp h
      obtain ⟨_, _, -, h⟩ := (recordActs E).attempt_bind_eq_ok.mp h
      rw [(recordActs E).attempt_pure] at h
      cases h

theorem lookups_of_mergeFiles {game : Option Game} {collection : Option Collection}
    {log : List Note} {w' : σ}
    (h : (recordActs E).attempt (c.recorded.mergeFiles game collection name) ([], w) =
      (.ok none, (log, w'))) : ∀ note ∈ log, note.request.isLookup := by
  obtain ⟨requests, hlookup, rfl⟩ := exists_lookups_of_mergeFiles h
  rw [List.forall_mem_map]
  exact hlookup

variable (c E rules policy modOrder name w)

/-- Whichever requests fail, a merge definition by definition keeps to its steps: it makes the first
of them, fails as the first request that fails, and asks for nothing after it. The definitions of
the user are exported in the order of their files, and so are the files of the mods. A merge that
makes nothing, in either way, has only looked up what is installed. -/
theorem merge_keepsTo_steps (game : Option Game) (collection : Option Collection)
    (history : History) (others : Analysis) :
    let analysis := { others with all := history.index }
    let run := (recordActs E).attempt
      (c.recorded.mergeDefinitions rules policy game collection analysis modOrder name) ([], w)
    let copying := (recordActs E).attempt (c.recorded.mergeFiles game collection name) ([], w)
    KeepsTo (c.steps E rules policy modOrder name w analysis game collection) run.1 run.2.1 ∧
      (∀ g ∈ game, ∀ l ∈ collection,
        let s := c.setting E rules policy g l analysis modOrder name w
        let customs := s.analysis.custom.files.filterMap s.customExport?
        let merged := s.plan.filterMap s.composed?
        s.exports = customs ++ merged ∧
          customs.map Definition.fileKey = s.analysis.custom.files ∧
          (merged.map Definition.fileKey).Sublist s.analysis.all.files ∧
          s.analysis.custom.files.Pairwise (· < ·) ∧ s.analysis.all.files.Pairwise (· < ·)) ∧
      (copying.1 = .ok none → ∀ note ∈ copying.2.1, note.request.isLookup) := by
  intro analysis run copying
  refine ⟨?_, fun g _ l _ => ?_, fun hnone => lookups_of_mergeFiles (Prod.ext hnone rfl)⟩
  · rcases nothing_or_written E c name rules policy analysis modOrder w game collection with
      ⟨hnone, hnil⟩ | ⟨g, rfl, l, rfl, hsome, hwritten⟩
    · dsimp only [run]
      rw [hnone, hnil]
      exact keepsTo_of_nothing _
    · exact keepsTo_of_written hsome hwritten
  · intro s customs merged
    have hcustom : s.analysis.custom.Faithful := Index.faithful_build _ false
    have hall : s.analysis.all.Faithful := history.faithful
    exact ⟨rfl, Setting.fileKeys_customs hcustom, Setting.fileKeys_merged hall,
      hcustom.files_ascending, hall.files_ascending⟩

end Merges

def unwritable : Collaborators (StateM Unit) :=
  { Collaborators.idle with writeDescriptor := fun _ _ _ => throw (.file .notFolder) }

def unwritableMerge : Except Error (Option Mod) × List Note × Unit :=
  (recordActs (.ofState Unit)).attempt (unwritable.recorded.mergeDefinitions [] .oncePerIdentity
    (some gameOfCustoms) (some collectionOfCustoms) analysisOfCustoms ["a"] "c") ([], ())

theorem unwritableMerge_keepsTo_steps :
    failureOf unwritableMerge.1 = some (.file .notFolder) ∧
      unwritableMerge.2.1.findSome? Note.failure = some (.file .notFolder) ∧
      ¬∃ game, .dropListing game ∈ unwritableMerge.2.1.map Note.request := by
  have hkeeps : KeepsTo _ unwritableMerge.1 unwritableMerge.2.1 :=
    (merge_keepsTo_steps unwritable (.ofState Unit) [] .oncePerIdentity ["a"] "c" ()
      (some gameOfCustoms) (some collectionOfCustoms)
      (.build [Setting.objectOf "a" "t/a"] false) analysisOfCustoms).1
  have hfailure : failureOf unwritableMerge.1 = some (.file .notFolder) := by
    decide +kernel
  have hnever : ∀ note ∈ unwritableMerge.2.1,
      note.request matches .writeDescriptor _ _ _ → note.failure ≠ none := by
    decide +kernel
  refine ⟨hfailure, hkeeps.failure_eq.trans hfailure, fun hdropped => ?_⟩
  obtain ⟨root, path, descriptor, hwritten⟩ := hkeeps.drops_iff.mp hdropped
  exact hnever _ hwritten rfl rfl

end LoadOrder

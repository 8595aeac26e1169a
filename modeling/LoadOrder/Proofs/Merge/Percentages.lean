import Mathlib.Algebra.Order.Ring.Unbundled.Rat
import LoadOrder.Proofs.Merge.Requests

namespace LoadOrder

instance : Preorder Percent where
  le_refl p := le_refl p.value
  le_trans _ _ _ := le_trans (α := Rat)
  lt_iff_le_not_ge p _ := lt_iff_le_not_ge (a := p.value)

/-- From `p` through percentages that grow to `q`. -/
inductive Climb : Percent → List Percent → Percent → Prop
  | stay (p : Percent) : Climb p [] p
  | step {p q r : Percent} {l : List Percent} (h : p < q) (hl : Climb q l r) : Climb p (q :: l) r

section Climb

variable {p q r : Percent} {l l' : List Percent}

theorem Climb.append (h : Climb p l q) (h' : Climb q l' r) : Climb p (l ++ l') r := by
  induction h with
  | stay p => exact h'
  | step hlt hl ih => exact .step hlt (ih h')

theorem Climb.bounds (h : Climb p l q) : p ≤ q ∧ ∀ x ∈ l, p < x ∧ x ≤ q := by
  induction h with
  | stay p => exact ⟨le_refl p, by simp⟩
  | @step p next q l hlt hl ih =>
    refine ⟨hlt.le.trans ih.1, List.forall_mem_cons.mpr ⟨⟨hlt, ih.1⟩, fun x hx => ?_⟩⟩
    exact ⟨hlt.trans (ih.2 x hx).1, (ih.2 x hx).2⟩

theorem Climb.pairwise (h : Climb p l q) : l.Pairwise (· < ·) := by
  induction h with
  | stay p => exact .nil
  | step hlt hl ih => exact .cons (fun x hx => (hl.bounds.2 x hx).1) ih

end Climb

namespace Progress

theorem clamp_le {max : Percent} (hmax : 0 ≤ max) (p : Percent) : clamp 0 max p ≤ max := by
  unfold clamp
  split
  · exact hmax
  · split
    · exact le_refl max
    · next h => exact Percent.le_iff.mpr (not_lt.mp (mt Percent.lt_iff.mpr h))

theorem percentage_le {max : Percent} (hmax : 0 ≤ max) (total processed : Nat) :
    percentage total processed max ≤ max := by
  unfold percentage percentageBy
  split
  · exact hmax
  · exact clamp_le hmax _

end Progress

/-- The last report of a tracker is at most its maximum. -/
structure Tracker.Bounded (t : Tracker) : Prop where
  max_nonneg : 0 ≤ t.max
  last_le : t.last ≤ t.max

def Action.percentage? : Action → Option Percent
  | .report (.definitions p) => some p
  | _ => none

def percentages (actions : List Action) : List Percent := actions.filterMap Action.percentage?

theorem percentages_append (actions actions' : List Action) :
    percentages (actions ++ actions') = percentages actions ++ percentages actions' :=
  List.filterMap_append

theorem percentages_exports (d : Option Definition) :
    percentages (d.toList.map .export) = [] := by
  cases d <;> rfl

namespace Tracker

/-- Some acts tell what a tracker counts, and its reports stay in their bounds. -/
structure Counts (t t' : Tracker) (actions : List Action) : Prop where
  max_eq : t'.max = t.max
  bounded : t'.Bounded
  climb : Climb t.last (percentages actions) t'.last

variable {t t₁ t₂ : Tracker} {actions actions' : List Action}

theorem Bounded.counts_nil (h : t.Bounded) : t.Counts t [] := ⟨rfl, h, .stay t.last⟩

theorem Bounded.counts_exports (h : t.Bounded) (d : Option Definition) :
    t.Counts t (d.toList.map .export) :=
  ⟨rfl, h, percentages_exports d ▸ .stay t.last⟩

theorem Counts.append (h : t.Counts t₁ actions) (h' : t₁.Counts t₂ actions') :
    t.Counts t₂ (actions ++ actions') where
  max_eq := h'.max_eq.trans h.max_eq
  bounded := h'.bounded
  climb := percentages_append actions actions' ▸ h.climb.append h'.climb

theorem Bounded.counts_count (h : t.Bounded) (n : Nat) : t.Counts (count t n).1 (count t n).2 := by
  unfold count advance
  dsimp only
  set p := Progress.percentage t.total ((t.processed + n) % Nat.pow 2 64) t.max
  have hle : p ≤ t.max := Progress.percentage_le h.max_nonneg _ _
  unfold report
  dsimp only
  split
  · next hlt => exact ⟨rfl, ⟨h.max_nonneg, hle⟩, .step hlt (.stay _)⟩
  · exact ⟨rfl, ⟨h.max_nonneg, h.last_le⟩, .stay _⟩

end Tracker

namespace Setting

open Tracker

variable {t : Tracker}

theorem counts_customActions (s : Setting) (h : t.Bounded) (files : List String) :
    t.Counts (s.customActions t files).1 (s.customActions t files).2 := by
  induction files generalizing t with
  | nil => exact h.counts_nil
  | cons file files ih =>
    have hcount := h.counts_count 1
    exact ((h.counts_exports (s.customExport? file)).append hcount).append (ih hcount.bounded)

theorem counts_groupActions (h : t.Bounded) (sizes : List Nat) :
    t.Counts (groupActions t sizes).1 (groupActions t sizes).2 := by
  induction sizes generalizing t with
  | nil => exact h.counts_nil
  | cons size sizes ih =>
    have hcount := h.counts_count size
    exact hcount.append (ih hcount.bounded)

theorem counts_fileActions (s : Setting) (h : t.Bounded) (plans : List FilePlan) :
    t.Counts (s.fileActions t plans).1 (s.fileActions t plans).2 := by
  induction plans generalizing t with
  | nil => exact h.counts_nil
  | cons plan plans ih =>
    have hgroups := counts_groupActions h plan.groups
    have hexport := hgroups.bounded.counts_exports (s.composed? plan)
    exact (hgroups.append hexport).append (ih hgroups.bounded)

theorem ceiling_bounds : 0 ≤ ceiling ∧ ceiling < 100 := by
  decide +kernel

theorem exists_actions_eq (s : Setting) : ∃ actions,
    s.actions = actions ++ [.report (.definitions 100)] ∧
      (percentages actions).Pairwise (· < ·) ∧ ∀ p ∈ percentages actions, p ≤ ceiling := by
  let start := Tracker.start s.total ceiling
  have hstart : start.Bounded := ⟨ceiling_bounds.1, ceiling_bounds.1⟩
  have hcustom := counts_customActions s hstart s.analysis.custom.files
  have hfiles := counts_fileActions s hcustom.bounded s.plan
  have hall := hcustom.append hfiles
  set last := (s.fileActions (s.customActions start s.analysis.custom.files).1 s.plan).1
  have hceiling : last.last ≤ ceiling := hall.bounded.last_le.trans_eq hall.max_eq
  refine ⟨_, ?_, hall.climb.pairwise, fun p hp => (hall.climb.bounds.2 p hp).2.trans hceiling⟩
  have hfinish : last.finish.2 = some 100 := by
    unfold finish report
    rw [if_pos (hceiling.trans_lt ceiling_bounds.2)]
  change _ ++ reports .definitions last.finish.2 = _
  rw [hfinish]
  rfl

end Setting

def Request.percentage? : Request → Option Percent
  | .publish (.definitions p) => some p
  | _ => none

def published (log : List Note) : List Percent :=
  (log.map Note.request).filterMap Request.percentage?

section Merges

variable {m : Type → Type} [Monad m] {σ : Type} (c : Collaborators m) (E : Execution m σ)
  (rules : List Rules) (policy : DuplicatePolicy) (modOrder : List String) (name : String) (w : σ)

theorem filterMap_percentage_acts (game : Game) (target : Target) (actions : List Action) :
    (actions.map (Action.request game target)).filterMap Request.percentage? =
      percentages actions := by
  rw [List.filterMap_map]
  refine List.filterMap_congr fun action _ => ?_
  rcases action with d | (p | ⟨step, p⟩) <;> rfl

/-- The last request of a merge reports 100, and those before it what grows up to the ceiling. -/
theorem exists_requests_eq (game : Game) (collection : Collection) (analysis : Analysis) :
    ∃ before, c.requests E rules policy game collection analysis modOrder name w =
        before ++ [.publish (.definitions 100)] ∧
      (before.filterMap Request.percentage?).Pairwise (· < ·) ∧
        ∀ p ∈ before.filterMap Request.percentage?, p ≤ Setting.ceiling := by
  obtain ⟨actions, hactions, hgrow, hle⟩ := Setting.exists_actions_eq
    (c.setting E rules policy game collection analysis modOrder name w)
  let first := c.lookups E game w ++ (game.preparation name (c.found E game w) ++
    [game.stateRequest collection])
  have hfirst : first.filterMap Request.percentage? = [] := by
    have hlookups : (c.lookups E game w).filterMap Request.percentage? = [] := by
      unfold Collaborators.lookups
      cases (E.exec (c.listing game) w).1 <;> rfl
    rw [List.filterMap_append, hlookups]
    rfl
  refine ⟨first ++ actions.map (Action.request game (game.target name (c.found E game w))), ?_, ?_⟩
  · rw [Collaborators.requests, hactions, List.map_append]
    exact (List.append_assoc ..).symm
  · rw [List.filterMap_append, hfirst, filterMap_percentage_acts, List.nil_append]
    exact ⟨hgrow, hle⟩

/-- The percentages of a merge in its result and in what has been asked for. -/
structure Climbs (result : Except Error (Option Mod)) (log : List Note) : Prop where
  grow : (published log).Pairwise (· < ·)
  dropLast_le : ∀ p ∈ (published log).dropLast, p ≤ Setting.ceiling
  /-- 100 is published once, after everything else -/
  last_of_ok : ∀ made, result = .ok (some made) →
    ∃ before, log = before ++ [.done (.publish (.definitions 100))] ∧ 100 ∉ published before
  notMem_of_error : ∀ e, result = .error e → 100 ∉ published log

theorem climbs_of_nothing : Climbs (.ok none) [] where
  grow := .nil
  dropLast_le := by simp [published]
  last_of_ok := nofun
  notMem_of_error := nofun

section Written

variable {requests : List Request} {result : Except Error (Option Mod)} {log : List Note}

theorem climbs_of_written (h : Written (requests ++ [.publish (.definitions 100)]) result log)
    (hgrow : (requests.filterMap Request.percentage?).Pairwise (· < ·))
    (hle : ∀ p ∈ requests.filterMap Request.percentage?, p ≤ Setting.ceiling) :
    Climbs result log := by
  have hlt : ∀ p ∈ requests.filterMap Request.percentage?, p < 100 := fun p hp =>
    (hle p hp).trans_lt Setting.ceiling_bounds.2
  have hnew : 100 ∉ requests.filterMap Request.percentage? := fun hmem => lt_irrefl _ (hlt _ hmem)
  have hfirst : published log <+: requests.filterMap Request.percentage? ++ [100] := by
    have hmade := h.requests_prefix.filterMap Request.percentage?
    rwa [List.filterMap_append] at hmade
  refine ⟨?_, fun p hp => ?_, fun made hok => ?_, fun e herror hmem => ?_⟩
  · refine List.Pairwise.sublist hfirst.sublist (List.pairwise_append.mpr ⟨hgrow, ?_, ?_⟩)
    · exact List.pairwise_singleton _ _
    · intro p hp q hq
      rw [List.mem_singleton.mp hq]
      exact hlt p hp
  · rcases List.prefix_concat_iff.mp hfirst with hall | hsome
    · rw [hall, List.dropLast_concat] at hp
      exact hle p hp
    · exact hle p (hsome.subset (List.mem_of_mem_dropLast hp))
  · refine ⟨requests.map .done, ?_, ?_⟩
    · rw [h.log_eq hok, List.map_append]
      rfl
    · rwa [published, map_request_done]
  · subst herror
    have hmade := (h.prefix_of_error rfl).filterMap Request.percentage?
    exact hnew (hmade.subset hmem)

end Written

variable [LawfulMonad m]

/-- Whatever is merged, by whatever policy, and whichever requests fail, the percentages that a
merge definition by definition publishes grow. All but the last are at most the ceiling. A merge
that makes a mod ends with 100, which it has not published before, and one that fails never
publishes 100. -/
theorem percentages_climb (game : Option Game) (collection : Option Collection)
    (analysis : Analysis) :
    let run := (recordActs E).attempt
      (c.recorded.mergeDefinitions rules policy game collection analysis modOrder name) ([], w)
    Climbs run.1 run.2.1 := by
  intro run
  rcases nothing_or_written E c name rules policy analysis modOrder w game collection with
    ⟨hnone, hnil⟩ | ⟨g, -, l, -, -, hwritten⟩
  · dsimp only [run]
    rw [hnone, hnil]
    exact climbs_of_nothing
  · obtain ⟨before, hbefore, hgrow, hle⟩ :=
      exists_requests_eq c E rules policy modOrder name w g l analysis
    rw [hbefore] at hwritten
    exact climbs_of_written hwritten hgrow hle

end Merges

def idleMerge : Except Error (Option Mod) × List Note × Unit :=
  (recordActs (.ofState Unit)).attempt (Collaborators.idle.recorded.mergeDefinitions []
    .oncePerIdentity (some gameOfCustoms) (some collectionOfCustoms) analysisOfCustoms ["a"] "c")
    ([], ())

theorem percentages_climb_idleMerge : Climbs idleMerge.1 idleMerge.2.1 ∧
    ∃ before, idleMerge.2.1 = before ++ [.done (.publish (.definitions 100))] := by
  have hclimbs : Climbs idleMerge.1 idleMerge.2.1 :=
    percentages_climb Collaborators.idle (.ofState Unit) [] .oncePerIdentity ["a"] "c" ()
      (some gameOfCustoms) (some collectionOfCustoms) analysisOfCustoms
  have hrun : ∃ r ∈ idleMerge.1.toOption, r.isSome := by
    decide +kernel
  obtain ⟨result, hok, hsome⟩ := hrun
  obtain ⟨made, rfl⟩ := Option.isSome_iff_exists.mp hsome
  obtain ⟨before, hbefore, -⟩ := hclimbs.last_of_ok made (eq_ok_of_toOption hok)
  exact ⟨hclimbs, before, hbefore⟩

end LoadOrder

import LoadOrder.Proofs.Merge.Percentages
import LoadOrder.Proofs.Merge.Protocol
import LoadOrder.Proofs.Progress

namespace LoadOrder

open Progress

variable {round : Rat → Rat}

namespace Tracker

def advanceBy (round : Rat → Rat) (t : Tracker) : Tracker × Option Percent :=
  let t := { t with processed := (t.processed + 1) % Nat.pow 2 64 }
  t.report (percentageBy round t.total t.processed t.max)

def counted (round : Rat → Rat) (t : Tracker) : Nat → Tracker
  | 0 => t
  | k + 1 => ((t.counted round k).advanceBy round).1

theorem advance_one (t : Tracker) : t.advance 1 = t.advanceBy Number.nearest := rfl

/-- A percentage is reported if it is greater than the last report, and is the last report then. -/
def Tells (t : Tracker) (p : Percent) (after : Tracker × Option Percent) : Prop :=
  t.last < p ∧ after.2 = some p ∧ after.1.last = p ∨
    ¬t.last < p ∧ after.2 = none ∧ after.1.last = t.last

/-- The share that is known when `k` of `n` are counted. -/
def shareOf (round : Rat → Rat) (n k : Nat) : Percent :=
  percentageBy round n (k % Nat.pow 2 64) 100

section Counted

variable (round : Rat → Rat) (t : Tracker) (n k : Nat)

theorem counted_advanceBy : (t.advanceBy round).1.counted round k = t.counted round (k + 1) := by
  induction k with
  | zero => rfl
  | succ k ih =>
    rw [counted, ih]
    rfl

theorem tells_advanceBy :
    t.Tells (percentageBy round t.total ((t.processed + 1) % Nat.pow 2 64) t.max)
      (t.advanceBy round) := by
  unfold advanceBy report
  dsimp only
  split
  · next hlt => exact .inl ⟨hlt, rfl, rfl⟩
  · next hlt => exact .inr ⟨hlt, rfl, rfl⟩

theorem advanceBy_same :
    (t.advanceBy round).1.total = t.total ∧ (t.advanceBy round).1.max = t.max ∧
      (t.advanceBy round).1.processed = (t.processed + 1) % Nat.pow 2 64 := by
  unfold advanceBy report
  dsimp only
  split <;> exact ⟨rfl, rfl, rfl⟩

theorem counted_start :
    ((start n 100).counted round k).total = n ∧ ((start n 100).counted round k).max = 100 ∧
      ((start n 100).counted round k).processed = k % Nat.pow 2 64 := by
  induction k with
  | zero => exact ⟨rfl, rfl, rfl⟩
  | succ k ih =>
    obtain ⟨htotal, hmax, hprocessed⟩ := ih
    obtain ⟨htotal', hmax', hprocessed'⟩ := ((start n 100).counted round k).advanceBy_same round
    refine ⟨htotal'.trans htotal, hmax'.trans hmax, hprocessed'.trans ?_⟩
    rw [hprocessed, Nat.mod_add_mod]

theorem tells_counted_start :
    ((start n 100).counted round k).Tells (shareOf round n (k + 1))
      (((start n 100).counted round k).advanceBy round) := by
  obtain ⟨htotal, hmax, hprocessed⟩ := counted_start round n k
  have htells := ((start n 100).counted round k).tells_advanceBy round
  rw [htotal, hmax, hprocessed, Nat.mod_add_mod] at htells
  exact htells

theorem last_counted_lt (h : ∀ j, j < k → shareOf round n (j + 1) < 100) :
    ((start n 100).counted round k).last < 100 := by
  induction k with
  | zero => exact (by decide +kernel : (0 : Percent) < 100)
  | succ k ih =>
    have ih := ih fun j hj => h j (Nat.lt_succ_of_lt hj)
    rcases tells_counted_start round n k with ⟨-, -, hlast⟩ | ⟨-, -, hlast⟩
    · rw [counted, hlast]
      exact h k (Nat.lt_succ_self k)
    · rw [counted, hlast]
      exact ih

theorem shareOf_le_last_counted :
    shareOf round n (k + 1) ≤ ((start n 100).counted round (k + 1)).last := by
  rcases tells_counted_start round n k with ⟨-, -, hlast⟩ | ⟨hlt, -, hlast⟩
  · rw [counted, hlast]
  · rw [counted, hlast]
    exact Percent.le_iff.mpr (not_lt.mp (mt Percent.lt_iff.mpr hlt))

end Counted

theorem shareOf_of_lt {n k : Nat} (hk : k < Nat.pow 2 64) :
    shareOf round n k = percentageBy round n k 100 := by
  rw [shareOf, Nat.mod_eq_of_lt hk]

theorem shareOf_self_lt (h : Fair round) {n : Nat} (hn : Nat.pow 2 64 ≤ n) :
    shareOf round n n < 100 := by
  have hpos : 0 < Nat.pow 2 64 := Nat.two_pow_pos 64
  have hmod := Nat.mod_lt n hpos
  have hdiv : Nat.pow 2 64 + n % Nat.pow 2 64 ≤ n := by
    have hone : 1 ≤ n / Nat.pow 2 64 := (Nat.one_le_div_iff hpos).mpr hn
    have hproduct : Nat.pow 2 64 * 1 ≤ Nat.pow 2 64 * (n / Nat.pow 2 64) :=
      Nat.mul_le_mul_left _ hone
    have hsum := Nat.div_add_mod n (Nat.pow 2 64)
    omega
  exact percentageBy_lt h.accurate (by omega) (by omega)

/-- The last of some counts reports 100 exactly if there are fewer than 20000 of them. -/
theorem reports_full_iff (h : Fair round) (k : Nat) :
    (((start (k + 1) 100).counted round k).advanceBy round).2 = some 100 ↔ k + 1 < 20000 := by
  have htells := tells_counted_start round (k + 1) k
  constructor
  · intro hreport
    by_contra hmany
    rcases htells with ⟨hlt, hsome, -⟩ | ⟨-, hnone, -⟩
    · have hfull : shareOf round (k + 1) (k + 1) = 100 := Option.some.inj (hsome.symm.trans hreport)
      rcases Nat.lt_or_ge (k + 1) (Nat.pow 2 64) with hcount | hcount
      · obtain ⟨j, rfl⟩ : ∃ j, k = j + 1 := Nat.exists_eq_succ_of_ne_zero (by omega)
        have hbefore : shareOf round (j + 1 + 1) (j + 1) = 100 := by
          rw [shareOf_of_lt (Nat.lt_of_succ_lt hcount)]
          exact h.pred (by omega)
        have hle := shareOf_le_last_counted round (j + 1 + 1) j
        rw [hbefore] at hle
        rw [hfull] at hlt
        exact absurd hlt hle.not_gt
      · exact absurd hfull (shareOf_self_lt h hcount).ne
    · rw [hnone] at hreport
      cases hreport
  · intro hfew
    have hcount (j : Nat) (hj : j ≤ k + 1) : j < Nat.pow 2 64 := by
      have hpow : 20000 < Nat.pow 2 64 := by decide
      omega
    have hfull : shareOf round (k + 1) (k + 1) = 100 := by
      rw [shareOf_of_lt (hcount _ le_rfl)]
      exact h.self (Nat.succ_pos k)
    have hlast := last_counted_lt round (k + 1) k fun j hj => by
      rw [shareOf_of_lt (hcount _ (by omega))]
      exact h.lt (by omega) hfew
    rw [hfull] at htells
    rcases htells with ⟨-, hsome, -⟩ | ⟨hnot, -, -⟩
    · exact hsome
    · exact absurd hlast hnot

end Tracker

def copyRequest (copy : Spot × Spot) : Request := .exportFile copy.1.1 copy.1.2 copy.2.1

def announced (p : Option Percent) : List Request := p.toList.map fun p => .publish (.files 2 p)

/-- The requests for some copies, and what a tracker reports after each of them, with shares that
are rounded by `round`. -/
def copying (round : Rat → Rat) : Tracker → List (Spot × Spot) → List Request
  | _, [] => []
  | t, copy :: rest =>
    copyRequest copy ::
      (announced (t.advanceBy round).2 ++ copying round (t.advanceBy round).1 rest)

def Request.share? : Request → Option Percent
  | .publish (.files 2 p) => some p
  | _ => none

def Request.isCopy : Request → Bool
  | .exportFile _ _ _ => true
  | _ => false

def Request.IsQuiet (request : Request) : Prop := request.isCopy = false ∧ request.share? = none

/-- Right before a percentage of the copies is reported, a copy is made. -/
def ReportsCopies (requests : List Request) : Prop :=
  ∀ before p after, requests = before ++ .publish (.files 2 p) :: after →
    ∃ copy ∈ before.getLast?, copy.isCopy

/-- The percentages of the copies grow, and each of them is reported right after a copy. -/
structure Reported (requests : List Request) : Prop where
  grow : (requests.filterMap Request.share?).Pairwise (· < ·)
  reportsCopies : ReportsCopies requests

/-- If anything is copied, 100 is reported, and nothing is copied after it. -/
structure FullAtEnd (requests : List Request) : Prop where
  full : ∀ request ∈ requests, request.isCopy → .publish (.files 2 100) ∈ requests
  last : ∀ before after, requests = before ++ .publish (.files 2 100) :: after →
    ∀ request ∈ after, request.isCopy = false

section Lists

variable {request copy : Request} {requests before tail : List Request}

theorem share?_eq_some {p : Percent} :
    request.share? = some p ↔ request = .publish (.files 2 p) := by
  constructor
  · intro h
    unfold Request.share? at h
    split at h
    · rw [Option.some.inj h]
    · cases h
  · rintro rfl
    rfl

theorem mem_filterMap_share? {p : Percent} :
    p ∈ requests.filterMap Request.share? ↔ .publish (.files 2 p) ∈ requests := by
  simp [share?_eq_some]

theorem isQuiet_of_isLookup (h : request.isLookup) : request.IsQuiet := by
  cases request <;> first | exact ⟨rfl, rfl⟩ | cases h

theorem filterMap_share?_quiet (h : ∀ request ∈ before, request.IsQuiet) :
    before.filterMap Request.share? = [] :=
  List.filterMap_eq_nil_iff.mpr fun request hrequest => (h request hrequest).2

theorem mem_announced {p : Option Percent} {q : Percent} :
    .publish (.files 2 q) ∈ announced p ↔ p = some q := by
  cases p <;> simp [announced, eq_comm]

theorem reportsCopies_nil : ReportsCopies [] := fun before p after h => by simp at h

theorem ReportsCopies.cons (h : ReportsCopies requests) (hrequest : request.share? = none) :
    ReportsCopies (request :: requests) := by
  intro before p after heq
  cases before with
  | nil =>
    rw [(List.cons.inj heq).1] at hrequest
    cases hrequest
  | cons first before =>
    obtain ⟨copy, hlast, hcopy⟩ := h before p after (List.cons.inj heq).2
    exact ⟨copy, by rw [List.getLast?_cons, hlast]; rfl, hcopy⟩

theorem ReportsCopies.report (h : ReportsCopies requests) (hcopy : copy.isCopy) (p : Percent) :
    ReportsCopies (copy :: .publish (.files 2 p) :: requests) := by
  intro before q after heq
  rcases before with _ | ⟨first, _ | ⟨second, before⟩⟩
  · rw [(List.cons.inj heq).1] at hcopy
    cases hcopy
  · exact ⟨first, rfl, (List.cons.inj heq).1 ▸ hcopy⟩
  · obtain ⟨copy, hlast, hcopy⟩ := h before q after (List.cons.inj (List.cons.inj heq).2).2
    exact ⟨copy, by rw [List.getLast?_cons, List.getLast?_cons, hlast]; rfl, hcopy⟩

theorem ReportsCopies.quiet_append (h : ReportsCopies requests)
    (hbefore : ∀ request ∈ before, request.IsQuiet) : ReportsCopies (before ++ requests) := by
  induction before with
  | nil => exact h
  | cons request before ih =>
    rw [List.forall_mem_cons] at hbefore
    exact (ih hbefore.2).cons hbefore.1.2

/-- If the last of the copies is this one, 100 has to be reported after it, and not before. -/
theorem fullAtEnd_iff (hcopy : copy.isCopy) (htail : ∀ request ∈ tail, request.isCopy = false) :
    FullAtEnd (before ++ copy :: tail) ↔
      .publish (.files 2 100) ∉ before ∧ .publish (.files 2 100) ∈ tail := by
  have hne : copy ≠ .publish (.files 2 100) := by
    rintro rfl
    cases hcopy
  constructor
  · intro h
    have hbefore : Request.publish (.files 2 100) ∉ before := by
      intro hmem
      obtain ⟨first, more, rfl⟩ := List.append_of_mem hmem
      have hlast := h.last first (more ++ copy :: tail) (by simp) copy (by simp)
      rw [hcopy] at hlast
      cases hlast
    refine ⟨hbefore, ?_⟩
    have hmem := h.full copy (by simp) hcopy
    simpa [hbefore, Ne.symm hne] using hmem
  · rintro ⟨hbefore, hmem⟩
    refine ⟨fun _ _ _ => by simp [hmem], fun first after heq request hrequest => ?_⟩
    rcases List.append_eq_append_iff.mp heq with ⟨more, rfl, hmore⟩ | ⟨more, rfl, hmore⟩
    · cases more with
      | nil => exact absurd (List.cons.inj hmore).1 hne
      | cons next more =>
        obtain ⟨-, rfl⟩ := List.cons.inj hmore
        exact htail request (by simp [hrequest])
    · cases more with
      | nil => exact absurd (List.cons.inj hmore).1.symm hne
      | cons next more =>
        obtain ⟨rfl, -⟩ := List.cons.inj hmore
        exact absurd (by simp) hbefore

end Lists

section Copying

variable {before : List Request} {copies : List (Spot × Spot)}

theorem length_copies (path : String) (listed : List (Mod × List String)) :
    (listed.flatMap fun entry => entry.1.copies path entry.2).length =
      (listed.flatMap (·.2)).length := by
  simp [Mod.copies]

theorem reportsCopies_copying (t : Tracker) (copies : List (Spot × Spot)) :
    ReportsCopies (copying round t copies) := by
  induction copies generalizing t with
  | nil => exact reportsCopies_nil
  | cons copy rest ih =>
    have hrest := ih (t.advanceBy round).1
    rw [copying]
    cases (t.advanceBy round).2 with
    | none => exact hrest.cons rfl
    | some p => exact hrest.report rfl p

theorem climb_copying (t : Tracker) (copies : List (Spot × Spot)) :
    Climb t.last ((copying round t copies).filterMap Request.share?)
      (t.counted round copies.length).last := by
  induction copies generalizing t with
  | nil => exact .stay t.last
  | cons copy rest ih =>
    have hrest := ih (t.advanceBy round).1
    rw [Tracker.counted_advanceBy] at hrest
    rw [copying, List.filterMap_cons_none rfl, List.filterMap_append]
    rcases t.tells_advanceBy round with ⟨hlt, hreport, hlast⟩ | ⟨-, hreport, hlast⟩
    · rw [hlast] at hrest
      rw [hreport]
      exact .step hlt hrest
    · rw [hlast] at hrest
      rw [hreport]
      exact hrest

theorem reported_copying (hbefore : ∀ request ∈ before, request.IsQuiet) (t : Tracker)
    (copies : List (Spot × Spot)) : Reported (before ++ copying round t copies) where
  grow := by
    rw [List.filterMap_append, filterMap_share?_quiet hbefore, List.nil_append]
    exact (climb_copying t copies).pairwise
  reportsCopies := (reportsCopies_copying t copies).quiet_append hbefore

theorem copying_append (t : Tracker) (copies copies' : List (Spot × Spot)) :
    copying round t (copies ++ copies') =
      copying round t copies ++ copying round (t.counted round copies.length) copies' := by
  induction copies generalizing t with
  | nil => rfl
  | cons copy rest ih =>
    rw [List.cons_append, copying, copying, ih, Tracker.counted_advanceBy, List.cons_append,
      List.append_assoc]
    rfl

theorem filter_isCopy_copying (t : Tracker) (copies : List (Spot × Spot)) :
    (copying round t copies).filter Request.isCopy = copies.map copyRequest := by
  induction copies generalizing t with
  | nil => rfl
  | cons copy rest ih =>
    have hreport : (announced (t.advanceBy round).2).filter Request.isCopy = [] := by
      cases (t.advanceBy round).2 <;> rfl
    rw [copying, List.filter_cons_of_pos rfl, List.filter_append, hreport, List.nil_append, ih,
      List.map_cons]

theorem fullAtEnd_of_quiet (h : ∀ request ∈ before, request.IsQuiet) : FullAtEnd before where
  full request hrequest hcopy := by
    rw [(h request hrequest).1] at hcopy
    cases hcopy
  last first after heq request hrequest := (h request (by rw [heq]; simp [hrequest])).1

theorem fullAtEnd_copying_iff (h : Fair round) (hbefore : ∀ request ∈ before, request.IsQuiet)
    (copies : List (Spot × Spot)) :
    FullAtEnd (before ++ copying round (.start copies.length 100) copies) ↔
      copies.length < 20000 := by
  rcases List.eq_nil_or_concat copies with rfl | ⟨copies, copy, rfl⟩
  · rw [copying, List.append_nil]
    exact iff_of_true (fullAtEnd_of_quiet hbefore) (by decide)
  rw [List.concat_eq_append, List.length_append, List.length_singleton]
  set k := copies.length
  set t := (Tracker.start (k + 1) 100).counted round k
  have hsplit : before ++ copying round (.start (k + 1) 100) (copies ++ [copy]) =
      before ++ copying round (.start (k + 1) 100) copies ++
        copyRequest copy :: announced (t.advanceBy round).2 := by
    rw [copying_append, ← List.append_assoc, copying, copying, List.append_nil]
  have htail : ∀ request ∈ announced (t.advanceBy round).2, request.isCopy = false := by
    intro request hrequest
    obtain ⟨p, -, rfl⟩ := List.mem_map.mp hrequest
    rfl
  have hquiet : Request.publish (.files 2 100) ∉ before := fun hmem =>
    nomatch (hbefore _ hmem).2
  rw [hsplit, fullAtEnd_iff rfl htail, mem_announced, List.mem_append, not_or]
  rw [← Tracker.reports_full_iff h k]
  refine ⟨fun hfull => hfull.2, fun hreport => ⟨⟨hquiet, fun hmem => ?_⟩, hreport⟩⟩
  have hbounds := (climb_copying (.start (k + 1) 100) copies).bounds.2 _
    (mem_filterMap_share?.mpr hmem)
  rcases t.tells_advanceBy round with ⟨hlt, hsome, -⟩ | ⟨-, hnone, -⟩
  · rw [Option.some.inj (hsome.symm.trans hreport)] at hlt
    exact absurd hlt hbounds.2.not_gt
  · exact nomatch hnone.symm.trans hreport

end Copying

section Merges

variable {m : Type → Type} [Monad m] {σ : Type} {E : Execution m σ} {c : Collaborators m}
  {game : Game} {target : Target} {source : Mod}

theorem tracker_of_copyFiles {t t' : Tracker} {files : List String} {w w' : σ}
    (h : E.attempt (c.copyFiles target source t files) w = (.ok t', w')) :
    t' = t.counted Number.nearest files.length := by
  induction files generalizing t w with
  | nil =>
    rw [Collaborators.copyFiles, E.attempt_pure] at h
    cases h
    rfl
  | cons file files ih =>
    unfold Collaborators.copyFiles at h
    obtain ⟨⟨⟩, w₁, -, h⟩ := E.attempt_bind_eq_ok.mp h
    dsimp only at h
    rw [List.length_cons, ← Tracker.counted_advanceBy, ← Tracker.advance_one]
    cases hreport : (t.advance 1).2 with
    | none =>
      rw [hreport] at h
      exact ih h
    | some p =>
      rw [hreport] at h
      obtain ⟨⟨⟩, w₂, -, h⟩ := E.attempt_bind_eq_ok.mp h
      exact ih h

variable [LawfulMonad m]

theorem asks_listed (mods : List Mod) (w : σ) :
    Asks E (c.recorded.listed game mods) (c.listed game mods) w
      (mods.map fun source => .listFiles source.path) :=
  Asks.mapM (fun source w => (asks_noted E rfl (c.listFiles source.path) w).bind fun _ w' _ =>
    asks_pure E _ w') mods w

theorem asks_copyFiles (t : Tracker) (files : List String) (w : σ) :
    Asks E (c.recorded.copyFiles target source t files) (c.copyFiles target source t files) w
      (copying Number.nearest t (source.copies target.descriptor.path files)) := by
  induction files generalizing t w with
  | nil => exact asks_pure E t w
  | cons file files ih =>
    unfold Collaborators.copyFiles
    refine (asks_noted E rfl _ w).bind fun _ w' _ => ?_
    dsimp only
    rw [← Tracker.advance_one]
    cases (t.advance 1).2 with
    | none => exact ih _ w'
    | some p => exact (asks_sure E (c.publish (.files 2 p)) w').bind fun _ w' _ => ih _ w'

theorem asks_copyMods (t : Tracker) (listed : List (Mod × List String)) (w : σ) :
    Asks E (c.recorded.copyMods target t listed) (c.copyMods target t listed) w
      (copying Number.nearest t
        (listed.flatMap fun entry => entry.1.copies target.descriptor.path entry.2)) := by
  induction listed generalizing t w with
  | nil => exact asks_pure E () w
  | cons entry listed ih =>
    obtain ⟨source, files⟩ := entry
    unfold Collaborators.copyMods
    rw [List.flatMap_cons, copying_append]
    refine (asks_copyFiles t files w).bind fun t' w' hfiles => ?_
    rw [tracker_of_copyFiles hfiles]
    have hlength : (source.copies target.descriptor.path files).length = files.length :=
      List.length_map _
    rw [hlength]
    exact ih _ w'

/-- A merge that makes a mod looks up what is installed, prepares the mod, lists the files of the
mods to merge, and copies them. -/
theorem requests_of_mergeFiles {collection : Collection} {name : String} {merged : Mod}
    {log : List Note} {w w' : σ}
    (h : (recordActs E).attempt (c.recorded.mergeFiles (some game) (some collection) name) ([], w) =
      (.ok (some merged), (log, w'))) :
    ∃ installed w₁ w₂ listed w₃, ∃ before : List Request,
      E.attempt (c.installedMods game) w = (.ok installed, w₁) ∧
        E.attempt (c.listed game (collection.merged installed)) w₂ = (.ok listed, w₃) ∧
        (∀ request ∈ before, request.IsQuiet) ∧
        log = (before ++ copying Number.nearest (.start (listed.flatMap (·.2)).length 100)
          (listed.flatMap fun entry => entry.1.copies merged.path entry.2)).map .done := by
  unfold Collaborators.mergeFiles at h
  dsimp only at h
  split at h
  · rw [(recordActs E).attempt_pure] at h
    cases h
  obtain ⟨installed, ⟨log₁, w₁⟩, hinstalled, h⟩ := (recordActs E).attempt_bind_eq_ok.mp h
  split at h
  · rw [(recordActs E).attempt_pure] at h
    cases h
  obtain ⟨target, ⟨log₂, w₂⟩, htarget, h⟩ := (recordActs E).attempt_bind_eq_ok.mp h
  obtain ⟨⟨⟩, ⟨log₃, w₃⟩, hstart, h⟩ := (recordActs E).attempt_bind_eq_ok.mp h
  obtain ⟨listed, ⟨log₄, w₄⟩, hlisted, h⟩ := (recordActs E).attempt_bind_eq_ok.mp h
  obtain ⟨⟨⟩, ⟨log₅, w₅⟩, hend, h⟩ := (recordActs E).attempt_bind_eq_ok.mp h
  obtain ⟨⟨⟩, ⟨log₆, w₆⟩, hcopies, h⟩ := (recordActs E).attempt_bind_eq_ok.mp h
  rw [(recordActs E).attempt_pure] at h
  cases h
  obtain ⟨hfound, rfl⟩ := (asks_installedMods E w).eq_of_ok hinstalled
  obtain ⟨-, rfl⟩ := (asks_prepare E installed w₁).eq_of_ok htarget
  obtain ⟨-, rfl⟩ := (asks_sure E (c.publish (.files 1 0)) w₂).eq_of_ok hstart
  obtain ⟨howned, rfl⟩ := (asks_listed (collection.merged installed) w₃).eq_of_ok hlisted
  obtain ⟨-, rfl⟩ := (asks_sure E (c.publish (.files 1 100)) w₄).eq_of_ok hend
  obtain ⟨-, rfl⟩ := (asks_copyMods _ listed w₅).eq_of_ok hcopies
  let before := c.lookups E game w ++ game.preparation name installed ++ [.publish (.files 1 0)] ++
    (collection.merged installed).map (fun source => .listFiles source.path) ++
      [.publish (.files 1 100)]
  refine ⟨installed, w₁, w₃, listed, w₄, before, hfound, howned, ?_, ?_⟩
  · simp only [before, List.forall_mem_append]
    refine ⟨⟨⟨⟨fun request hmem => isQuiet_of_isLookup (isLookup_of_mem_lookups E hmem), ?_⟩, ?_⟩,
      ?_⟩, ?_⟩
    all_goals simp [Game.preparation, Game.clearing, Game.announcement, Request.IsQuiet,
      Request.isCopy, Request.share?]
  · simp [before]

theorem exists_copying_of_mergeFiles {game : Option Game} {collection : Option Collection}
    {name : String} {made : Option Mod} {log : List Note} {w w' : σ}
    (h : (recordActs E).attempt (c.recorded.mergeFiles game collection name) ([], w) =
      (.ok made, (log, w'))) :
    ∃ before copies, (∀ request ∈ before, request.IsQuiet) ∧
      log = (before ++ copying Number.nearest (.start copies.length 100) copies).map .done := by
  cases made with
  | none =>
    obtain ⟨before, hlookup, rfl⟩ := exists_lookups_of_mergeFiles h
    refine ⟨before, [], fun request hmem => isQuiet_of_isLookup (hlookup request hmem), ?_⟩
    rw [copying, List.append_nil]
  | some merged =>
    match game, collection with
    | none, _ => exact nomatch ((recordActs E).attempt_pure none _).symm.trans h
    | some _, none => exact nomatch ((recordActs E).attempt_pure none _).symm.trans h
    | some game, some collection =>
      obtain ⟨-, -, -, listed, -, before, -, -, hbefore, hlog⟩ := requests_of_mergeFiles h
      refine ⟨before, listed.flatMap fun entry => entry.1.copies merged.path entry.2, hbefore, ?_⟩
      rw [hlog, length_copies]

/-- The percentages that a merge file by file publishes of its copies grow, and each is published
right after a copy. 100 is published after the last copy, and not before it, exactly if fewer than
20000 files are copied. The same holds where the shares are exact and not in double precision. -/
theorem copies_reported {game : Option Game} {collection : Option Collection} {name : String}
    {made : Option Mod} {log : List Note} {w w' : σ}
    (h : (recordActs E).attempt (c.recorded.mergeFiles game collection name) ([], w) =
      (.ok made, (log, w'))) :
    ∃ before copies, (∀ request ∈ before, request.IsQuiet) ∧
      log = (before ++ copying Number.nearest (.start copies.length 100) copies).map .done ∧
      ∀ round ∈ [Number.nearest, id],
        let requests := before ++ copying round (.start copies.length 100) copies
        Reported requests ∧ (FullAtEnd requests ↔ copies.length < 20000) := by
  obtain ⟨before, copies, hbefore, hlog⟩ := exists_copying_of_mergeFiles h
  refine ⟨before, copies, hbefore, hlog, fun round hround => ?_⟩
  have hfair : Fair round := by
    rcases List.mem_pair.mp hround with rfl | rfl
    · exact fair_nearest
    · exact fair_id
  exact ⟨reported_copying hbefore _ copies, fullAtEnd_copying_iff hfair hbefore copies⟩

end Merges

/-- One mod is installed, which has these files, and nothing fails. -/
def Collaborators.ofFiles (files : List String) : Collaborators (StateM Unit) :=
  { Collaborators.idle with
    installed := fun _ => return [modOfFile]
    listFiles := fun _ => return files }

def mergeOfFiles (files : List String) : Except Error (Option Mod) × List Note × Unit :=
  (recordActs (.ofState Unit)).attempt ((Collaborators.ofFiles files).recorded.mergeFiles
    (some (gameOfFolders ["c"])) (some ⟨"c", ["a"]⟩) "New") ([], ())

theorem owns_files (name : String) : (gameOfFolders ["c"]).owns ("c/" ++ name) := by
  simp only [Game.owns, underAny, gameOfFolders, Text.lowercase, Text.forwardSlashes,
    String.toList_ofList, String.toList_append, List.any_cons, List.any_nil]
  rfl

theorem exists_copyMods_eq_ok {m : Type → Type} [Monad m] [LawfulMonad m] {σ : Type}
    {E : Execution m σ} {c : Collaborators m}
    (hc : ∀ root file path w, ∃ w', E.attempt (c.exportFile root file path) w = (.ok (), w'))
    (target : Target) (t : Tracker) (listed : List (Mod × List String)) (w : σ) :
    ∃ w', E.attempt (c.copyMods target t listed) w = (.ok (), w') := by
  have hfiles (source : Mod) (t : Tracker) (files : List String) (w : σ) :
      ∃ t' w', E.attempt (c.copyFiles target source t files) w = (.ok t', w') := by
    induction files generalizing t w with
    | nil => exact ⟨t, w, E.attempt_pure t w⟩
    | cons file files ih =>
      unfold Collaborators.copyFiles
      obtain ⟨w₁, hcopy⟩ := hc source.path file target.descriptor.path w
      rw [E.attempt_bind, hcopy]
      dsimp only
      cases (t.advance 1).2 with
      | none => exact ih _ w₁
      | some p =>
        dsimp only
        rw [E.attempt_bind, E.attempt_lift]
        exact ih _ _
  induction listed generalizing t w with
  | nil => exact ⟨w, E.attempt_pure () w⟩
  | cons entry listed ih =>
    obtain ⟨t', w₁, hcopies⟩ := hfiles entry.1 t entry.2 w
    unfold Collaborators.copyMods
    rw [E.attempt_bind, hcopies]
    exact ih t' w₁

theorem exists_mergeOfFiles_eq_ok (files : List String) :
    ∃ merged log, mergeOfFiles files = (.ok (some merged), (log, ())) := by
  let acts := recordActs (.ofState Unit)
  let c := (Collaborators.ofFiles files).recorded
  let game := gameOfFolders ["c"]
  let target := game.target "New" [modOfFile]
  let listed := [(modOfFile, files.filter game.owns)]
  obtain ⟨w₁, hinstalled⟩ : ∃ w', acts.attempt (c.installedMods game) ([], ()) =
      (.ok [modOfFile], w') := ⟨_, rfl⟩
  obtain ⟨w₂, hprepared⟩ : ∃ w', acts.attempt (c.prepare game "New" [modOfFile]) w₁ =
      (.ok target, w') := ⟨_, rfl⟩
  have hpublish (p : Percent) (w : List Note × Unit) : ∃ w',
      acts.attempt (liftM (c.publish (.files 1 p)) : ExceptT Error _ Unit) w = (.ok (), w') :=
    ⟨_, rfl⟩
  obtain ⟨w₃, hstart⟩ := hpublish 0 w₂
  obtain ⟨w₄, hlisted⟩ : ∃ w', acts.attempt (c.listed game [modOfFile]) w₃ = (.ok listed, w') :=
    ⟨_, rfl⟩
  obtain ⟨w₅, hend⟩ := hpublish 100 w₄
  obtain ⟨⟨log, ⟨⟩⟩, hcopied⟩ := exists_copyMods_eq_ok (E := acts) (c := c)
    (fun root file path w => ⟨_, attempt_noted _ _ _ _ _⟩) target
    (.start (listed.flatMap (·.2)).length 100) listed w₅
  refine ⟨target.descriptor, log, ?_⟩
  unfold mergeOfFiles Collaborators.mergeFiles
  dsimp only
  rw [if_neg (by decide)]
  refine acts.attempt_bind_eq_ok.mpr ⟨_, w₁, hinstalled, ?_⟩
  rw [if_neg (by decide)]
  refine acts.attempt_bind_eq_ok.mpr ⟨_, w₂, hprepared, ?_⟩
  refine acts.attempt_bind_eq_ok.mpr ⟨_, w₃, hstart, ?_⟩
  refine acts.attempt_bind_eq_ok.mpr ⟨_, w₄, hlisted, ?_⟩
  refine acts.attempt_bind_eq_ok.mpr ⟨_, w₅, hend, ?_⟩
  exact acts.attempt_bind_eq_ok.mpr ⟨_, _, hcopied, acts.attempt_pure _ _⟩

theorem copies_reported_threeFiles :
    ∃ merged log, mergeOfFiles ["c/0", "c/1", "c/2"] = (.ok (some merged), (log, ())) ∧
      (log.map Note.request).filterMap Request.share? =
        [.of (Number.nearest (3333 / 100)), .of (Number.nearest (6667 / 100)), 100] ∧
      Reported (log.map Note.request) ∧ FullAtEnd (log.map Note.request) := by
  obtain ⟨merged, log, hrun⟩ := exists_mergeOfFiles_eq_ok ["c/0", "c/1", "c/2"]
  obtain ⟨before, copies, hbefore, hlog, hall⟩ := copies_reported hrun
  obtain ⟨hreported, hfull⟩ := hall Number.nearest List.mem_cons_self
  have hrequests : log.map Note.request =
      before ++ copying Number.nearest (.start copies.length 100) copies := by
    rw [hlog, map_request_done]
  have hlog' : log = (mergeOfFiles ["c/0", "c/1", "c/2"]).2.1 := by rw [hrun]
  have hcount : ((log.map Note.request).filter Request.isCopy).length = 3 := by
    rw [hlog']
    decide +kernel
  have hthree : copies.length = 3 := by
    have hquiet : before.filter Request.isCopy = [] :=
      List.filter_eq_nil_iff.mpr fun request hmem => by simp [(hbefore request hmem).1]
    rw [hrequests, List.filter_append, hquiet, filter_isCopy_copying] at hcount
    simpa using hcount
  refine ⟨merged, log, hrun, ?_, hrequests ▸ hreported, hrequests ▸ hfull.mpr (by omega)⟩
  rw [hlog']
  decide +kernel

def manyFiles : List String := (List.range 20000).map fun i => "c/" ++ toString i

/-- Of 20000 files 100 is published before the last is copied, in exact arithmetic as well. -/
theorem mergeOfManyFiles_not_fullAtEnd :
    ∃ merged log, mergeOfFiles manyFiles = (.ok (some merged), (log, ())) ∧ ∃ before copies,
      log = (before ++ copying Number.nearest (.start copies.length 100) copies).map .done ∧
      ¬FullAtEnd (before ++ copying Number.nearest (.start copies.length 100) copies) ∧
      ¬FullAtEnd (before ++ copying id (.start copies.length 100) copies) := by
  obtain ⟨merged, log, hrun⟩ := exists_mergeOfFiles_eq_ok manyFiles
  obtain ⟨installed, w₁, w₂, listed, w₃, before, hinstalled, hlisted, hbefore, hlog⟩ :=
    requests_of_mergeFiles hrun
  cases hinstalled
  have howned : manyFiles.filter (gameOfFolders ["c"]).owns = manyFiles := by
    refine List.filter_eq_self.mpr fun file hfile => ?_
    obtain ⟨i, -, rfl⟩ := List.mem_map.mp hfile
    exact owns_files _
  obtain rfl : listed = [(modOfFile, manyFiles)] := by
    cases hlisted
    rw [howned]
    rfl
  rw [← length_copies merged.path] at hlog
  set copies := [(modOfFile, manyFiles)].flatMap fun entry => entry.1.copies merged.path entry.2
  have hmany : ¬copies.length < 20000 := by simp [copies, Mod.copies, manyFiles]
  exact ⟨merged, log, hrun, before, copies, hlog,
    mt (fullAtEnd_copying_iff fair_nearest hbefore copies).mp hmany,
    mt (fullAtEnd_copying_iff fair_id hbefore copies).mp hmany⟩

end LoadOrder

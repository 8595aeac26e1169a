import LoadOrder.Proofs.Merge.Chosen

namespace LoadOrder

theorem exists_split_of_keepLast {entries kept : List Definition} {e : Definition}
    (h : keepLast entries = e :: kept) :
    ∃ before after, entries = before ++ e :: after ∧
      (∀ later ∈ after, ¬later.sameSlot e) ∧
      ∀ earlier ∈ before, ∃ later ∈ e :: after, later.sameSlot earlier := by
  induction entries with
  | nil => cases h
  | cons d rest ih =>
    rw [keepLast] at h
    split at h
    · next hany =>
      obtain ⟨before, after, rfl, hstands, hreplaced⟩ := ih h
      refine ⟨d :: before, after, rfl, hstands, List.forall_mem_cons.mpr ⟨?_, hreplaced⟩⟩
      obtain ⟨later, hlater, hslot⟩ := List.any_eq_true.mp hany
      rcases List.mem_append.mp hlater with hbefore | hafter
      · obtain ⟨last, hlast, hsame⟩ := hreplaced later hbefore
        exact ⟨last, hlast, Definition.sameSlot_trans hsame hslot⟩
      · exact ⟨later, hafter, hslot⟩
    · next hnone =>
      obtain ⟨rfl, rfl⟩ := List.cons.inj h
      rw [Bool.not_eq_true, List.any_eq_false] at hnone
      exact ⟨[], rest, rfl, hnone, fun _ hmem => absurd hmem List.not_mem_nil⟩

theorem after_eq_nil_iff {before after : List Definition} {e last : Definition}
    (hstands : ∀ later ∈ after, ¬later.sameSlot e)
    (hreplaced : ∀ earlier ∈ before, ∃ later ∈ e :: after, later.sameSlot earlier)
    (hlast : (before ++ e :: after).getLast? = some last) :
    after = [] ↔ ∀ entry ∈ before ++ e :: after, entry.sameSlot last := by
  have hmem : last ∈ e :: after := by
    rw [List.getLast?_append_of_ne_nil _ (List.cons_ne_nil _ _)] at hlast
    exact List.mem_of_getLast? hlast
  constructor
  · rintro rfl entry hentry
    obtain rfl := List.mem_singleton.mp hmem
    rcases List.mem_append.mp hentry with hbefore | hentry
    · obtain ⟨later, hlater, hslot⟩ := hreplaced entry hbefore
      rw [List.mem_singleton.mp hlater, Definition.sameSlot_comm] at hslot
      exact hslot
    · rw [List.mem_singleton.mp hentry]
      exact Definition.sameSlot_iff.mpr ⟨rfl, rfl, rfl⟩
  · intro hall
    rw [List.eq_nil_iff_forall_not_mem]
    intro later hlater
    have hslot := hall later (List.mem_append_right _ (List.mem_cons_of_mem _ hlater))
    have hsame := hall e (List.mem_append_right _ List.mem_cons_self)
    rw [Definition.sameSlot_comm] at hsame
    exact hstands later hlater (Definition.sameSlot_trans hslot hsame)

namespace Setting

variable {s : Setting} {d : Definition} {entries : List Definition}

theorem latestCode_eq (hhistory : s.history = .build entries false) :
    s.latestCode d =
      ((keepLast (entries.filter (·.identity == d.identity))).head?.map (·.code)).getD d.code := by
  have hidentity {a b : Definition} (hslot : a.sameSlot b) :
      (a.identity == d.identity) = (b.identity == d.identity) := by
    rw [(Definition.sameSlot_iff.mp hslot).2.2]
  have hall : (Index.build entries false).all = keepLast entries := rfl
  rw [latestCode, hhistory, Index.withIdentity_build, lowercase_identity, hall,
    filter_keepLast hidentity]

/-- If the history has an entry of the identity, the latest code is that of the first one that no
later one of its mod and file replaces. -/
theorem exists_latestCode (hhistory : s.history = .build entries false) {last : Definition}
    (hlast : (entries.filter (·.identity == d.identity)).getLast? = some last) :
    ∃ before e after, entries.filter (·.identity == d.identity) = before ++ e :: after ∧
      (∀ later ∈ after, ¬later.sameSlot e) ∧
      (∀ earlier ∈ before, ∃ later ∈ e :: after, later.sameSlot earlier) ∧
      s.latestCode d = e.code ∧
      (after = [] ↔ ∀ entry ∈ entries.filter (·.identity == d.identity),
        entry.modName = last.modName ∧ entry.fileKey = last.fileKey) := by
  cases hkept : keepLast (entries.filter (·.identity == d.identity)) with
  | nil =>
    obtain ⟨kept, hmem, -⟩ := exists_mem_keepLast (List.mem_of_getLast? hlast)
    rw [hkept] at hmem
    cases hmem
  | cons e kept =>
    obtain ⟨before, after, hentries, hstands, hreplaced⟩ := exists_split_of_keepLast hkept
    have hcode : s.latestCode d = e.code := by
      rw [latestCode_eq hhistory, hkept]
      rfl
    refine ⟨before, e, after, hentries, hstands, hreplaced, hcode, ?_⟩
    rw [after_eq_nil_iff hstands hreplaced (hentries ▸ hlast), ← hentries]
    -- all the entries are of one identity, so being in one slot is having one mod and file
    have hidentity : ∀ entry ∈ entries.filter (·.identity == d.identity),
        entry.identity = d.identity := fun entry hentry => eq_of_beq (List.mem_filter.mp hentry).2
    refine forall₂_congr fun entry hentry => ?_
    rw [Definition.sameSlot_iff, hidentity entry hentry,
      hidentity last (List.mem_of_getLast? hlast)]
    simp only [and_true]

theorem harvestChosen_of_rereads {h : Harvest} (hdone : d.identity ∉ h.done)
    (hkind : d.kind ≠ .binary) :
    s.harvestChosen h d = (reread s.rules d (s.latestCode d)).foldl Harvest.push h := by
  rw [harvestChosen, if_neg (by simpa using hdone), if_neg hkind]

/-- A chosen definition that is no copied file and not exported yet is exported with what its latest
code has. This is its own code if the history has no entry of its identity. Otherwise it is the code
of the first entry that no later one of the same mod and file replaces: of the last entry exactly if
all are of one mod and file. -/
theorem harvestGroup_rereads_standing (analysis : Analysis) (state : PatchState)
    (modOrder : List String) (rules : Option Rules) (policy : DuplicatePolicy) (file : String)
    (h : Harvest) (first : Definition) (rest : List Definition)
    (hchosen : ∃ d ∈ state.resolved, d.identity = first.identity) :
    let s := Setting.of analysis state modOrder rules policy
    let chosen := state.resolved.filter (·.identity == first.identity)
    let entries := state.history.filter (·.identity == first.identity)
    s.harvestGroup file h (first :: rest) = chosen.foldl s.harvestChosen h ∧
    ∀ d ∈ chosen,
      (∀ h : Harvest, d.identity ∉ h.done → d.kind ≠ .binary →
        s.harvestChosen h d = (reread rules d (s.latestCode d)).foldl Harvest.push h) ∧
      (entries = [] → s.latestCode d = d.code) ∧
      ∀ last, entries.getLast? = some last →
        ∃ before e after, entries = before ++ e :: after ∧
          (∀ later ∈ after, ¬later.sameSlot e) ∧
          (∀ earlier ∈ before, ∃ later ∈ e :: after, later.sameSlot earlier) ∧
          s.latestCode d = e.code ∧
          (after = [] ↔ ∀ entry ∈ entries,
            entry.modName = last.modName ∧ entry.fileKey = last.fileKey) := by
  intro s chosen entries
  have hresolved : s.analysis.resolved.withIdentity first.identity = chosen := by
    have hbuild := Index.withIdentity_build state.resolved true first.identity
    rwa [lowercase_identity] at hbuild
  obtain ⟨stored, hstored, hidentity⟩ := hchosen
  have hne : chosen ≠ [] :=
    List.ne_nil_of_mem (List.mem_filter.mpr ⟨hstored, beq_iff_eq.mpr hidentity⟩)
  refine ⟨?_, fun d hd => ?_⟩
  · simp only [harvestGroup, hresolved]
    rw [if_pos (by simpa using hne)]
  have hhistory : s.history = .build state.history false := rfl
  have hentries : state.history.filter (·.identity == d.identity) = entries := by
    rw [eq_of_beq (List.mem_filter.mp hd).2]
  refine ⟨fun h hdone hkind => harvestChosen_of_rereads hdone hkind, fun hnil => ?_,
    fun last hlast => ?_⟩
  · rw [latestCode_eq hhistory, hentries, hnil]
    rfl
  · have hlatest := exists_latestCode hhistory (hentries ▸ hlast)
    rwa [hentries] at hlatest

def choice (modName code : String) : Definition := { objectOf modName "t/a.txt" with code }

def mergeAfter (history : List Definition) : Setting :=
  let chosen := choice "A" "x = 0"
  .of (.of (.build [chosen] false) ["A"] none)
    { PatchState.blank with resolved := [chosen], history } ["A"] none .oncePerIdentity

theorem harvestGroup_rereads_later_sameMod :
    let history := [choice "A" "x = 1", choice "A" "x = 2"]
    (∃ d ∈ [choice "A" "x = 0"], d.identity = (choice "A" "x = 0").identity) ∧
      (mergeAfter history).latestCode (choice "A" "x = 0") = "x = 2" := by
  intro history
  have hchosen : ∃ d ∈ [choice "A" "x = 0"], d.identity = (choice "A" "x = 0").identity :=
    ⟨_, List.mem_singleton_self _, rfl⟩
  refine ⟨hchosen, ?_⟩
  have hrereads := harvestGroup_rereads_standing
    (.of (.build [choice "A" "x = 0"] false) ["A"] none)
    { PatchState.blank with resolved := [choice "A" "x = 0"], history } ["A"] none
    .oncePerIdentity "t/a.txt" ⟨[], []⟩ (choice "A" "x = 0") [] hchosen
  have hentries : history.filter (·.identity == (choice "A" "x = 0").identity) = history :=
    List.filter_eq_self.mpr (by decide +kernel)
  have hmem : choice "A" "x = 0" ∈
      [choice "A" "x = 0"].filter (·.identity == (choice "A" "x = 0").identity) :=
    List.mem_filter.mpr ⟨List.mem_singleton_self _, beq_self_eq_true _⟩
  obtain ⟨-, -, hlast⟩ := hrereads.2 _ hmem
  dsimp only at hlast
  rw [hentries] at hlast
  obtain ⟨before, e, after, hsplit, -, -, hcode, hall⟩ := hlast (choice "A" "x = 2") rfl
  have hnil : after = [] := hall.mpr (by decide +kernel)
  rw [hnil] at hsplit
  have he : e = choice "A" "x = 2" := by
    have hend := congrArg List.getLast? hsplit
    simpa [history] using hend.symm
  rw [he] at hcode
  exact hcode

/-- Of two choices in two mods the earlier one is exported. -/
theorem harvestGroup_loses_later_otherMod :
    let history := [choice "A" "x = 1", choice "B" "x = 2"]
    let s := mergeAfter history
    (history.filter (·.identity == (choice "A" "x = 0").identity)).getLast?.map (·.code) =
        some "x = 2" ∧
      s.latestCode (choice "A" "x = 0") = "x = 1" ∧
      s.plan.flatMap (fun p => p.exported.map (·.code)) = ["x = 1"] := by
  decide +kernel

end Setting

end LoadOrder

import LoadOrder.Proofs.Merge.Once

namespace LoadOrder

/-- The same definition, up to its code and its place in the file. -/
def IsCopy (d e : Definition) : Prop := ∃ d' n, SameButCode d d' ∧ e = d'.withOrder n

def HasCopy (d : Definition) (exported : List Definition) : Prop := ∃ e ∈ exported, IsCopy d e

theorem isCopy_of_sameButCode {d e : Definition} (h : SameButCode d e) : IsCopy d e :=
  ⟨e, e.order, h, e.withOrder_order.symm⟩

theorem IsCopy.isSupport_eq {d e : Definition} (h : IsCopy d e) : e.isSupport = d.isSupport := by
  obtain ⟨d', n, hcode, rfl⟩ := h
  exact hcode.isSupport_eq

theorem IsCopy.sameSlot {d e : Definition} (h : IsCopy d e) : d.sameSlot e = true := by
  obtain ⟨-, n, ⟨code, originalCode, rfl⟩, rfl⟩ := h
  rw [Definition.sameSlot_iff]
  exact ⟨rfl, rfl, rfl⟩

theorem isCopy_withOrder_iff {d e : Definition} (n : Nat) :
    IsCopy d (e.withOrder n) ↔ IsCopy d e := by
  constructor
  · rintro ⟨d', m, hcode, he⟩
    have hback : e = (d'.withOrder m).withOrder e.order := by
      rw [← he]
      exact e.withOrder_order.symm
    exact ⟨d', e.order, hcode, hback⟩
  · rintro ⟨d', m, hcode, rfl⟩
    exact ⟨d', n, hcode, rfl⟩

theorem hasCopy_append {d : Definition} {l l' : List Definition} :
    HasCopy d (l ++ l') ↔ HasCopy d l ∨ HasCopy d l' := by
  simp only [HasCopy, List.mem_append, or_and_right, exists_or]

theorem not_hasCopy_of_support {d : Definition} {l : List Definition} (hd : d.isSupport = false)
    (h : ∀ e ∈ l, e.isSupport) : ¬ HasCopy d l := by
  rintro ⟨e, he, hcopy⟩
  have hsupport := h e he
  rw [hcopy.isSupport_eq, hd] at hsupport
  cases hsupport

namespace Setting

section Orphans

variable {definitions : List Definition} {modOrder : List String} {rules : Option Rules}
  {policy : DuplicatePolicy} {file k : String} {o : Definition}

theorem hasCopy_push (h : Harvest) {d : Definition}
    (ho : o ∈ (unpatched definitions modOrder rules policy).analysis.all.all)
    (hobject : o.isSupport = false)
    (hd : d ∈ (unpatched definitions modOrder rules policy).analysis.all.all) :
    HasCopy o (h.push d).exported ↔ HasCopy o h.exported ∨ o = d := by
  obtain ⟨⟨added, hadded, hsupport⟩, hsame⟩ := foldSupport_extends h.exported d
  have hnone : ¬ HasCopy o added := not_hasCopy_of_support hobject hsupport
  have hlast : HasCopy o [(foldSupport h.exported d).2] ↔ o = d := by
    simp only [HasCopy, List.mem_singleton, exists_eq_left]
    constructor
    · intro hcopy
      apply eq_of_sameSlot ho hd
      rw [Definition.sameSlot_iff]
      have hpushed := (isCopy_of_sameButCode hsame).sameSlot
      have hcopied := hcopy.sameSlot
      rw [Definition.sameSlot_iff] at hpushed hcopied
      simp only [hpushed, hcopied, and_self]
    · rintro rfl
      exact isCopy_of_sameButCode hsame
  rw [Harvest.exported_push, hadded, hasCopy_append, hasCopy_append, hlast, or_iff_left hnone]

/-- `d` wins among the objects that compete for an identity in a file. -/
def Wins (s : Setting) (k file : String) (d : Definition) : Prop :=
  ∃ why, winner? (s.competitors k file) s.rules = some (d, why)

theorem Wins.eq {s : Setting} {d d' : Definition} (h : s.Wins k file d) (h' : s.Wins k file d') :
    d = d' := by
  obtain ⟨why, hwhy⟩ := h
  obtain ⟨why', hwhy'⟩ := h'
  rw [hwhy] at hwhy'
  simp only [Option.some.injEq, Prod.mk.injEq] at hwhy'
  exact hwhy'.1

/-- One of some groups begins with an object of an identity, and is not lost. -/
def Survives (s : Setting) (k : String) (groups : List (List Definition)) : Prop :=
  ∃ group ∈ groups, group.head?.map Definition.identity = some k ∧
    ¬ isLost s.analysis.orphans group

theorem survives_cons {s : Setting} {group : List Definition} {groups : List (List Definition)} :
    s.Survives k (group :: groups) ↔ s.Survives k [group] ∨ s.Survives k groups := by
  simp [Survives]

/-- A file exports an identity that survives in it, unless one of the files before has exported it
already and the policy does not want it again. -/
def Exports (s : Setting) (k file : String) : Prop :=
  s.Survives k (s.objectGroups file) ∧
    (s.repeats k ∨ ∀ earlier ∈ s.analysis.all.files, earlier < file →
      ¬ s.Survives k (s.objectGroups earlier))

theorem isLost_singleton_iff
    (ho : o ∈ (unpatched definitions modOrder rules policy).analysis.all.all) :
    isLost (unpatched definitions modOrder rules policy).analysis.orphans [o] ↔
      o ∈ (unpatched definitions modOrder rules policy).analysis.orphans.all := by
  have hshipped : ∀ d ∈ [o],
      d ∈ (unpatched definitions modOrder rules policy).shipped o.identity := by
    intro d hd
    rw [List.mem_singleton] at hd
    subst hd
    exact mem_shipped.mpr ⟨ho, rfl⟩
  rw [isLost_iff hshipped]
  simp

/-- What one group adds: the winner of its identity, if it is not lost. -/
theorem harvestGroup_iff {first : Definition} {rest : List Definition}
    (hg : (unpatched definitions modOrder rules policy).IsObjectGroup file first rest)
    (ho : o ∈ (unpatched definitions modOrder rules policy).analysis.all.all)
    (hobject : o.isSupport = false) (h : Harvest) :
    let s := unpatched definitions modOrder rules policy
    let h' := s.harvestGroup file h (first :: rest)
    (HasCopy o h'.exported ↔ HasCopy o h.exported ∨ s.Survives o.identity [first :: rest] ∧
      (s.repeats o.identity ∨ o.identity ∉ h.done) ∧ s.Wins o.identity file o) ∧
    ∀ k, k ∈ h'.done ↔ k ∈ h.done ∨ s.Survives k [first :: rest] := by
  intro s h'
  obtain ⟨hshipped, rfl, -⟩ := (hg.mem_iff first).mp List.mem_cons_self
  have hfirst := (mem_shipped.mp hshipped).1
  obtain ⟨d, hd, hbrings, hwins⟩ :=
    @exists_brings_winner definitions modOrder rules policy first rest hfirst hg.object
  obtain ⟨hdmem, hidentity⟩ := mem_shipped.mp (mem_objectsOf.mp hd).1
  have hstep : h' = if isLost s.analysis.orphans (first :: rest) then h
      else if s.repeats first.identity || !h.done.contains first.identity then h.push d else h :=
    hbrings h
  have hsurvives : ∀ k, s.Survives k [first :: rest] ↔
      first.identity = k ∧ ¬ isLost s.analysis.orphans (first :: rest) := by
    intro k
    simp [Survives]
  by_cases hlost : isLost s.analysis.orphans (first :: rest)
  · have hnone : ∀ k, ¬ s.Survives k [first :: rest] := fun k hk => ((hsurvives k).mp hk).2 hlost
    rw [hstep, if_pos hlost]
    simp [hnone]
  · rw [if_neg hlost] at hstep
    simp only [hsurvives, and_iff_left hlost]
    by_cases hpush : s.repeats first.identity ∨ first.identity ∉ h.done
    · rw [if_pos (by simpa using hpush)] at hstep
      rw [hstep]
      constructor
      · rw [hasCopy_push h ho hobject hdmem]
        apply or_congr_right
        constructor
        · rintro rfl
          rw [hidentity]
          exact ⟨rfl, hpush, hwins⟩
        · rintro ⟨hk, -, howins⟩
          rw [← hk] at howins
          exact howins.eq hwins
      · intro k
        rw [Harvest.mem_done_push, hidentity, or_comm, eq_comm]
    · rw [if_neg (by simpa using hpush)] at hstep
      rw [hstep]
      constructor
      · apply (or_iff_left ?_).symm
        rintro ⟨hk, hagain, -⟩
        rw [← hk] at hagain
        exact hpush hagain
      · intro k
        apply (or_iff_left_of_imp ?_).symm
        rintro rfl
        simpa using fun hdone => hpush (.inr hdone)

theorem foldl_harvestGroup_iff {groups : List (List Definition)}
    (hgroups : ∀ group ∈ groups, ∃ first rest, group = first :: rest ∧
      (unpatched definitions modOrder rules policy).IsObjectGroup file first rest)
    (ho : o ∈ (unpatched definitions modOrder rules policy).analysis.all.all)
    (hobject : o.isSupport = false) (h : Harvest) :
    let s := unpatched definitions modOrder rules policy
    let h' := groups.foldl (s.harvestGroup file) h
    (HasCopy o h'.exported ↔ HasCopy o h.exported ∨ s.Survives o.identity groups ∧
      (s.repeats o.identity ∨ o.identity ∉ h.done) ∧ s.Wins o.identity file o) ∧
    ∀ k, k ∈ h'.done ↔ k ∈ h.done ∨ s.Survives k groups := by
  intro s
  induction groups generalizing h with
  | nil => simp [Survives]
  | cons group groups ih =>
    rw [List.forall_mem_cons] at hgroups
    obtain ⟨⟨first, rest, rfl, hg⟩, hgroups⟩ := hgroups
    obtain ⟨hcopy, hdone⟩ := harvestGroup_iff hg ho hobject h
    obtain ⟨hcopies, hmarks⟩ := ih hgroups (s.harvestGroup file h (first :: rest))
    simp only [List.foldl_cons]
    rw [survives_cons, hcopies, hcopy, hdone]
    refine ⟨?_, fun k => ?_⟩
    · -- an identity that survives in both the group and later ones has the same winner there
      grind
    · rw [hmarks, hdone, or_assoc, ← survives_cons]

theorem planFile_iff (hfile : Text.lowercase file = file)
    (ho : o ∈ (unpatched definitions modOrder rules policy).analysis.all.all)
    (hobject : o.isSupport = false) (done : List String) :
    let s := unpatched definitions modOrder rules policy
    (HasCopy o (s.planFile done file).2.exported ↔ s.Survives o.identity (s.objectGroups file) ∧
      (s.repeats o.identity ∨ o.identity ∉ done) ∧ s.Wins o.identity file o) ∧
    ∀ k, k ∈ (s.planFile done file).1 ↔ k ∈ done ∨ s.Survives k (s.objectGroups file) := by
  intro s
  let h := (s.objectGroups file).foldl (s.harvestGroup file) ⟨done, []⟩
  have hnothing : ¬ HasCopy o [] := by simp [HasCopy]
  obtain ⟨hcopy, hdone⟩ := foldl_harvestGroup_iff (fun _ => exists_of_mem_objectGroups hfile)
    ho hobject ⟨done, []⟩
  refine ⟨?_, hdone⟩
  rw [or_iff_right hnothing] at hcopy
  rw [← hcopy]
  change HasCopy o (if onlySupport h.exported then [] else h.exported) ↔ HasCopy o h.exported
  split
  · next honly =>
    have hnone := not_hasCopy_of_support hobject (List.all_eq_true.mp honly)
    exact iff_of_false hnothing hnone
  · exact Iff.rfl

theorem planFiles_iff {files : List String} (hfiles : ∀ file ∈ files, Text.lowercase file = file)
    (hasc : files.Pairwise (· < ·))
    (ho : o ∈ (unpatched definitions modOrder rules policy).analysis.all.all)
    (hobject : o.isSupport = false) (done : List String) :
    let s := unpatched definitions modOrder rules policy
    ∀ p ∈ s.planFiles done files, HasCopy o p.exported ↔
      s.Survives o.identity (s.objectGroups p.file) ∧
      (s.repeats o.identity ∨ o.identity ∉ done ∧ ∀ earlier ∈ files, earlier < p.file →
        ¬ s.Survives o.identity (s.objectGroups earlier)) ∧
      s.Wins o.identity p.file o := by
  intro s
  induction files generalizing done with
  | nil => exact fun p hp => absurd hp List.not_mem_nil
  | cons file files ih =>
    rw [List.forall_mem_cons] at hfiles
    rw [List.pairwise_cons] at hasc
    obtain ⟨hcopy, hdone⟩ := planFile_iff hfiles.1 ho hobject done
    rw [planFiles_cons, List.forall_mem_cons]
    constructor
    · have hnot : ∀ earlier ∈ file :: files, ¬ earlier < file := by
        intro earlier hearlier hlt
        rcases List.mem_cons.mp hearlier with rfl | hlater
        · exact String.lt_irrefl _ hlt
        · exact String.lt_asymm hlt (hasc.1 earlier hlater)
      have hnone : ∀ earlier ∈ file :: files, earlier < file →
          ¬ s.Survives o.identity (s.objectGroups earlier) :=
        fun earlier hearlier hlt => absurd hlt (hnot earlier hearlier)
      rw [hcopy]
      change _ ↔ _ ∧ (_ ∨ _ ∧ ∀ earlier ∈ file :: files, earlier < file → _) ∧ _
      rw [and_iff_left hnone]
      rfl
    · intro p hp
      have hpfile : p.file ∈ files := by
        rw [← planFiles_map_file s _ files]
        exact List.mem_map_of_mem hp
      have hlt : file < p.file := hasc.1 p.file hpfile
      rw [ih hfiles.2 hasc.2 _ p hp, hdone, List.forall_mem_cons, not_or, and_assoc]
      simp only [hlt, forall_const]
      rfl

/-- The file of a plan exports a copy of an object if and only if it exports the identity of the
object and the object wins there. -/
theorem hasCopy_plan_iff (ho : o ∈ (unpatched definitions modOrder rules policy).analysis.all.all)
    (hobject : o.isSupport = false) :
    let s := unpatched definitions modOrder rules policy
    ∀ p ∈ s.plan, (HasCopy o p.exported ↔
      s.Exports o.identity p.file ∧ s.Wins o.identity p.file o) := by
  intro s p hp
  have hfiles : ∀ file ∈ s.analysis.all.files, Text.lowercase file = file := by
    intro file hfile
    obtain ⟨d, -, rfl⟩ := Index.mem_files_build.mp hfile
    exact lowercase_fileKey d
  have hstart : o.identity ∉ ([] : List String) := List.not_mem_nil
  rw [planFiles_iff hfiles Index.files_build_ascending ho hobject [] p hp, and_iff_right hstart,
    Exports, and_assoc]

theorem hasCopy_aligned (s : Setting) (p : FilePlan) :
    HasCopy o (s.aligned p) ↔ HasCopy o p.exported := by
  obtain ⟨order, horder⟩ := exists_alignOrder_eq_map p.exported s.analysis.all s.rules
  rw [aligned, horder]
  constructor
  · rintro ⟨e, he, hcopy⟩
    obtain ⟨d, hd, rfl⟩ := List.mem_map.mp he
    exact ⟨d, hd, (isCopy_withOrder_iff _).mp hcopy⟩
  · rintro ⟨d, hd, hcopy⟩
    exact ⟨_, List.mem_map_of_mem hd, (isCopy_withOrder_iff _).mpr hcopy⟩

/-- A merge exports no definition that is lost with its file if and only if none wins in a file that
exports its identity. This is so in the sets as they are collected, and in the aligned ones that are
composed. -/
theorem plan_exports_no_orphan_iff (definitions : List Definition) (modOrder : List String)
    (rules : Option Rules) (policy : DuplicatePolicy) :
    let s := unpatched definitions modOrder rules policy
    (∀ p ∈ s.plan, ∀ o ∈ s.analysis.orphans.all,
        ¬ HasCopy o p.exported ∧ ¬ HasCopy o (s.aligned p)) ↔
      ∀ file ∈ s.analysis.all.files, ∀ o ∈ s.analysis.orphans.all,
        s.Exports o.identity file → ¬ s.Wins o.identity file o := by
  intro s
  have hexports : ∀ p ∈ s.plan, ∀ o ∈ s.analysis.orphans.all, (HasCopy o p.exported ↔
      s.Exports o.identity p.file ∧ s.Wins o.identity p.file o) := fun p hp o ho =>
    hasCopy_plan_iff (Analysis.mem_of_mem_orphans rules ho)
      (Analysis.isSupport_of_mem_orphans rules ho) p hp
  have hfiles : s.plan.map (·.file) = s.analysis.all.files := planFiles_map_file s [] _
  rw [← hfiles, List.forall_mem_map]
  apply forall₂_congr
  intro p hp
  apply forall₂_congr
  intro o ho
  rw [hasCopy_aligned, and_self, hexports p hp o ho, not_and]

/-- Three mods in load order. The object `x` is in a file of its own and in one that the last mod
overwrites without it. -/
def lostInOneFile : List Definition :=
  [objectOf "c" "t/b", objectOf "a" "t/a", { objectOf "b" "t/a" with id := "y" }]

/-- The file that keeps the object exports the copy that is lost with the other. -/
theorem plan_lostInOneFile_exports_orphan :
    let s := unpatched lostInOneFile ["c", "a", "b"] none .oncePerIdentity
    ¬ ∀ p ∈ s.plan, ∀ o ∈ s.analysis.orphans.all, ¬ HasCopy o p.exported := by
  intro s h
  let lost := objectOf "a" "t/a"
  let kept := objectOf "c" "t/b"
  have horphans : s.analysis.orphans.all = [lost] := by
    let other := { objectOf "b" "t/a" with id := "y" }
    have hfile : lostIn ["c", "a", "b"] [lost, other] = [lost] := by
      have hseveral : severalMods [lost, other] := by decide +kernel
      rw [lostIn, sortByMods_of_pairwise (by decide +kernel), hseveral]
      have hlast : [lost, other].getLast? = some other := rfl
      simp only [Bool.not_true, Bool.false_eq_true, if_false, hlast]
      rw [List.filter_cons_of_pos (by decide +kernel), List.filter_cons_of_neg (by decide +kernel),
        List.filter_nil]
    have hnone : lostIn ["c", "a", "b"] [kept] = [] := rfl
    change lostIn _ [lost, other] ++ (lostIn _ [kept] ++ []) = [lost]
    rw [hfile, hnone]
    rfl
  have horphan : lost ∈ s.analysis.orphans.all := by simp [horphans]
  have hwins : s.Wins "t-x" "t/b" lost := by
    have hsorted : sortByMods s.modOrder [kept, lost] = [kept, lost] :=
      sortByMods_of_pairwise (by decide +kernel)
    have hcandidates : candidates [kept, lost] "t/b" = [kept, lost] := by
      rw [candidates, List.filter_eq_self]
      apply List.all_eq_true.mp
      decide +kernel
    have hcompete : s.competitors "t-x" "t/b" = [kept, lost] := by
      change sortByMods _ (candidates (sortByMods s.modOrder [kept, lost]) "t/b") = _
      rw [hsorted, hcandidates, hsorted]
    have hfiles : inOneFile [kept, lost] = false := by decide +kernel
    rw [Wins, hcompete, winner?]
    simp [hfiles, s, unpatched, Setting.of]
  have hlost : isLost s.analysis.orphans [lost] :=
    (isLost_singleton_iff (Analysis.mem_of_mem_orphans none horphan)).mpr horphan
  have hkept : ¬ isLost s.analysis.orphans [kept] := by
    have hmem : kept ∈ s.analysis.all.all := List.mem_cons_self
    rw [isLost_singleton_iff hmem, horphans, List.mem_singleton]
    exact fun heq => absurd (congrArg Definition.modName heq) (by decide)
  have hexports : s.Exports "t-x" "t/b" := by
    have hearlier : s.objectGroups "t/a" = [[lost], [{ objectOf "b" "t/a" with id := "y" }]] := rfl
    have hgroups : s.objectGroups "t/b" = [[kept]] := rfl
    have hfiles : s.analysis.all.files = ["t/a", "t/b"] := rfl
    rw [Exports, hgroups, hfiles]
    refine ⟨⟨[kept], List.mem_cons_self, by decide +kernel, hkept⟩, .inr fun earlier hmem hlt => ?_⟩
    rcases List.mem_cons.mp hmem with rfl | hmem
    · rw [hearlier]
      rintro ⟨group, hgroup, hidentity, hnot⟩
      rcases List.mem_cons.mp hgroup with rfl | hgroup
      · exact hnot hlost
      · rw [List.mem_singleton] at hgroup
        subst hgroup
        exact absurd hidentity (by decide +kernel)
    · rw [List.mem_singleton] at hmem
      subst hmem
      exact absurd hlt (String.lt_irrefl _)
  have hfiles : s.plan.map (·.file) = s.analysis.all.files := planFiles_map_file s [] _
  have hmem : "t/b" ∈ s.plan.map (·.file) := by
    rw [hfiles]
    decide +kernel
  obtain ⟨p, hp, hpfile⟩ := List.mem_map.mp hmem
  apply h p hp lost horphan
  rw [hasCopy_plan_iff (Analysis.mem_of_mem_orphans none horphan)
    (Analysis.isSupport_of_mem_orphans none horphan) p hp, hpfile]
  have hidentity : lost.identity = "t-x" := by decide +kernel
  rw [hidentity]
  exact ⟨hexports, hwins⟩

end Orphans

end Setting

end LoadOrder

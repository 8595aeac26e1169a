import LoadOrder.Proofs.Classification
import LoadOrder.Proofs.Merge.Orphans

namespace LoadOrder

/-- A set has one entry of an identity if `p`, and none otherwise. -/
def OneEntryIff (k : String) (exported : List Definition) (p : Prop) : Prop :=
  (p → ∃ e, entriesOf k exported = [e]) ∧ (¬p → entriesOf k exported = [])

theorem OneEntryIff.congr {k : String} {exported : List Definition} {p q : Prop}
    (h : OneEntryIff k exported p) (hpq : p ↔ q) : OneEntryIff k exported q := by
  rwa [← hpq]

namespace Setting

section EveryFile

variable {definitions : List Definition} {modOrder : List String} {rules : Option Rules}
  {policy : DuplicatePolicy} {k file : String} {first : Definition} {rest : List Definition}

theorem inSeveralFiles_iff {members : List Definition} {modName : String} :
    inSeveralFiles members modName ↔ ∃ a ∈ members, ∃ b ∈ members,
      a.modName = modName ∧ b.modName = modName ∧ a.fileKey ≠ b.fileKey := by
  constructor
  · intro h
    refine Classical.byContradiction fun hnone => ?_
    have hlength : (filesOf members modName).length ≤ 1 := by
      apply eraseDups_length_le_one
      simp only [List.forall_mem_map, List.mem_filter, beq_iff_eq]
      intro a ha b hb
      exact Classical.byContradiction fun hne => hnone ⟨a, ha.1, b, hb.1, ha.2, hb.2, hne⟩
    rw [inSeveralFiles, decide_eq_true_eq] at h
    omega
  · rintro ⟨a, ha, b, hb, rfl, hmod, hne⟩
    refine Classical.byContradiction fun hnot => hne ?_
    exact fileKey_eq_of_not_inSeveralFiles ha hb hmod.symm (by simpa using hnot)

/-- An identity that a mod has in several files is repeated if another mod has it, too. -/
theorem repeats_iff (hk : Text.lowercase k = k)
    (hkinds : ∀ d ∈ (unpatched definitions modOrder rules .oncePerFile).shipped k,
      d.kind = .object ∨ d.kind = .binary)
    (hseveral : ¬(unpatched definitions modOrder rules .oncePerFile).InOneFilePerMod k) :
    let s := unpatched definitions modOrder rules .oncePerFile
    s.repeats k ↔ SpansMods (s.shipped k) := by
  intro s
  have hseveral' : ∃ a ∈ s.shipped k, ∃ b ∈ s.shipped k,
      a.modName = b.modName ∧ a.fileKey ≠ b.fileKey := by
    simpa [InOneFilePerMod] using hseveral
  obtain ⟨a, ha, b, hb, hmod, hfile⟩ := hseveral'
  have hspans : SpansFiles (s.shipped k) := ⟨a, ha, b, hb, hfile⟩
  have hobjects : (s.shipped k).filter (!·.isSupport) = s.shipped k := by
    rw [List.filter_eq_self]
    intro d hd
    simp [isSupport_eq_false (hkinds d hd)]
  have hconflicts : s.analysis.conflicts.withIdentity k =
      if SpansMods (s.shipped k) ∧ SpansFiles (s.shipped k) then
        sortByMods modOrder (s.shipped k)
      else [] := by
    rw [(classes_unpatched k hk).1, classify_eq_ite, hobjects]
  have hpolicy : (s.policy == .oncePerFile) = true := rfl
  rw [repeats, hconflicts, hpolicy, Bool.true_and]
  by_cases hmods : SpansMods (s.shipped k)
  · rw [if_pos ⟨hmods, hspans⟩, List.any_eq_true]
    refine iff_of_true ⟨a, mem_sortByMods.mpr ha, ?_⟩ hmods
    exact inSeveralFiles_iff.mpr
      ⟨a, mem_sortByMods.mpr ha, b, mem_sortByMods.mpr hb, rfl, hmod.symm, hfile⟩
  · rw [if_neg fun h => hmods h.1]
    exact iff_of_false (by simp) hmods

def identity? (group : List Definition) : Option String := group.head?.map Definition.identity

theorem nodup_identities (s : Setting) (file : String) :
    ((s.objectGroups file).map identity?).Nodup := by
  have hbuckets := Buckets.holds_group Definition.identity
    ((s.analysis.all.inFile file).filter (·.kind != .emptyFile))
  have hkey : ∀ bucket ∈ Buckets.group Definition.identity
      ((s.analysis.all.inFile file).filter (·.kind != .emptyFile)),
      identity? bucket.2 = some bucket.1 := by
    rintro ⟨k, members⟩ hbucket
    obtain ⟨heq, hne⟩ := hbuckets.mem_iff.mp hbucket
    cases members with
    | nil => exact absurd rfl hne
    | cons d members =>
      have hd : d ∈ ((s.analysis.all.inFile file).filter (·.kind != .emptyFile)).filter
          (·.identity == k) := heq ▸ List.mem_cons_self
      rw [List.mem_filter, beq_iff_eq] at hd
      exact congrArg some hd.2
  have hgroups : (s.groups file).map identity? = (Buckets.group Definition.identity
      ((s.analysis.all.inFile file).filter (·.kind != .emptyFile))).keys.map some := by
    rw [groups, List.map_map, Buckets.keys, List.map_map]
    exact List.map_congr_left hkey
  have hsub : ((s.objectGroups file).map identity?).Sublist ((s.groups file).map identity?) :=
    List.filter_sublist.map _
  apply hsub.nodup
  rw [hgroups]
  exact List.pairwise_map.mpr (hbuckets.nodup.imp fun hne heq => hne (Option.some.inj heq))

theorem exists_split_of_mem {s : Setting} {group : List Definition}
    (h : group ∈ s.objectGroups file) :
    ∃ before after, s.objectGroups file = before ++ group :: after ∧
      ∀ other ∈ before ++ after, identity? other ≠ identity? group := by
  obtain ⟨before, after, heq⟩ := List.append_of_mem h
  refine ⟨before, after, heq, fun other hother hsame => ?_⟩
  have hnodup := nodup_identities s file
  rw [heq, List.map_append, List.map_cons, List.perm_middle.nodup_iff, List.nodup_cons,
    ← List.map_append] at hnodup
  exact hnodup.1 (hsame ▸ List.mem_map_of_mem hother)

theorem keeps_harvestGroup_of_ne
    (hg : (unpatched definitions modOrder rules policy).IsObjectGroup file first rest)
    (hne : identity? (first :: rest) ≠ some k) (h : Harvest) :
    Harvest.Keeps k h
      ((unpatched definitions modOrder rules policy).harvestGroup file h (first :: rest)) := by
  obtain ⟨hshipped, rfl, -⟩ := (hg.mem_iff first).mp List.mem_cons_self
  obtain ⟨d, hd, hbrings, -⟩ := exists_brings rest (mem_shipped.mp hshipped).1 hg.object
  obtain ⟨hdshipped, hdobject⟩ := mem_objectsOf.mp hd
  rw [hbrings h]
  split
  · exact Harvest.keeps_refl h
  · split
    · refine Harvest.keeps_push h hdobject fun hk => hne ?_
      exact congrArg some ((mem_shipped.mp hdshipped).2.symm.trans hk)
    · exact Harvest.keeps_refl h

theorem keeps_foldl_of_ne (hfile : Text.lowercase file = file) {groups : List (List Definition)}
    (hgroups : ∀ group ∈ groups,
      group ∈ (unpatched definitions modOrder rules policy).objectGroups file ∧
        identity? group ≠ some k) (h : Harvest) :
    Harvest.Keeps k h
      (groups.foldl ((unpatched definitions modOrder rules policy).harvestGroup file) h) := by
  induction groups generalizing h with
  | nil => exact Harvest.keeps_refl h
  | cons group groups ih =>
    rw [List.forall_mem_cons] at hgroups
    obtain ⟨first, rest, rfl, hg⟩ := exists_of_mem_objectGroups hfile hgroups.1.1
    exact (keeps_harvestGroup_of_ne hg hgroups.1.2 h).trans (ih hgroups.2 _)

theorem harvestGroup_oneEntryIff
    (hg : (unpatched definitions modOrder rules policy).IsObjectGroup file first rest)
    {h : Harvest} (hnone : entriesOf first.identity h.exported = []) :
    let s := unpatched definitions modOrder rules policy
    let h' := s.harvestGroup file h (first :: rest)
    OneEntryIff first.identity h'.exported (¬isLost s.analysis.orphans (first :: rest) ∧
        (s.repeats first.identity ∨ first.identity ∉ h.done)) ∧
      (first.identity ∈ h'.done ↔
        first.identity ∈ h.done ∨ ¬isLost s.analysis.orphans (first :: rest)) := by
  intro s h'
  obtain ⟨hshipped, rfl, -⟩ := (hg.mem_iff first).mp List.mem_cons_self
  obtain ⟨d, hd, hbrings, -⟩ := @exists_brings definitions modOrder rules policy first rest
    (mem_shipped.mp hshipped).1 hg.object
  obtain ⟨hdshipped, hdobject⟩ := mem_objectsOf.mp hd
  have hidentity := (mem_shipped.mp hdshipped).2
  have hstep : h' = if isLost s.analysis.orphans (first :: rest) then h
      else if s.repeats first.identity || !h.done.contains first.identity then h.push d else h :=
    hbrings h
  by_cases hlost : isLost s.analysis.orphans (first :: rest)
  · rw [hstep, if_pos hlost]
    exact ⟨⟨fun hp => absurd hlost hp.1, fun _ => hnone⟩, by simp [hlost]⟩
  · rw [if_neg hlost] at hstep
    by_cases hpush : s.repeats first.identity ∨ first.identity ∉ h.done
    · rw [if_pos (by simpa using hpush)] at hstep
      rw [hstep, Harvest.mem_done_push, hidentity]
      refine ⟨⟨fun _ => ⟨(foldSupport h.exported d).2, ?_⟩, fun hp => absurd ⟨hlost, hpush⟩ hp⟩,
        by simp [hlost]⟩
      rw [Harvest.entriesOf_push h hdobject, hnone, if_pos hidentity, List.nil_append]
    · rw [if_neg (by simpa using hpush)] at hstep
      rw [hstep]
      have hdone : first.identity ∈ h.done := by
        simpa using fun hdone => hpush (.inr hdone)
      exact ⟨⟨fun hp => absurd hp.2 hpush, fun _ => hnone⟩, by simp [hdone]⟩

/-- A file that has something of an identity exports it if it is to be repeated, or is not exported
yet. -/
theorem planFile_oneEntryIff (hfile : Text.lowercase file = file)
    (hkinds : ∀ d ∈ (unpatched definitions modOrder rules policy).shipped k,
      d.kind = .object ∨ d.kind = .binary) (done : List String) :
    let s := unpatched definitions modOrder rules policy
    OneEntryIff k (s.planFile done file).2.exported
        (s.Holds k file ∧ (s.repeats k ∨ k ∉ done)) ∧
      (k ∈ (s.planFile done file).1 ↔ k ∈ done ∨ s.Holds k file) := by
  intro s
  have hstart : entriesOf k (⟨done, []⟩ : Harvest).exported = [] := rfl
  rw [OneEntryIff, entriesOf_planFile]
  change OneEntryIff k ((s.objectGroups file).foldl (s.harvestGroup file) ⟨done, []⟩).exported _ ∧
    (k ∈ ((s.objectGroups file).foldl (s.harvestGroup file) ⟨done, []⟩).done ↔ _)
  by_cases hgroup : ∃ group ∈ s.objectGroups file, identity? group = some k
  · obtain ⟨group, hmem, hk⟩ := hgroup
    obtain ⟨first, rest, rfl, hg⟩ := exists_of_mem_objectGroups hfile hmem
    obtain rfl : first.identity = k := Option.some.inj hk
    obtain ⟨before, after, hsplit, hothers⟩ := exists_split_of_mem hmem
    have hmembers : ∀ other ∈ before ++ after, other ∈ s.objectGroups file ∧
        identity? other ≠ some first.identity := by
      intro other hother
      refine ⟨?_, hothers other hother⟩
      rw [hsplit]
      rcases List.mem_append.mp hother with h | h
      · exact List.mem_append_left _ h
      · exact List.mem_append_right _ (List.mem_cons_of_mem _ h)
    rw [List.forall_mem_append] at hmembers
    have hbefore := keeps_foldl_of_ne hfile hmembers.1 ⟨done, []⟩
    obtain ⟨hstep, hdone⟩ := harvestGroup_oneEntryIff hg (hbefore.entries.trans hstart)
    have hafter := keeps_foldl_of_ne hfile hmembers.2
      (s.harvestGroup file (before.foldl (s.harvestGroup file) ⟨done, []⟩) (first :: rest))
    have hholds : ¬isLost s.analysis.orphans (first :: rest) ↔ s.Holds first.identity file := by
      rw [isLost_iff fun d hd => ((hg.mem_iff d).mp hd).1, Holds]
      simp only [hg.mem_iff, Classical.not_forall]
      constructor
      · rintro ⟨d, ⟨hd, hdfile, -⟩, hkept⟩
        exact ⟨d, hd, hkept, hdfile⟩
      · rintro ⟨d, hd, hkept, hdfile⟩
        refine ⟨d, ⟨hd, hdfile, fun hkind => ?_⟩, hkept⟩
        rcases hkinds d hd with h | h <;> rw [hkind] at h <;> cases h
    rw [hsplit, List.foldl_append, List.foldl_cons, OneEntryIff, hafter.entries, hafter.done]
    rw [hbefore.done, hholds] at hstep hdone
    exact ⟨hstep, hdone⟩
  · have hmembers : ∀ group ∈ s.objectGroups file, group ∈ s.objectGroups file ∧
        identity? group ≠ some k := fun group hmem => ⟨hmem, fun hk => hgroup ⟨group, hmem, hk⟩⟩
    have hkeeps := keeps_foldl_of_ne hfile hmembers ⟨done, []⟩
    have hnot : ¬s.Holds k file := by
      rintro ⟨d, hd, -, rfl⟩
      obtain ⟨first, rest, hmem, hk, -⟩ := exists_objectGroup hd hkinds
      exact hgroup ⟨first :: rest, hmem, congrArg some hk⟩
    rw [OneEntryIff, hkeeps.entries, hkeeps.done]
    exact ⟨⟨fun hp => absurd hp.1 hnot, fun _ => rfl⟩, by simp [hnot]⟩

theorem planFiles_oneEntryIff {files : List String}
    (hfiles : ∀ file ∈ files, Text.lowercase file = file) (hasc : files.Pairwise (· < ·))
    (hkinds : ∀ d ∈ (unpatched definitions modOrder rules policy).shipped k,
      d.kind = .object ∨ d.kind = .binary) (done : List String) :
    let s := unpatched definitions modOrder rules policy
    ∀ p ∈ s.planFiles done files, OneEntryIff k p.exported (s.Holds k p.file ∧
      (s.repeats k ∨ k ∉ done ∧ ∀ earlier ∈ files, earlier < p.file → ¬s.Holds k earlier)) := by
  intro s
  induction files generalizing done with
  | nil => exact fun p hp => absurd hp List.not_mem_nil
  | cons file files ih =>
    rw [List.forall_mem_cons] at hfiles
    rw [List.pairwise_cons] at hasc
    obtain ⟨hentry, hdone⟩ := planFile_oneEntryIff hfiles.1 hkinds done
    rw [planFiles_cons, List.forall_mem_cons]
    constructor
    · apply hentry.congr
      have hnone : ∀ earlier ∈ file :: files, ¬earlier < file := by
        intro earlier hearlier hlt
        rcases List.mem_cons.mp hearlier with rfl | hlater
        · exact String.lt_irrefl _ hlt
        · exact String.lt_asymm hlt (hasc.1 earlier hlater)
      change _ ↔ _ ∧ (_ ∨ _ ∧ ∀ earlier ∈ file :: files, earlier < file → _)
      rw [and_iff_left fun earlier hearlier hlt => absurd hlt (hnone earlier hearlier)]
      rfl
    · intro p hp
      have hpfile : p.file ∈ files := by
        rw [← planFiles_map_file s _ files]
        exact List.mem_map_of_mem hp
      have hlt : file < p.file := hasc.1 p.file hpfile
      apply (ih hfiles.2 hasc.2 _ p hp).congr
      rw [hdone, List.forall_mem_cons, not_or, and_assoc]
      simp only [hlt, forall_const]
      rfl

theorem plan_oneEntryIff
    (hkinds : ∀ d ∈ (unpatched definitions modOrder rules policy).shipped k,
      d.kind = .object ∨ d.kind = .binary) :
    let s := unpatched definitions modOrder rules policy
    ∀ p ∈ s.plan, OneEntryIff k p.exported (s.Holds k p.file ∧
      (s.repeats k ∨ ∀ file, s.Holds k file → p.file ≤ file)) := by
  intro s p hp
  have hfiles : ∀ file ∈ s.analysis.all.files, Text.lowercase file = file := by
    intro file hfile
    obtain ⟨d, -, rfl⟩ := Index.mem_files_build.mp hfile
    exact lowercase_fileKey d
  have hholds : ∀ file, s.Holds k file → file ∈ s.analysis.all.files := by
    rintro file ⟨d, hd, -, rfl⟩
    exact Index.mem_files_build.mpr ⟨d, (mem_shipped.mp hd).1, rfl⟩
  apply (planFiles_oneEntryIff hfiles Index.files_build_ascending hkinds [] p hp).congr
  have hfirst : (k ∉ ([] : List String) ∧ ∀ earlier ∈ s.analysis.all.files,
      earlier < p.file → ¬s.Holds k earlier) ↔ ∀ file, s.Holds k file → p.file ≤ file := by
    constructor
    · rintro ⟨-, h⟩ file hfile
      exact String.not_lt.mp fun hlt => h file (hholds file hfile) hlt hfile
    · intro h
      exact ⟨List.not_mem_nil, fun earlier _ hlt hfile => String.not_lt.mpr (h earlier hfile) hlt⟩
  exact and_congr_right' (or_congr_right hfirst)

/-- Let a mod have an identity of objects in several files. With the policy of one copy for each
file, the files that have something of it that is not lost export it once each if another mod has
the identity, too; otherwise only the first of them does. So all of them do exactly if several mods
have the identity or a single file is left. This is so in the sets as they are collected, and in the
aligned ones that are composed. -/
theorem plan_exports_in_every_file_iff (definitions : List Definition) (modOrder : List String)
    (rules : Option Rules) {k : String}
    (hkinds : ∀ d ∈ (unpatched definitions modOrder rules .oncePerFile).shipped k,
      d.kind = .object ∨ d.kind = .binary)
    (hseveral : ¬(unpatched definitions modOrder rules .oncePerFile).InOneFilePerMod k) :
    let s := unpatched definitions modOrder rules .oncePerFile
    (∀ p ∈ s.plan, OneEntryIff k p.exported (s.Holds k p.file ∧
      (SpansMods (s.shipped k) ∨ ∀ file, s.Holds k file → p.file ≤ file))) ∧
    ((∀ file, s.Holds k file → ∃ p ∈ s.plan, p.file = file ∧ ∃ e n,
        entriesOf k p.exported = [e] ∧ entriesOf k (s.aligned p) = [e.withOrder n]) ↔
      SpansMods (s.shipped k) ∨ ∀ file file', s.Holds k file → s.Holds k file' → file = file') := by
  intro s
  have hk : Text.lowercase k = k := by
    have hsome : ∃ a ∈ s.shipped k, ∃ b ∈ s.shipped k,
        a.modName = b.modName ∧ a.fileKey ≠ b.fileKey := by
      simpa [InOneFilePerMod] using hseveral
    obtain ⟨a, ha, -⟩ := hsome
    rw [← (mem_shipped.mp ha).2, lowercase_identity]
  have hplan : ∀ p ∈ s.plan, OneEntryIff k p.exported (s.Holds k p.file ∧
      (SpansMods (s.shipped k) ∨ ∀ file, s.Holds k file → p.file ≤ file)) := by
    intro p hp
    exact (plan_oneEntryIff hkinds p hp).congr
      (and_congr_right' (or_congr_left (repeats_iff hk hkinds hseveral)))
  refine ⟨hplan, ?_, ?_⟩
  · intro hall
    refine Classical.or_iff_not_imp_left.mpr fun hone file file' hfile hfile' => ?_
    -- a file that exports the identity of a single mod is the first that has something of it
    have hleast : ∀ file, s.Holds k file → ∀ other, s.Holds k other → file ≤ other := by
      intro file hfile other hother
      obtain ⟨p, hp, rfl, e, n, he, -⟩ := hall file hfile
      refine Classical.byContradiction fun hnot => ?_
      have hnone := (hplan p hp).2 fun h => hnot (h.2.resolve_left hone other hother)
      rw [hnone] at he
      cases he
    exact String.le_antisymm (hleast file hfile file' hfile') (hleast file' hfile' file hfile)
  · intro hcond file hfile
    have hmem : file ∈ s.plan.map (·.file) := by
      obtain ⟨d, hd, -, rfl⟩ := hfile
      have hmap : s.plan.map (·.file) = s.analysis.all.files := planFiles_map_file s [] _
      rw [hmap]
      exact Index.mem_files_build.mpr ⟨d, (mem_shipped.mp hd).1, rfl⟩
    obtain ⟨p, hp, rfl⟩ := List.mem_map.mp hmem
    have hfirst : SpansMods (s.shipped k) ∨ ∀ other, s.Holds k other → p.file ≤ other := by
      refine hcond.imp_right fun hsingle other hother => ?_
      rewrite [hsingle p.file other hfile hother]
      exact String.le_refl other
    obtain ⟨e, he⟩ := (hplan p hp).1 ⟨hfile, hfirst⟩
    obtain ⟨order, horder⟩ := entriesOf_aligned (k := k) s p
    refine ⟨p, hp, rfl, e, order e, he, ?_⟩
    rw [horder, he]
    rfl

def copiesOfOne : List Definition := [objectOf "A" "t/a", objectOf "A" "t/b"]

def copiesOfTwo : List Definition := copiesOfOne ++ [objectOf "B" "t/c"]

theorem plan_exports_in_every_file_copiesOfTwo :
    let s := unpatched copiesOfTwo ["A", "B"] none .oncePerFile
    (∀ d ∈ s.shipped "t-x", d.kind = .object ∨ d.kind = .binary) ∧ ¬s.InOneFilePerMod "t-x" ∧
      ∃ p ∈ s.plan, p.file = "t/b" ∧ ∃ e, entriesOf "t-x" p.exported = [e] := by
  intro s
  have hkinds : ∀ d ∈ s.shipped "t-x", d.kind = .object ∨ d.kind = .binary := by
    decide +kernel
  have hcopies : ∃ a ∈ s.shipped "t-x", ∃ b ∈ s.shipped "t-x", ∃ c ∈ s.shipped "t-x",
      a.modName = b.modName ∧ a.fileKey ≠ b.fileKey ∧ a.modName ≠ c.modName ∧
        b.fileKey = "t/b" := by
    decide +kernel
  have hnone : s.analysis.orphans.all.isEmpty := by
    decide +kernel
  obtain ⟨a, ha, b, hb, c, hc, hmod, hfile, hother, hlast⟩ := hcopies
  have hseveral : ¬s.InOneFilePerMod "t-x" := fun h => hfile (h a ha b hb hmod)
  have hkept : b ∉ s.analysis.orphans.all := by
    rw [List.isEmpty_iff.mp hnone]
    exact List.not_mem_nil
  obtain ⟨p, hp, hpfile, e, -, he, -⟩ :=
    (plan_exports_in_every_file_iff copiesOfTwo ["A", "B"] none hkinds hseveral).2.mpr
      (.inl ⟨a, ha, c, hc, hother⟩) "t/b" ⟨b, hb, hkept, hlast⟩
  exact ⟨hkinds, hseveral, p, hp, hpfile, e, he⟩

/-- What a single mod has in two files the second file does not export. -/
theorem plan_copiesOfOne_misses_file :
    let s := unpatched copiesOfOne ["A"] none .oncePerFile
    (∀ d ∈ s.shipped "t-x", d.kind = .object ∨ d.kind = .binary) ∧ ¬s.InOneFilePerMod "t-x" ∧
      ¬∀ file, s.Holds "t-x" file →
        ∃ p ∈ s.plan, p.file = file ∧ ∃ e, entriesOf "t-x" p.exported = [e] := by
  intro s
  have hkinds : ∀ d ∈ s.shipped "t-x", d.kind = .object ∨ d.kind = .binary := by
    decide +kernel
  have hcopies : ∃ a ∈ s.shipped "t-x", ∃ b ∈ s.shipped "t-x",
      a.modName = b.modName ∧ a.fileKey = "t/a" ∧ b.fileKey = "t/b" := by
    decide +kernel
  have hnone : s.analysis.orphans.all.isEmpty := by
    decide +kernel
  obtain ⟨a, ha, b, hb, hmod, hfirst, hsecond⟩ := hcopies
  have hkept : ∀ d, d ∉ s.analysis.orphans.all := by
    rw [List.isEmpty_iff.mp hnone]
    exact fun d => List.not_mem_nil
  have hseveral : ¬s.InOneFilePerMod "t-x" := by
    intro h
    have hsame := h a ha b hb hmod
    rw [hfirst, hsecond] at hsame
    exact absurd hsame (by decide)
  refine ⟨hkinds, hseveral, fun hall => ?_⟩
  obtain ⟨p, hp, hpfile, e, he⟩ := hall "t/b" ⟨b, hb, hkept b, hsecond⟩
  have hmods : ¬SpansMods (s.shipped "t-x") := by
    decide +kernel
  have hnot : ¬(s.Holds "t-x" p.file ∧
      (s.repeats "t-x" ∨ ∀ file, s.Holds "t-x" file → p.file ≤ file)) := by
    rintro ⟨-, h | h⟩
    · exact hmods ((repeats_iff (by decide +kernel) hkinds hseveral).mp h)
    · have hle := h "t/a" ⟨a, ha, hkept a, hfirst⟩
      rw [hpfile] at hle
      exact absurd hle (by decide)
  rw [(plan_oneEntryIff hkinds p hp).2 hnot] at he
  cases he

end EveryFile

end Setting

end LoadOrder

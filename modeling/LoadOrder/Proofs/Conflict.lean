import LoadOrder.Conflict
import LoadOrder.Proofs.Definition.Index
import LoadOrder.Proofs.Priority
import LoadOrder.Proofs.Sorting

namespace LoadOrder

variable {modOrder : List String} {rules : Option Rules}

theorem mem_sortByMods {definitions : List Definition} {d : Definition} :
    d ∈ sortByMods modOrder definitions ↔ d ∈ definitions := List.mem_mergeSort

theorem sortByMods_eq_nil {definitions : List Definition} :
    sortByMods modOrder definitions = [] ↔ definitions = [] := by
  rw [← List.length_eq_zero_iff, sortByMods, List.length_mergeSort, List.length_eq_zero_iff]

theorem rank_le_trans (a b c : Definition)
    (hab : decide (rank modOrder a.modName ≤ rank modOrder b.modName))
    (hbc : decide (rank modOrder b.modName ≤ rank modOrder c.modName)) :
    decide (rank modOrder a.modName ≤ rank modOrder c.modName) := by
  rw [decide_eq_true_eq] at hab hbc ⊢
  exact Nat.le_trans hab hbc

theorem rank_le_total (a b : Definition) :
    (decide (rank modOrder a.modName ≤ rank modOrder b.modName) ||
      decide (rank modOrder b.modName ≤ rank modOrder a.modName)) = true := by
  rw [Bool.or_eq_true, decide_eq_true_eq, decide_eq_true_eq]
  exact Nat.le_total _ _

theorem pairwise_sortByMods (definitions : List Definition) :
    (sortByMods modOrder definitions).Pairwise fun a b =>
      rank modOrder a.modName ≤ rank modOrder b.modName := by
  have hsorted : (sortByMods modOrder definitions).Pairwise fun a b =>
      decide (rank modOrder a.modName ≤ rank modOrder b.modName) :=
    List.pairwise_mergeSort rank_le_trans rank_le_total definitions
  simpa using hsorted

theorem sortByMods_of_pairwise {definitions : List Definition}
    (h : definitions.Pairwise fun a b => rank modOrder a.modName ≤ rank modOrder b.modName) :
    sortByMods modOrder definitions = definitions := by
  apply List.mergeSort_of_pairwise
  simpa using h

theorem sortByMods_idem (definitions : List Definition) :
    sortByMods modOrder (sortByMods modOrder definitions) = sortByMods modOrder definitions :=
  sortByMods_of_pairwise (pairwise_sortByMods definitions)

theorem filter_sortByMods (p : Definition → Bool) (definitions : List Definition) :
    (sortByMods modOrder definitions).filter p = sortByMods modOrder (definitions.filter p) :=
  filter_mergeSort rank_le_trans rank_le_total p definitions

def objectsOf (modOrder : List String) (group : List Definition) : List Definition :=
  sortByMods modOrder (group.filter (!·.isSupport))

theorem mem_objectsOf {group : List Definition} {d : Definition} :
    d ∈ objectsOf modOrder group ↔ d ∈ group ∧ d.isSupport = false := by
  simp [objectsOf, mem_sortByMods]

theorem sortByMods_objectsOf (group : List Definition) :
    sortByMods modOrder (objectsOf modOrder group) = objectsOf modOrder group :=
  sortByMods_idem _

theorem ne_nil_of_severalMods {definitions : List Definition} (h : severalMods definitions) :
    definitions ≠ [] := by
  rintro rfl
  cases h

theorem classify_eq (modOrder : List String) (rules : Option Rules) (group : List Definition) :
    classify modOrder rules group =
      if !severalMods (objectsOf modOrder group) then ([], [])
      else if inOneFile (objectsOf modOrder group) then
        ([], ((winner? (objectsOf modOrder group) rules).map (·.1)).toList)
      else (objectsOf modOrder group, []) := rfl

theorem classify_cases (modOrder : List String) (rules : Option Rules)
    (group : List Definition) :
    (severalMods (objectsOf modOrder group) = false ∧
        classify modOrder rules group = ([], [])) ∨
      (inOneFile (objectsOf modOrder group) ∧ ∃ d ∈ objectsOf modOrder group, ∃ why,
        winner? (objectsOf modOrder group) rules = some (d, why) ∧
        classify modOrder rules group = ([], [d])) ∨
      (objectsOf modOrder group ≠ [] ∧
        classify modOrder rules group = (objectsOf modOrder group, [])) := by
  rw [classify_eq]
  cases hs : severalMods (objectsOf modOrder group) with
  | false => exact .inl ⟨rfl, rfl⟩
  | true =>
    have hne := ne_nil_of_severalMods hs
    cases inOneFile (objectsOf modOrder group) with
    | true =>
      obtain ⟨d, hd, why, hwhy⟩ := exists_winner? hne rules
      exact .inr (.inl ⟨rfl, d, hd, why, hwhy, by rw [hwhy]; rfl⟩)
    | false => exact .inr (.inr ⟨hne, rfl⟩)

theorem classify_nil : classify modOrder rules [] = ([], []) := by
  rcases classify_cases modOrder rules [] with ⟨-, h⟩ | ⟨-, d, hd, -⟩ | ⟨hne, -⟩
  · exact h
  · cases (mem_objectsOf.mp hd).1
  · exact absurd (sortByMods_eq_nil.mpr rfl) hne

theorem mem_of_mem_classify {group : List Definition} {d : Definition}
    (h : d ∈ (classify modOrder rules group).1 ∨ d ∈ (classify modOrder rules group).2) :
    d ∈ group ∧ d.isSupport = false := by
  rcases classify_cases modOrder rules group with ⟨-, hc⟩ | ⟨-, d', hd', -, -, hc⟩ | ⟨-, hc⟩
  · simp [hc] at h
  · obtain rfl : d = d' := by simpa [hc] using h
    exact mem_objectsOf.mp hd'
  · exact mem_objectsOf.mp (by simpa [hc] using h)

theorem modName_eq_of_not_severalMods {definitions : List Definition}
    (h : severalMods definitions = false) {a b : Definition} (ha : a ∈ definitions)
    (hb : b ∈ definitions) : a.modName = b.modName := by
  cases definitions with
  | nil => cases ha
  | cons first rest =>
    have hfirst : ∀ d ∈ first :: rest, d.modName = first.modName := by
      rw [List.forall_mem_cons]
      exact ⟨rfl, by simpa [severalMods] using h⟩
    rw [hfirst a ha, hfirst b hb]

theorem fileKey_eq_of_inOneFile {definitions : List Definition} (h : inOneFile definitions)
    {a b : Definition} (ha : a ∈ definitions) (hb : b ∈ definitions) : a.fileKey = b.fileKey := by
  cases definitions with
  | nil => cases ha
  | cons first rest =>
    have hfirst : ∀ d ∈ first :: rest, d.fileKey = first.fileKey := by
      rw [List.forall_mem_cons]
      exact ⟨rfl, by simpa [inOneFile] using h⟩
    rw [hfirst a ha, hfirst b hb]

theorem mem_of_mem_lostIn {inFile : List Definition} {d : Definition}
    (h : d ∈ lostIn modOrder inFile) : d ∈ inFile ∧ d.isSupport = false := by
  unfold lostIn at h
  split at h
  · cases h
  · dsimp only at h
    split at h
    · cases h
    · rw [List.mem_filter, mem_sortByMods] at h
      simp only [Bool.and_eq_true, Bool.not_eq_true'] at h
      exact ⟨h.1, h.2.1.1.2⟩

namespace Analysis

variable {definitions : List Definition} {keepsDuplicates : Bool} {k : String}

theorem filter_conflicts (k : String) :
    (Analysis.of (.build definitions keepsDuplicates) modOrder rules).conflicts.all.filter
        (·.identity == k) =
      (classify modOrder rules
        ((Index.build definitions keepsDuplicates).all.filter (·.identity == k))).1 := by
  have hbuckets := Index.holds_identityBuckets definitions keepsDuplicates
  rw [Analysis.of, Index.build_all_of_keepsDuplicates, List.flatMap_map,
    ← hbuckets.filter_flatMap (fun group => (classify modOrder rules group).1)]
  · rw [Index.identityBuckets, List.flatMap_map]
  · rw [classify_nil]
  · exact fun group d hd => (mem_of_mem_classify (.inl hd)).1

theorem filter_overwritten (k : String) :
    (Analysis.of (.build definitions keepsDuplicates) modOrder rules).overwritten.all.filter
        (·.identity == k) =
      (classify modOrder rules
        ((Index.build definitions keepsDuplicates).all.filter (·.identity == k))).2 := by
  have hbuckets := Index.holds_identityBuckets definitions keepsDuplicates
  rw [Analysis.of, Index.build_all_of_keepsDuplicates, List.flatMap_map,
    ← hbuckets.filter_flatMap (fun group => (classify modOrder rules group).2)]
  · rw [Index.identityBuckets, List.flatMap_map]
  · rw [classify_nil]
  · exact fun group d hd => (mem_of_mem_classify (.inr hd)).1

theorem conflicts_withIdentity (k : String) :
    (Analysis.of (.build definitions keepsDuplicates) modOrder rules).conflicts.withIdentity k =
      (classify modOrder rules ((Index.build definitions keepsDuplicates).all.filter
        (·.identity == Text.lowercase k))).1 := by
  rw [← filter_conflicts, Analysis.of, Index.withIdentity_build]

theorem overwritten_withIdentity (k : String) :
    (Analysis.of (.build definitions keepsDuplicates) modOrder rules).overwritten.withIdentity k =
      (classify modOrder rules ((Index.build definitions keepsDuplicates).all.filter
        (·.identity == Text.lowercase k))).2 := by
  rw [← filter_overwritten, Analysis.of, Index.withIdentity_build]

theorem orphans_withIdentity (rules : Option Rules) (hk : Text.lowercase k = k) :
    let orphans := (Analysis.of (.build definitions keepsDuplicates) modOrder rules).orphans
    orphans.withIdentity k = orphans.all.filter (·.identity == k) := by
  intro orphans
  have h := Index.withIdentity_build orphans.all true k
  rwa [hk] at h

theorem mem_of_mem_orphans (rules : Option Rules) {d : Definition}
    (h : d ∈ (Analysis.of (.build definitions keepsDuplicates) modOrder rules).orphans.all) :
    d ∈ (Index.build definitions keepsDuplicates).all := by
  obtain ⟨file, -, hd⟩ := List.mem_flatMap.mp h
  have hfile := (mem_of_mem_lostIn hd).1
  rw [Index.inFile_build] at hfile
  exact (List.mem_filter.mp hfile).1

theorem isSupport_of_mem_orphans (rules : Option Rules) {d : Definition}
    (h : d ∈ (Analysis.of (.build definitions keepsDuplicates) modOrder rules).orphans.all) :
    d.isSupport = false := by
  obtain ⟨file, -, hd⟩ := List.mem_flatMap.mp h
  exact (mem_of_mem_lostIn hd).2

end Analysis

end LoadOrder

import Mathlib.Data.List.Sort
import LoadOrder.Proofs.Classification
import LoadOrder.Proofs.Sorting

namespace LoadOrder

/-- The same definitions of every mod in the same order, possibly mixed in different ways. -/
def Interleaved (definitions definitions' : List Definition) : Prop :=
  ∀ modName, definitions.filter (·.modName == modName) = definitions'.filter (·.modName == modName)

section Mixed

variable {modOrder : List String} {definitions definitions' : List Definition}

theorem Interleaved.mem_iff (h : Interleaved definitions definitions') {d : Definition} :
    d ∈ definitions ↔ d ∈ definitions' := by
  have hmod := congrArg (d ∈ ·) (h d.modName)
  simpa using hmod

theorem Interleaved.filter (h : Interleaved definitions definitions') (p : Definition → Bool) :
    Interleaved (definitions.filter p) (definitions'.filter p) := by
  intro modName
  rw [List.filter_comm, h modName, List.filter_comm]

theorem Interleaved.severalMods_eq (h : Interleaved definitions definitions') :
    severalMods definitions = severalMods definitions' := by
  rw [Bool.eq_iff_iff, severalMods_iff, severalMods_iff]
  simp only [SpansMods, h.mem_iff]

theorem Index.mem_of_mem_build {keepsDuplicates : Bool} {d : Definition}
    (hd : d ∈ (Index.build definitions keepsDuplicates).all) : d ∈ definitions := by
  cases keepsDuplicates with
  | true => exact hd
  | false => exact (keepLast_sublist definitions).mem hd

theorem Interleaved.build (h : Interleaved definitions definitions') (keepsDuplicates : Bool) :
    Interleaved (Index.build definitions keepsDuplicates).all
      (Index.build definitions' keepsDuplicates).all := by
  cases keepsDuplicates with
  | true => exact h
  | false =>
    intro modName
    have hmod {a b : Definition} (hslot : a.sameSlot b) :
        (a.modName == modName) = (b.modName == modName) := by
      rw [(Definition.sameSlot_iff.mp hslot).1]
    change (keepLast definitions).filter _ = (keepLast definitions').filter _
    rw [filter_keepLast hmod, filter_keepLast hmod, h modName]

theorem Interleaved.files_eq (h : Interleaved definitions definitions') (keepsDuplicates : Bool) :
    (Index.build definitions keepsDuplicates).files =
      (Index.build definitions' keepsDuplicates).files := by
  refine Index.files_build_ascending.eq_of_mem_iff Index.files_build_ascending fun file => ?_
  rw [Index.mem_files_build, Index.mem_files_build]
  simp only [(h.build keepsDuplicates).mem_iff]

theorem rank_injective {name name' : String} (hname : name ∈ modOrder) (hname' : name' ∈ modOrder)
    (h : rank modOrder name = rank modOrder name') : name = name' := by
  have hplace : ∀ name ∈ modOrder, ∃ i, ∃ hi : i < modOrder.reverse.length,
      modOrder.reverse[i] = name ∧ rank modOrder name = modOrder.length - i := by
    intro name hname
    cases hi : modOrder.reverse.idxOf? name with
    | none =>
      rw [List.idxOf?_eq_none_iff, List.mem_reverse] at hi
      exact absurd hname hi
    | some i =>
      obtain ⟨hlt, hget, -⟩ := List.idxOf?_eq_some_iff.mp hi
      exact ⟨i, hlt, hget, by simp only [rank, hi]⟩
  obtain ⟨i, hi, rfl, hrank⟩ := hplace name hname
  obtain ⟨j, hj, rfl, hrank'⟩ := hplace name' hname'
  have hij : i = j := by
    rw [List.length_reverse] at hi hj
    omega
  subst hij
  rfl

theorem Interleaved.filter_rank (h : Interleaved definitions definitions')
    (hlisted : ∀ d ∈ definitions, d.modName ∈ modOrder) (k : Nat) :
    definitions.filter (rank modOrder ·.modName == k) =
      definitions'.filter (rank modOrder ·.modName == k) := by
  by_cases hk : ∃ d ∈ definitions, rank modOrder d.modName = k
  · obtain ⟨d, hd, rfl⟩ := hk
    have hmod : ∀ e ∈ definitions,
        (rank modOrder e.modName == rank modOrder d.modName) = (e.modName == d.modName) := by
      intro e he
      rw [Bool.eq_iff_iff, beq_iff_eq, beq_iff_eq]
      exact ⟨rank_injective (hlisted e he) (hlisted d hd), congrArg (rank modOrder)⟩
    rw [List.filter_congr hmod, List.filter_congr fun e he => hmod e (h.mem_iff.mpr he),
      h d.modName]
  · have hnone : ∀ e ∈ definitions, ¬(rank modOrder e.modName == k) = true :=
      fun e he heq => hk ⟨e, he, beq_iff_eq.mp heq⟩
    rw [List.filter_eq_nil_iff.mpr hnone,
      List.filter_eq_nil_iff.mpr fun e he => hnone e (h.mem_iff.mpr he)]

/-- In load order it does not show how the definitions were mixed. -/
theorem Interleaved.sortByMods_eq (h : Interleaved definitions definitions')
    (hlisted : ∀ d ∈ definitions, d.modName ∈ modOrder) :
    sortByMods modOrder definitions = sortByMods modOrder definitions' := by
  refine eq_of_filter_eq (pairwise_sortByMods _) (pairwise_sortByMods _) fun k => ?_
  rw [filter_sortByMods, filter_sortByMods, h.filter_rank hlisted k]

variable {rules : Option Rules}

theorem Interleaved.classify_congr (h : Interleaved definitions definitions')
    (hlisted : ∀ d ∈ definitions, d.modName ∈ modOrder) :
    classify modOrder rules definitions = classify modOrder rules definitions' := by
  have hobjects : objectsOf modOrder definitions = objectsOf modOrder definitions' :=
    (h.filter _).sortByMods_eq fun d hd => hlisted d (List.mem_of_mem_filter hd)
  rw [classify_eq, classify_eq, hobjects]

theorem Interleaved.lostIn_congr (h : Interleaved definitions definitions')
    (hlisted : ∀ d ∈ definitions, d.modName ∈ modOrder) :
    lostIn modOrder definitions = lostIn modOrder definitions' := by
  rw [lostIn, lostIn, h.severalMods_eq, h.sortByMods_eq hlisted]

/-- An analysis says the same of the definitions of listed mods, however those of different mods are
mixed: which definitions conflict and which have overwritten others, under every identity in the
same order, and which are lost. -/
theorem Analysis.of_interleaved (h : Interleaved definitions definitions')
    (hlisted : ∀ d ∈ definitions, d.modName ∈ modOrder) (keepsDuplicates : Bool)
    (rules : Option Rules) :
    let a := Analysis.of (.build definitions keepsDuplicates) modOrder rules
    let a' := Analysis.of (.build definitions' keepsDuplicates) modOrder rules
    (∀ identity, a.conflicts.withIdentity identity = a'.conflicts.withIdentity identity) ∧
      (∀ identity, a.overwritten.withIdentity identity = a'.overwritten.withIdentity identity) ∧
      a.orphans = a'.orphans := by
  intro a a'
  have hall := h.build keepsDuplicates
  have hmods : ∀ d ∈ (Index.build definitions keepsDuplicates).all, d.modName ∈ modOrder :=
    fun d hd => hlisted d (Index.mem_of_mem_build hd)
  have hclasses : ∀ k, classify modOrder rules
      ((Index.build definitions keepsDuplicates).all.filter (·.identity == k)) =
        classify modOrder rules
          ((Index.build definitions' keepsDuplicates).all.filter (·.identity == k)) :=
    fun k => (hall.filter _).classify_congr fun d hd => hmods d (List.mem_of_mem_filter hd)
  have hlost : ∀ file, lostIn modOrder ((Index.build definitions keepsDuplicates).inFile file) =
      lostIn modOrder ((Index.build definitions' keepsDuplicates).inFile file) := by
    intro file
    rw [Index.inFile_build, Index.inFile_build]
    exact (hall.filter _).lostIn_congr fun d hd => hmods d (List.mem_of_mem_filter hd)
  refine ⟨fun identity => ?_, fun identity => ?_, ?_⟩
  · rw [Analysis.conflicts_withIdentity, Analysis.conflicts_withIdentity, hclasses]
  · rw [Analysis.overwritten_withIdentity, Analysis.overwritten_withIdentity, hclasses]
  · simp only [a, a', Analysis.of, hlost, h.files_eq]

end Mixed

def objectIn (modName file id : String) : Definition :=
  { Definition.blank with id, type := "t", modName, file }

def firstModFirst : List Definition :=
  [objectIn "a" "t/a" "x", objectIn "a" "t/b" "y", objectIn "a" "t/b" "z",
    objectIn "b" "t/b" "x", objectIn "b" "t/b" "y"]

def modsInTurn : List Definition :=
  [objectIn "b" "t/b" "x", objectIn "a" "t/a" "x", objectIn "b" "t/b" "y",
    objectIn "a" "t/b" "y", objectIn "a" "t/b" "z"]

theorem interleaved_modsInTurn : Interleaved firstModFirst modsInTurn := by
  intro modName
  by_cases ha : "a" = modName
  · subst ha
    rfl
  · by_cases hb : "b" = modName
    · subst hb
      rfl
    · simp [firstModFirst, modsInTurn, objectIn, ha, hb]

theorem of_interleaved_modsInTurn :
    let a := Analysis.of (.build firstModFirst false) ["a", "b"] none
    let a' := Analysis.of (.build modsInTurn false) ["a", "b"] none
    Interleaved firstModFirst modsInTurn ∧ (∀ d ∈ firstModFirst, d.modName ∈ ["a", "b"]) ∧
      a.conflicts.withIdentity "t-x" = [objectIn "a" "t/a" "x", objectIn "b" "t/b" "x"] ∧
      (∀ identity, a.conflicts.withIdentity identity = a'.conflicts.withIdentity identity) ∧
      (∀ identity, a.overwritten.withIdentity identity = a'.overwritten.withIdentity identity) ∧
      a.orphans = a'.orphans := by
  intro a a'
  have hlisted : ∀ d ∈ firstModFirst, d.modName ∈ ["a", "b"] := by decide
  let both := [objectIn "a" "t/a" "x", objectIn "b" "t/b" "x"]
  have hconflicts : a.conflicts.withIdentity "t-x" = both := by
    have hgroup : (Index.build firstModFirst false).all.filter
        (·.identity == Text.lowercase "t-x") = both := by
      rfl
    have hspans : SpansMods (both.filter (!·.isSupport)) ∧
        SpansFiles (both.filter (!·.isSupport)) := by
      decide +kernel
    rw [Analysis.conflicts_withIdentity, hgroup, classify_eq_ite, if_pos hspans]
    exact sortByMods_of_pairwise (by decide)
  exact ⟨interleaved_modsInTurn, hlisted, hconflicts,
    Analysis.of_interleaved interleaved_modsInTurn hlisted false none⟩

end LoadOrder

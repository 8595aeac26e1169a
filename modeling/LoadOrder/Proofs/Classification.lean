import LoadOrder.Proofs.Conflict
import LoadOrder.Proofs.Definition.History

namespace LoadOrder

def SpansMods (definitions : List Definition) : Prop :=
  ∃ a ∈ definitions, ∃ b ∈ definitions, a.modName ≠ b.modName

def SpansFiles (definitions : List Definition) : Prop :=
  ∃ a ∈ definitions, ∃ b ∈ definitions, a.fileKey ≠ b.fileKey

theorem severalMods_iff {definitions : List Definition} :
    severalMods definitions ↔ SpansMods definitions := by
  constructor
  · intro h
    cases definitions with
    | nil => cases h
    | cons d rest =>
      obtain ⟨b, hb, hne⟩ := List.any_eq_true.mp h
      exact ⟨d, List.mem_cons_self, b, List.mem_cons_of_mem d hb, fun heq => by simp [heq] at hne⟩
  · rintro ⟨a, ha, b, hb, hne⟩
    refine Classical.byContradiction fun h => hne ?_
    exact modName_eq_of_not_severalMods (Bool.not_eq_true _ ▸ h) ha hb

theorem not_inOneFile_iff {definitions : List Definition} :
    ¬inOneFile definitions ↔ SpansFiles definitions := by
  constructor
  · intro h
    cases definitions with
    | nil => exact absurd rfl h
    | cons d rest =>
      rw [Bool.not_eq_true, inOneFile, List.all_eq_false] at h
      obtain ⟨b, hb, hne⟩ := h
      exact ⟨b, List.mem_cons_of_mem d hb, d, List.mem_cons_self, by simpa using hne⟩
  · rintro ⟨a, ha, b, hb, hne⟩ h
    exact hne (fileKey_eq_of_inOneFile h ha hb)

instance (definitions : List Definition) : Decidable (SpansMods definitions) :=
  decidable_of_iff (severalMods definitions = true) severalMods_iff

instance (definitions : List Definition) : Decidable (SpansFiles definitions) :=
  decidable_of_iff (¬inOneFile definitions = true) not_inOneFile_iff

section Order

variable {modOrder : List String} {definitions : List Definition}

theorem spansMods_sortByMods :
    SpansMods (sortByMods modOrder definitions) ↔ SpansMods definitions := by
  simp only [SpansMods, mem_sortByMods]

theorem spansFiles_sortByMods :
    SpansFiles (sortByMods modOrder definitions) ↔ SpansFiles definitions := by
  simp only [SpansFiles, mem_sortByMods]

end Order

theorem winner?_of_inOneFile {candidates : List Definition} (h : inOneFile candidates)
    (rules : Option Rules) : (winner? candidates rules).map (·.1) = candidates.getLast? := by
  unfold winner?
  cases candidates.getLast? with
  | none => rfl
  | some last =>
    simp only [Option.bind_eq_bind, Option.bind_some, h, if_true]
    split <;> rfl

section Classes

variable {modOrder : List String} {rules : Option Rules} {definitions : List Definition}
  {keepsDuplicates : Bool}

theorem classify_eq_ite (modOrder : List String) (rules : Option Rules)
    (group : List Definition) :
    let objects := group.filter (!·.isSupport)
    classify modOrder rules group =
      (if SpansMods objects ∧ SpansFiles objects then sortByMods modOrder objects else [],
        if SpansMods objects ∧ ¬SpansFiles objects then
          (sortByMods modOrder objects).getLast?.toList
        else []) := by
  intro objects
  have hmods : severalMods (objectsOf modOrder group) ↔ SpansMods objects :=
    severalMods_iff.trans spansMods_sortByMods
  have hfiles : ¬inOneFile (objectsOf modOrder group) ↔ SpansFiles objects :=
    not_inOneFile_iff.trans spansFiles_sortByMods
  rw [classify_eq]
  by_cases hm : SpansMods objects
  · by_cases hf : SpansFiles objects
    · have hone : inOneFile (objectsOf modOrder group) = false := by simpa using hfiles.mpr hf
      simp only [hmods.mpr hm, hone, hm, hf]
      rfl
    · have hone : inOneFile (objectsOf modOrder group) := by
        simpa using fun h => hf (hfiles.mp h)
      simp only [hmods.mpr hm, hone, hm, hf, winner?_of_inOneFile hone]
      rfl
  · have hnone : severalMods (objectsOf modOrder group) = false := by
      simpa using fun h => hm (hmods.mp h)
    simp [hnone, hm]

end Classes

end LoadOrder

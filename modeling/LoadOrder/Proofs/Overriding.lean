import LoadOrder.Proofs.Classification

namespace LoadOrder

/-- The last of some definitions that are in a file, whatever the case of its letters. -/
def lastInFile? (definitions : List Definition) (fileKey : String) : Option Definition :=
  definitions.reverse.find? (·.fileKey == fileKey)

section Last

variable {before after : List Definition} {d : Definition}

theorem lastInFile?_eq (before : List Definition) (d : Definition) (after : List Definition) :
    lastInFile? (before ++ d :: after) d.fileKey = (lastInFile? after d.fileKey).or (some d) := by
  have hself : (d :: before.reverse).find? (·.fileKey == d.fileKey) = some d :=
    List.find?_cons_of_pos (beq_self_eq_true d.fileKey)
  rw [lastInFile?, List.reverse_append, List.reverse_cons, List.append_assoc,
    List.singleton_append, List.find?_append, hself, lastInFile?]

theorem lastInFile?_eq_none_iff {fileKey : String} :
    lastInFile? after fileKey = none ↔ ∀ e ∈ after, e.fileKey ≠ fileKey := by
  simp [lastInFile?]

/-- Where no later definition has the very same file, there is a later one in the file exactly if
the last one there spells it differently. -/
theorem overridden_iff (h : ∀ e ∈ after, e.file ≠ d.file) :
    (∃ e ∈ after, e.fileKey = d.fileKey) ↔
      ∃ last ∈ lastInFile? (before ++ d :: after) d.fileKey, last.file ≠ d.file := by
  rw [lastInFile?_eq]
  cases hlast : lastInFile? after d.fileKey with
  | none =>
    have hnone := lastInFile?_eq_none_iff.mp hlast
    simpa using hnone
  | some last =>
    have hmem : last ∈ after := List.mem_reverse.mp (List.mem_of_find?_eq_some hlast)
    have hkey : last.fileKey = d.fileKey := by
      simpa using List.find?_some hlast
    exact iff_of_true ⟨last, hmem, hkey⟩ ⟨last, rfl, h last hmem⟩

end Last

/-- Candidates have a winner, and no later one has the very same file. Later ones are in its file
exactly if the last of them spells it differently; not if all spell it alike. If a rule decides
between files, no candidate's file comes before the winner's; without a rule the last one wins. -/
theorem winner?_overridden_iff {candidates : List Definition} (h : candidates ≠ [])
    (rules : Option Rules) :
    ∃ before d after why, candidates = before ++ d :: after ∧
      winner? candidates rules = some (d, why) ∧ (∀ e ∈ after, e.file ≠ d.file) ∧
      ((∃ e ∈ after, e.fileKey = d.fileKey) ↔
        ∃ last ∈ lastInFile? candidates d.fileKey, last.file ≠ d.file) ∧
      ((∀ a ∈ candidates, ∀ b ∈ candidates, a.fileKey = b.fileKey → a.file = b.file) →
        ∀ e ∈ after, e.fileKey ≠ d.fileKey) ∧
      (SpansFiles candidates → ∀ order, ruleFor rules candidates = some order →
        ∀ e ∈ candidates, ¬order.Before e.file d.file) ∧
      (ruleFor rules candidates = none → after = []) := by
  obtain ⟨before, d, after, why, hsplit, hwinner, hcases⟩ := winner?_cases h rules
  have hlater : ∀ e ∈ after, e.file ≠ d.file := by
    rcases hcases with ⟨rfl, -⟩ | ⟨order, -, hlater, -⟩
    · simp
    · exact hlater
  refine ⟨before, d, after, why, hsplit, hwinner, hlater, ?_, fun halike e he hkey => ?_,
    fun hspans order hrule => ?_, fun hnone => ?_⟩
  · rw [hsplit]
    exact overridden_iff hlater
  · rw [hsplit] at halike
    exact hlater e he (halike e (by simp [he]) d (by simp) hkey)
  · rcases hcases with ⟨-, hone | hnone⟩ | ⟨order', hrule', -, hbest⟩
    · exact absurd hone (not_inOneFile_iff.mpr hspans)
    · rw [hnone] at hrule
      cases hrule
    · obtain rfl := Option.some.inj (hrule'.symm.trans hrule)
      exact hbest
  · rcases hcases with ⟨hafter, -⟩ | ⟨order, hrule, -⟩
    · exact hafter
    · rw [hrule] at hnone
      cases hnone

def taxRate (modName file : String) : Definition :=
  { Definition.blank with id := "tax_rate", type := "t", file, modName }

theorem winner?_overridden_shippedTwice :
    let candidates := [taxRate "a" "t/00.txt", taxRate "b" "t/01.txt", taxRate "c" "t/00.txt"]
    candidates ≠ [] ∧ ∃ d why, winner? candidates (some (.constant (some .first))) = some (d, why) ∧
      d.modName = "c" ∧ ∀ e ∈ candidates, ¬SourceOrder.first.Before e.file d.file := by
  intro candidates
  have hne : candidates ≠ [] := by decide
  obtain ⟨before, d, after, why, hsplit, hwinner, -, -, -, hbest, -⟩ :=
    winner?_overridden_iff hne (some (.constant (some .first)))
  have hmod :
      (winner? candidates (some (.constant (some .first)))).map (·.1.modName) = some "c" := by
    decide +kernel
  rw [hwinner] at hmod
  exact ⟨hne, d, why, hwinner, Option.some.inj hmod, hbest (by decide +kernel) .first rfl⟩

/-- The first mod spells the first file in capitals, and the second one does not override it. -/
theorem not_winner?_overrides :
    ¬∀ (candidates : List Definition) (rules : Option Rules), candidates ≠ [] →
      ∃ before d after why, candidates = before ++ d :: after ∧
        winner? candidates rules = some (d, why) ∧ ∀ e ∈ after, e.fileKey ≠ d.fileKey := by
  intro h
  let candidates := [taxRate "a" "t/00_A.txt", taxRate "b" "t/00_a.txt", taxRate "c" "t/01.txt"]
  obtain ⟨before, d, after, why, hsplit, hwinner, hlater⟩ :=
    h candidates (some (.constant (some .first))) (by decide)
  have hmod :
      (winner? candidates (some (.constant (some .first)))).map (·.1.modName) = some "a" := by
    decide +kernel
  rw [hwinner] at hmod
  cases before with
  | nil =>
    obtain ⟨rfl, rfl⟩ := List.cons.inj hsplit
    exact hlater _ List.mem_cons_self (by decide +kernel)
  | cons first before =>
    have hmem : d ∈ [taxRate "b" "t/00_a.txt", taxRate "c" "t/01.txt"] := by
      rw [(List.cons.inj hsplit).2]
      exact List.mem_append_right _ List.mem_cons_self
    have hother : ∀ e ∈ [taxRate "b" "t/00_a.txt", taxRate "c" "t/01.txt"], e.modName ≠ "a" := by
      decide
    exact hother d hmem (Option.some.inj hmod)

end LoadOrder

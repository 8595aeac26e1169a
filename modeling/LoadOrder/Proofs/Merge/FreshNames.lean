import Mathlib.Data.List.Nodup
import Mathlib.Data.List.Perm.Subperm
import Mathlib.Order.Bounds.Basic
import LoadOrder.Merge.Rename
import LoadOrder.Proofs.Text.Digits

namespace LoadOrder

theorem map_toLower_numberedName (id : String) (n : Nat) :
    (numberedName id n).toList.map Char.toLower =
      id.toList.map Char.toLower ++ '_' :: Nat.toDigits 10 n := by
  have hmark : ("_" : String).toList.map Char.toLower = ['_'] := by decide
  have hdigits : (Nat.toDigits 10 n).map Char.toLower = Nat.toDigits 10 n := by
    rw [List.map_congr_left fun c hc => Text.toLower_of_isDigit (Text.isDigit_toDigits hc),
      List.map_id']
  rw [numberedName, String.toList_append, String.toList_append, Text.toList_toString,
    List.map_append, List.map_append, hmark, hdigits, List.append_assoc, List.singleton_append]

theorem map_toLower_numberedName_injective (id : String) :
    Function.Injective fun n => (numberedName id n).toList.map Char.toLower := by
  intro n n' h
  simp only [map_toLower_numberedName, List.append_cancel_left_eq, List.cons.injEq, true_and] at h
  exact Text.toDigits_injective h

def numberTaken (definitions : List Definition) (id : String) (n : Nat) : Bool :=
  isTaken definitions (numberedName id n)

theorem numberTaken_eq_false_iff {definitions : List Definition} {id : String} {n : Nat} :
    numberTaken definitions id n = false ↔
      ∀ d ∈ definitions, ¬Text.sameIgnoringCase d.id (numberedName id n) :=
  List.any_eq_false

theorem exists_free_numberedName (definitions : List Definition) (id : String) (n : Nat) :
    ∃ m, n ≤ m ∧ m ≤ n + definitions.length ∧ numberTaken definitions id m = false := by
  by_contra! h
  let numbers := List.range' n (definitions.length + 1)
  -- the names differ, so each of them would be that of another definition
  have hnodup : (numbers.map fun m => (numberedName id m).toList.map Char.toLower).Nodup :=
    List.Nodup.map (map_toLower_numberedName_injective id) List.nodup_range'
  have hsub : (numbers.map fun m => (numberedName id m).toList.map Char.toLower) ⊆
      definitions.map fun d => d.id.toList.map Char.toLower := by
    intro name hname
    obtain ⟨m, hm, rfl⟩ := List.mem_map.mp hname
    obtain ⟨hle, hlt⟩ := List.mem_range'_1.mp hm
    have htaken := h m hle (Nat.le_of_lt_succ hlt)
    rw [Bool.ne_false_iff, numberTaken, isTaken, List.any_eq_true] at htaken
    obtain ⟨d, hd, hsame⟩ := htaken
    exact List.mem_map.mpr ⟨d, hd, Text.sameIgnoringCase_iff.mp hsame⟩
  have hlength := (List.subperm_of_subset hnodup hsub).length_le
  rw [List.length_map, List.length_map, List.length_range'] at hlength
  exact Nat.not_succ_le_self _ hlength

/-- The search from `n` on, which tries number after number until one is not taken, ends after so
many retries. -/
inductive EndsAfter (taken : Nat → Bool) : (n retries : Nat) → Prop
  | free {n : Nat} : taken n = false → EndsAfter taken n 0
  | retry {n retries : Nat} : taken n → EndsAfter taken (n + 1) retries →
      EndsAfter taken n (retries + 1)

section Search

variable {taken : Nat → Bool} {n m retries : Nat}

/-- A search that ends has found the first number that is not taken. -/
theorem EndsAfter.isLeast (h : EndsAfter taken n retries) :
    IsLeast {m | n ≤ m ∧ taken m = false} (n + retries) := by
  induction h with
  | free hfree => exact ⟨⟨Nat.le_refl _, hfree⟩, fun m hm => hm.1⟩
  | @retry n retries htaken _ ih =>
    obtain ⟨⟨hle, hfree⟩, hleast⟩ := ih
    rw [Nat.add_assoc, Nat.add_comm 1] at hle hfree hleast
    refine ⟨⟨Nat.le_add_right _ _, hfree⟩, fun m hm => hleast ⟨?_, hm.2⟩⟩
    refine Nat.lt_of_le_of_ne hm.1 ?_
    rintro rfl
    rw [hm.2] at htaken
    cases htaken

theorem exists_endsAfter (hle : n ≤ m) (hfree : taken m = false) :
    ∃ retries, n + retries ≤ m ∧ EndsAfter taken n retries := by
  induction hd : m - n generalizing n with
  | zero =>
    obtain rfl : n = m := by omega
    exact ⟨0, hle, .free hfree⟩
  | succ distance ih =>
    cases htaken : taken n with
    | false => exact ⟨0, hle, .free htaken⟩
    | true =>
      obtain ⟨retries, hbound, hends⟩ := ih (n := n + 1) (by omega) (by omega)
      exact ⟨retries + 1, by omega, .retry htaken hends⟩

end Search

section Fresh

variable {definitions : List Definition} {id : String}

theorem EndsAfter.freeNumber_eq {n retries fuel : Nat}
    (h : EndsAfter (numberTaken definitions id) n retries) (hfuel : retries ≤ fuel) :
    freeNumber definitions id fuel n = n + retries := by
  induction h generalizing fuel with
  | free hfree =>
    rw [numberTaken] at hfree
    cases fuel with
    | zero => rfl
    | succ fuel => rw [freeNumber, hfree, if_neg Bool.false_ne_true, Nat.add_zero]
  | retry htaken _ ih =>
    rw [numberTaken] at htaken
    cases fuel with
    | zero => exact absurd hfuel (Nat.not_succ_le_zero _)
    | succ fuel =>
      rw [freeNumber, htaken, if_pos rfl, ih (Nat.le_of_succ_le_succ hfuel), Nat.add_right_comm,
        Nat.add_assoc]

theorem exists_endsAfter_freeName (definitions : List Definition) (id : String) :
    let first := definitions.countP (fun d => Text.sameIgnoringCase d.id id) + 1
    ∃ retries ≤ definitions.length, EndsAfter (numberTaken definitions id) first retries ∧
      freeName definitions id = numberedName id (first + retries) := by
  intro first
  obtain ⟨m, hle, hbound, hfree⟩ := exists_free_numberedName definitions id first
  obtain ⟨retries, hretries, hends⟩ := exists_endsAfter hle hfree
  have hfuel : retries ≤ definitions.length := by omega
  refine ⟨retries, hfuel, hends, ?_⟩
  rw [freeName, hends.freeNumber_eq hfuel]

end Fresh

theorem isTaken_freeName (definitions : List Definition) (id : String) :
    isTaken definitions (freeName definitions id) = false := by
  obtain ⟨retries, -, hends, hname⟩ := exists_endsAfter_freeName definitions id
  rw [hname]
  exact hends.isLeast.1.2

/-- The search for a fresh name ends after at most as many retries as there are definitions. The
number of the name is the least one, from one more than the definitions called `id`, with a name
that no definition has, whatever the case of the letters. -/
theorem freeName_isLeast (definitions : List Definition) (id : String) :
    let first := definitions.countP (fun d => Text.sameIgnoringCase d.id id) + 1
    ∃ retries ≤ definitions.length, EndsAfter (numberTaken definitions id) first retries ∧
      freeName definitions id = numberedName id (first + retries) ∧
      IsLeast {n | first ≤ n ∧
        ∀ d ∈ definitions, ¬Text.sameIgnoringCase d.id (numberedName id n)} (first + retries) := by
  obtain ⟨retries, hbound, hends, hname⟩ := exists_endsAfter_freeName definitions id
  refine ⟨retries, hbound, hends, hname, ?_⟩
  simpa only [numberTaken_eq_false_iff] using hends.isLeast

/-- The second name is taken, and the third one in capitals. -/
example : freeName (["@x", "@x_2", "@X_3"].map fun id => { Definition.blank with id }) "@x" =
    "@x_4" := by
  decide +kernel

end LoadOrder

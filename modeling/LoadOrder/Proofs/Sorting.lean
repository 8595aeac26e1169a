import Mathlib.Data.List.Nodup

/-!
Stable sorting, and the best of a list. A filter keeps of a sorted list what it keeps, sorted; and a
sorted list is told by what it has under every key, or by its elements if no two have the same key.
-/

namespace LoadOrder

section Sorted

variable {α : Type} {le : α → α → Bool}

/-- A sorted list falls into what is less than an element and the rest, and the element comes
between them. -/
theorem mergeSort_parts (htrans : ∀ a b c, le a b → le b c → le a c)
    (htotal : ∀ a b, (le a b || le b a) = true) (a : α) (l : List α) :
    l.mergeSort le = (l.mergeSort le).filter (!le a ·) ++ (l.mergeSort le).filter (le a ·) ∧
      (a :: l).mergeSort le =
        (l.mergeSort le).filter (!le a ·) ++ a :: (l.mergeSort le).filter (le a ·) := by
  obtain ⟨before, after, hsort, hparts, hless⟩ := List.mergeSort_cons htrans htotal a l
  have hsorted := List.pairwise_mergeSort htrans htotal (a :: l)
  rw [hsort, List.pairwise_append, List.pairwise_cons] at hsorted
  have hmore : ∀ b ∈ after, le a b := hsorted.2.1.1
  have hbefore : (before ++ after).filter (!le a ·) = before := by
    have hnone : after.filter (!le a ·) = [] := by
      rw [List.filter_eq_nil_iff]
      intro b hb
      simp [hmore b hb]
    rw [List.filter_append, List.filter_eq_self.mpr hless, hnone, List.append_nil]
  have hafter : (before ++ after).filter (le a ·) = after := by
    have hnone : before.filter (le a ·) = [] := by
      rw [List.filter_eq_nil_iff]
      intro b hb
      simpa using hless b hb
    rw [List.filter_append, hnone, List.filter_eq_self.mpr hmore, List.nil_append]
  rw [hsort, hparts, hbefore, hafter]
  exact ⟨rfl, rfl⟩

theorem filter_mergeSort (htrans : ∀ a b c, le a b → le b c → le a c)
    (htotal : ∀ a b, (le a b || le b a) = true) (p : α → Bool) (l : List α) :
    (l.mergeSort le).filter p = (l.filter p).mergeSort le := by
  induction l with
  | nil => simp
  | cons a l ih =>
    have hparts := mergeSort_parts htrans htotal a (l.filter p)
    rw [(mergeSort_parts htrans htotal a l).2, List.filter_append, List.filter_cons,
      List.filter_comm, List.filter_comm _ (le a ·), ih, List.filter_cons]
    split
    · exact hparts.2.symm
    · exact hparts.1.symm

end Sorted

/-- Two sorted lists that have the same under every key are the same. -/
theorem eq_of_filter_eq {α : Type} {key : α → Nat} {l l' : List α}
    (hl : l.Pairwise fun a b => key a ≤ key b) (hl' : l'.Pairwise fun a b => key a ≤ key b)
    (h : ∀ k, l.filter (key · == k) = l'.filter (key · == k)) : l = l' := by
  have hmem : ∀ a, a ∈ l ↔ a ∈ l' := by
    intro a
    have hkey := congrArg (a ∈ ·) (h (key a))
    simpa using hkey
  induction l generalizing l' with
  | nil =>
    rw [eq_comm, List.eq_nil_iff_forall_not_mem]
    exact fun a ha => List.not_mem_nil ((hmem a).mpr ha)
  | cons a l ih =>
    cases l' with
    | nil => exact absurd ((hmem a).mp List.mem_cons_self) List.not_mem_nil
    | cons b l' =>
      rw [List.pairwise_cons] at hl hl'
      -- neither of the first elements can have a greater key than the other
      have hle : key a ≤ key b := by
        rcases List.mem_cons.mp ((hmem b).mpr List.mem_cons_self) with rfl | hb
        · exact Nat.le_refl _
        · exact hl.1 b hb
      have hge : key b ≤ key a := by
        rcases List.mem_cons.mp ((hmem a).mp List.mem_cons_self) with rfl | ha
        · exact Nat.le_refl _
        · exact hl'.1 a ha
      have hkey : key a = key b := Nat.le_antisymm hle hge
      have hfirst := h (key b)
      rw [List.filter_cons_of_pos (by simpa using hkey), List.filter_cons_of_pos (by simp)]
        at hfirst
      obtain ⟨rfl, -⟩ := List.cons.inj hfirst
      have hrest : ∀ k, l.filter (key · == k) = l'.filter (key · == k) := by
        intro k
        have hk := h k
        by_cases hak : key a = k
        · rw [List.filter_cons_of_pos (by simpa using hak),
            List.filter_cons_of_pos (by simpa using hak)] at hk
          exact (List.cons.inj hk).2
        · rwa [List.filter_cons_of_neg (by simpa using hak),
            List.filter_cons_of_neg (by simpa using hak)] at hk
      rw [ih hl.2 hl'.2 hrest]
      intro c
      have hc := congrArg (c ∈ ·) (hrest (key c))
      simpa using hc

theorem mergeSort_eq_of_perm {α : Type} {key : α → Nat} {l l' : List α}
    (hl : l.Pairwise fun a b => key a < key b) (h : l'.Perm l) :
    l'.mergeSort (fun a b => key a ≤ key b) = l := by
  let le (a b : α) : Bool := key a ≤ key b
  have htrans (a b c : α) (hab : le a b) (hbc : le b c) : le a c :=
    decide_eq_true (Nat.le_trans (of_decide_eq_true hab) (of_decide_eq_true hbc))
  have htotal (a b : α) : le a b || le b a := by
    simpa [le] using Nat.le_total (key a) (key b)
  have hsorted : (l'.mergeSort le).Pairwise fun a b => key a ≤ key b :=
    (List.pairwise_mergeSort htrans htotal l').imp of_decide_eq_true
  have hperm := (List.mergeSort_perm l' le).trans h
  have hkeys : (l.map key).Nodup := (List.pairwise_map.mpr hl).imp Nat.ne_of_lt
  refine hperm.eq_of_pairwise (fun a b ha hb hab hba => ?_) hsorted (hl.imp Nat.le_of_lt)
  exact List.inj_on_of_nodup_map hkeys (hperm.mem_iff.mp ha) hb (Nat.le_antisymm hab hba)

section Takes

variable {α : Type} (takes : α → α → Prop) [DecidableRel takes]

/-- A fold that lets the next element take the place of the best one ends with an element that
takes the place of all before it and whose place none behind it takes. -/
theorem exists_of_foldl_takes (htrans : ∀ a b c, takes a b → takes b c → takes a c)
    (hsplit : ∀ a b c, takes a c → takes a b ∨ takes b c) (a : α) (rest : List α) :
    ∃ before best after, a :: rest = before ++ best :: after ∧
      rest.foldl (fun best a => if takes best a then a else best) a = best ∧
      (∀ b ∈ before, takes b best) ∧ ∀ b ∈ after, ¬takes best b := by
  induction rest generalizing a with
  | nil => exact ⟨[], a, [], rfl, rfl, by simp, by simp⟩
  | cons next rest ih =>
    by_cases hnext : takes a next
    · obtain ⟨before, best, after, hlist, hfold, hbefore, hafter⟩ := ih next
      have hbest : takes a best := by
        cases before with
        | nil => exact (List.cons.inj hlist).1 ▸ hnext
        | cons b before =>
          obtain ⟨rfl, -⟩ := List.cons.inj hlist
          exact htrans _ _ _ hnext (hbefore _ List.mem_cons_self)
      refine ⟨a :: before, best, after, by rw [hlist]; rfl, ?_,
        List.forall_mem_cons.mpr ⟨hbest, hbefore⟩, hafter⟩
      rw [List.foldl_cons, if_pos hnext, hfold]
    · obtain ⟨before, best, after, hlist, hfold, hbefore, hafter⟩ := ih a
      have hstart : (next :: rest).foldl (fun best a => if takes best a then a else best) a =
          best := by
        rw [List.foldl_cons, if_neg hnext, hfold]
      cases before with
      | nil =>
        obtain ⟨rfl, rfl⟩ := List.cons.inj hlist
        exact ⟨[], a, next :: rest, rfl, hstart, by simp,
          List.forall_mem_cons.mpr ⟨hnext, hafter⟩⟩
      | cons b before =>
        obtain ⟨rfl, rfl⟩ := List.cons.inj hlist
        rw [List.forall_mem_cons] at hbefore
        have hbest : takes next best := (hsplit a next best hbefore.1).resolve_left hnext
        exact ⟨a :: next :: before, best, after, rfl, hstart,
          List.forall_mem_cons.mpr ⟨hbefore.1, List.forall_mem_cons.mpr ⟨hbest, hbefore.2⟩⟩,
          hafter⟩

end Takes

end LoadOrder

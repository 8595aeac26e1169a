import LoadOrder.Mod
import LoadOrder.Proofs.Sorting
import Mathlib.Order.Lattice.Nat
import Mathlib.Order.PiLex

namespace LoadOrder

/-- The numbers of a version with zeros behind them, ordered by the first place where two versions
differ. -/
def withZeros (numbers : List Nat) : Lex (Nat → Nat) := toLex fun i => numbers.getD i 0

theorem toLex_lt_iff (f g : Nat → Nat) :
    toLex f < toLex g ↔ f 0 < g 0 ∨
      f 0 = g 0 ∧ toLex (fun i => f (i + 1)) < toLex fun i => g (i + 1) := by
  constructor
  · rintro ⟨i, hsame, hless⟩
    cases i with
    | zero => exact .inl hless
    | succ i =>
      exact .inr ⟨hsame 0 i.succ_pos, i, fun j hj => hsame (j + 1) (Nat.succ_lt_succ hj), hless⟩
  · rintro (hless | ⟨hfirst, i, hsame, hless⟩)
    · exact ⟨0, fun j hj => absurd hj (Nat.not_lt_zero j), hless⟩
    · refine ⟨i + 1, fun j hj => ?_, hless⟩
      cases j with
      | zero => exact hfirst
      | succ j => exact hsame j (Nat.lt_of_succ_lt_succ hj)

theorem withZeros_lt_iff (as bs : List Nat) :
    withZeros as < withZeros bs ↔ as.headD 0 < bs.headD 0 ∨
      as.headD 0 = bs.headD 0 ∧ withZeros as.tail < withZeros bs.tail := by
  refine (toLex_lt_iff _ _).trans ?_
  cases as <;> cases bs <;> rfl

theorem compareNumbers_eq_lt_iff (as bs : List Nat) :
    compareNumbers as bs = .lt ↔ withZeros as < withZeros bs := by
  have hcons {a b : Nat} {o : Ordering} :
      (compare a b).then o = .lt ↔ a < b ∨ a = b ∧ o = .lt := by
    rw [Ordering.then_eq_lt, Nat.compare_eq_lt, Nat.compare_eq_eq]
  fun_induction compareNumbers as bs with
  | case1 => exact iff_of_false (by decide) (lt_irrefl _)
  | case2 a as ih | case3 b bs ih | case4 a as b bs ih =>
    rw [hcons, withZeros_lt_iff]
    exact or_congr_right (and_congr_right fun _ => ih)

theorem swap_compareNumbers (as bs : List Nat) :
    (compareNumbers as bs).swap = compareNumbers bs as := by
  fun_induction compareNumbers as bs with
  | case1 => rw [compareNumbers, Ordering.swap_eq]
  | case2 a as ih | case3 b bs ih | case4 a as b bs ih =>
    rw [compareNumbers, Ordering.swap_then, ih, Nat.compare_swap]

theorem swap_compareVersions (a b : String) :
    (compareVersions a b).swap = compareVersions b a :=
  swap_compareNumbers _ _

theorem compareVersions_self (a : String) : compareVersions a a = .eq := by
  have hswap := swap_compareVersions a a
  cases h : compareVersions a a with
  | eq => rfl
  | lt => simp [h] at hswap
  | gt => simp [h] at hswap

theorem compareVersions_ne_gt_iff (a b : String) :
    compareVersions a b ≠ .gt ↔ withZeros (versionNumbers a) ≤ withZeros (versionNumbers b) := by
  rw [← swap_compareVersions b a, ne_eq, Ordering.swap_eq_gt, compareVersions,
    compareNumbers_eq_lt_iff]
  exact not_lt

theorem compareVersions_trans {a b c : String} (h : compareVersions a b ≠ .gt)
    (h' : compareVersions b c ≠ .gt) : compareVersions a c ≠ .gt := by
  rw [compareVersions_ne_gt_iff] at *
  exact h.trans h'

theorem compareVersions_total (a b : String) :
    compareVersions a b ≠ .gt ∨ compareVersions b a ≠ .gt := by
  rw [compareVersions_ne_gt_iff, compareVersions_ne_gt_iff]
  exact le_total _ _

theorem exists_highestVersion (first : String) (rest : List String) :
    ∃ before best after, first :: rest = before ++ best :: after ∧
      highestVersion (first :: rest) = best ∧
      (∀ v ∈ before, compareVersions v best ≠ .gt) ∧ ∀ v ∈ after, compareVersions v best = .lt := by
  obtain ⟨before, best, after, hlist, hfold, hbefore, hafter⟩ :=
    exists_of_foldl_takes (fun best v => compareVersions best v ≠ .gt)
      (fun _ _ _ => compareVersions_trans)
      (fun a b c h => (compareVersions_total a b).imp_right fun h' => compareVersions_trans h' h)
      first rest
  refine ⟨before, best, after, hlist, ?_, hbefore, fun v hv => ?_⟩
  · simpa only [highestVersion, ite_not] using hfold
  · rw [← swap_compareVersions best v, not_not.mp (hafter v hv), Ordering.swap_gt]

/-- Versions are in a total preorder. Of some mods the one whose version is the highest is among
them, no version exceeds it, and those behind it have lower ones. -/
theorem versions_preordered (a b c : String) (first : Mod) (rest : List Mod) :
    compareVersions a a = .eq ∧ compareVersions b a = (compareVersions a b).swap ∧
      (compareVersions a b ≠ .gt → compareVersions b c ≠ .gt → compareVersions a c ≠ .gt) ∧
      ∃ before best after, first :: rest = before ++ best :: after ∧
        highestVersion ((first :: rest).map (·.version)) = best.version ∧
        (∀ m ∈ first :: rest, compareVersions m.version best.version ≠ .gt) ∧
        ∀ m ∈ after, compareVersions m.version best.version = .lt := by
  refine ⟨compareVersions_self a, (swap_compareVersions a b).symm, compareVersions_trans, ?_⟩
  obtain ⟨before, best, after, hlist, hbest, hbefore, hafter⟩ :=
    exists_highestVersion first.version (rest.map (·.version))
  rw [← List.map_cons (f := Mod.version)] at hlist
  obtain ⟨before, others, hmods, rfl, hothers⟩ := List.map_eq_append_iff.mp hlist
  obtain ⟨best, after, rfl, rfl, rfl⟩ := List.map_eq_cons_iff.mp hothers
  rw [List.forall_mem_map] at hbefore hafter
  refine ⟨before, best, after, hmods, hbest, fun m hm => ?_, hafter⟩
  rw [hmods, List.mem_append, List.mem_cons] at hm
  rcases hm with hm | rfl | hm
  · exact hbefore m hm
  · rw [compareVersions_self]
    decide
  · rw [hafter m hm]
    decide

end LoadOrder

import LoadOrder.Number.Binary64
import Mathlib.Algebra.Order.Field.Power
import Mathlib.Algebra.Order.Floor.Semifield
import Mathlib.Data.Rat.Floor
import Mathlib.Tactic.FieldSimp
import Mathlib.Tactic.Linarith
import Mathlib.Tactic.NormNum
import Mathlib.Tactic.Positivity

/-!
How far rounding takes a number. Double precision keeps 53 binary digits, so a number that is not
negative stays within one part in `2 ^ 52` of itself.
-/

namespace LoadOrder.Number

variable {n d : Nat} {q : Rat}

/-- Rounding takes a number that is not negative at most one part in `2 ^ 52` away. -/
def Accurate (round : Rat → Rat) : Prop := ∀ q, 0 ≤ q → |round q - q| ≤ q / 2 ^ 52

theorem accurate_id : Accurate id := by
  intro q hq
  rw [id, sub_self, abs_zero]
  positivity

theorem eq_num_div_den (hq : 0 ≤ q) : q = (q.num.toNat : Rat) / q.den := by
  have hnum : ((q.num.toNat : Int) : Rat) = q.num := by
    rw [Int.toNat_of_nonneg (Rat.num_nonneg.mpr hq)]
  rw [← Int.cast_natCast, hnum, Rat.num_div_den]

theorem abs_divToEven_sub_le (n : Nat) (hd : 0 < d) : |(divToEven n d : Rat) - n / d| ≤ 1 / 2 := by
  have hd' : (0 : Rat) < d := by exact_mod_cast hd
  have hdivision : (n : Rat) / d = (n / d : Nat) + (n % d : Nat) / d := by
    rw [div_eq_iff hd'.ne', add_mul, div_mul_cancel₀ _ hd'.ne']
    exact_mod_cast (Nat.div_add_mod' n d).symm
  have hone : ((n % d : Nat) : Rat) / d < 1 :=
    (div_lt_one hd').mpr (by exact_mod_cast Nat.mod_lt n hd)
  have hzero : 0 ≤ ((n % d : Nat) : Rat) / d := by positivity
  unfold divToEven
  rw [hdivision]
  split
  · next h =>
    have hhalf : (2 : Rat) * (n % d : Nat) ≤ d := by exact_mod_cast (by omega : 2 * (n % d) ≤ d)
    have hrest : ((n % d : Nat) : Rat) / d ≤ 1 / 2 := by
      rw [div_le_iff₀ hd']
      linarith
    rw [abs_le]
    constructor <;> linarith
  · next h =>
    have hhalf : (d : Rat) ≤ 2 * (n % d : Nat) := by exact_mod_cast (by omega : d ≤ 2 * (n % d))
    have hrest : 1 / 2 ≤ ((n % d : Nat) : Rat) / d := by
      rw [le_div_iff₀ hd']
      linarith
    rw [Nat.cast_succ, abs_le]
    constructor <;> linarith

/-- The multiple of a unit that is nearest to a number is at most half the unit away. -/
theorem abs_divToEven_mul_sub_le {unit : Rat} (hunit : 0 < unit) (hd : 0 < d)
    (hq : n / d * unit = q) : |divToEven n d * unit - q| ≤ unit / 2 := by
  have herror := mul_le_mul_of_nonneg_right (abs_divToEven_sub_le n hd) hunit.le
  rw [← hq, ← sub_mul, abs_mul, abs_of_pos hunit]
  linarith

theorem divHalfUp_eq_floor (hq : 0 ≤ q) : divHalfUp q.num.toNat q.den = ⌊q + 1 / 2⌋₊ := by
  have hden : (q.den : Rat) ≠ 0 := by exact_mod_cast q.den_nz
  have hfraction : q + 1 / 2 = ((2 * q.num.toNat + q.den : Nat) : Rat) / (2 * q.den : Nat) := by
    have hsum : q + 1 / 2 = (q.num.toNat : Rat) / q.den + 1 / 2 := by rw [← eq_num_div_den hq]
    rw [hsum, div_add_div _ _ hden two_ne_zero]
    push_cast
    ring
  rw [hfraction, Nat.floor_div_eq_div]
  rfl

theorem zpow_exponent_le (hn : n ≠ 0) (hd : 0 < d) : (2 : Rat) ^ exponent n d ≤ n / d := by
  have hd' : (0 : Rat) < d := by exact_mod_cast hd
  rw [le_div_iff₀ hd']
  unfold exponent
  dsimp only
  set k : Int := (n.log2 : Int) - d.log2 with hk
  -- one below the difference of the two logarithms is always reached
  have hbelow : (2 : Rat) ^ (k - 1) * d ≤ n := by
    have hlow : (2 : Rat) ^ n.log2 ≤ n := by exact_mod_cast Nat.log2_self_le hn
    have hhigh : (d : Rat) ≤ 2 ^ (d.log2 + 1) := by exact_mod_cast Nat.lt_log2_self.le
    have hpower : (2 : Rat) ^ (k - 1) * 2 ^ (d.log2 + 1) = 2 ^ n.log2 := by
      rw [← zpow_natCast, ← zpow_natCast, ← zpow_add₀ two_ne_zero]
      congr 1
      omega
    calc (2 : Rat) ^ (k - 1) * d ≤ 2 ^ (k - 1) * 2 ^ (d.log2 + 1) := by gcongr
      _ = 2 ^ n.log2 := hpower
      _ ≤ n := hlow
  split
  · next hpos =>
    split
    · next h =>
      obtain ⟨j, hj⟩ := Int.eq_ofNat_of_zero_le hpos
      rw [hj] at h ⊢
      rw [zpow_natCast, mul_comm]
      exact_mod_cast h
    · exact hbelow
  · next hneg =>
    split
    · next h =>
      obtain ⟨j, hj⟩ := Int.eq_ofNat_of_zero_le (by omega : 0 ≤ -k)
      rw [hj] at h
      rw [← neg_neg k, hj, zpow_neg, zpow_natCast, inv_mul_le_iff₀ (by positivity), mul_comm]
      exact_mod_cast h
    · exact hbelow

theorem accurate_nearest : Accurate nearest := by
  intro q hq
  have hden : (0 : Rat) < q.den := by exact_mod_cast q.den_pos
  unfold nearest
  dsimp only
  split
  · next hzero =>
    have hq' : q = 0 := by
      rw [eq_num_div_den hq, hzero]
      simp
    rw [hq']
    norm_num
  · next hne =>
    have hexponent := zpow_exponent_le hne q.den_pos
    rw [← eq_num_div_den hq] at hexponent
    set e := exponent q.num.toNat q.den
    -- what is rounded is at most half a unit away, and the unit is `2 ^ (e - 52)`
    have hunit : (2 : Rat) ^ (e - 52) / 2 ≤ q / 2 ^ 52 := by
      have hshift : (2 : Rat) ^ (e - 52) = 2 ^ e / 2 ^ 52 := by
        rw [zpow_sub₀ two_ne_zero]
        norm_cast
      rw [hshift, div_div, mul_comm, ← div_div]
      gcongr
      linarith [zpow_pos (two_pos : (0 : Rat) < 2) e]
    refine le_trans ?_ hunit
    split
    · next hshift =>
      obtain ⟨j, hj⟩ := Int.eq_ofNat_of_zero_le hshift
      have hpower : (2 : Rat) ^ (e - 52) = (2 ^ j : Nat) := by
        rw [hj, zpow_natCast]
        push_cast
        rfl
      have hpos : (0 : Rat) < (2 ^ j : Nat) := by positivity
      have hq' : (q.num.toNat : Rat) / (q.den * 2 ^ j : Nat) * (2 ^ j : Nat) = q := by
        rw [Nat.cast_mul, ← div_div, div_mul_cancel₀ _ hpos.ne', ← eq_num_div_den hq]
      rw [hpower, hj, Int.toNat_natCast, Nat.cast_mul]
      exact abs_divToEven_mul_sub_le hpos (Nat.mul_pos q.den_pos (Nat.two_pow_pos j)) hq'
    · next hshift =>
      obtain ⟨j, hj⟩ := Int.eq_ofNat_of_zero_le (by omega : 0 ≤ -(e - 52))
      have hpower : (2 : Rat) ^ (e - 52) = ((2 ^ j : Nat) : Rat)⁻¹ := by
        rw [← neg_neg (e - 52), hj, zpow_neg, zpow_natCast]
        push_cast
        rfl
      have hpos : (0 : Rat) < ((2 ^ j : Nat) : Rat)⁻¹ := by positivity
      have hq' : ((q.num.toNat * 2 ^ j : Nat) : Rat) / q.den * ((2 ^ j : Nat) : Rat)⁻¹ = q := by
        rw [Nat.cast_mul, mul_div_right_comm, mul_assoc, mul_inv_cancel₀ (inv_pos.mp hpos).ne',
          mul_one, ← eq_num_div_den hq]
      rw [hpower, hj, Int.toNat_natCast, Rat.mkRat_eq_div, div_eq_mul_inv]
      exact abs_divToEven_mul_sub_le hpos q.den_pos hq'

end LoadOrder.Number

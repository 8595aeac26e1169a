import LoadOrder.Progress
import LoadOrder.Proofs.Number.Nearest

namespace LoadOrder.Progress

open Number

variable {round : Rat → Rat} {n k : Nat} {q : Rat}

theorem le_of_accurate (h : Accurate round) (hq : 0 ≤ q) : round q ≤ (1 + 1 / 2 ^ 52) * q := by
  linarith [(abs_le.mp (h q hq)).2]

theorem ge_of_accurate (h : Accurate round) (hq : 0 ≤ q) : (1 - 1 / 2 ^ 52) * q ≤ round q := by
  linarith [(abs_le.mp (h q hq)).1]

/-- The share of `processed` in `total` in hundredths of a percent, before it is a whole number. -/
def scaled (round : Rat → Rat) (total processed : Nat) : Rat :=
  round (round (round (round processed / round total) * 100) * 100)

/-- The five roundings of a share together take it at most one part in `2 ^ 48` away. -/
theorem scaled_bounds (h : Accurate round) (hn : 0 < n) (k : Nat) :
    (1 - 1 / 2 ^ 48) * (10000 * (k / n)) ≤ scaled round n k ∧
      scaled round n k ≤ (1 + 1 / 2 ^ 48) * (10000 * (k / n)) := by
  have hn' : (0 : Rat) < n := by exact_mod_cast hn
  set q : Rat := k / n with hq
  have hq0 : 0 ≤ q := by positivity
  have hk : (k : Rat) = q * n := (div_mul_cancel₀ _ hn'.ne').symm
  have hkl := ge_of_accurate h (Nat.cast_nonneg' k)
  have hku := le_of_accurate h (Nat.cast_nonneg' k)
  have hnl := ge_of_accurate h hn'.le
  have hnu := le_of_accurate h hn'.le
  have hqn : 0 ≤ q * n := by positivity
  have hpos : 0 < round n := by linarith
  have hql : (1 - 2 / 2 ^ 52) * q ≤ round k / round n := by
    rw [le_div_iff₀ hpos]
    have hmul := mul_le_mul_of_nonneg_left hnu hq0
    linarith
  have hqu : round k / round n ≤ (1 + 3 / 2 ^ 52) * q := by
    rw [div_le_iff₀ hpos]
    have hmul := mul_le_mul_of_nonneg_left hnl hq0
    linarith
  have hratio : 0 ≤ round k / round n := by linarith
  have hsl := ge_of_accurate h hratio
  have hsu := le_of_accurate h hratio
  have hshare : 0 ≤ round (round k / round n) * 100 := by linarith
  have htl := ge_of_accurate h hshare
  have htu := le_of_accurate h hshare
  have hpercent : 0 ≤ round (round (round k / round n) * 100) * 100 := by linarith
  have hul := ge_of_accurate h hpercent
  have huu := le_of_accurate h hpercent
  unfold scaled
  constructor <;> linarith

theorem percentageBy_eq (h : Accurate round) (hn : 0 < n) (k : Nat) (max : Percent) :
    percentageBy round n k max =
      clamp 0 max (.of (round ((⌊scaled round n k + 1 / 2⌋₊ : Rat) / 100))) := by
  have hzero : 0 ≤ scaled round n k := by
    have hq : (0 : Rat) ≤ 10000 * (k / n) := by positivity
    linarith [(scaled_bounds h hn k).1]
  rw [percentageBy, if_neg hn.ne']
  dsimp only
  rw [← divHalfUp_eq_floor hzero]
  rfl

theorem clamp_lt {low high p : Percent} (hlow : low < high) (hp : p < high) :
    clamp low high p < high := by
  unfold clamp
  split
  · exact hlow
  · have hnot : ¬high < p := not_lt_of_gt (Percent.lt_iff.mp hp)
    rw [if_neg hnot]
    exact hp

/-- Where one part in 19999 is missing, it is less than 100 percent. -/
theorem percentageBy_lt (h : Accurate round) (hn : 0 < n) (hk : k * 19999 ≤ n * 19998) :
    percentageBy round n k 100 < 100 := by
  have hn' : (0 : Rat) < n := by exact_mod_cast hn
  have hq : (k : Rat) / n ≤ 19998 / 19999 := by
    rw [div_le_div_iff₀ hn' (by norm_num), mul_comm 19998]
    exact_mod_cast hk
  have hfloor : ⌊scaled round n k + 1 / 2⌋₊ < 10000 := by
    rw [Nat.floor_lt' (by norm_num)]
    have hupper := (scaled_bounds h hn k).2
    push_cast
    linarith
  have hhundredths : (⌊scaled round n k + 1 / 2⌋₊ : Rat) ≤ 9999 := by
    exact_mod_cast Nat.le_of_lt_succ hfloor
  have hround := le_of_accurate h (by positivity : 0 ≤ (⌊scaled round n k + 1 / 2⌋₊ : Rat) / 100)
  rw [percentageBy_eq h hn]
  refine clamp_lt (by decide +kernel) (Percent.lt_iff.mpr ?_)
  change round ((⌊scaled round n k + 1 / 2⌋₊ : Rat) / 100) < 100
  linarith

/-- Where at most one part in 20001 is missing, it is 100 percent. -/
theorem percentageBy_eq_hundred (h : Accurate round) (hhundred : round 100 = 100) (hn : 0 < n)
    (hk : k ≤ n) (hnear : n * 20000 ≤ k * 20001) : percentageBy round n k 100 = 100 := by
  have hn' : (0 : Rat) < n := by exact_mod_cast hn
  have hlow : (20000 : Rat) / 20001 ≤ k / n := by
    rw [div_le_div_iff₀ (by norm_num) hn', mul_comm (20000 : Rat)]
    exact_mod_cast hnear
  have hhigh : (k : Rat) / n ≤ 1 := (div_le_one hn').mpr (by exact_mod_cast hk)
  have hfloor : ⌊scaled round n k + 1 / 2⌋₊ = 10000 := by
    obtain ⟨hlower, hupper⟩ := scaled_bounds h hn k
    rw [Nat.floor_eq_iff' (by norm_num)]
    push_cast
    constructor <;> linarith
  have hshare : ((10000 : Nat) : Rat) / 100 = 100 := by norm_num
  rw [percentageBy_eq h hn, hfloor, hshare, hhundred]
  decide +kernel

/-- A way to round shares: accurate, and what is missing when one of 20000 is left rounds away. -/
structure Fair (round : Rat → Rat) : Prop where
  accurate : Accurate round
  hundred : round 100 = 100
  tie : percentageBy round 20000 19999 100 = 100

theorem fair_id : Fair id := ⟨accurate_id, rfl, by decide +kernel⟩

theorem fair_nearest : Fair nearest := ⟨accurate_nearest, by decide +kernel, by decide +kernel⟩

theorem Fair.self (h : Fair round) (hn : 0 < n) : percentageBy round n n 100 = 100 :=
  percentageBy_eq_hundred h.accurate h.hundred hn le_rfl (by omega)

theorem Fair.pred (h : Fair round) (hn : 20000 ≤ n) : percentageBy round n (n - 1) 100 = 100 := by
  rcases Nat.eq_or_lt_of_le hn with rfl | hlt
  · exact h.tie
  · exact percentageBy_eq_hundred h.accurate h.hundred (by omega) (by omega) (by omega)

theorem Fair.lt (h : Fair round) (hk : k < n) (hn : n < 20000) : percentageBy round n k 100 < 100 :=
  percentageBy_lt h.accurate (by omega) (by omega)

end LoadOrder.Progress

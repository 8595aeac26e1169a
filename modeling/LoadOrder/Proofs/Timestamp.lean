import Mathlib.Algebra.Group.Nat.Defs
import LoadOrder.Timestamp
import LoadOrder.Proofs.Text.Digits

namespace LoadOrder.Timestamp

structure Valid (t : Timestamp) : Prop where
  year : isYear t.year
  month : 1 ≤ t.month ∧ t.month ≤ 12
  day : 1 ≤ t.day ∧ t.day ≤ daysInMonth t.year t.month
  hour : t.hour < 24
  minute : t.minute < 60
  second : t.second ≤ 60
  nanosecond : t.nanosecond < 1000000000

theorem toList_padded (width n : Nat) : (padded width n).toList =
    List.replicate (width - (Nat.toDigits 10 n).length) '0' ++ Nat.toDigits 10 n := by
  rw [padded, String.toList_ofList, Text.toList_toString]

theorem isDigit_padded {width n : Nat} {c : Char} (h : c ∈ (padded width n).toList) :
    c.isDigit := by
  rw [toList_padded] at h
  rcases List.mem_append.mp h with hzero | hdigit
  · rw [List.eq_of_mem_replicate hzero]
    rfl
  · exact Text.isDigit_toDigits hdigit

theorem digitsValue_padded (width n : Nat) : digitsValue (padded width n).toList = n := by
  have hzeros : ∀ k, (List.replicate k '0').foldl
      (fun n c => 10 * n + (c.toNat - '0'.toNat)) 0 = 0 := by
    intro k
    induction k with
    | zero => rfl
    | succ k ih => exact ih
  rw [toList_padded, digitsValue, List.foldl_append, hzeros]
  exact Text.foldl_toDigits n

theorem padded_ne_nil (width n : Nat) : (padded width n).toList ≠ [] := by
  rw [toList_padded]
  exact List.append_ne_nil_of_right_ne_nil _ Nat.toDigits_ne_nil

theorem length_padded {width n : Nat} (hwidth : 0 < width) (h : n < 10 ^ width) :
    (padded width n).toList.length = width := by
  have hlength := (Nat.length_toDigits_le_iff (b := 10) (n := n) (by decide) hwidth).mpr h
  rw [toList_padded, List.length_append, List.length_replicate]
  omega

theorem exists_padded (width n : Nat) :
    ∃ c rest, (padded width n).toList = c :: rest ∧ c.isDigit := by
  obtain ⟨c, rest, h⟩ := List.exists_cons_of_ne_nil (padded_ne_nil width n)
  exact ⟨c, rest, h, isDigit_padded (h ▸ List.mem_cons_self)⟩

theorem isBlank_of_isDigit {c : Char} (h : c.isDigit) : Text.isBlank c = false := by
  have hlow : 48 ≤ c.toNat := (Char.isDigit_iff_toNat.mp h).1
  have hhigh : c.toNat ≤ 57 := (Char.isDigit_iff_toNat.mp h).2
  simp only [Text.isBlank, Bool.or_eq_false_iff, Bool.and_eq_false_iff, decide_eq_false_iff_not,
    beq_eq_false_iff_ne]
  omega

theorem trimStart_padded (width n : Nat) (s : List Char) :
    Text.trimStart ((padded width n).toList ++ s) = (padded width n).toList ++ s := by
  obtain ⟨c, rest, h, hdigit⟩ := exists_padded width n
  rw [h]
  exact List.dropWhile_cons_of_neg (by simp [isBlank_of_isDigit hdigit])

theorem digits?_append {width : Nat} {digits s : List Char} (hne : digits ≠ [])
    (hdigit : ∀ c ∈ digits, c.isDigit) (hwidth : digits.length ≤ width)
    (hend : digits.length = width ∨ Text.NoDigit s) :
    digits? width (digits ++ s) = some (digits, s) := by
  have hstop : Text.NoDigit (s.take (width - digits.length)) := by
    intro c hc
    rcases hend with hwidth | hs
    · rw [hwidth, Nat.sub_self] at hc
      cases hc
    · cases s with
      | nil => simp at hc
      | cons d s =>
        cases hcount : width - digits.length with
        | zero => rw [hcount] at hc; cases hc
        | succ n =>
          rw [hcount] at hc
          exact hs c hc
  rw [digits?, List.take_append, List.take_of_length_le hwidth, Text.takeWhile_isDigit hdigit hstop]
  cases digits with
  | nil => exact absurd rfl hne
  | cons c digits => simp only [List.drop_left]

theorem digits?_padded {width n : Nat} (hwidth : 0 < width) (h : n < 10 ^ width) (s : List Char) :
    digits? width ((padded width n).toList ++ s) = some ((padded width n).toList, s) := by
  have hlength := length_padded hwidth h
  exact digits?_append (padded_ne_nil _ _) (fun _ => isDigit_padded) (by omega) (.inl hlength)

theorem twoDigits?_padded {low high n : Nat} (hlow : low ≤ n) (hhigh : n ≤ high) (h : n < 100)
    (s : List Char) : twoDigits? low high ((padded 2 n).toList ++ s) = some (n, s) := by
  rw [twoDigits?, trimStart_padded, digits?_padded (by decide) h]
  simp [digitsValue_padded, hlow, hhigh]

theorem digits?_ofYear (n : Nat) (s : List Char) :
    let rest := (padded 4 n).toList ++ '-' :: s
    digits? rest.length rest = some ((padded 4 n).toList, '-' :: s) := by
  have hwidth : (padded 4 n).toList.length ≤ ((padded 4 n).toList ++ '-' :: s).length := by
    rw [List.length_append]
    omega
  exact digits?_append (padded_ne_nil _ _) (fun _ => isDigit_padded) hwidth
    (.inr (Text.noDigit_cons rfl _))

theorem year?_fourDigits {n : Nat} (h : n < 10 ^ 4) (s : List Char) :
    year? ((padded 4 n).toList ++ s) = some ((n : Int), s) := by
  obtain ⟨c, rest, hpadded, hdigit⟩ := exists_padded 4 n
  have hsign {d : Char} {more : List Char} (hd : d.isDigit = false) :
      (padded 4 n).toList ++ s ≠ d :: more := by
    rw [hpadded]
    intro heq
    rw [(List.cons.inj heq).1, hd] at hdigit
    cases hdigit
  rw [year?, trimStart_padded]
  dsimp only
  split
  · next heq => exact absurd heq (hsign rfl)
  · next heq => exact absurd heq (hsign rfl)
  · rw [digits?_padded (by decide) h]
    simp [digitsValue_padded]

theorem year?_minus (n : Nat) (s : List Char) :
    year? ('-' :: ((padded 4 n).toList ++ '-' :: s)) = some (-(n : Int), '-' :: s) := by
  have htrim (s : List Char) : Text.trimStart ('-' :: s) = '-' :: s := rfl
  rw [year?]
  simp only [htrim, digits?_ofYear, Option.bind_eq_bind, Option.bind_some, digitsValue_padded]
  rfl

theorem year?_plus (n : Nat) (s : List Char) :
    year? ('+' :: ((padded 4 n).toList ++ '-' :: s)) = some ((n : Int), '-' :: s) := by
  have htrim (s : List Char) : Text.trimStart ('+' :: s) = '+' :: s := rfl
  rw [year?]
  simp only [htrim, digits?_ofYear, Option.bind_eq_bind, Option.bind_some, digitsValue_padded]
  rfl

theorem year?_yearText (year : Int) (s : List Char) :
    year? ((yearText year).toList ++ '-' :: s) = some (year, '-' :: s) := by
  unfold yearText
  split
  · have hyear : (year.toNat : Int) = year := by omega
    rw [year?_fourDigits (by omega), hyear]
  · rw [String.toList_append, List.append_assoc]
    split
    · have hminus : ("-" : String).toList = ['-'] := rfl
      have hyear : -(year.natAbs : Int) = year := by omega
      rw [hminus, List.singleton_append, year?_minus, hyear]
    · have hplus : ("+" : String).toList = ['+'] := rfl
      have hyear : (year.natAbs : Int) = year := by omega
      rw [hplus, List.singleton_append, year?_plus, hyear]

theorem mark?_self {c : Char} (hc : Text.isBlank c = false) (s : List Char) :
    mark? c (c :: s) = some s := by
  have htrim : Text.trimStart (c :: s) = c :: s := List.dropWhile_cons_of_neg (by simp [hc])
  rw [mark?, htrim]
  exact if_pos rfl

theorem fraction?_padded {width n : Nat} (hwidth : 0 < width) (hnine : width ≤ 9)
    (hn : n < 10 ^ width) :
    fraction? ('.' :: ((padded width n).toList ++ ['Z'])) = some (n * 10 ^ (9 - width), ['Z']) := by
  have hlength := length_padded hwidth hn
  have hread : digits? 9 ((padded width n).toList ++ ['Z']) =
      some ((padded width n).toList, ['Z']) :=
    digits?_append (padded_ne_nil _ _) (fun _ => isDigit_padded) (by omega)
      (.inr (Text.noDigit_cons rfl _))
  rw [fraction?, hread]
  simp [digitsValue_padded, hlength]

theorem fraction?_fractionText {nanosecond : Nat} (h : nanosecond < 1000000000) :
    fraction? ((fractionText nanosecond).toList ++ ['Z']) = some (nanosecond, ['Z']) := by
  have hpoint (width n : Nat) : ("." ++ padded width n).toList ++ ['Z'] =
      '.' :: ((padded width n).toList ++ ['Z']) := by
    rw [String.toList_append]
    rfl
  unfold fractionText
  split
  · next hzero => rw [hzero]; rfl
  split
  · next hmilli =>
    have hnanosecond : nanosecond / 1000000 * 10 ^ (9 - 3) = nanosecond := by omega
    rw [hpoint, fraction?_padded (by decide) (by decide) (by omega), hnanosecond]
  split
  · next hmicro =>
    have hnanosecond : nanosecond / 1000 * 10 ^ (9 - 6) = nanosecond := by omega
    rw [hpoint, fraction?_padded (by decide) (by decide) (by omega), hnanosecond]
  · rw [hpoint, fraction?_padded (by decide) (by decide) (by omega), Nat.sub_self, Nat.pow_zero,
      Nat.mul_one]

theorem setBack?_zero {t : Timestamp} (h : t.Valid) : t.setBack? 0 = some t := by
  have hhour := h.hour
  have hminute := h.minute
  have hclock : ¬(60 * (t.hour : Int) + t.minute - 0 < 0) := by omega
  have hday : 60 * (t.hour : Int) + t.minute - 0 < 1440 := by omega
  have htime : ((60 * (t.hour : Int) + t.minute - 0) % 1440).toNat = 60 * t.hour + t.minute := by
    omega
  have hhours : (60 * t.hour + t.minute) / 60 = t.hour := by omega
  have hminutes : (60 * t.hour + t.minute) % 60 = t.minute := by omega
  rw [setBack?]
  simp only [if_neg hclock, if_pos hday, htime, hhours, hminutes, h.year, if_true]

theorem daysInMonth_le (year : Int) (month : Nat) : daysInMonth year month ≤ 31 := by
  unfold daysInMonth
  split
  · split <;> decide
  · split <;> decide

/-- A point of time is read as it was written. -/
theorem parse?_text {t : Timestamp} (h : t.Valid) : parse? t.text = some t := by
  have hparts : t.text.toList = (yearText t.year).toList ++ '-' ::
      ((padded 2 t.month).toList ++ '-' :: ((padded 2 t.day).toList ++ 'T' ::
        ((padded 2 t.hour).toList ++ ':' :: ((padded 2 t.minute).toList ++ ':' ::
          ((padded 2 t.second).toList ++ ((fractionText t.nanosecond).toList ++ ['Z'])))))) := by
    simp [text]
  have hback := setBack?_zero h
  obtain ⟨hyear, ⟨hjanuary, hdecember⟩, ⟨hfirst, hlast⟩, hhours, hminutes, hseconds, hfraction⟩ := h
  have hmonth := twoDigits?_padded hjanuary hdecember (by omega)
  have hday := twoDigits?_padded hfirst (Nat.le_trans hlast (daysInMonth_le _ _))
    (by have := daysInMonth_le t.year t.month; omega)
  have hhour := twoDigits?_padded (Nat.zero_le _) (Nat.le_of_lt_succ hhours) (by omega)
  have hminute := twoDigits?_padded (Nat.zero_le _) (Nat.le_of_lt_succ hminutes) (by omega)
  have hsecond := twoDigits?_padded (Nat.zero_le _) hseconds (by omega)
  have hdash := mark?_self (rfl : Text.isBlank '-' = false)
  have hcolon := mark?_self (rfl : Text.isBlank ':' = false)
  have hoffset : offset? ['Z'] = some (0, []) := by
    decide
  have hseparator : ¬('T' ≠ 'T' ∧ 'T' ≠ 't' ∧ 'T' ≠ ' ') := by
    decide
  have hend : ¬(Text.trimStart [] ≠ []) := not_not_intro rfl
  have hdate : ¬((!isYear t.year) = true ∨ daysInMonth t.year t.month < t.day) := by
    simp [hyear, hlast]
  rw [parse?, hparts]
  simp only [year?_yearText, hmonth, hday, hhour, hminute, hsecond, hdash, hcolon,
    fraction?_fractionText hfraction, hoffset, Option.bind_eq_bind, Option.bind_some,
    List.head?_cons, List.tail_cons]
  rw [if_neg hseparator, if_neg hend, if_neg hdate]
  exact hback

end LoadOrder.Timestamp

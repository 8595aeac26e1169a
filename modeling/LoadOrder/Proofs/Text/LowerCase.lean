import LoadOrder.Text.LowerCase

namespace LoadOrder.Text

def isSmall (c : Char) : Bool := lowerChar c == [c] && c != '\u03A3'

theorem isSmall_toLower {c : Char} (h : c.toNat < 0x80) : isSmall c.toLower := by
  have hall : ∀ n < 0x80, isSmall (Char.ofNat n).toLower := by decide +kernel
  simpa using hall c.toNat h

def inRun : Nat × Nat × Nat × Nat → Nat → Bool
  | (first, last, step, _), n => first ≤ n && n ≤ last && (n - first) % step == 0

/-- The images of the first run lie outside the second one, or between its capitals. -/
def imagesMiss (run run' : Nat × Nat × Nat × Nat) : Bool :=
  (run.2.2.2 + (run.2.1 - run.1)).blt run'.1 || run'.2.1.blt run.2.2.2 ||
    ((run.2.2.1.beq 2 || run.1.beq run.2.1) && run'.2.2.1.beq 2 &&
      ((run.2.2.2 + run'.1) % 2).beq 1)

/-- The images of a run are characters from U+0080 on, and the two special ones are not among
them. -/
def imagesPlain : Nat × Nat × Nat × Nat → Bool
  | (first, last, _, image) =>
    let images := image + (last - first)
    0x80 ≤ image && (images < 0xD800 || 0xDFFF < image && images < 0x110000) &&
      (images < 0x130 || 0x130 < image) && (images < 0x3A3 || 0x3A3 < image)

/-- The one capital from U+0080 on with a small form below: the Kelvin sign. -/
def kelvin : Nat × Nat × Nat × Nat := (0x212A, 0x212A, 1, 0x6B)

/-- The images of all runs but the Kelvin sign miss all runs. -/
theorem lowerRuns_images :
    lowerRuns.all fun run =>
      run == kelvin || (imagesPlain run && lowerRuns.all (imagesMiss run)) := by
  decide +kernel

theorem inRun_eq_false_of_imagesMiss {first last step image i : Nat} {run : Nat × Nat × Nat × Nat}
    (h : imagesMiss (first, last, step, image) run) (hi : i ≤ last - first) (hstep : i % step = 0) :
    inRun run (image + i) = false := by
  obtain ⟨first', last', step', image'⟩ := run
  simp only [imagesMiss, Bool.or_eq_true, Bool.and_eq_true, Nat.blt_eq, Nat.beq_eq] at h
  rw [← Bool.not_eq_true]
  simp only [inRun, Bool.and_eq_true, decide_eq_true_eq, beq_iff_eq]
  rintro ⟨⟨hfirst, hlast⟩, hmod⟩
  rcases h with (h | h) | ⟨⟨h | h, rfl⟩, hodd⟩
  · omega
  · omega
  · subst h
    omega
  · have : i = 0 := by omega
    subst this
    omega

theorem isSmall_of_not_inRun {c : Char} (hlow : 0x80 ≤ c.toNat) (hdotted : c.toNat ≠ 0x130)
    (hsigma : c.toNat ≠ 0x3A3) (hruns : ∀ run ∈ lowerRuns, inRun run c.toNat = false) :
    isSmall c := by
  have hc : c ≠ '\u0130' := fun h => hdotted (congrArg Char.toNat h)
  have hs : c ≠ '\u03A3' := fun h => hsigma (congrArg Char.toNat h)
  have hnone : (lowerRuns.find? fun (first, last, step, _) =>
      first ≤ c.toNat && c.toNat ≤ last && (c.toNat - first) % step == 0) = none := by
    rw [List.find?_eq_none]
    intro run hmem
    rw [Bool.not_eq_true]
    exact hruns run hmem
  rw [isSmall, lowerChar, if_neg (Nat.not_lt.mpr hlow), if_neg hc, hnone]
  simp [hs]

theorem isSmall_image {first last step image i : Nat}
    (hrun : (first, last, step, image) ∈ lowerRuns) (hi : i ≤ last - first)
    (hstep : i % step = 0) : isSmall (Char.ofNat (image + i)) := by
  have himages := List.all_eq_true.mp lowerRuns_images _ hrun
  rw [Bool.or_eq_true, beq_iff_eq, Bool.and_eq_true] at himages
  rcases himages with hkelvin | ⟨hplain, hmiss⟩
  · simp only [kelvin, Prod.mk.injEq] at hkelvin
    obtain ⟨rfl, rfl, rfl, rfl⟩ := hkelvin
    have : i = 0 := by omega
    subst this
    decide +kernel
  · simp only [imagesPlain, Bool.and_eq_true, Bool.or_eq_true, decide_eq_true_eq] at hplain
    have hvalid : (image + i).isValidChar := by
      unfold Nat.isValidChar
      omega
    have hcode : (Char.ofNat (image + i)).toNat = image + i := by
      rw [Char.ofNat, dif_pos hvalid]
      rfl
    apply isSmall_of_not_inRun
    · omega
    · omega
    · omega
    · intro run hmem
      rw [hcode]
      exact inRun_eq_false_of_imagesMiss (List.all_eq_true.mp hmiss run hmem) hi hstep

theorem isSmall_of_mem_lowerChar {c d : Char} (hc : c ≠ '\u03A3') (h : d ∈ lowerChar c) :
    isSmall d := by
  unfold lowerChar at h
  split at h
  · next hlt =>
    rw [List.mem_singleton.mp h]
    exact isSmall_toLower hlt
  · split at h
    · have : d = 'i' ∨ d = '\u0307' := by simpa using h
      rcases this with rfl | rfl <;> decide +kernel
    · split at h
      · next first last step image hfind =>
        rw [List.mem_singleton.mp h]
        have hrange := List.find?_some hfind
        simp only [Bool.and_eq_true, decide_eq_true_eq, beq_iff_eq] at hrange
        exact isSmall_image (List.mem_of_find?_eq_some hfind) (by omega) hrange.2
      · next hlow hdotted _ hnone =>
        rw [List.mem_singleton.mp h, isSmall, lowerChar, if_neg hlow, if_neg hdotted, hnone]
        simp [hc]

theorem isSmall_of_mem_lowerFrom {before s : List Char} {d : Char} (h : d ∈ lowerFrom before s) :
    isSmall d := by
  induction s generalizing before with
  | nil => simp [lowerFrom] at h
  | cons c rest ih =>
    rw [lowerFrom, List.mem_append] at h
    rcases h with h | h
    · split at h
      · have : d = '\u03C2' ∨ d = '\u03C3' := by
          rw [List.mem_singleton] at h
          split at h
          · exact .inl h
          · exact .inr h
        rcases this with rfl | rfl <;> decide +kernel
      · next hc => exact isSmall_of_mem_lowerChar hc h
    · exact ih h

theorem lowerFrom_of_isSmall {before s : List Char} (h : ∀ c ∈ s, isSmall c) :
    lowerFrom before s = s := by
  induction s generalizing before with
  | nil => rfl
  | cons c rest ih =>
    rw [List.forall_mem_cons, isSmall, Bool.and_eq_true, beq_iff_eq, bne_iff_ne] at h
    obtain ⟨⟨hsame, hsigma⟩, hrest⟩ := h
    rw [lowerFrom, if_neg hsigma, hsame, ih hrest]
    rfl

@[simp] theorem lowercase_lowercase (s : String) : lowercase (lowercase s) = lowercase s := by
  rw [lowercase, lowercase, String.toList_ofList,
    lowerFrom_of_isSmall fun _ => isSmall_of_mem_lowerFrom]

theorem lowerChar_ne_nil (c : Char) : lowerChar c ≠ [] := by
  unfold lowerChar
  split
  · exact List.cons_ne_nil _ _
  · split
    · exact List.cons_ne_nil _ _
    · split
      · exact List.cons_ne_nil _ _
      · exact List.cons_ne_nil _ _

theorem lowercase_eq_empty_iff {s : String} : lowercase s = "" ↔ s = "" := by
  constructor
  · intro h
    have hchars : lowerFrom [] s.toList = [] := by
      rw [← String.toList_ofList (l := lowerFrom [] s.toList), ← lowercase, h]
      rfl
    cases hs : s.toList with
    | nil => exact String.toList_injective hs
    | cons c rest =>
      rw [hs, lowerFrom, List.append_eq_nil_iff] at hchars
      obtain ⟨hfirst, -⟩ := hchars
      split at hfirst
      · exact absurd hfirst (List.cons_ne_nil _ _)
      · exact absurd hfirst (lowerChar_ne_nil c)
  · rintro rfl
    exact lowercase_empty

/-- A character between words: it has no case, does not change, and is not passed over where the
words around a capital sigma are looked at. -/
def isBreak (c : Char) : Bool := isSmall c && !isCased c && !isCaseIgnorable c

theorem facesCased_append {c : Char} (hc : isBreak c) (s t : List Char) :
    facesCased (s ++ c :: t) = facesCased s := by
  simp only [isBreak, Bool.and_eq_true, Bool.not_eq_true'] at hc
  unfold facesCased
  rw [List.dropWhile_append]
  cases hs : s.dropWhile isCaseIgnorable with
  | nil => simp [hc.2, hc.1.2]
  | cons d rest => simp

theorem lowerFrom_append_break {c : Char} (hc : isBreak c) (before before' s : List Char) :
    lowerFrom (before ++ c :: before') s = lowerFrom before s := by
  induction s generalizing before with
  | nil => rfl
  | cons d s ih => rw [lowerFrom, lowerFrom, facesCased_append hc, ← List.cons_append, ih]

/-- What stands on one side of a break is lowercased as if the other side were not there. -/
theorem lowerFrom_append {c : Char} (hc : isBreak c) (before s t : List Char) :
    lowerFrom before (s ++ c :: t) = lowerFrom before s ++ c :: lowerFrom [] t := by
  induction s generalizing before with
  | nil =>
    have hafter : lowerFrom (c :: before) t = lowerFrom [] t :=
      lowerFrom_append_break hc [] before t
    simp only [isBreak, isSmall, Bool.and_eq_true, beq_iff_eq, bne_iff_ne] at hc
    have hc' : lowerFrom before (c :: t) = [c] ++ lowerFrom (c :: before) t := by
      rw [lowerFrom, if_neg hc.1.1.2, hc.1.1.1]
    rw [List.nil_append, hc', hafter]
    rfl
  | cons d s ih =>
    rw [List.cons_append, lowerFrom, facesCased_append hc, ih, lowerFrom, List.append_assoc]

theorem lowercase_append_dash (a b : String) :
    lowercase (a ++ "-" ++ b) = lowercase a ++ "-" ++ lowercase b := by
  have hdash : ("-" : String).toList = ['-'] := rfl
  apply String.toList_injective
  simp only [lowercase, String.toList_append, String.toList_ofList, hdash, List.append_assoc,
    List.singleton_append]
  exact lowerFrom_append (by decide +kernel) [] a.toList b.toList

theorem code_cases (n : Nat) : (Char.ofNat n).toNat = n ∨ (Char.ofNat n).toNat = 0 := by
  by_cases h : n.isValidChar
  · rw [Char.ofNat, dif_pos h]
    exact .inl rfl
  · rw [Char.ofNat, dif_neg h]
    exact .inr rfl

theorem slash_notMem_lowerChar {c : Char} (h : c ≠ '/') : '/' ∉ lowerChar c := by
  unfold lowerChar
  split
  · next hlt =>
    have hall : ∀ n < 0x80, (Char.ofNat n).toLower = '/' → Char.ofNat n = '/' := by
      decide +kernel
    rw [List.mem_singleton]
    exact fun hlower => h (by simpa using hall c.toNat hlt (by simpa using hlower.symm))
  · split
    · decide
    · split
      · next first last step image hfind =>
        have himages : lowerRuns.all fun run => '/'.toNat.blt run.2.2.2 := by decide +kernel
        have himage := Nat.blt_eq.mp
          (List.all_eq_true.mp himages _ (List.mem_of_find?_eq_some hfind))
        rw [List.mem_singleton]
        intro heq
        have hcode := code_cases (image + (c.toNat - first))
        rw [← heq] at hcode
        have hpos : 0 < '/'.toNat := by decide
        dsimp only at himage
        omega
      · rw [List.mem_singleton]
        exact h.symm

/-- A character becomes one or more, as many wherever it stands, and only a slash becomes one. -/
theorem exists_lowerFrom_cons (before rest : List Char) (c : Char) :
    ∃ first more, lowerFrom before (c :: rest) = first :: more ++ lowerFrom (c :: before) rest ∧
      (first :: more).length = (lowerChar c).length ∧ (c ≠ '/' → '/' ∉ first :: more) := by
  by_cases hc : c = '\u03A3'
  · subst hc
    have hlength : (lowerChar '\u03A3').length = 1 := by decide +kernel
    refine ⟨if facesCased before && !facesCased rest then '\u03C2' else '\u03C3', [], ?_,
      hlength.symm, fun _ => ?_⟩
    · rw [lowerFrom, if_pos rfl]
    · rw [List.mem_singleton]
      split <;> decide
  · obtain ⟨first, more, hlower⟩ := List.exists_cons_of_ne_nil (lowerChar_ne_nil c)
    refine ⟨first, more, ?_, by rw [hlower], fun h => hlower ▸ slash_notMem_lowerChar h⟩
    rw [lowerFrom, if_neg hc, hlower]

theorem exists_lowerFrom_append (before s t : List Char) :
    ∃ front, front.length = (lowerFrom before s).length ∧
      lowerFrom before (s ++ t) = front ++ lowerFrom (s.reverse ++ before) t := by
  induction s generalizing before with
  | nil => exact ⟨[], rfl, rfl⟩
  | cons c s ih =>
    obtain ⟨first, more, hwhole, hlength, -⟩ := exists_lowerFrom_cons before (s ++ t) c
    obtain ⟨first', more', halone, hlength', -⟩ := exists_lowerFrom_cons before s c
    obtain ⟨front, hfront, hrest⟩ := ih (c :: before)
    refine ⟨first :: more ++ front, ?_, ?_⟩
    · rw [halone, List.length_append, List.length_append, hlength, hlength', hfront]
    · rw [List.cons_append, hwhole, hrest]
      simp

theorem exists_head?_lowerFrom {c : Char} (h : c ≠ '/') (before s : List Char) :
    ∃ first, (lowerFrom before (c :: s)).head? = some first ∧ first ≠ '/' := by
  obtain ⟨first, more, hlower, -, hnot⟩ := exists_lowerFrom_cons before s c
  exact ⟨first, by rw [hlower]; rfl, fun heq => hnot h (heq ▸ List.mem_cons_self)⟩

theorem getLast?_lowerFrom_ne {c : Char} (h : c ≠ '/') (before s : List Char) :
    (lowerFrom before (s ++ [c])).getLast? ≠ some '/' := by
  obtain ⟨front, -, happend⟩ := exists_lowerFrom_append before s [c]
  obtain ⟨first, more, hlower, -, hnot⟩ := exists_lowerFrom_cons (s.reverse ++ before) [] c
  have hlast := List.getLast?_eq_some_getLast (List.cons_ne_nil first more)
  rw [happend, hlower, lowerFrom, List.append_nil, List.getLast?_append, hlast]
  exact fun hslash => hnot h (Option.some.inj hslash ▸ List.getLast_mem _)

end LoadOrder.Text

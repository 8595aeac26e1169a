import LoadOrder.Text.Blank

namespace LoadOrder.Text

variable {s : List Char}

structure Trimmed (s : List Char) : Prop where
  first : ∀ c ∈ s.head?, isBlank c = false
  last : ∀ c ∈ s.getLast?, isBlank c = false

theorem Trimmed.reverse (h : Trimmed s) : Trimmed s.reverse :=
  ⟨by simpa using h.last, by simpa using h.first⟩

theorem dropWhile_isBlank_eq_self (h : ∀ c ∈ s.head?, isBlank c = false) :
    s.dropWhile isBlank = s := by
  cases s with
  | nil => rfl
  | cons c s => rw [List.dropWhile_cons_of_neg (by simp [h c rfl])]

theorem Trimmed.trim_eq (h : Trimmed s) : trim s = s := by
  rw [trim, trimStart, dropWhile_isBlank_eq_self h.first, dropEndWhile,
    dropWhile_isBlank_eq_self h.reverse.first, List.reverse_reverse]

theorem Trimmed.trim_append {before after : List Char} (h : Trimmed s) (hne : s ≠ [])
    (hbefore : ∀ c ∈ before, isBlank c) (hafter : ∀ c ∈ after, isBlank c) :
    trim (before ++ s ++ after) = s := by
  have hstart {gap s : List Char} (hgap : ∀ c ∈ gap, isBlank c) (hs : s ≠ [])
      (hfirst : ∀ c ∈ s.head?, isBlank c = false) (more : List Char) :
      (gap ++ (s ++ more)).dropWhile isBlank = s ++ more := by
    obtain ⟨c, s, rfl⟩ := List.exists_cons_of_ne_nil hs
    rw [List.dropWhile_append_of_pos hgap]
    exact dropWhile_isBlank_eq_self hfirst
  have hend : (after.reverse ++ s.reverse).dropWhile isBlank = s.reverse := by
    simpa using hstart (by simpa using hafter) (by simpa using hne) h.reverse.first []
  rw [trim, trimStart, List.append_assoc, hstart hbefore hne h.first, dropEndWhile,
    List.reverse_append, hend, List.reverse_reverse]

theorem isBlank_head?_dropWhile (s : List Char) :
    ∀ c ∈ (s.dropWhile isBlank).head?, isBlank c = false := by
  intro c hc
  have := List.head?_dropWhile_not isBlank s
  rw [Option.mem_def.mp hc] at this
  exact this

theorem dropEndWhile_le (p : Char → Bool) (s : List Char) : dropEndWhile p s <+: s := by
  rw [← List.reverse_suffix, dropEndWhile, List.reverse_reverse]
  exact List.dropWhile_suffix p

theorem trim_sublist (s : List Char) : (trim s).Sublist s :=
  (dropEndWhile_le isBlank _).sublist.trans (List.dropWhile_sublist isBlank)

theorem trimmed_trim (s : List Char) : Trimmed (trim s) where
  first := by
    intro c hc
    rw [trim, Option.mem_def] at hc
    obtain ⟨after, hafter⟩ := dropEndWhile_le isBlank (trimStart s)
    refine isBlank_head?_dropWhile s c ?_
    rw [← trimStart, ← hafter, List.head?_append, hc]
    rfl
  last := by
    intro c hc
    rw [trim, dropEndWhile, List.getLast?_reverse] at hc
    exact isBlank_head?_dropWhile _ c hc

theorem Trimmed.filter (h : Trimmed s) {p : Char → Bool} (hp : ∀ c, isBlank c = false → p c) :
    Trimmed (s.filter p) := by
  have hfirst {s : List Char} (h : ∀ c ∈ s.head?, isBlank c = false) :
      ∀ c ∈ (s.filter p).head?, isBlank c = false := by
    cases s with
    | nil => exact fun c hc => nomatch hc
    | cons d s =>
      rw [List.filter_cons_of_pos (hp d (h d rfl))]
      exact h
  refine ⟨hfirst h.first, ?_⟩
  have hlast := hfirst h.reverse.first
  rwa [List.filter_reverse, List.head?_reverse] at hlast

end LoadOrder.Text

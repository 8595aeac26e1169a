import LoadOrder.Line
import LoadOrder.Proofs.Text.Pieces
import LoadOrder.Proofs.Text.Trimmed
import Mathlib.Data.List.Basic

/-!
The parts of a line: its marks, and the words between its marks and spaces. Whatever the spacing
functions do to the spaces of a line, its parts stay.
-/

namespace LoadOrder.Line

variable {c d m t : Char} {s w : List Char}

def endsWord (c : Char) : Bool := c == ' ' || marks.contains c

/-- The marks of a text and the words between them, without spaces. -/
def parts (s : List Char) : List (List Char) := words (pad s)

theorem words_append_space (s s' : List Char) : words (s ++ ' ' :: s') = words s ++ words s' := by
  rw [words, Text.split_append rfl, List.filter_append]
  rfl

theorem words_space_cons (s : List Char) : words (' ' :: s) = words s := words_append_space [] s

theorem words_cons (hc : c ≠ ' ') (s : List Char) :
    words (c :: s) = if s.head?.all (· == ' ') then [c] :: words s
      else Text.consFirst c (words s) := by
  have hsplit : Text.split (· == ' ') (c :: s) = Text.consFirst c (Text.split (· == ' ') s) := by
    simp [Text.split, hc]
  rw [words, hsplit, words]
  cases s with
  | nil => rfl
  | cons d s =>
    obtain ⟨piece, more, hmore⟩ := List.exists_cons_of_ne_nil (Text.split_ne_nil (· == ' ') s)
    by_cases hd : d = ' ' <;> simp [Text.split, hd, hmore, Text.consFirst]

theorem flatten_consFirst (c : Char) (pieces : List (List Char)) :
    (Text.consFirst c pieces).flatten = c :: pieces.flatten := by
  cases pieces <;> rfl

theorem flatten_words (s : List Char) : (words s).flatten = s.filter (· != ' ') := by
  induction s with
  | nil => rfl
  | cons c s ih =>
    by_cases hc : c = ' '
    · subst hc
      rw [words_space_cons, ih, List.filter_cons_of_neg (by decide)]
    · rw [words_cons hc, List.filter_cons_of_pos (by simpa using hc), ← ih]
      split
      · rfl
      · exact flatten_consFirst c _

theorem of_mem_words (h : w ∈ words s) : w ≠ [] ∧ ' ' ∉ w := by
  refine ⟨by simpa using (List.mem_filter.mp h).2, fun hspace => ?_⟩
  have hmem : ' ' ∈ (words s).flatten := List.mem_flatten_of_mem h hspace
  rw [flatten_words] at hmem
  exact absurd (List.mem_filter.mp hmem).2 (by decide)

theorem words_dropWhile (s : List Char) : words (s.dropWhile (· == ' ')) = words s := by
  induction s with
  | nil => rfl
  | cons c s ih =>
    by_cases hc : c = ' '
    · subst hc
      rw [List.dropWhile_cons_of_pos rfl, ih, words_space_cons]
    · rw [List.dropWhile_cons_of_neg (by simpa using hc)]

theorem words_dropEndWhile (s : List Char) :
    words (Text.dropEndWhile (· == ' ') s) = words s := by
  obtain ⟨n, hn⟩ := Text.exists_split_eq (· == ' ') s
  rw [words, words, hn, List.filter_append, List.filter_replicate_of_neg (by simp),
    List.append_nil]

theorem dropWhile_isBlank (h : ∀ c ∈ (s.filter (· != ' ')).head?, Text.isBlank c = false) :
    s.dropWhile Text.isBlank = s.dropWhile (· == ' ') := by
  induction s with
  | nil => rfl
  | cons c s ih =>
    by_cases hc : c = ' '
    · subst hc
      rw [List.filter_cons_of_neg (by decide)] at h
      rw [List.dropWhile_cons_of_pos rfl, List.dropWhile_cons_of_pos rfl, ih h]
    · rw [List.filter_cons_of_pos (by simpa using hc)] at h
      rw [List.dropWhile_cons_of_neg (by simp [h c rfl]),
        List.dropWhile_cons_of_neg (by simpa using hc)]

theorem filter_dropWhile_space (s : List Char) :
    (s.dropWhile (· == ' ')).filter (· != ' ') = s.filter (· != ' ') := by
  rw [← flatten_words, words_dropWhile, flatten_words]

theorem words_trim (h : Text.Trimmed (s.filter (· != ' '))) : words (Text.trim s) = words s := by
  have hlast : ∀ c ∈ ((s.dropWhile (· == ' ')).reverse.filter (· != ' ')).head?,
      Text.isBlank c = false := by
    rw [List.filter_reverse, filter_dropWhile_space]
    exact h.reverse.first
  rw [Text.trim, Text.trimStart, dropWhile_isBlank h.first, Text.dropEndWhile,
    dropWhile_isBlank hlast]
  exact (words_dropEndWhile _).trans (words_dropWhile s)

theorem pad_append (s s' : List Char) : pad (s ++ s') = pad s ++ pad s' := List.flatMap_append

theorem pad_cons_mark (hm : m ∈ marks) (s : List Char) :
    pad (m :: s) = ' ' :: m :: ' ' :: pad s := by
  have hcontains : marks.contains m := by simpa using hm
  rw [pad, List.flatMap_cons, if_pos hcontains]
  rfl

theorem pad_cons_other (hc : c ∉ marks) (s : List Char) : pad (c :: s) = c :: pad s := by
  have hcontains : ¬marks.contains c := by simpa using hc
  rw [pad, List.flatMap_cons, if_neg hcontains]
  rfl

theorem mem_pad (h : c ∈ pad s) : c = ' ' ∨ c ∈ s := by
  obtain ⟨d, hd, hc⟩ := List.mem_flatMap.mp h
  split at hc
  · rcases List.mem_cons.mp hc with rfl | hc
    · exact .inl rfl
    · rcases List.mem_cons.mp hc with rfl | hc
      · exact .inr hd
      · exact .inl (List.mem_singleton.mp hc)
  · exact .inr (List.mem_singleton.mp hc ▸ hd)

theorem ne_space_of_mem_marks (hm : m ∈ marks) : m ≠ ' ' := by
  rintro rfl
  exact absurd hm (by decide)

theorem space_notMem_marks : ' ' ∉ marks := by decide

theorem parts_append_space (s s' : List Char) : parts (s ++ ' ' :: s') = parts s ++ parts s' := by
  rw [parts, pad_append, pad_cons_other space_notMem_marks, words_append_space]
  rfl

theorem parts_append_mark (hm : m ∈ marks) (s s' : List Char) :
    parts (s ++ m :: s') = parts s ++ [m] :: parts s' := by
  rw [parts, pad_append, pad_cons_mark hm, words_append_space,
    words_cons (ne_space_of_mem_marks hm), words_space_cons]
  rfl

theorem parts_space_cons (s : List Char) : parts (' ' :: s) = parts s := parts_append_space [] s

theorem parts_mark_cons (hm : m ∈ marks) (s : List Char) : parts (m :: s) = [m] :: parts s :=
  parts_append_mark hm [] s

theorem endsWord_eq_false_iff : endsWord c = false ↔ c ≠ ' ' ∧ c ∉ marks := by simp [endsWord]

theorem all_head?_pad (s : List Char) : (pad s).head?.all (· == ' ') = s.head?.all endsWord := by
  cases s with
  | nil => rfl
  | cons c s =>
    by_cases hc : c ∈ marks
    · rw [pad_cons_mark hc]
      simp [endsWord, hc]
    · rw [pad_cons_other hc]
      simp [endsWord, hc]

theorem flatten_parts (s : List Char) : (parts s).flatten = s.filter (· != ' ') := by
  rw [parts, flatten_words]
  induction s with
  | nil => rfl
  | cons c s ih =>
    by_cases hc : c ∈ marks
    · have hne : c ≠ ' ' := ne_space_of_mem_marks hc
      simp [pad_cons_mark hc, hne, ih]
    · rw [pad_cons_other hc, List.filter_cons, List.filter_cons, ih]

theorem parts_cons (hc : endsWord c = false) (hs : s.head?.all endsWord) :
    parts (c :: s) = [c] :: parts s := by
  rw [endsWord_eq_false_iff] at hc
  rw [parts, pad_cons_other hc.2, words_cons hc.1, all_head?_pad, if_pos hs]
  rfl

theorem exists_parts_cons (hc : endsWord c = false) (hd : endsWord d = false) (s : List Char) :
    ∃ word more, parts (d :: s) = (d :: word) :: more ∧
      parts (c :: d :: s) = (c :: d :: word) :: more := by
  have hcons : parts (c :: d :: s) = Text.consFirst c (parts (d :: s)) := by
    have hhead : ¬(d :: s).head?.all endsWord := by simpa using hd
    rw [endsWord_eq_false_iff] at hc
    rw [parts, pad_cons_other hc.2, words_cons hc.1, all_head?_pad, if_neg hhead]
    rfl
  have hflatten := flatten_parts (d :: s)
  rw [List.filter_cons_of_pos (by simpa using (endsWord_eq_false_iff.mp hd).1)] at hflatten
  cases hparts : parts (d :: s) with
  | nil =>
    rw [hparts] at hflatten
    cases hflatten
  | cons first more =>
    have hne : first ≠ [] := (of_mem_words (hparts ▸ List.mem_cons_self)).1
    obtain ⟨e, word, rfl⟩ := List.exists_cons_of_ne_nil hne
    rw [hparts] at hflatten hcons
    obtain ⟨rfl, -⟩ := List.cons.inj hflatten
    exact ⟨word, more, rfl, hcons⟩

theorem of_mem_parts (h : w ∈ parts s) :
    (∃ m ∈ marks, w = [m]) ∨ ∀ c ∈ w, endsWord c = false := by
  induction s generalizing w with
  | nil => cases h
  | cons c s ih =>
    by_cases hspace : c = ' '
    · subst hspace
      exact ih (parts_space_cons s ▸ h)
    by_cases hmark : c ∈ marks
    · rw [parts_mark_cons hmark] at h
      rcases List.mem_cons.mp h with rfl | h
      · exact .inl ⟨c, hmark, rfl⟩
      · exact ih h
    have hc : endsWord c = false := endsWord_eq_false_iff.mpr ⟨hspace, hmark⟩
    by_cases hs : s.head?.all endsWord
    · rw [parts_cons hc hs] at h
      rcases List.mem_cons.mp h with rfl | h
      · exact .inr (by simpa using hc)
      · exact ih h
    · obtain ⟨d, s, rfl⟩ : ∃ d more, s = d :: more :=
        List.exists_cons_of_ne_nil fun hnil => hs (by rw [hnil]; rfl)
      have hd : endsWord d = false := by simpa using hs
      obtain ⟨word, more, hparts, hcons⟩ := exists_parts_cons hc hd s
      rw [hcons] at h
      rcases List.mem_cons.mp h with rfl | h
      · rcases ih (hparts ▸ List.mem_cons_self) with ⟨m, hm, hword⟩ | hword
        · obtain ⟨rfl, -⟩ := List.cons.inj hword
          exact absurd hm (endsWord_eq_false_iff.mp hd).2
        · exact .inr (List.forall_mem_cons.mpr ⟨hc, hword⟩)
      · exact ih (hparts ▸ List.mem_cons_of_mem _ h)

theorem parts_eq_singleton (h : w ∈ parts s) : parts w = [w] := by
  have hne : w ≠ [] := (of_mem_words h).1
  rcases of_mem_parts h with ⟨m, hm, rfl⟩ | hword
  · exact parts_mark_cons hm []
  · have hpad : pad w = w := by
      have hmarks : ∀ c ∈ w, marks.contains c = false := fun c hc => by
        simpa using (endsWord_eq_false_iff.mp (hword c hc)).2
      rw [pad, List.flatMap_congr fun c hc => by rw [hmarks c hc]]
      exact List.flatMap_singleton' w
    have hsplit : Text.split (· == ' ') w = [w] :=
      Text.split_of_forall_not fun c hc => by
        simpa using (endsWord_eq_false_iff.mp (hword c hc)).1
    rw [parts, hpad, words, hsplit, List.filter_cons_of_pos (by simpa using hne)]
    rfl

/-- What `f` makes of a text it makes of the texts between its spaces, one after the other. -/
structure CutBySpaces (f : List Char → List (List Char)) : Prop where
  nil : f [] = []
  append : ∀ s s', f (s ++ ' ' :: s') = f s ++ f s'

section CutBySpaces

variable {f : List Char → List (List Char)}

theorem CutBySpaces.intercalate (hf : CutBySpaces f) (pieces : List (List Char)) :
    f ([' '].intercalate pieces) = pieces.flatMap f := by
  induction pieces with
  | nil => exact hf.nil
  | cons piece more ih =>
    by_cases hmore : more = []
    · subst hmore
      simp
    · rw [List.intercalate_cons_of_ne_nil hmore, List.append_assoc, List.singleton_append,
        hf.append, ih, List.flatMap_cons]

theorem CutBySpaces.intercalate_words (hf : CutBySpaces f) (s : List Char) :
    f ([' '].intercalate (words s)) = f s := by
  have hspace (c : Char) : c == ' ' ↔ c = ' ' := beq_iff_eq
  have hwords (pieces : List (List Char)) :
      (pieces.filter (· != [])).flatMap f = pieces.flatMap f := by
    induction pieces with
    | nil => rfl
    | cons piece more ih =>
      cases piece with
      | nil => rw [List.filter_cons_of_neg (by decide), ih, List.flatMap_cons, hf.nil]; rfl
      | cons c piece =>
        rw [List.filter_cons_of_pos rfl, List.flatMap_cons, List.flatMap_cons, ih]
  rw [hf.intercalate, words, hwords, ← hf.intercalate, Text.intercalate_split hspace]

end CutBySpaces

theorem cutBySpaces_parts : CutBySpaces parts := ⟨rfl, parts_append_space⟩

theorem parts_intercalate_parts (s : List Char) :
    parts ([' '].intercalate (parts s)) = parts s := by
  rw [cutBySpaces_parts.intercalate, List.flatMap_congr fun w hw => parts_eq_singleton hw]
  exact List.flatMap_singleton' _

theorem parts_dropSpaceBefore (ht : t ∈ marks) (before s : List Char) :
    parts (before ++ dropSpaceBefore t s) = parts (before ++ s) := by
  fun_induction dropSpaceBefore t s generalizing before with
  | case1 => rfl
  | case2 c rest h ih =>
    obtain ⟨rfl, hrest⟩ := h
    obtain ⟨more, rfl⟩ := List.head?_eq_some_iff.mp hrest
    rw [ih, parts_append_mark ht, parts_append_space, parts_mark_cons ht]
  | case3 c rest h ih =>
    simpa using ih (before ++ [c])

theorem parts_dropSpaceAfter (ht : t ∈ marks) (before s : List Char) :
    parts (before ++ dropSpaceAfter t s) = parts (before ++ s) := by
  fun_induction dropSpaceAfter t s generalizing before with
  | case1 => rfl
  | case2 c => rfl
  | case3 c d rest h ih =>
    obtain ⟨rfl, rfl⟩ := h
    have hrest := ih (before ++ [c])
    simp only [List.append_assoc, List.singleton_append] at hrest
    rw [hrest, parts_append_mark ht, parts_append_mark ht, parts_space_cons]
  | case4 c d rest h ih =>
    simpa using ih (before ++ [c])

theorem parts_tightenChars (s : List Char) :
    parts (tightenChars s) = parts (untab (Text.trim s)) := by
  have hstep (t : Char) (ht : t ∈ marks) (s : List Char) :
      parts (dropSpaceAfter t (dropSpaceBefore t s)) = parts s :=
    (parts_dropSpaceAfter ht [] _).trans (parts_dropSpaceBefore ht [] s)
  have hall (ts : List Char) (hts : ∀ t ∈ ts, t ∈ marks) (s : List Char) :
      parts (ts.foldl (fun s t => dropSpaceAfter t (dropSpaceBefore t s)) s) = parts s := by
    induction ts generalizing s with
    | nil => rfl
    | cons t ts ih =>
      rw [List.forall_mem_cons] at hts
      exact (ih hts.2 _).trans (hstep t hts.1 s)
  rw [tightenChars, hall marks fun _ h => h, collapse, cutBySpaces_parts.intercalate_words]

end LoadOrder.Line

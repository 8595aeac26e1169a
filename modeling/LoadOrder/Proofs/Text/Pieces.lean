import LoadOrder.Text.Blank
import LoadOrder.Text.Pieces

namespace LoadOrder.Text

variable {p : Char → Bool} {piece s : List Char}

theorem consFirst_append (c : Char) {pieces : List (List Char)} (h : pieces ≠ [])
    (later : List (List Char)) : consFirst c (pieces ++ later) = consFirst c pieces ++ later := by
  cases pieces with
  | nil => exact absurd rfl h
  | cons piece pieces => rfl

/-- A separator cuts a text in two, whose pieces are cut apart. -/
theorem split_append {c : Char} (hc : p c = true) (before after : List Char) :
    split p (before ++ c :: after) = split p before ++ split p after := by
  induction before with
  | nil => simp [split, hc]
  | cons d before ih =>
    simp only [List.cons_append, split, ih]
    cases p d with
    | true => simp
    | false => exact consFirst_append d (split_ne_nil p before) _

theorem exists_split_append (h : ∀ c ∈ piece, p c = false) (after : List Char) :
    ∃ first later, split p after = first :: later ∧
      split p (piece ++ after) = (piece ++ first) :: later := by
  obtain ⟨first, later, hafter⟩ := List.exists_cons_of_ne_nil (split_ne_nil p after)
  refine ⟨first, later, hafter, ?_⟩
  induction piece with
  | nil => exact hafter
  | cons c piece ih =>
    rw [List.forall_mem_cons] at h
    simp [split, h.1, ih h.2, consFirst]

theorem split_of_forall_not (h : ∀ c ∈ piece, p c = false) : split p piece = [piece] := by
  obtain ⟨first, later, hnil, happend⟩ := exists_split_append h []
  obtain ⟨rfl, rfl⟩ := List.cons.inj hnil
  simpa using happend

theorem exists_eq_dropEndWhile_append (p : Char → Bool) (s : List Char) :
    ∃ dropped, s = dropEndWhile p s ++ dropped ∧ ∀ c ∈ dropped, p c := by
  refine ⟨(s.reverse.takeWhile p).reverse, ?_, fun c hc => ?_⟩
  · rw [dropEndWhile, ← List.reverse_append, List.takeWhile_append_dropWhile, List.reverse_reverse]
  · exact List.all_eq_true.mp List.all_takeWhile c (List.mem_reverse.mp hc)

theorem mem_of_mem_dropEndWhile (p : Char → Bool) {c : Char} (h : c ∈ dropEndWhile p s) :
    c ∈ s := by
  obtain ⟨dropped, hs, -⟩ := exists_eq_dropEndWhile_append p s
  rw [hs]
  exact List.mem_append_left dropped h

theorem dropEndWhile_eq_self (h : ∀ c ∈ s.getLast?, p c = false) : dropEndWhile p s = s := by
  obtain ⟨dropped, hs, hdropped⟩ := exists_eq_dropEndWhile_append p s
  rcases List.eq_nil_or_concat dropped with rfl | ⟨front, c, rfl⟩
  · rw [List.append_nil] at hs
    exact hs.symm
  · have hkept : p c = false := h c (by rw [hs]; simp)
    rw [hdropped c (by simp)] at hkept
    cases hkept

theorem getLast?_dropEndWhile (p : Char → Bool) {c : Char}
    (h : (dropEndWhile p s).getLast? = some c) : p c = false := by
  rw [dropEndWhile, List.getLast?_reverse] at h
  have := List.head?_dropWhile_not p s.reverse
  rw [h] at this
  simpa using this

theorem exists_split_eq (p : Char → Bool) (s : List Char) :
    ∃ n, split p s = split p (dropEndWhile p s) ++ List.replicate n [] := by
  obtain ⟨r, rfl⟩ : ∃ r : List Char, s = r.reverse := ⟨s.reverse, s.reverse_reverse.symm⟩
  induction r with
  | nil => exact ⟨0, rfl⟩
  | cons c r ih =>
    cases hc : p c with
    | false =>
      refine ⟨0, ?_⟩
      simp [dropEndWhile, hc]
    | true =>
      obtain ⟨n, hn⟩ := ih
      refine ⟨n + 1, ?_⟩
      have hdrop : dropEndWhile p (c :: r).reverse = dropEndWhile p r.reverse := by
        simp [dropEndWhile, hc]
      have hsplit : split p (c :: r).reverse = split p r.reverse ++ [[]] := by
        rw [List.reverse_cons, split_append hc]
        rfl
      rw [hdrop, hsplit, hn, List.append_assoc, ← List.replicate_succ']

theorem length_consFirst (c : Char) {pieces : List (List Char)} (h : pieces ≠ []) :
    (consFirst c pieces).length = pieces.length := by
  cases pieces with
  | nil => exact absurd rfl h
  | cons piece pieces => rfl

theorem length_split (p : Char → Bool) (s : List Char) : (split p s).length = s.countP p + 1 := by
  induction s with
  | nil => rfl
  | cons c s ih =>
    rw [split, List.countP_cons]
    cases p c with
    | true => simp [ih]
    | false => simp [length_consFirst c (split_ne_nil p s), ih]

section Separator

variable {sep : Char}

theorem intercalate_consFirst (c : Char) (pieces : List (List Char)) :
    [sep].intercalate (consFirst c pieces) = c :: [sep].intercalate pieces := by
  cases pieces with
  | nil => rfl
  | cons piece more =>
    by_cases hmore : more = []
    · subst hmore
      simp [consFirst]
    · rw [consFirst, List.intercalate_cons_of_ne_nil hmore, List.intercalate_cons_of_ne_nil hmore]
      rfl

theorem intercalate_split (hp : ∀ c, p c ↔ c = sep) (s : List Char) :
    [sep].intercalate (split p s) = s := by
  induction s with
  | nil => rfl
  | cons c s ih =>
    by_cases hc : c = sep
    · subst hc
      rw [split, if_pos ((hp c).mpr rfl), List.intercalate_cons_of_ne_nil (split_ne_nil p s), ih]
      rfl
    · rw [split, if_neg fun h => hc ((hp c).mp h), intercalate_consFirst, ih]

theorem split_injective (hp : ∀ c, p c ↔ c = sep) : Function.Injective (split p) := by
  intro s t h
  rw [← intercalate_split hp s, h, intercalate_split hp]

theorem exists_of_split_eq_append (hp : ∀ c, p c ↔ c = sep) {pieces pieces' : List (List Char)}
    (hne : pieces ≠ []) (hne' : pieces' ≠ []) (h : split p s = pieces ++ pieces') :
    ∃ before after, s = before ++ sep :: after ∧ split p before = pieces ∧
      split p after = pieces' := by
  have hsep : p sep := (hp sep).mpr rfl
  induction s generalizing pieces with
  | nil =>
    rw [split, List.singleton_eq_append_iff] at h
    rcases h with ⟨hnil, -⟩ | ⟨-, hnil⟩
    · exact absurd hnil hne
    · exact absurd hnil hne'
  | cons c s ih =>
    obtain ⟨first, rest, rfl⟩ := List.exists_cons_of_ne_nil hne
    by_cases hc : c = sep
    · subst hc
      rw [split, if_pos hsep, List.cons_append] at h
      obtain ⟨rfl, hlater⟩ := List.cons.inj h
      by_cases hrest : rest = []
      · subst hrest
        exact ⟨[], s, rfl, rfl, hlater⟩
      · obtain ⟨before, after, rfl, hbefore, hafter⟩ := ih hrest hlater
        refine ⟨c :: before, after, rfl, ?_, hafter⟩
        rw [split, if_pos hsep, hbefore]
    · obtain ⟨first', later, hs⟩ := List.exists_cons_of_ne_nil (split_ne_nil p s)
      have hnot : ¬p c := fun h => hc ((hp c).mp h)
      rw [split, if_neg hnot, hs, consFirst, List.cons_append] at h
      obtain ⟨rfl, hlater⟩ := List.cons.inj h
      rw [hlater, ← List.cons_append] at hs
      obtain ⟨before, after, rfl, hbefore, hafter⟩ := ih (List.cons_ne_nil _ _) hs
      refine ⟨c :: before, after, rfl, ?_, hafter⟩
      rw [split, if_neg hnot, hbefore, consFirst]

/-- The pieces of one text begin those of another one exactly if the other text goes on with a
separator, or not at all. -/
theorem split_prefix_iff (hp : ∀ c, p c ↔ c = sep) {t : List Char} :
    split p s <+: split p t ↔ t = s ∨ s ++ [sep] <+: t := by
  constructor
  · rintro ⟨pieces, h⟩
    by_cases hnil : pieces = []
    · rw [hnil, List.append_nil] at h
      exact .inl (split_injective hp h).symm
    · obtain ⟨before, after, rfl, hbefore, -⟩ :=
        exists_of_split_eq_append hp (split_ne_nil p s) hnil h.symm
      obtain rfl := split_injective hp hbefore
      exact .inr ⟨after, by simp⟩
  · rintro (rfl | ⟨after, rfl⟩)
    · exact List.prefix_refl _
    · rw [List.append_assoc, List.singleton_append, split_append ((hp sep).mpr rfl)]
      exact List.prefix_append _ _

end Separator

def isNewline (c : Char) : Bool := c == '\n'

theorem isNewline_iff (c : Char) : isNewline c ↔ c = '\n' := beq_iff_eq

theorem isNewline_newline : isNewline '\n' = true := rfl

theorem isNewline_eq_false {c : Char} (h : c ≠ '\n') : isNewline c = false := beq_false_of_ne h

theorem lines_ne_nil (h : s ≠ []) : lines s ≠ [] := by
  fun_cases lines s with
  | case1 => exact absurd rfl h
  | case2 => exact List.cons_ne_nil _ _
  | case3 => exact List.cons_ne_nil _ _
  | case4 c s =>
    cases lines s with
    | nil => exact List.cons_ne_nil _ _
    | cons line rest => exact List.cons_ne_nil _ _

theorem newline_notMem_of_mem_lines {line : List Char} (h : line ∈ lines s) : '\n' ∉ line := by
  have hcons {c : Char} {pieces : List (List Char)} (hc : c ≠ '\n')
      (hp : ∀ piece ∈ pieces, '\n' ∉ piece) : ∀ piece ∈ consFirst c pieces, '\n' ∉ piece := by
    cases pieces with
    | nil => simpa [consFirst] using hc.symm
    | cons first more =>
      rw [List.forall_mem_cons] at hp
      simpa [consFirst, hc.symm] using hp
  fun_induction lines s generalizing line with
  | case1 => cases h
  | case2 rest ih =>
    rcases List.mem_cons.mp h with rfl | h
    · exact List.not_mem_nil
    · exact ih h
  | case3 rest ih =>
    rcases List.mem_cons.mp h with rfl | h
    · exact List.not_mem_nil
    · exact ih h
  | case4 c rest _ hnewline ih => exact hcons hnewline (fun _ hpiece => ih hpiece) line h

theorem toList_join (pieces : List (List Char)) :
    (join "\n" (pieces.map String.ofList)).toList = ['\n'].intercalate pieces := by
  have hnewline : ("\n" : String).toList = ['\n'] := rfl
  rw [join, String.toList_intercalate, hnewline, List.map_map]
  simp [Function.comp_def]

/-- A text that is not empty, has no carriage returns and does not end in a newline. -/
structure Bare (s : List Char) : Prop where
  ne_nil : s ≠ []
  plain : '\r' ∉ s
  last : s.getLast? ≠ some '\n'

theorem lines_cons {c : Char} (h : c ≠ '\n') (h' : c ≠ '\r') (s : List Char) :
    lines (c :: s) = consFirst c (lines s) := by
  rw [lines]
  · exact fun _ hc _ => h' hc
  · exact h

theorem Bare.tail {c : Char} (h : Bare (c :: s)) (hs : s ≠ []) : Bare s := by
  refine ⟨hs, fun hmem => h.plain (List.mem_cons_of_mem c hmem), fun hlast => h.last ?_⟩
  rw [List.getLast?_cons, hlast]
  rfl

/-- The lines of such a text are its pieces, with a newline at the end or without. -/
theorem lines_eq_split (h : Bare s) :
    lines s = split isNewline s ∧ lines (s ++ ['\n']) = split isNewline s := by
  induction s with
  | nil => exact absurd rfl h.ne_nil
  | cons c s ih =>
    have hreturn : c ≠ '\r' := fun hc => h.plain (hc ▸ List.mem_cons_self)
    by_cases hs : s = []
    · subst hs
      have hc : c ≠ '\n' := fun hc => h.last (by rw [hc]; rfl)
      rw [List.singleton_append, lines_cons hc hreturn, lines_cons hc hreturn, split,
        if_neg (by simp [isNewline, hc])]
      exact ⟨rfl, rfl⟩
    · obtain ⟨hlines, hended⟩ := ih (h.tail hs)
      by_cases hc : c = '\n'
      · subst hc
        rw [List.cons_append, lines, lines, hlines, hended, split, if_pos isNewline_newline]
        exact ⟨rfl, rfl⟩
      · rw [List.cons_append, lines_cons hc hreturn, lines_cons hc hreturn, hlines, hended, split,
          if_neg (by simp [isNewline, hc])]
        exact ⟨rfl, rfl⟩

theorem join_linesOf {text : String} (h : Bare text.toList) :
    join "\n" (linesOf text) = text ∧ join "\n" (linesOf (text ++ "\n")) = text := by
  have hnewline : ("\n" : String).toList = ['\n'] := rfl
  obtain ⟨hlines, hended⟩ := lines_eq_split h
  have hjoin : join "\n" ((split isNewline text.toList).map String.ofList) = text := by
    apply String.toList_injective
    rw [toList_join, intercalate_split isNewline_iff]
  unfold linesOf
  rw [String.toList_append, hnewline, hlines, hended]
  exact ⟨hjoin, hjoin⟩

theorem split_flatMap {g : Char → List Char} (hg : g '\n' = ['\n'])
    (hgap : ∀ c, c ≠ '\n' → '\n' ∉ g c) (s : List Char) :
    split isNewline (s.flatMap g) = (split isNewline s).map (·.flatMap g) := by
  induction s with
  | nil => rfl
  | cons c s ih =>
    rw [List.flatMap_cons]
    by_cases hc : c = '\n'
    · subst hc
      rw [hg, List.singleton_append, split, if_pos isNewline_newline, split,
        if_pos isNewline_newline, ih]
      rfl
    · have hpiece : ∀ d ∈ g c, isNewline d = false :=
        fun d hd => isNewline_eq_false fun hd' => hgap c hc (hd' ▸ hd)
      obtain ⟨first, later, hs⟩ := List.exists_cons_of_ne_nil (split_ne_nil isNewline s)
      obtain ⟨first', later', hmapped, happend⟩ := exists_split_append hpiece (s.flatMap g)
      rw [ih, hs, List.map_cons] at hmapped
      obtain ⟨rfl, rfl⟩ := List.cons.inj hmapped
      rw [happend, split, if_neg (by simp [isNewline, hc]), hs]
      rfl

def withoutReturns : List Char → List Char
  | [] => []
  | '\r' :: '\n' :: rest => '\n' :: withoutReturns rest
  | c :: rest => c :: withoutReturns rest

theorem withoutReturns_cons {c : Char} (h : c ≠ '\r') (s : List Char) :
    withoutReturns (c :: s) = c :: withoutReturns s := by
  rw [withoutReturns]
  exact fun _ hc _ => h hc

theorem withoutReturns_cons_cases (c : Char) (s : List Char) :
    (∃ more, c = '\r' ∧ s = '\n' :: more ∧ withoutReturns (c :: s) = withoutReturns s) ∨
      withoutReturns (c :: s) = c :: withoutReturns s := by
  by_cases hreturn : ∃ more, c = '\r' ∧ s = '\n' :: more
  · obtain ⟨more, rfl, rfl⟩ := hreturn
    refine .inl ⟨more, rfl, rfl, ?_⟩
    rw [withoutReturns, withoutReturns_cons (by decide)]
  · rw [withoutReturns]
    · exact .inr rfl
    · exact fun more hc hs => hreturn ⟨more, hc, hs⟩

theorem withoutReturns_append {c : Char} (h : c ≠ '\n') (s after : List Char) :
    withoutReturns (s ++ c :: after) = withoutReturns s ++ withoutReturns (c :: after) := by
  fun_induction withoutReturns s with
  | case1 => rfl
  | case2 s ih => rw [List.cons_append, List.cons_append, withoutReturns, ih, List.cons_append]
  | case3 d s hreturn ih =>
    rw [List.cons_append, withoutReturns, ih, List.cons_append]
    intro more hd hmore
    cases s with
    | nil => exact h (List.cons.inj hmore).1
    | cons e s =>
      obtain ⟨rfl, rfl⟩ := List.cons.inj hmore
      exact hreturn s hd rfl

theorem intercalate_lines (h : s.getLast? ≠ some '\r') :
    ['\n'].intercalate (lines (s ++ ['\n'])) = withoutReturns s := by
  have hnext {s : List Char} : ['\n'].intercalate ([] :: lines (s ++ ['\n'])) =
      '\n' :: ['\n'].intercalate (lines (s ++ ['\n'])) := by
    rw [List.intercalate_cons_of_ne_nil (lines_ne_nil (by simp))]
    rfl
  fun_induction withoutReturns s with
  | case1 => rfl
  | case2 s ih =>
    rw [List.cons_append, List.cons_append, lines, hnext, ih]
    intro hlast
    exact h (by simp [List.getLast?_cons, hlast])
  | case3 c s hreturn ih =>
    by_cases hs : s = []
    · subst hs
      have hc : c ≠ '\r' := fun hc => h (by rw [hc]; rfl)
      by_cases hnewline : c = '\n'
      · subst hnewline
        rfl
      · rw [List.singleton_append, lines_cons hnewline hc]
        rfl
    · have ih := ih fun hlast => h (by simp [List.getLast?_cons, hlast])
      by_cases hnewline : c = '\n'
      · subst hnewline
        rw [List.cons_append, lines, hnext, ih]
      · rw [List.cons_append, lines, intercalate_consFirst, ih]
        · intro more hc hmore
          obtain ⟨d, s, rfl⟩ := List.exists_cons_of_ne_nil hs
          obtain ⟨rfl, -⟩ := List.cons.inj hmore
          exact hreturn s hc rfl
        · exact hnewline

end LoadOrder.Text

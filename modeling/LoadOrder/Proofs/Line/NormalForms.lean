import LoadOrder.Proofs.Line.Parts
import Mathlib.Data.List.Chain

namespace LoadOrder.Line

variable {a b c t : Char} {before after s : List Char}

/-- The parts of a whole line, whose tabs count as spaces and whose outer blanks do not count. -/
def partsOf (line : List Char) : List (List Char) := parts (untab (Text.trim line))

/-- Of two neighbours one is a space that a text does without: it stands in front of another, in
front of a character of `before` or behind one of `after`. -/
def Spare (before after : List Char) (a b : Char) : Prop :=
  (a = ' ' ∧ (b = ' ' ∨ b ∈ before)) ∨ (b = ' ' ∧ a ∈ after)

/-- A text as the steps of the tight form pass it on: without spare spaces, without tabs, and
without blanks at its ends. -/
structure Neat (before after s : List Char) : Prop where
  unspared : s.IsChain fun a b => ¬Spare before after a b
  untabbed : '\t' ∉ s
  trimmed : Text.Trimmed s

theorem not_spare_nil_of_left (ha : a ≠ ' ') : ¬Spare [] [] a b := by simp [Spare, ha]

theorem not_spare_nil_of_right (hb : b ≠ ' ') : ¬Spare [] [] a b := by simp [Spare, hb]

theorem head?_ne_space (h : Text.Trimmed s) : s.head? ≠ some ' ' := by
  intro hspace
  exact absurd (h.first ' ' hspace) (by decide)

theorem getLast?_ne_space (h : Text.Trimmed s) : s.getLast? ≠ some ' ' := by
  intro hspace
  exact absurd (h.last ' ' hspace) (by decide)

theorem trimmed_filter (h : Text.Trimmed s) : Text.Trimmed (s.filter (· != ' ')) :=
  h.filter fun c hc => by
    rw [bne_iff_ne]
    rintro rfl
    exact absurd hc (by decide)

theorem dropSpaceBefore_sublist (t : Char) (s : List Char) : (dropSpaceBefore t s).Sublist s := by
  fun_induction dropSpaceBefore t s with
  | case1 => exact List.Sublist.refl _
  | case2 c rest h ih => exact ih.cons c
  | case3 c rest h ih => exact ih.cons_cons c

theorem dropSpaceAfter_sublist (t : Char) (s : List Char) : (dropSpaceAfter t s).Sublist s := by
  fun_induction dropSpaceAfter t s with
  | case1 => exact List.Sublist.refl _
  | case2 c => exact List.Sublist.refl _
  | case3 c d rest h ih => exact (ih.cons d).cons_cons c
  | case4 c d rest h ih => exact ih.cons_cons c

theorem mem_head?_dropSpaceBefore (h : b ∈ (dropSpaceBefore t s).head?) :
    b ∈ s.head? ∨ s.head? = some ' ' ∧ b = t := by
  fun_induction dropSpaceBefore t s with
  | case1 => exact .inl h
  | case2 c rest hdrop ih =>
    obtain ⟨rfl, hrest⟩ := hdrop
    rcases ih h with hb | ⟨-, rfl⟩
    · rw [hrest] at hb
      exact .inr ⟨rfl, (Option.some.inj hb).symm⟩
    · exact .inr ⟨rfl, rfl⟩
  | case3 c rest _ ih => exact .inl h

theorem getLast?_dropSpaceBefore (t : Char) (s : List Char) :
    (dropSpaceBefore t s).getLast? = s.getLast? := by
  fun_induction dropSpaceBefore t s with
  | case1 => rfl
  | case2 c rest hdrop ih =>
    obtain ⟨more, rfl⟩ := List.head?_eq_some_iff.mp hdrop.2
    rw [ih, List.getLast?_cons_cons]
  | case3 c rest _ ih => rw [List.getLast?_cons, List.getLast?_cons, ih]

theorem head?_dropSpaceAfter (t : Char) (s : List Char) :
    (dropSpaceAfter t s).head? = s.head? := by
  fun_cases dropSpaceAfter t s <;> rfl

theorem getLast?_dropSpaceAfter (h : s.getLast? ≠ some ' ') :
    (dropSpaceAfter t s).getLast? = s.getLast? := by
  fun_induction dropSpaceAfter t s with
  | case1 => rfl
  | case2 c => rfl
  | case3 c d rest hdrop ih =>
    obtain ⟨-, rfl⟩ := hdrop
    cases rest with
    | nil => exact absurd rfl h
    | cons e rest =>
      rw [List.getLast?_cons_cons, List.getLast?_cons_cons] at h ⊢
      rw [List.getLast?_cons, ih h]
      rfl
  | case4 c d rest _ ih =>
    rw [List.getLast?_cons_cons] at h ⊢
    rw [List.getLast?_cons, ih h]
    rfl

/-- Where a space goes, no spare space comes up: the character before it would have been a spare
space already. -/
theorem Neat.dropSpaceBefore (h : Neat before after s) (ht : t ≠ ' ') :
    Neat (t :: before) after (dropSpaceBefore t s) where
  unspared := by
    have hchain := h.unspared
    clear h
    fun_induction Line.dropSpaceBefore t s with
    | case1 => exact List.isChain_nil
    | case2 c rest _ ih => exact ih (List.isChain_cons.mp hchain).2
    | case3 c rest hkeep ih =>
      obtain ⟨hhead, hrest⟩ := List.isChain_cons.mp hchain
      refine List.isChain_cons.mpr ⟨fun b hb hspare => ?_, ih hrest⟩
      rcases mem_head?_dropSpaceBefore hb with hnext | ⟨hspace, rfl⟩
      · rcases hspare with ⟨rfl, rfl | hmem⟩ | hspare
        · exact hhead _ hnext (.inl ⟨rfl, .inl rfl⟩)
        · rcases List.mem_cons.mp hmem with rfl | hmem
          · exact hkeep ⟨rfl, hnext⟩
          · exact hhead _ hnext (.inl ⟨rfl, .inr hmem⟩)
        · exact hhead _ hnext (.inr hspare)
      · rcases hspare with ⟨rfl, -⟩ | ⟨rfl, -⟩
        · exact hhead _ hspace (.inl ⟨rfl, .inl rfl⟩)
        · exact ht rfl
  untabbed := fun htab => h.untabbed ((dropSpaceBefore_sublist t s).mem htab)
  trimmed := by
    refine ⟨fun c hc => ?_, by simpa only [getLast?_dropSpaceBefore] using h.trimmed.last⟩
    rcases mem_head?_dropSpaceBefore hc with hc | ⟨hspace, -⟩
    · exact h.trimmed.first c hc
    · exact absurd hspace (head?_ne_space h.trimmed)

theorem Neat.dropSpaceAfter (h : Neat before after s) (ht : t ≠ ' ') :
    Neat before (t :: after) (dropSpaceAfter t s) where
  unspared := by
    have hchain := h.unspared
    clear h
    fun_induction Line.dropSpaceAfter t s with
    | case1 => exact List.isChain_nil
    | case2 c => exact List.isChain_singleton c
    | case3 c d rest hdrop ih =>
      obtain ⟨rfl, rfl⟩ := hdrop
      obtain ⟨-, hspace⟩ := List.isChain_cons.mp hchain
      obtain ⟨hhead, hrest⟩ := List.isChain_cons.mp hspace
      refine List.isChain_cons.mpr ⟨fun b hb hspare => ?_, ih hrest⟩
      rw [head?_dropSpaceAfter] at hb
      rcases hspare with ⟨rfl, -⟩ | ⟨rfl, -⟩
      · exact ht rfl
      · exact hhead _ hb (.inl ⟨rfl, .inl rfl⟩)
    | case4 c d rest hkeep ih =>
      obtain ⟨hhead, hrest⟩ := List.isChain_cons.mp hchain
      refine List.isChain_cons.mpr ⟨fun b hb hspare => ?_, ih hrest⟩
      rw [head?_dropSpaceAfter] at hb
      rcases hspare with hspare | ⟨rfl, hmem⟩
      · exact hhead b hb (.inl hspare)
      · rcases List.mem_cons.mp hmem with rfl | hmem
        · exact hkeep ⟨rfl, Option.some.inj hb⟩
        · exact hhead _ hb (.inr ⟨rfl, hmem⟩)
  untabbed := fun htab => h.untabbed ((dropSpaceAfter_sublist t s).mem htab)
  trimmed := by
    refine ⟨by simpa only [head?_dropSpaceAfter] using h.trimmed.first, ?_⟩
    simpa only [getLast?_dropSpaceAfter (getLast?_ne_space h.trimmed)] using h.trimmed.last

section Pieces

variable {pieces : List (List Char)}

theorem head?_intercalate (hne : ∀ piece ∈ pieces, piece ≠ []) :
    ([' '].intercalate pieces).head? = pieces.flatten.head? := by
  cases pieces with
  | nil => rfl
  | cons piece more =>
    obtain ⟨c, piece, rfl⟩ := List.exists_cons_of_ne_nil (hne _ List.mem_cons_self)
    by_cases hmore : more = []
    · subst hmore
      simp
    · rw [List.intercalate_cons_of_ne_nil hmore]
      rfl

theorem getLast?_intercalate (hne : ∀ piece ∈ pieces, piece ≠ []) :
    ([' '].intercalate pieces).getLast? = pieces.flatten.getLast? := by
  induction pieces with
  | nil => rfl
  | cons piece more ih =>
    by_cases hmore : more = []
    · subst hmore
      simp
    · rw [List.forall_mem_cons] at hne
      have hlast : more.flatten.getLast? ≠ none := by
        obtain ⟨first, rest, rfl⟩ := List.exists_cons_of_ne_nil hmore
        simp [hne.2 first List.mem_cons_self]
      obtain ⟨c, hc⟩ := Option.ne_none_iff_exists'.mp hlast
      rw [List.intercalate_cons_of_ne_nil hmore, List.flatten_cons]
      simp only [List.getLast?_append, ih hne.2, hc, Option.some_or]

theorem mem_intercalate (h : c ∈ [' '].intercalate pieces) : c = ' ' ∨ c ∈ pieces.flatten := by
  induction pieces with
  | nil => cases h
  | cons piece more ih =>
    rw [List.flatten_cons, List.mem_append]
    by_cases hmore : more = []
    · subst hmore
      exact .inr (.inl (by simpa using h))
    · rw [List.intercalate_cons_of_ne_nil hmore, List.mem_append, List.mem_append,
        List.mem_singleton] at h
      rcases h with (h | h) | h
      · exact .inr (.inl h)
      · exact .inl h
      · exact (ih h).imp_right .inr

theorem neat_intercalate (hne : ∀ piece ∈ pieces, piece ≠ [])
    (hflatten : pieces.flatten = s.filter (· != ' ')) (htab : '\t' ∉ s) (hs : Text.Trimmed s) :
    Neat [] [] ([' '].intercalate pieces) where
  unspared := by
    have hspace : ∀ c ∈ pieces.flatten, c ≠ ' ' := fun c hc => by
      rw [hflatten] at hc
      simpa using (List.mem_filter.mp hc).2
    clear hflatten
    induction pieces with
    | nil => exact List.isChain_nil
    | cons piece more ih =>
      rw [List.forall_mem_cons] at hne
      rw [List.flatten_cons, List.forall_mem_append] at hspace
      have hpiece : piece.IsChain fun a b => ¬Spare [] [] a b := by
        refine (List.pairwise_of_forall_mem_list fun a ha b hb => ?_).isChain
        exact not_spare_nil_of_left (hspace.1 a ha)
      by_cases hmore : more = []
      · subst hmore
        simpa using hpiece
      · rw [List.intercalate_cons_of_ne_nil hmore, List.append_assoc, List.singleton_append,
          List.isChain_append]
        refine ⟨hpiece, List.isChain_cons.mpr ⟨fun b hb => ?_, ih hne.2 hspace.2⟩, ?_⟩
        · rw [head?_intercalate hne.2] at hb
          exact not_spare_nil_of_right (hspace.2 b (List.mem_of_mem_head? hb))
        · intro a ha b _
          exact not_spare_nil_of_left (hspace.1 a (List.mem_of_mem_getLast? ha))
  untabbed := by
    intro hmem
    rcases mem_intercalate hmem with hspace | hmem
    · exact absurd hspace (by decide)
    · rw [hflatten] at hmem
      exact htab (List.mem_filter.mp hmem).1
  trimmed := by
    have hends : Text.Trimmed pieces.flatten := hflatten ▸ trimmed_filter hs
    refine ⟨?_, ?_⟩
    · rw [head?_intercalate hne]
      exact hends.first
    · rw [getLast?_intercalate hne]
      exact hends.last

end Pieces

theorem tab_notMem_untab (s : List Char) : '\t' ∉ untab s := by
  intro htab
  obtain ⟨c, -, hc⟩ := List.mem_map.mp htab
  split at hc
  · cases hc
  · contradiction

theorem untab_eq_self (h : '\t' ∉ s) : untab s = s := by
  have hstay : ∀ c ∈ s, (if c = '\t' then ' ' else c) = id c := by
    intro c hc
    exact if_neg fun htab : c = '\t' => h (htab ▸ hc)
  rw [untab, List.map_congr_left hstay, List.map_id]

theorem trimmed_untab (h : Text.Trimmed s) : Text.Trimmed (untab s) := by
  have hstay {c : Char} (hc : Text.isBlank c = false) : (if c = '\t' then ' ' else c) = c :=
    if_neg (by rintro rfl; exact absurd hc (by decide))
  constructor
  · intro c hc
    rw [untab, List.head?_map, Option.mem_def, Option.map_eq_some_iff] at hc
    obtain ⟨d, hd, rfl⟩ := hc
    have hd := h.first d hd
    rwa [hstay hd]
  · intro c hc
    rw [untab, List.getLast?_map, Option.mem_def, Option.map_eq_some_iff] at hc
    obtain ⟨d, hd, rfl⟩ := hc
    have hd := h.last d hd
    rwa [hstay hd]

theorem neat_collapse (s : List Char) : Neat [] [] (collapse s) :=
  neat_intercalate (fun _ hword => (of_mem_words hword).1) (flatten_words _) (tab_notMem_untab _)
    (trimmed_untab (Text.trimmed_trim s))

/-- The steps of the tight form treat the marks one by one, so the last one is added first. -/
theorem neat_tightenChars (s : List Char) :
    Neat marks.reverse marks.reverse (tightenChars s) := by
  have hstep {done s : List Char} (h : Neat done done s) {t : Char} (ht : t ≠ ' ') :
      Neat (t :: done) (t :: done) (dropSpaceAfter t (dropSpaceBefore t s)) :=
    (h.dropSpaceBefore ht).dropSpaceAfter ht
  have hequals := hstep (neat_collapse s) (t := '=') (by decide)
  have hopening := hstep hequals (t := '\x7b') (by decide)
  have hclosing := hstep hopening (t := '\x7d') (by decide)
  have hmarks : marks.reverse = ['\x7d', '\x7b', '='] := rfl
  rw [hmarks, tightenChars, marks, List.foldl_cons, List.foldl_cons, List.foldl_cons,
    List.foldl_nil]
  exact hclosing

def isMark (part : List Char) : Bool := part.head?.any marks.contains

/-- A part in front of a text, with a space between two words. -/
def attach (part text : List Char) : List Char :=
  if isMark part || text.head?.all marks.contains then part ++ text else part ++ ' ' :: text

/-- The parts in a row, with a space only where two words meet. -/
def close (parts : List (List Char)) : List Char := parts.foldr attach []

theorem close_cons (part : List Char) (more : List (List Char)) :
    close (part :: more) = attach part (close more) := rfl

theorem attach_mark (hm : c ∈ marks) (text : List Char) : attach [c] text = c :: text := by
  have hmark : isMark [c] := by simpa [isMark] using hm
  rw [attach, hmark]
  rfl

theorem attach_before_mark (hm : c ∈ marks) (part text : List Char) :
    attach part (c :: text) = part ++ c :: text :=
  if_pos (by simp [hm])

theorem attach_words (ha : a ∉ marks) (hb : b ∉ marks) (text : List Char) :
    attach [a] (b :: text) = a :: ' ' :: b :: text :=
  if_neg (by simp [isMark, ha, hb])

theorem attach_cons (ha : a ∉ marks) (hb : b ∉ marks) (part text : List Char) :
    attach (a :: b :: part) text = a :: attach (b :: part) text := by
  have hsame : isMark (a :: b :: part) = isMark (b :: part) := by simp [isMark, ha, hb]
  unfold attach
  rw [hsame]
  split <;> rfl

theorem dropWhile_space_eq_self (h : s.head? ≠ some ' ') : s.dropWhile (· == ' ') = s := by
  cases s with
  | nil => rfl
  | cons c s => rw [List.dropWhile_cons_of_neg (by simpa using h)]

/-- Without spare spaces a text is its parts in a row, up to a space at its start. -/
theorem close_parts (h : s.IsChain fun a b => ¬Spare marks marks a b)
    (hlast : s.getLast? ≠ some ' ') : close (parts s) = s.dropWhile (· == ' ') := by
  induction s with
  | nil => rfl
  | cons c s ih =>
    obtain ⟨hhead, hrest⟩ := List.isChain_cons.mp h
    have ih := ih hrest fun hspace => hlast (by rw [List.getLast?_cons, hspace]; rfl)
    by_cases hspace : c = ' '
    · subst hspace
      rw [parts_space_cons, ih, List.dropWhile_cons_of_pos rfl]
    rw [dropWhile_space_eq_self (s := c :: s) (by simpa using hspace)]
    by_cases hmark : c ∈ marks
    · have hnext : s.head? ≠ some ' ' := fun hnext => hhead ' ' hnext (.inr ⟨rfl, hmark⟩)
      rw [parts_mark_cons hmark, close_cons, attach_mark hmark, ih,
        dropWhile_space_eq_self hnext]
    have hc : endsWord c = false := endsWord_eq_false_iff.mpr ⟨hspace, hmark⟩
    cases s with
    | nil =>
      rw [parts_cons hc rfl, close_cons, ih, attach]
      exact if_pos (Bool.or_true _)
    | cons d s =>
      by_cases hd : d = ' '
      · -- behind a space that is not spare there is a character of the next word
        subst hd
        obtain ⟨hbehind, -⟩ := List.isChain_cons.mp hrest
        cases s with
        | nil => exact absurd rfl hlast
        | cons e s =>
          have he : e ≠ ' ' := fun he => hbehind e rfl (.inl ⟨rfl, .inl he⟩)
          have hmark' : e ∉ marks := fun he => hbehind e rfl (.inl ⟨rfl, .inr he⟩)
          rw [parts_cons hc rfl, close_cons, ih, List.dropWhile_cons_of_pos rfl,
            dropWhile_space_eq_self (by simpa using he), attach_words hmark hmark']
      · rw [dropWhile_space_eq_self (by simpa using hd)] at ih
        by_cases hmark' : d ∈ marks
        · have hends : (d :: s).head?.all endsWord := by simp [endsWord, hmark']
          rw [parts_cons hc hends, close_cons, ih, attach_before_mark hmark', List.singleton_append]
        · obtain ⟨word, more, hparts, hcons⟩ :=
            exists_parts_cons hc (endsWord_eq_false_iff.mpr ⟨hd, hmark'⟩) s
          rw [hparts] at ih
          rw [hcons, close_cons, attach_cons hmark hmark', ← close_cons, ih]

theorem Spare.reverse (h : Spare before after a b) : Spare before.reverse after.reverse a b :=
  h.imp (And.imp_right (Or.imp_right List.mem_reverse.mpr)) (And.imp_right List.mem_reverse.mpr)

theorem tightenChars_eq_close (s : List Char) : tightenChars s = close (partsOf s) := by
  have hneat := neat_tightenChars s
  rw [partsOf, ← parts_tightenChars,
    close_parts (hneat.unspared.imp fun _ _ => mt Spare.reverse)
      (getLast?_ne_space hneat.trimmed),
    dropWhile_space_eq_self (head?_ne_space hneat.trimmed)]

theorem Neat.partsOf_eq (h : Neat before after s) : partsOf s = parts s := by
  rw [partsOf, h.trimmed.trim_eq, untab_eq_self h.untabbed]

theorem partsOf_tightenChars (s : List Char) : partsOf (tightenChars s) = partsOf s := by
  rw [(neat_tightenChars s).partsOf_eq, parts_tightenChars, partsOf]

/-- The padded text has blanks only where it has spaces, so trimming costs it no part. -/
theorem spreadChars_eq_intercalate (s : List Char) :
    spreadChars s = [' '].intercalate (partsOf s) := by
  have hneat := neat_tightenChars s
  have htab : '\t' ∉ Text.trim (pad (tightenChars s)) := fun htab => by
    rcases mem_pad ((Text.trim_sublist _).mem htab) with hspace | htab
    · exact absurd hspace (by decide)
    · exact hneat.untabbed htab
  have hends : Text.Trimmed ((pad (tightenChars s)).filter (· != ' ')) := by
    rw [← flatten_words, ← parts, flatten_parts]
    exact trimmed_filter hneat.trimmed
  rw [spreadChars, collapse, untab_eq_self htab, words_trim hends, ← parts, parts_tightenChars,
    partsOf]

theorem partsOf_spreadChars (s : List Char) : partsOf (spreadChars s) = partsOf s := by
  have hneat : Neat [] [] ([' '].intercalate (partsOf s)) :=
    neat_intercalate (fun _ hpart => (of_mem_words hpart).1) (flatten_parts _)
      (tab_notMem_untab _) (trimmed_untab (Text.trimmed_trim s))
  rw [spreadChars_eq_intercalate, hneat.partsOf_eq, partsOf, parts_intercalate_parts]

theorem toList_tighten (line : String) : (tighten line).toList = tightenChars line.toList :=
  String.toList_ofList

theorem toList_spread (line : String) : (spread line).toList = spreadChars line.toList :=
  String.toList_ofList

theorem tighten_eq_iff (x y : String) :
    tighten x = tighten y ↔ partsOf x.toList = partsOf y.toList := by
  constructor
  · intro h
    rw [← partsOf_tightenChars, ← toList_tighten, h, toList_tighten, partsOf_tightenChars]
  · intro h
    rw [tighten, tightenChars_eq_close, h, ← tightenChars_eq_close, ← tighten]

theorem spread_eq_iff (x y : String) :
    spread x = spread y ↔ partsOf x.toList = partsOf y.toList := by
  constructor
  · intro h
    rw [← partsOf_spreadChars, ← toList_spread, h, toList_spread, partsOf_spreadChars]
  · intro h
    rw [spread, spreadChars_eq_intercalate, h, ← spreadChars_eq_intercalate, ← spread]

/-- Each form of a form of a line is that form of the line. Two lines have either form in common
exactly if they have the same parts. -/
theorem normal_forms (x y : String) :
    tighten (tighten x) = tighten x ∧ spread (spread x) = spread x ∧
      tighten (spread x) = tighten x ∧ spread (tighten x) = spread x ∧
      (tighten x = tighten y ↔ partsOf x.toList = partsOf y.toList) ∧
      (spread x = spread y ↔ partsOf x.toList = partsOf y.toList) := by
  have htighten (x : String) : partsOf (tighten x).toList = partsOf x.toList := by
    rw [toList_tighten, partsOf_tightenChars]
  have hspread (x : String) : partsOf (spread x).toList = partsOf x.toList := by
    rw [toList_spread, partsOf_spreadChars]
  exact ⟨(tighten_eq_iff _ x).mpr (htighten x), (spread_eq_iff _ x).mpr (hspread x),
    (tighten_eq_iff _ x).mpr (hspread x), (spread_eq_iff _ x).mpr (htighten x),
    tighten_eq_iff x y, spread_eq_iff x y⟩

end LoadOrder.Line

import LoadOrder.Proofs.Line.NormalForms
import LoadOrder.Proofs.Script.Runs

namespace LoadOrder.Line

open Script

variable {c : Char} {s s' : List Char}

theorem isGap_of_isBlank (h : Text.isBlank c) : isGap c := by simp [isGap, h]

theorem runs_cons_congr (hhead : s.head?.any isWordChar = s'.head?.any isWordChar)
    (h : runs s = runs s') : runs (c :: s) = runs (c :: s') := by
  rw [runs, runs, hhead, h]

theorem runs_dropWhile_isBlank (s : List Char) : runs (s.dropWhile Text.isBlank) = runs s := by
  induction s with
  | nil => rfl
  | cons c s ih =>
    by_cases hc : Text.isBlank c
    · rw [List.dropWhile_cons_of_pos hc, ih, runs_gap_cons (isGap_of_isBlank hc)]
    · rw [List.dropWhile_cons_of_neg hc]

theorem runs_append_gaps {gap : List Char} (h : ∀ c ∈ gap, isGap c) (s : List Char) :
    runs (s ++ gap) = runs s := by
  have hgap : runs gap = [] := by
    induction gap with
    | nil => rfl
    | cons c gap ih =>
      rw [List.forall_mem_cons] at h
      rw [runs_gap_cons h.1, ih h.2]
  have hhead : gap.head?.any isWordChar = false := by
    cases gap with
    | nil => rfl
    | cons c gap =>
      have hc : ¬isWordChar c := fun hword =>
        not_isGap_of_isWordChar hword (h c List.mem_cons_self)
      simpa using hc
  rw [runs_append hhead, hgap, List.append_nil]

theorem runs_dropEndWhile_isBlank (s : List Char) :
    runs (Text.dropEndWhile Text.isBlank s) = runs s := by
  obtain ⟨dropped, hs, hdropped⟩ := Text.exists_eq_dropEndWhile_append Text.isBlank s
  conv_rhs => rw [hs, runs_append_gaps fun c hc => isGap_of_isBlank (hdropped c hc)]

theorem runs_trim (s : List Char) : runs (Text.trim s) = runs s := by
  rw [Text.trim, runs_dropEndWhile_isBlank, Text.trimStart, runs_dropWhile_isBlank]

theorem head?_untab (s : List Char) :
    (untab s).head?.any isWordChar = s.head?.any isWordChar := by
  cases s with
  | nil => rfl
  | cons c s =>
    change isWordChar (if c = '\t' then ' ' else c) = isWordChar c
    split
    · next htab => rw [htab]; rfl
    · rfl

theorem runs_untab (s : List Char) : runs (untab s) = runs s := by
  induction s with
  | nil => rfl
  | cons c s ih =>
    change runs ((if c = '\t' then ' ' else c) :: untab s) = _
    split
    · next htab => rw [htab, runs_gap_cons (by decide), runs_gap_cons (by decide), ih]
    · exact runs_cons_congr (head?_untab s) ih

theorem isSign_of_mem_marks (h : c ∈ marks) : IsSign c := by
  simp only [marks, List.mem_cons, List.not_mem_nil, or_false] at h
  rcases h with rfl | rfl | rfl <;> decide

theorem head?_pad (s : List Char) : (pad s).head?.any isWordChar = s.head?.any isWordChar := by
  cases s with
  | nil => rfl
  | cons c s =>
    by_cases hc : c ∈ marks
    · rw [pad_cons_mark hc]
      simp [(isSign_of_mem_marks hc).2, show isWordChar ' ' = false by decide]
    · rw [pad_cons_other hc]
      rfl

theorem runs_pad (s : List Char) : runs (pad s) = runs s := by
  induction s with
  | nil => rfl
  | cons c s ih =>
    by_cases hc : c ∈ marks
    · have hsign := isSign_of_mem_marks hc
      have hspace : isGap ' ' := by decide
      rw [pad_cons_mark hc, runs_gap_cons hspace, runs_sign_cons hsign, runs_gap_cons hspace,
        runs_sign_cons hsign, ih]
    · rw [pad_cons_other hc]
      exact runs_cons_congr (head?_pad s) ih

theorem cutBySpaces_runs : CutBySpaces runs where
  nil := rfl
  append s s' := by
    have hspace : isGap ' ' := by decide
    rw [runs_append rfl, runs_gap_cons hspace]

theorem runs_spreadChars (s : List Char) : runs (spreadChars s) = runs s := by
  rw [spreadChars_eq_intercalate, partsOf, parts, cutBySpaces_runs.intercalate_words, runs_pad,
    runs_untab, runs_trim]

theorem mem_spreadChars (h : c ∈ spreadChars s) : c = ' ' ∨ c ∈ s := by
  rw [spreadChars_eq_intercalate] at h
  rcases mem_intercalate h with hspace | hc
  · exact .inl hspace
  · rw [partsOf, flatten_parts] at hc
    obtain ⟨d, hd, rfl⟩ := List.mem_map.mp (List.mem_filter.mp hc).1
    split
    · exact .inl rfl
    · exact .inr ((Text.trim_sublist s).mem hd)

theorem aired_intercalate {pieces : List (List Char)}
    (h : ∀ piece ∈ pieces, piece = ['='] ∨ '=' ∉ piece) : Aired ([' '].intercalate pieces) := by
  induction pieces with
  | nil => exact List.isChain_nil
  | cons piece more ih =>
    rw [List.forall_mem_cons] at h
    have hpiece : Aired piece := by
      rcases h.1 with rfl | hnot
      · exact List.isChain_singleton _
      · refine (List.pairwise_of_forall_mem_list fun a _ b hb hequal => ?_).isChain
        exact absurd (hequal ▸ hb) hnot
    by_cases hmore : more = []
    · subst hmore
      simpa using hpiece
    · rw [List.intercalate_cons_of_ne_nil hmore, List.append_assoc, List.singleton_append]
      refine List.isChain_append.mpr ⟨hpiece, List.isChain_cons.mpr ⟨fun _ _ _ => rfl, ih h.2⟩, ?_⟩
      intro a _ b hb hequal
      cases hb
      exact absurd hequal (by decide)

theorem aired_spreadChars (s : List Char) : Aired (spreadChars s) := by
  rw [spreadChars_eq_intercalate]
  refine aired_intercalate fun part hpart => ?_
  rcases of_mem_parts hpart with ⟨m, hm, rfl⟩ | hword
  · by_cases hequal : m = '='
    · exact .inl (by rw [hequal])
    · exact .inr (by simpa using Ne.symm hequal)
  · exact .inr fun hmem => absurd (hword _ hmem) (by decide)

/-- A line without quotes and comments says the same when it is spread, exactly if none of its
operators has two characters. -/
theorem says_spread_iff {line : String} {forest : List Tree} (hquote : '"' ∉ line.toList)
    (hcomment : '#' ∉ line.toList) (h : Says line forest) :
    Says (spread line) forest ↔ Simple (spelling forest) := by
  have haired : Aired (spread line).toList := toList_spread line ▸ aired_spreadChars _
  have hnotMem {c : Char} (hspace : c ≠ ' ') (hc : c ∉ line.toList) :
      c ∉ (spread line).toList := by
    rw [toList_spread]
    exact fun hmem => (mem_spreadChars hmem).elim hspace hc
  constructor
  · intro hspread
    obtain ⟨ts, hts, hmap⟩ := hspread.lexes .start
    exact hmap ▸ haired.simple hts
  · intro hsimple
    obtain ⟨ts, hts, hmap⟩ := h.lexes .start
    have hspelling : spelling forest = (runs line.toList).map tokenOf :=
      hmap ▸ map_tokenOf_runs hts hquote hcomment (hmap ▸ hsimple)
    refine says_of_lexes (fun p => ?_) h.shallow
    have hquote' := hnotMem (by decide) hquote
    obtain ⟨ts', hts'⟩ := exists_tokensFrom hquote' p
    refine ⟨ts', hts', ?_⟩
    rw [hspelling, map_tokenOf_runs hts' hquote' (hnotMem (by decide) hcomment)
      (haired.simple hts'), toList_spread, runs_spreadChars]

theorem says_of_tokens {text : String} {forest : List Tree}
    (h : (tokens text).toOption.map (·.map (·.token)) = some (spelling forest))
    (hshallow : nesting forest ≤ maxDepth) : Says text forest := by
  obtain ⟨ts, hts, hmap⟩ := Option.map_eq_some_iff.mp h
  have hok := eq_ok_of_toOption hts
  obtain ⟨statements, hread, htrees⟩ := ofTokens_of_spelling hmap.symm hshallow
  exact ⟨statements, by rw [parse_eq_ofTokens hok, hread], htrees⟩

theorem says_spread_clause :
    Says "\tif=\x7b war! <2\x7d"
        [.clause (some ⟨.word "if", .equal⟩) [.leaf (some ⟨.word "war!", .less⟩) (.word "2")]] ∧
      spread "\tif=\x7b war! <2\x7d" = "if = \x7b war! <2 \x7d" ∧
      Says (spread "\tif=\x7b war! <2\x7d")
        [.clause (some ⟨.word "if", .equal⟩) [.leaf (some ⟨.word "war!", .less⟩) (.word "2")]] := by
  have hline : Says "\tif=\x7b war! <2\x7d"
      [.clause (some ⟨.word "if", .equal⟩) [.leaf (some ⟨.word "war!", .less⟩) (.word "2")]] :=
    says_of_tokens (by decide +kernel) (by decide)
  refine ⟨hline, by decide, (says_spread_iff (by decide) (by decide) hline).mpr ?_⟩
  intro o ho
  cases o <;> first | rfl | exact absurd ho (by decide)

/-- An operator that is taken apart is an operator without a value. -/
theorem not_says_spread :
    Says "a==b" [.leaf (some ⟨.word "a", .equalEqual⟩) (.word "b")] ∧
      spread "a==b" = "a = = b" ∧ ∀ forest, ¬Says (spread "a==b") forest := by
  refine ⟨says_of_tokens (by decide +kernel) (by decide), by decide, ?_⟩
  rintro forest ⟨statements, hparse, -⟩
  have hnone : (parse (spread "a==b")).toOption.isNone := by decide +kernel
  rw [hparse] at hnone
  cases hnone

end LoadOrder.Line

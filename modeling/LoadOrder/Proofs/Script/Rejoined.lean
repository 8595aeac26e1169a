import LoadOrder.Proofs.Script.Joined
import LoadOrder.Proofs.Text.Pieces

namespace LoadOrder.Script

/-- The second text has the lines of the first: without some carriage returns at the ends of lines,
and with the end of the last line or without. -/
inductive SameLines : List Char → List Char → Prop
  | nil : SameLines [] []
  | last : SameLines ['\n'] []
  | carriage {s s' : List Char} (h : SameLines ('\n' :: s) s') : SameLines ('\r' :: '\n' :: s) s'
  | cons (c : Char) {s s' : List Char} (h : SameLines s s') : SameLines (c :: s) (c :: s')

theorem SameLines.newline {s : List Char}
    (h : SameLines s (['\n'].intercalate (Text.lines s))) :
    SameLines ('\n' :: s) (['\n'].intercalate ([] :: Text.lines s)) := by
  by_cases hs : s = []
  · rw [hs]
    exact .last
  · rw [List.intercalate_cons_of_ne_nil (Text.lines_ne_nil hs)]
    exact .cons '\n' h

theorem sameLines_lines (s : List Char) :
    SameLines s (['\n'].intercalate (Text.lines s)) := by
  fun_induction Text.lines s with
  | case1 => exact .nil
  | case2 s ih => exact .carriage ih.newline
  | case3 s ih => exact ih.newline
  | case4 c s _ _ ih =>
    rw [Text.intercalate_consFirst]
    exact .cons c ih

section SameLines

variable {s s' : List Char}

theorem front_of_isGap {c : Char} (hc : isGap c) (s : List Char) : Front.of c s = .gap 1 := by
  simp [Front.of, hc]

theorem SameLines.head?_iff (h : SameLines s s') {c : Char} (hc : isGap c = false) :
    s.head? = some c ↔ s'.head? = some c := by
  have hnewline : c ≠ '\n' := by
    rintro rfl
    exact absurd hc (by decide)
  have hreturn : c ≠ '\r' := by
    rintro rfl
    exact absurd hc (by decide)
  induction h with
  | nil => rfl
  | last => simp [hnewline.symm]
  | carriage h ih =>
    refine Iff.trans ?_ ih
    simp [hnewline.symm, hreturn.symm]
  | cons d h ih => rfl

theorem SameLines.singleEqual_eq (h : SameLines s s') : singleEqual s = singleEqual s' := by
  induction h with
  | nil => rfl
  | last => rfl
  | carriage h ih =>
    rw [← ih]
    rfl
  | @cons c s s' h ih =>
    have hequal := h.head?_iff (c := '=') (by decide)
    rw [singleEqual_cons, singleEqual_cons, Bool.eq_iff_iff]
    simp [hequal]

theorem SameLines.wordLength_eq (h : SameLines s s') : wordLength s = wordLength s' := by
  induction h with
  | nil => rfl
  | last => rfl
  | carriage h ih =>
    rw [← ih]
    rfl
  | cons c h ih => rw [wordLength, wordLength, h.singleEqual_eq, ih]

theorem SameLines.take_wordLength (h : SameLines s s') :
    s.take (wordLength s) = s'.take (wordLength s') := by
  induction h with
  | nil => rfl
  | last => rfl
  | carriage h ih =>
    rw [← ih]
    rfl
  | cons c h ih =>
    rw [wordLength, wordLength, h.singleEqual_eq]
    split
    · rfl
    · rw [List.take_succ_cons, List.take_succ_cons, ih]

theorem drop_takeWhile (p : Char → Bool) (s : List Char) :
    s.drop (s.takeWhile p).length = s.dropWhile p :=
  calc s.drop (s.takeWhile p).length
    _ = (s.takeWhile p ++ s.dropWhile p).drop (s.takeWhile p).length := by
      rw [List.takeWhile_append_dropWhile]
    _ = s.dropWhile p := List.drop_left

theorem SameLines.afterLine (h : SameLines s s') :
    SameLines (s.dropWhile (· != '\n')) (s'.dropWhile (· != '\n')) := by
  induction h with
  | nil => exact .nil
  | last => exact .last
  | carriage h ih => exact ih
  | cons c h ih =>
    rw [List.dropWhile_cons, List.dropWhile_cons]
    split
    · exact ih
    · exact .cons c h

theorem SameLines.append {text : List Char} (h : SameLines (text ++ s) s') (hreturn : '\r' ∉ text)
    (hlast : text.getLast? ≠ some '\n') : ∃ rest, s' = text ++ rest ∧ SameLines s rest := by
  induction text generalizing s' with
  | nil => exact ⟨s', rfl, h⟩
  | cons c text ih =>
    rw [List.mem_cons, not_or] at hreturn
    generalize happend : text ++ s = more at h
    rw [List.cons_append, happend] at h
    cases h with
    | last =>
      rw [(List.append_eq_nil_iff.mp happend).1] at hlast
      exact absurd rfl hlast
    | carriage => exact absurd rfl hreturn.1
    | cons _ h =>
      have hlast' : text.getLast? ≠ some '\n' := by
        intro heq
        apply hlast
        rw [List.getLast?_cons, heq]
        rfl
      rw [← happend] at h
      obtain ⟨rest, rfl, hrest⟩ := ih h hreturn.2 hlast'
      exact ⟨rest, rfl, hrest⟩

theorem SameLines.exists_rest (h : SameLines s s') {c : Char} {t : Token} {n : Nat}
    (hfront : Front.of c s = .token t n) (hreturn : '\r' ∉ t.source.toList) :
    ∃ rest, s' = s.take (n - 1) ++ rest ∧ (s.take (n - 1)).length = n - 1 ∧
      SameLines (s.drop (n - 1)) rest := by
  have hfronts := fronts_of c s
  rw [hfront] at hfronts
  have hsource := hfronts.source_eq
  have hlast : (s.take (n - 1)).getLast? ≠ some '\n' := by
    intro heq
    apply (tight_token (front_of_wellFormed hfront)).getLast?_ne (c := '\n') (by decide)
    rw [hsource, List.getLast?_cons, heq]
    rfl
  rw [hsource, List.mem_cons, not_or] at hreturn
  rw [← List.take_append_drop (n - 1) s] at h
  obtain ⟨rest, hs', hrest⟩ := h.append hreturn.2 hlast
  exact ⟨rest, hs', List.length_take_of_le (Nat.sub_le_of_le_add hfronts.size_le), hrest⟩

theorem front_of_quote_append {t : Token} {n : Nat} (hfront : Front.of '"' s = .token t n)
    (rest : List Char) : Front.of '"' (s.take (n - 1) ++ rest) = .token t n := by
  rw [front_of_quote] at hfront
  cases hlength : quotedLength? s with
  | none => simp [hlength] at hfront
  | some k =>
    simp only [hlength, Front.token.injEq] at hfront
    obtain ⟨rfl, rfl⟩ := hfront
    have htext : s.take (k + 2 - 1) ++ rest = s.take k ++ '"' :: rest := by
      rw [Nat.add_sub_assoc (by decide), List.take_add_one, getElem?_quotedLength hlength]
      simp
    obtain ⟨hclosed, hk⟩ := quotedLength?_take hlength rest
    rw [front_of_quote, htext, hclosed]
    simp [List.take_left' hk]

theorem SameLines.front_of (h : SameLines s s') {c : Char} {t : Token} {n : Nat}
    (hfront : Front.of c s = .token t n) (hreturn : '\r' ∉ t.source.toList) :
    Front.of c s' = .token t n ∧ SameLines (s.drop (n - 1)) (s'.drop (n - 1)) := by
  obtain ⟨rest, hs', hlength, hrest⟩ := h.exists_rest hfront hreturn
  constructor
  · by_cases hquote : c = '"'
    · rw [hquote] at hfront ⊢
      rw [hs']
      exact front_of_quote_append hfront rest
    · have hcomment : c ≠ '#' := by
        rintro rfl
        simp [Front.of, show isGap '#' = false by decide] at hfront
      have hword : Front.word c s' = Front.word c s := by
        rw [Front.word, Front.word, ← h.take_wordLength, ← h.wordLength_eq]
      have hequal := h.head?_iff (c := '=') (by decide)
      rw [← hfront]
      simp only [Front.of, comparison_eq, hequal, hword, if_neg hquote, if_neg hcomment]
  · rw [hs', List.drop_left' hlength]
    exact hrest

theorem SameLines.lexes (h : SameLines s s') {p : Position} {ts : List Located}
    (hts : tokensFrom p s = .ok ts) (hreturn : Everywhere (· ≠ '\r') (ts.map (·.token))) :
    Lexes s' (ts.map (·.token)) := by
  -- along the recursion of the lexer: what is dropped is a gap, or the end of a comment
  induction p, s using tokensFrom.induct generalizing ts s' with
  | case1 p =>
    rw [tokensFrom_nil] at hts
    cases hts
    cases h
    exact .nil
  | case2 p c rest n hf ih =>
    rw [tokensFrom_cons, hf] at hts
    cases h with
    | last =>
      simp only [List.drop_nil, tokensFrom_nil] at hts
      cases hts
      exact .nil
    | carriage h =>
      rw [front_of_isGap (c := '\r') rfl] at hf
      cases hf
      exact ih h hts hreturn
    | @cons _ _ more h =>
      have hfronts := fronts_of c rest
      rw [hf] at hfronts
      cases hfronts with
      | gap hc => exact (ih h hts hreturn).gap hc
      | comment hc =>
        have hcomment : Front.of c more = .gap ((more.takeWhile (· != '\n')).length + 1) := by
          simp [Front.of, hc, show isGap '#' = false by decide]
        simp only [Nat.add_sub_cancel, drop_takeWhile] at hts ih
        refine .of_gap hcomment ?_
        rw [Nat.add_sub_cancel, drop_takeWhile]
        exact ih h.afterLine hts hreturn
  | case3 p c rest t n hf ih =>
    rw [tokensFrom_cons, hf] at hts
    obtain ⟨ts', hts', rfl⟩ := exists_of_map_eq_ok hts
    rw [List.map_cons, everywhere_cons] at hreturn
    cases h with
    | last =>
      rw [front_of_isGap (c := '\n') rfl] at hf
      cases hf
    | carriage =>
      rw [front_of_isGap (c := '\r') rfl] at hf
      cases hf
    | cons _ h =>
      obtain ⟨hfront, hrest⟩ := h.front_of hf fun hmem => hreturn.1 _ hmem rfl
      exact .of_token hfront (ih hrest hts' hreturn.2)
  | case4 p c rest hf =>
    rw [tokensFrom_cons, hf] at hts
    cases hts

end SameLines

/-- A script says the same by its lines, unless a token has a carriage return. -/
theorem Says.linesOf {text : String} {forest : List Tree} (h : Says text forest)
    (hreturn : Everywhere (· ≠ '\r') (spelling forest)) :
    Says (Text.join "\n" (Text.linesOf text)) forest := by
  have hshallow := h.shallow
  obtain ⟨statements, hparse, rfl⟩ := h
  obtain ⟨ts, hts, hread⟩ := exists_tokens_of_parse hparse
  have hspelling := (spelling_of_ofTokens hread).1
  refine says_of_lexes ?_ hshallow
  rw [hspelling] at hreturn
  rw [Text.linesOf, Text.toList_join, hspelling]
  exact (sameLines_lines _).lexes hts hreturn

end LoadOrder.Script

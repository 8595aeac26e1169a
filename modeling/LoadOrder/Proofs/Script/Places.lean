import LoadOrder.Proofs.Script.Fillers

namespace LoadOrder.Script

/-- The place behind a text: its line is one more than the number of newlines in the text, and its
column one more than the number of characters behind the last of them. -/
def Position.behind (before : List Char) : Position where
  line := before.count '\n' + 1
  column := (before.reverse.takeWhile (· != '\n')).length + 1

theorem Position.behind_concat (before : List Char) (c : Char) :
    behind (before ++ [c]) = (behind before).next c := by
  unfold next
  split
  · next h => simp [behind, h]
  · next h => simp [behind, h]

theorem Position.after_behind (before s : List Char) :
    (behind before).after s = behind (before ++ s) := by
  induction s generalizing before with
  | nil => simp
  | cons c s ih => rw [after_cons, ← behind_concat, ih, List.append_assoc, List.singleton_append]

theorem Position.start_eq_behind : start = behind [] := rfl

/-- The tokens of some pieces, each at its place in a text that the pieces continue. -/
def placed (before : List Char) : List Piece → List Located
  | [] => []
  | x :: rest => ⟨x.token, .behind (before ++ x.filler)⟩ :: placed (before ++ x.text) rest

@[simp] theorem map_token_placed (before : List Char) (pieces : List Piece) :
    (placed before pieces).map (·.token) = pieces.map Piece.token := by
  induction pieces generalizing before with
  | nil => rfl
  | cons x rest ih => rw [placed, List.map_cons, ih, List.map_cons]

/-- A text is some tokens at their places, with nothing but fillers and a trailer around them. -/
structure Holds (before s : List Char) (pieces : List Piece) (rest : List Char)
    (ts : List Located) : Prop where
  text : s = textOf pieces ++ rest
  filler : ∀ x ∈ pieces, Filler x.filler
  trailer : Trailer rest
  places : ts = placed before pieces

theorem Filler.append {g s : List Char} (hg : Filler g) (h : Filler s) : Filler (g ++ s) := by
  induction hg with
  | nil => exact h
  | gap hc _ ih => exact .gap hc ih
  | comment hbody _ ih =>
    rw [List.append_assoc]
    exact .comment hbody ih

theorem Filler.append_trailer {g s : List Char} (hg : Filler g) (h : Trailer s) :
    Trailer (g ++ s) := by
  cases h with
  | filler h => exact .filler (hg.append h)
  | comment h hbody =>
    rw [← List.append_assoc]
    exact .comment (hg.append h) hbody

theorem holds_trailer (before : List Char) {s : List Char} (h : Trailer s) :
    Holds before s [] s [] :=
  ⟨rfl, by simp, h, rfl⟩

section Holds

variable {before s : List Char} {ts : List Located}

theorem exists_holds_filler {g : List Char} (hg : Filler g)
    (h : ∃ pieces rest, Holds (before ++ g) s pieces rest ts) :
    ∃ pieces rest, Holds before (g ++ s) pieces rest ts := by
  obtain ⟨_ | ⟨x, pieces⟩, rest, htext, hfiller, htrailer, hplaces⟩ := h
  · subst htext hplaces
    exact ⟨[], _, holds_trailer before (hg.append_trailer htrailer)⟩
  · rw [List.forall_mem_cons] at hfiller
    refine ⟨⟨g ++ x.filler, x.token⟩ :: pieces, rest, ?_, ?_, htrailer, ?_⟩
    · simp [htext, textOf, Piece.text]
    · rw [List.forall_mem_cons]
      exact ⟨hg.append hfiller.1, hfiller.2⟩
    · simp [hplaces, placed, Piece.text]

theorem exists_holds_token (t : Token)
    (h : ∃ pieces rest, Holds (before ++ t.source.toList) s pieces rest ts) :
    ∃ pieces rest, Holds before (t.source.toList ++ s) pieces rest
      (⟨t, .behind before⟩ :: ts) := by
  obtain ⟨pieces, rest, htext, hfiller, htrailer, hplaces⟩ := h
  refine ⟨⟨[], t⟩ :: pieces, rest, ?_, ?_, htrailer, ?_⟩
  · simp [htext, textOf, Piece.text]
  · rw [List.forall_mem_cons]
    exact ⟨.nil, hfiller⟩
  · simp [hplaces, placed, Piece.text]

end Holds

/-- A text as it is read, from its front to where reading ends. -/
inductive Scan : List Char → Prop
  | nil : Scan []
  | gap {c s} (hc : isGap c) (h : Scan s) : Scan (c :: s)
  | line {body s} (hbody : '\n' ∉ body) (h : Scan s) : Scan ('#' :: body ++ '\n' :: s)
  | lastLine {body} (hbody : '\n' ∉ body) : Scan ('#' :: body)
  | token {c s t n} (hf : Front.of c s = .token t n) (h : Scan (s.drop (n - 1))) : Scan (c :: s)
  | openQuote {s} (hs : quotedLength? s = none) : Scan ('"' :: s)

section Scan

variable {before s : List Char} {p : Position}

theorem tokensFrom_gap {c : Char} (hc : isGap c) (s : List Char) :
    tokensFrom p (c :: s) = tokensFrom (p.next c) s := by
  rw [tokensFrom_cons, front_of_isGap hc]
  simp

theorem tokensFrom_comment {body : List Char} (hbody : '\n' ∉ body) (hs : Ended s) :
    tokensFrom p ('#' :: body ++ s) = tokensFrom (p.after ('#' :: body)) s := by
  rw [List.cons_append, tokensFrom_cons, front_of_comment hbody hs]
  simp

theorem tokensFrom_line {body : List Char} (hbody : '\n' ∉ body) (s : List Char) :
    tokensFrom (.behind before) ('#' :: body ++ '\n' :: s) =
      tokensFrom (.behind (before ++ ('#' :: body ++ ['\n']))) s := by
  rw [tokensFrom_comment hbody (ended_newline s), tokensFrom_gap (by decide),
    Position.after_behind, ← Position.behind_concat, List.append_assoc]

theorem tokensFrom_lastLine {body : List Char} (hbody : '\n' ∉ body) :
    tokensFrom p ('#' :: body) = .ok [] := by
  rw [← List.append_nil ('#' :: body), tokensFrom_comment hbody ended_nil, tokensFrom_nil]

theorem text_of_token {c : Char} {t : Token} {n : Nat} (hf : Front.of c s = .token t n) :
    c :: s = t.source.toList ++ s.drop (n - 1) := by
  rw [(fronts_of_eq hf).source_eq, List.cons_append, List.take_append_drop]

theorem tokensFrom_token {c : Char} {t : Token} {n : Nat} (hf : Front.of c s = .token t n) :
    tokensFrom (.behind before) (c :: s) =
      (tokensFrom (.behind (before ++ t.source.toList)) (s.drop (n - 1))).map
        (⟨t, .behind before⟩ :: ·) := by
  rw [tokensFrom_cons, hf, (fronts_of_eq hf).source_eq, ← Position.after_behind]

theorem tokensFrom_open_quote (h : quotedLength? s = none) :
    tokensFrom p ('"' :: s) = .error ⟨.unterminatedString, p⟩ := by
  rw [tokensFrom_cons, front_of_quote, h]
  rfl

theorem exists_line (s : List Char) :
    ∃ line, '\n' ∉ line ∧ (s = line ∨ ∃ more, s = line ++ '\n' :: more) := by
  induction s with
  | nil => exact ⟨[], by simp, .inl rfl⟩
  | cons c s ih =>
    by_cases hc : c = '\n'
    · exact ⟨[], by simp, .inr ⟨s, by rw [hc]; rfl⟩⟩
    · obtain ⟨line, hline, hs⟩ := ih
      refine ⟨c :: line, by simp [hline, Ne.symm hc], ?_⟩
      rcases hs with rfl | ⟨more, rfl⟩
      · exact .inl rfl
      · exact .inr ⟨more, rfl⟩

theorem scan (s : List Char) : Scan s := by
  -- on the length: behind a comment the end of its line is passed over as well
  induction hn : s.length using Nat.strongRecOn generalizing s with
  | ind n ih =>
  subst hn
  cases s with
  | nil => exact .nil
  | cons c s =>
    cases hf : Front.of c s with
    | unreadable =>
      cases fronts_of_eq hf with
      | unreadable hc hnone =>
        rw [hc]
        exact .openQuote hnone
    | token t n =>
      refine .token hf (ih _ ?_ _ rfl)
      rw [List.length_drop, List.length_cons]
      omega
    | gap n =>
      cases fronts_of_eq hf with
      | gap hc => exact .gap hc (ih _ (by simp) s rfl)
      | comment hc =>
        obtain rfl := hc
        obtain ⟨body, hbody, rfl | ⟨more, rfl⟩⟩ := exists_line s
        · exact .lastLine hbody
        · exact .line hbody (ih _ (by simp; omega) more rfl)

/-- A text that can be read is its tokens, with fillers between them. -/
theorem exists_holds {ts : List Located} (h : tokensFrom (.behind before) s = .ok ts) :
    ∃ pieces rest, Holds before s pieces rest ts := by
  have hscan := scan s
  induction hscan generalizing before ts with
  | nil =>
    rw [tokensFrom_nil] at h
    obtain rfl := Except.ok.inj h
    exact ⟨[], [], holds_trailer before (.filler .nil)⟩
  | gap hc _ ih =>
    rw [tokensFrom_gap hc, ← Position.behind_concat] at h
    exact exists_holds_filler (.gap hc .nil) (ih h)
  | line hbody _ ih =>
    rw [tokensFrom_line hbody] at h
    simpa using exists_holds_filler (.comment hbody .nil) (ih h)
  | lastLine hbody =>
    rw [tokensFrom_lastLine hbody] at h
    obtain rfl := Except.ok.inj h
    exact ⟨[], _, holds_trailer before (.comment .nil hbody)⟩
  | token hf _ ih =>
    rw [tokensFrom_token hf] at h
    obtain ⟨ts', hts', rfl⟩ := exists_of_map_eq_ok h
    rw [text_of_token hf]
    exact exists_holds_token _ (ih hts')
  | openQuote hs =>
    rw [tokensFrom_open_quote hs] at h
    cases h

end Scan

theorem source_ne_nil {t : Token} (h : t.WellFormed) : t.source.toList ≠ [] := by
  obtain ⟨⟨c, rest, hsource, -⟩, -⟩ := tight_token h
  rw [hsource]
  exact List.cons_ne_nil c rest

theorem exists_text_of_mem_placed {before : List Char} {pieces : List Piece} {t : Located}
    (h : t ∈ placed before pieces) :
    ∃ s s', textOf pieces = s ++ t.token.source.toList ++ s' ∧
      t.position = .behind (before ++ s) := by
  induction pieces generalizing before with
  | nil => cases h
  | cons x rest ih =>
    rcases List.mem_cons.mp h with rfl | h
    · exact ⟨x.filler, textOf rest, rfl, rfl⟩
    · obtain ⟨s, s', htext, hplace⟩ := ih h
      refine ⟨x.text ++ s, s', ?_, by rw [hplace, List.append_assoc]⟩
      rw [textOf, List.flatMap_cons, ← textOf, htext]
      simp

/-- Every token stands behind the tokens before it. -/
theorem placed_increasing {before : List Char} {pieces : List Piece}
    (hwell : ∀ x ∈ pieces, x.token.WellFormed) :
    (placed before pieces).Pairwise fun a b => a.position.Before b.position := by
  induction pieces generalizing before with
  | nil => exact .nil
  | cons x rest ih =>
    rw [List.forall_mem_cons] at hwell
    refine .cons (fun t ht => ?_) (ih hwell.2)
    obtain ⟨s, -, -, hs⟩ := exists_text_of_mem_placed ht
    have hbetween : before ++ x.text ++ s =
        before ++ x.filler ++ (x.token.source.toList ++ s) := by
      simp [Piece.text]
    rw [hs, hbetween, ← Position.after_behind (before ++ x.filler)]
    exact Position.before_after (List.append_ne_nil_of_left_ne_nil (source_ne_nil hwell.1) s)

end LoadOrder.Script

import LoadOrder.Proofs.Script.Places

namespace LoadOrder.Script

/-- No quote closes a text between quotes that begins here. -/
def NeverClosed (rest : List Char) : Prop :=
  ∀ body after, rest = body ++ '"' :: after → ¬Quotable body

/-- A text that ends outside of comments and of texts between quotes. -/
inductive Outside : List Char → Prop
  | nil : Outside []
  | plain {c s} (hquote : c ≠ '"') (hcomment : c ≠ '#') (h : Outside s) : Outside (c :: s)
  | comment {body s} (hbody : '\n' ∉ body) (h : Outside s) : Outside ('#' :: body ++ '\n' :: s)
  | quoted {body s} (hbody : Quotable body) (h : Outside s) : Outside ('"' :: body ++ '"' :: s)

theorem neverClosed_iff {rest : List Char} : NeverClosed rest ↔ quotedLength? rest = none := by
  constructor
  · intro h
    rw [Option.eq_none_iff_forall_ne_some]
    intro n hn
    refine h (rest.take n) (rest.drop (n + 1)) ?_ (quotable_take hn).1
    obtain ⟨_, hquote⟩ := List.getElem?_eq_some_iff.mp (getElem?_quotedLength hn)
    rw [← hquote, List.getElem_cons_drop, List.take_append_drop]
  · rintro h body after rfl hbody
    rw [hbody.quotedLength?_eq] at h
    cases h

theorem front_of_quoted {body : List Char} (h : Quotable body) (after : List Char) :
    Front.of '"' (body ++ '"' :: after) =
      .token (.atom (.quoted (String.ofList body))) (body.length + 2) := by
  rw [front_of_quote, h.quotedLength?_eq]
  simp

def Unmarked (s : List Char) : Prop := ∀ c ∈ s, c ≠ '"' ∧ c ≠ '#'

theorem unmarked_of_isWordChar {s : List Char} (h : ∀ c ∈ s, isWordChar c) : Unmarked s := by
  intro c hc
  have hword := h c hc
  simp only [isWordChar, Bool.and_eq_true, bne_iff_ne] at hword
  exact ⟨hword.1.2, hword.2⟩

theorem unmarked_of_all {s : List Char} (h : s.all fun c => c != '"' && c != '#') :
    Unmarked s := by
  simpa [Unmarked] using h

theorem Fronts.unmarked_or {c : Char} {s : List Char} {t : Token} {n : Nat}
    (h : Fronts c s (.token t n)) :
    Unmarked t.source.toList ∨
      c = '"' ∧ ∃ body, Quotable body ∧ t.source.toList = '"' :: body ++ ['"'] := by
  cases h with
  | opening => exact .inl (unmarked_of_all (by decide))
  | closing => exact .inl (unmarked_of_all (by decide))
  | @operator o n ho hn => exact .inl (unmarked_of_all (by cases o <;> decide))
  | @quoted n hquote hn =>
    exact .inr ⟨hquote, s.take n, (quotable_take hn).1, by simp [Token.source, Atom.source]⟩
  | word hword => exact .inl (unmarked_of_isWordChar (word_wellFormed hword).2)

theorem Outside.append {u s : List Char} (hu : Unmarked u) (h : Outside s) : Outside (u ++ s) := by
  induction u with
  | nil => exact h
  | cons c u ih =>
    rw [Unmarked, List.forall_mem_cons] at hu
    exact .plain hu.1.1 hu.1.2 (ih hu.2)

theorem Outside.tail {c : Char} {s : List Char} (hquote : c ≠ '"') (hcomment : c ≠ '#')
    (h : Outside (c :: s)) : Outside s := by
  generalize heq : c :: s = text at h
  cases h with
  | nil => cases heq
  | plain _ _ h =>
    obtain ⟨-, rfl⟩ := List.cons.inj heq
    exact h
  | comment => exact absurd (List.cons.inj heq).1 hcomment
  | quoted => exact absurd (List.cons.inj heq).1 hquote

theorem Outside.of_append {u s : List Char} (hu : Unmarked u) (h : Outside (u ++ s)) :
    Outside s := by
  induction u with
  | nil => exact h
  | cons c u ih =>
    rw [Unmarked, List.forall_mem_cons] at hu
    exact ih hu.2 (h.tail hu.1.1 hu.1.2)

theorem exists_append_of_unmarked {u after s rest : List Char} (hu : Unmarked u)
    (h : u ++ after = s ++ '"' :: rest) : ∃ w, s = u ++ w ∧ after = w ++ '"' :: rest := by
  rcases List.append_eq_append_iff.mp h with ⟨w, hs, hafter⟩ | ⟨w, rfl, hafter⟩
  · exact ⟨w, hs, hafter⟩
  · cases w with
    | nil => exact ⟨[], by simp, hafter.symm⟩
    | cons c w =>
      obtain ⟨rfl, -⟩ := List.cons.inj hafter
      exact absurd rfl (hu '"' (by simp)).1

theorem Outside.token {c : Char} {s rest : List Char} {t : Token} {n : Nat}
    (hf : Front.of c s = .token t n) (h : Outside rest) : Outside (t.source.toList ++ rest) := by
  rcases (fronts_of_eq hf).unmarked_or with hu | ⟨-, body, hbody, hsource⟩
  · exact h.append hu
  · rw [hsource]
    simpa using h.quoted hbody

theorem outside_gap {c : Char} (hc : isGap c) {s : List Char} (h : Outside s) :
    Outside (c :: s) := by
  refine .plain ?_ ?_ h
  · rintro rfl
    exact absurd hc (by decide)
  · rintro rfl
    exact absurd hc (by decide)

/-- Cutting a text into tokens stops only at a quote that no other quote closes. -/
theorem exists_open_quote {before s : List Char} {e : SyntaxError}
    (h : tokensFrom (.behind before) s = .error e) :
    ∃ inside rest, s = inside ++ '"' :: rest ∧ Outside inside ∧ NeverClosed rest ∧
      e = ⟨.unterminatedString, .behind (before ++ inside)⟩ := by
  have hscan := scan s
  induction hscan generalizing before with
  | nil =>
    rw [tokensFrom_nil] at h
    cases h
  | @gap c s hc _ ih =>
    rw [tokensFrom_gap hc, ← Position.behind_concat] at h
    obtain ⟨inside, rest, rfl, houtside, hopen, he⟩ := ih h
    exact ⟨c :: inside, rest, rfl, outside_gap hc houtside, hopen, by simp [he]⟩
  | @line body s hbody _ ih =>
    rw [tokensFrom_line hbody] at h
    obtain ⟨inside, rest, rfl, houtside, hopen, he⟩ := ih h
    exact ⟨'#' :: body ++ '\n' :: inside, rest, by simp, .comment hbody houtside, hopen,
      by simp [he]⟩
  | lastLine hbody =>
    rw [tokensFrom_lastLine hbody] at h
    cases h
  | @token c s t n hf _ ih =>
    rw [tokensFrom_token hf] at h
    obtain ⟨inside, rest, htext, houtside, hopen, he⟩ := ih (eq_error_of_map h)
    refine ⟨t.source.toList ++ inside, rest, ?_, houtside.token hf, hopen, ?_⟩
    · rw [text_of_token hf, htext, List.append_assoc]
    · rw [he, List.append_assoc]
  | @openQuote s hs =>
    rw [tokensFrom_open_quote hs] at h
    obtain rfl := Except.error.inj h
    exact ⟨[], s, rfl, .nil, neverClosed_iff.mpr hs, by rw [List.append_nil]⟩

theorem tokensFrom_of_open_quote {before inside rest : List Char} (houtside : Outside inside)
    (hopen : NeverClosed rest) :
    tokensFrom (.behind before) (inside ++ '"' :: rest) =
      .error ⟨.unterminatedString, .behind (before ++ inside)⟩ := by
  -- a token may take several characters of the text at once, so this is on the length as well
  induction hn : inside.length using Nat.strongRecOn generalizing before inside with
  | ind n ih =>
  subst hn
  cases houtside with
  | nil => rw [List.nil_append, tokensFrom_open_quote (neverClosed_iff.mp hopen), List.append_nil]
  | @comment body s hbody houtside =>
    have htext : '#' :: body ++ '\n' :: s ++ '"' :: rest =
        '#' :: body ++ '\n' :: (s ++ '"' :: rest) := by
      simp
    rw [htext, tokensFrom_line hbody, ih s.length (by simp; omega) houtside rfl]
    simp
  | @quoted body s hbody houtside =>
    have htext : '"' :: body ++ '"' :: s ++ '"' :: rest =
        '"' :: (body ++ '"' :: (s ++ '"' :: rest)) := by
      simp
    have hdrop : (body ++ '"' :: (s ++ '"' :: rest)).drop (body.length + 2 - 1) =
        s ++ '"' :: rest := by
      simp
    rw [htext, tokensFrom_token (front_of_quoted hbody _), hdrop,
      ih s.length (by simp; omega) houtside rfl]
    simp [Except.map, Token.source, Atom.source]
  | @plain c s hquote hcomment houtside =>
    rw [List.cons_append]
    cases hf : Front.of c (s ++ '"' :: rest) with
    | unreadable =>
      cases fronts_of_eq hf with
      | unreadable hc => exact absurd hc hquote
    | gap n =>
      cases fronts_of_eq hf with
      | gap hc =>
        rw [tokensFrom_gap hc, ← Position.behind_concat, ih s.length (by simp) houtside rfl]
        simp
      | comment hc => exact absurd hc hcomment
    | token t n =>
      rcases (fronts_of_eq hf).unmarked_or with hu | ⟨hc, -⟩
      · have htext := text_of_token hf
        rw [← List.cons_append] at htext
        obtain ⟨w, hw, hdrop⟩ := exists_append_of_unmarked hu htext.symm
        have hpos := List.length_pos_iff.mpr (source_ne_nil (front_of_wellFormed hf))
        have hlength := congrArg List.length hw
        rw [List.length_append] at hlength
        have hafter : Outside w := (hw ▸ houtside.plain hquote hcomment).of_append hu
        rw [tokensFrom_token hf, hdrop, ih w.length (by omega) hafter rfl, hw]
        simp [Except.map]
      · exact absurd hc hquote

/-- A text can be cut into tokens unless a quote, outside of comments and of texts between quotes,
is never closed. -/
theorem tokens_eq_error_iff {text : String} {e : SyntaxError} :
    tokens text = .error e ↔ ∃ before rest, text.toList = before ++ '"' :: rest ∧
      Outside before ∧ NeverClosed rest ∧ e = ⟨.unterminatedString, .behind before⟩ := by
  constructor
  · intro h
    rw [tokens, Position.start_eq_behind] at h
    exact exists_open_quote h
  · rintro ⟨before, rest, htext, houtside, hopen, rfl⟩
    rw [tokens, htext, Position.start_eq_behind, tokensFrom_of_open_quote houtside hopen,
      List.nil_append]

end LoadOrder.Script

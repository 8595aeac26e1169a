import LoadOrder.Proofs.Script.Tree
import LoadOrder.Proofs.Success

namespace LoadOrder.Script

/-- The tokens of a text, wherever it begins. -/
def Lexes (s : List Char) (tokens : List Token) : Prop :=
  ∀ p, ∃ ts, tokensFrom p s = .ok ts ∧ ts.map (·.token) = tokens

/-- No token goes on into the text: it is empty or begins with a gap or a comment. -/
def Parted (s : List Char) : Prop := ∀ c ∈ s.head?, isGap c ∨ c = '#'

theorem tokensFrom_nil (p : Position) : tokensFrom p [] = .ok [] := by
  rw [tokensFrom.eq_def]

theorem tokensFrom_cons (p : Position) (c : Char) (rest : List Char) :
    tokensFrom p (c :: rest) =
      match Front.of c rest with
      | .gap n => tokensFrom (p.after (c :: rest.take (n - 1))) (rest.drop (n - 1))
      | .token t n =>
        (tokensFrom (p.after (c :: rest.take (n - 1))) (rest.drop (n - 1))).map (⟨t, p⟩ :: ·)
      | .unreadable => .error ⟨.ofUnreadable c, p⟩ :=
  tokensFrom.eq_def p (c :: rest)

theorem Lexes.nil : Lexes [] [] := fun p => ⟨[], tokensFrom_nil p, rfl⟩

theorem Lexes.of_gap {c : Char} {rest : List Char} {n : Nat} {tokens : List Token}
    (hf : Front.of c rest = .gap n) (h : Lexes (rest.drop (n - 1)) tokens) :
    Lexes (c :: rest) tokens := by
  intro p
  obtain ⟨ts, hts, hmap⟩ := h (p.after (c :: rest.take (n - 1)))
  exact ⟨ts, by rw [tokensFrom_cons, hf]; exact hts, hmap⟩

theorem Lexes.of_token {c : Char} {rest : List Char} {t : Token} {n : Nat} {tokens : List Token}
    (hf : Front.of c rest = .token t n) (h : Lexes (rest.drop (n - 1)) tokens) :
    Lexes (c :: rest) (t :: tokens) := by
  intro p
  obtain ⟨ts, hts, hmap⟩ := h (p.after (c :: rest.take (n - 1)))
  refine ⟨⟨t, p⟩ :: ts, ?_, by rw [List.map_cons, hmap]⟩
  rw [tokensFrom_cons, hf]
  simp only [hts]
  rfl

theorem Lexes.gap {c : Char} {rest : List Char} {tokens : List Token} (hc : isGap c)
    (h : Lexes rest tokens) : Lexes (c :: rest) tokens :=
  .of_gap (n := 1) (by simp [Front.of, hc]) h

theorem Lexes.gaps {g rest : List Char} {tokens : List Token} (hg : ∀ c ∈ g, isGap c)
    (h : Lexes rest tokens) : Lexes (g ++ rest) tokens := by
  induction g with
  | nil => exact h
  | cons c g ih =>
    rw [List.forall_mem_cons] at hg
    exact (ih hg.2).gap hg.1

theorem Lexes.opening {rest : List Char} {tokens : List Token} (h : Lexes rest tokens) :
    Lexes ('\x7b' :: rest) (.opening :: tokens) :=
  .of_token (n := 1) (by simp [Front.of, show isGap '\x7b' = false by decide]) h

theorem Lexes.closing {rest : List Char} {tokens : List Token} (h : Lexes rest tokens) :
    Lexes ('\x7d' :: rest) (.closing :: tokens) :=
  .of_token (n := 1) (by simp [Front.of, show isGap '\x7d' = false by decide]) h

theorem parted_nil : Parted [] := by
  simp [Parted]

theorem parted_cons {c : Char} (h : isGap c) (s : List Char) : Parted (c :: s) := by
  simp [Parted, h]

theorem Parted.not_isWordChar {s : List Char} {c : Char} (h : Parted s) (hc : c ∈ s.head?) :
    isWordChar c = false := by
  rcases h c hc with hg | rfl
  · simp [isWordChar, hg]
  · decide

theorem Parted.head?_ne_equal {s : List Char} (h : Parted s) : s.head? ≠ some '=' := by
  intro hs
  rcases h '=' hs with hg | hg
  · exact absurd hg (by decide)
  · exact absurd hg (by decide)

theorem comparison_of_parted {plain withEqual : Operator} {s : List Char} (h : Parted s) :
    Front.comparison plain withEqual s = .token (.operator plain) 1 := by
  unfold Front.comparison
  split
  · exact absurd rfl h.head?_ne_equal
  · rfl

theorem Lexes.operator (o : Operator) {rest : List Char} {tokens : List Token} (hp : Parted rest)
    (h : Lexes rest tokens) : Lexes (o.text.toList ++ rest) (.operator o :: tokens) := by
  cases o with
  | equal => exact .of_token (n := 1) (comparison_of_parted hp) h
  | equalEqual => exact .of_token (n := 2) rfl h
  | notEqual => exact .of_token (n := 2) rfl h
  | less => exact .of_token (n := 1) (comparison_of_parted hp) h
  | lessEqual => exact .of_token (n := 2) rfl h
  | greater => exact .of_token (n := 1) (comparison_of_parted hp) h
  | greaterEqual => exact .of_token (n := 2) rfl h
  | maybeEqual => exact .of_token (n := 2) rfl h

/-- An atom as it can stand in a text: a word of word characters, or a text that the quote after it
closes. -/
def Atom.WellFormed : Atom → Prop
  | .word w => w.toList ≠ [] ∧ ∀ c ∈ w.toList, isWordChar c
  | .quoted s => ∀ rest, quotedLength? (s.toList ++ '"' :: rest) = some s.toList.length

def Token.WellFormed : Token → Prop
  | .atom a => a.WellFormed
  | _ => True

theorem singleEqual_of_head? {s : List Char} (h : s.head? ≠ some '=') : singleEqual s = false := by
  unfold singleEqual
  split
  · rfl
  · exact absurd rfl h
  · rfl

theorem head?_append_ne_equal {w rest : List Char} (hw : ∀ c ∈ w, isWordChar c)
    (hp : Parted rest) : (w ++ rest).head? ≠ some '=' := by
  cases w with
  | nil => exact hp.head?_ne_equal
  | cons c w =>
    intro h
    obtain rfl : c = '=' := Option.some.inj h
    exact absurd (hw '=' List.mem_cons_self) (by decide)

theorem wordLength_append {w rest : List Char} (hw : ∀ c ∈ w, isWordChar c) (hp : Parted rest) :
    wordLength (w ++ rest) = w.length := by
  -- inside the word no `=` follows, which would make an operator of a last `!` or `?`
  induction w with
  | nil =>
    cases rest with
    | nil => rfl
    | cons c rest => simp [wordLength, hp.not_isWordChar (c := c) rfl]
  | cons c w ih =>
    rw [List.forall_mem_cons] at hw
    have hs := singleEqual_of_head? (head?_append_ne_equal hw.2 hp)
    simp [wordLength, hw.1, hs, ih hw.2]

theorem front_of_isWordChar {c : Char} {rest : List Char} (hc : isWordChar c)
    (hr : rest.head? ≠ some '=') : Front.of c rest = Front.word c rest := by
  have hother := hc
  simp only [isWordChar, Bool.and_eq_true, bne_iff_ne, Bool.not_eq_true'] at hother
  simp [Front.of, hother, hc, hr]

theorem Lexes.word {w : String} {rest : List Char} {tokens : List Token}
    (hw : (Atom.word w).WellFormed) (hp : Parted rest) (h : Lexes rest tokens) :
    Lexes (w.toList ++ rest) (.atom (.word w) :: tokens) := by
  obtain ⟨hne, hw⟩ := hw
  obtain ⟨c, cs, hcs⟩ := List.exists_cons_of_ne_nil hne
  rw [hcs, List.forall_mem_cons] at hw
  rw [hcs, List.cons_append]
  refine .of_token (n := cs.length + 1) ?_ (by simpa using h)
  have hlen := wordLength_append hw.2 hp
  rw [front_of_isWordChar hw.1 (head?_append_ne_equal hw.2 hp)]
  simp [Front.word, hlen, ← hcs]

theorem Lexes.quoted {s : String} {rest : List Char} {tokens : List Token}
    (hs : (Atom.quoted s).WellFormed) (h : Lexes rest tokens) :
    Lexes ('"' :: (s.toList ++ '"' :: rest)) (.atom (.quoted s) :: tokens) := by
  refine .of_token (n := s.toList.length + 2) ?_ (by simpa using h)
  simp [Front.of, show isGap '"' = false by decide, hs rest]

theorem Lexes.atom {a : Atom} {rest : List Char} {tokens : List Token} (ha : a.WellFormed)
    (hp : Parted rest) (h : Lexes rest tokens) :
    Lexes (a.source.toList ++ rest) (.atom a :: tokens) := by
  cases a with
  | word w => exact h.word ha hp
  | quoted s => simpa [Atom.source] using h.quoted ha

/-- The characters of a key that an equals sign may follow. -/
def isKeyChar (c : Char) : Bool := isWordChar c && c != '!' && c != '?'

theorem isKeyChar_iff {c : Char} : isKeyChar c ↔ isWordChar c ∧ c ≠ '!' ∧ c ≠ '?' := by
  simp [isKeyChar, and_assoc]

theorem wordLength_append_equal {w : List Char} (hw : ∀ c ∈ w, isKeyChar c) (rest : List Char) :
    wordLength (w ++ '=' :: rest) = w.length := by
  induction w with
  | nil => simp [wordLength, show isWordChar '=' = false by decide]
  | cons c w ih =>
    rw [List.forall_mem_cons, isKeyChar_iff] at hw
    simp [wordLength, hw.1, ih hw.2]

theorem Lexes.key {key : String} {c : Char} {rest : List Char} {tokens : List Token}
    (hne : key.toList ≠ []) (hkey : ∀ c ∈ key.toList, isKeyChar c) (hc : c ≠ '=')
    (h : Lexes (c :: rest) tokens) :
    Lexes (key.toList ++ '=' :: c :: rest) (.atom (.word key) :: .operator .equal :: tokens) := by
  have hequal : Lexes ('=' :: c :: rest) (.operator .equal :: tokens) := by
    refine .of_token (n := 1) ?_ h
    simp [Front.of, show isGap '=' = false by decide, Front.comparison, hc]
  obtain ⟨d, ds, hds⟩ := List.exists_cons_of_ne_nil hne
  rw [hds, List.forall_mem_cons, isKeyChar_iff] at hkey
  obtain ⟨⟨hword, hmark⟩, hmore⟩ := hkey
  rw [hds, List.cons_append]
  refine .of_token (n := ds.length + 1) ?_ (by simpa using hequal)
  have hlen := wordLength_append_equal hmore (c :: rest)
  have hother := hword
  simp only [isWordChar, Bool.and_eq_true, bne_iff_ne, Bool.not_eq_true'] at hother
  simp [Front.of, Front.word, hother, hword, hmark, hlen, ← hds]

theorem quotedLength?_cons {c : Char} (h : c ≠ '"') (h' : c ≠ '\\') (s : List Char) :
    quotedLength? (c :: s) = (quotedLength? s).map (· + 1) := by
  rw [quotedLength?]
  · exact h
  · exact fun _ _ hc => absurd hc h'
  · exact fun hc => absurd hc h'

theorem ne_backslash {c : Char} {s : List Char} (h : ∀ d more, c = '\\' → s = d :: more → False)
    (h' : c = '\\' → s = [] → False) : c ≠ '\\' := by
  intro hc
  cases s with
  | nil => exact h' hc rfl
  | cons d s => exact h d s hc rfl

/-- A text that the quote after it closes: a backslash takes the next character with it, and no
other character is a quote. -/
inductive Quotable : List Char → Prop
  | nil : Quotable []
  | escaped (c : Char) {s : List Char} (h : Quotable s) : Quotable ('\\' :: c :: s)
  | cons {c : Char} {s : List Char} (hquote : c ≠ '"') (hescape : c ≠ '\\') (h : Quotable s) :
    Quotable (c :: s)

theorem Quotable.tail {c : Char} {s : List Char} (hescape : c ≠ '\\') (h : Quotable (c :: s)) :
    Quotable s := by
  cases h with
  | escaped => exact absurd rfl hescape
  | cons _ _ h => exact h

theorem quotable_of_all {s : List Char} (h : s.all fun c => c != '"' && c != '\\') :
    Quotable s := by
  induction s with
  | nil => exact .nil
  | cons c s ih =>
    simp only [List.all_cons, Bool.and_eq_true, bne_iff_ne] at h
    exact .cons h.1.1 h.1.2 (ih h.2)

theorem Quotable.quotedLength?_eq {s : List Char} (h : Quotable s) (rest : List Char) :
    quotedLength? (s ++ '"' :: rest) = some s.length := by
  induction h with
  | nil => rfl
  | escaped c _ ih => simp [quotedLength?, ih]
  | cons hquote hescape _ ih => simp [quotedLength?_cons hquote hescape, ih]

theorem Quotable.wellFormed {text : String} (h : Quotable text.toList) :
    (Atom.quoted text).WellFormed := h.quotedLength?_eq

theorem quotable_take {s : List Char} {n : Nat} (h : quotedLength? s = some n) :
    Quotable (s.take n) ∧ (s.take n).length = n := by
  fun_induction quotedLength? s generalizing n with
  | case1 => cases h
  | case2 s =>
    obtain rfl := Option.some.inj h
    exact ⟨.nil, rfl⟩
  | case3 c s ih =>
    -- a backslash and the character after it are taken together
    obtain ⟨m, hm, rfl⟩ := Option.map_eq_some_iff.mp h
    obtain ⟨hq, hl⟩ := ih hm
    exact ⟨.escaped c hq, by simp [hl]⟩
  | case4 => cases h
  | case5 c s h₁ h₂ h₃ ih =>
    obtain ⟨m, hm, rfl⟩ := Option.map_eq_some_iff.mp h
    obtain ⟨hq, hl⟩ := ih hm
    exact ⟨.cons h₁ (ne_backslash h₂ h₃) hq, by simp [hl]⟩

theorem quotedLength?_take {s : List Char} {n : Nat} (h : quotedLength? s = some n)
    (rest : List Char) :
    quotedLength? (s.take n ++ '"' :: rest) = some n ∧ (s.take n).length = n := by
  obtain ⟨hq, hl⟩ := quotable_take h
  exact ⟨by rw [hq.quotedLength?_eq, hl], hl⟩

theorem take_wordLength (s : List Char) : ∀ c ∈ s.take (wordLength s), isWordChar c := by
  induction s with
  | nil => simp
  | cons c s ih =>
    rw [wordLength]
    split
    · simp
    · rename_i h
      simp only [Bool.or_eq_true, Bool.not_eq_true', not_or, Bool.not_eq_false] at h
      rw [List.take_succ_cons, List.forall_mem_cons]
      exact ⟨h.1, ih⟩

theorem word_wellFormed {c : Char} {rest : List Char} (hc : isWordChar c) :
    (Atom.word (String.ofList (c :: rest.take (wordLength rest)))).WellFormed := by
  rw [Atom.WellFormed, String.toList_ofList, List.forall_mem_cons]
  exact ⟨List.cons_ne_nil _ _, hc, take_wordLength rest⟩

theorem quoted_wellFormed {rest : List Char} {n : Nat} (h : quotedLength? rest = some n) :
    (Atom.quoted (String.ofList (rest.take n))).WellFormed := by
  refine Quotable.wellFormed ?_
  rw [String.toList_ofList]
  exact (quotable_take h).1

inductive Fronts (c : Char) (rest : List Char) : Front → Prop
  | gap (hc : isGap c) : Fronts c rest (.gap 1)
  | comment (hc : c = '#') : Fronts c rest (.gap ((rest.takeWhile (· != '\n')).length + 1))
  | opening (hc : c = '\x7b') : Fronts c rest (.token .opening 1)
  | closing (hc : c = '\x7d') : Fronts c rest (.token .closing 1)
  | operator {o n} (ho : o.text.toList <+: c :: rest) (hn : n = o.text.toList.length) :
    Fronts c rest (.token (.operator o) n)
  | quoted {n} (hc : c = '"') (hn : quotedLength? rest = some n) :
    Fronts c rest (.token (.atom (.quoted (String.ofList (rest.take n)))) (n + 2))
  | unreadable (hc : c = '"') (hn : quotedLength? rest = none) : Fronts c rest .unreadable
  | word (hc : isWordChar c) : Fronts c rest (.word c rest)

theorem fronts_comparison {plain withEqual : Operator} {c : Char} (rest : List Char)
    (hplain : plain.text.toList = [c]) (hequal : withEqual.text.toList = [c, '=']) :
    Fronts c rest (.comparison plain withEqual rest) := by
  unfold Front.comparison
  split
  · exact .operator (by simp [hequal]) (by simp [hequal])
  · exact .operator (by simp [hplain]) (by simp [hplain])

theorem fronts_of (c : Char) (rest : List Char) : Fronts c rest (Front.of c rest) := by
  rw [Front.of]
  by_cases hgap : isGap c
  · rw [if_pos hgap]
    exact .gap hgap
  rw [if_neg hgap]
  by_cases hcomment : c = '#'
  · rw [if_pos hcomment]
    exact .comment hcomment
  rw [if_neg hcomment]
  by_cases hopen : c = '\x7b'
  · rw [if_pos hopen]
    exact .opening hopen
  rw [if_neg hopen]
  by_cases hclose : c = '\x7d'
  · rw [if_pos hclose]
    exact .closing hclose
  rw [if_neg hclose]
  by_cases hequal : c = '='
  · rw [if_pos hequal]
    exact fronts_comparison rest (by rw [hequal]; rfl) (by rw [hequal]; rfl)
  rw [if_neg hequal]
  by_cases hless : c = '<'
  · rw [if_pos hless]
    exact fronts_comparison rest (by rw [hless]; rfl) (by rw [hless]; rfl)
  rw [if_neg hless]
  by_cases hgreater : c = '>'
  · rw [if_pos hgreater]
    exact fronts_comparison rest (by rw [hgreater]; rfl) (by rw [hgreater]; rfl)
  rw [if_neg hgreater]
  have hpair {o : Operator} {d : Char} (ho : o.text.toList = [d, '='])
      (h : c = d ∧ rest.head? = some '=') : Fronts c rest (.token (.operator o) 2) := by
    obtain ⟨more, rfl⟩ := List.head?_eq_some_iff.mp h.2
    exact .operator (by simp [ho, h.1]) (by simp [ho])
  by_cases hnot : c = '!' ∧ rest.head? = some '='
  · rw [if_pos hnot]
    exact hpair rfl hnot
  rw [if_neg hnot]
  by_cases hmaybe : c = '?' ∧ rest.head? = some '='
  · rw [if_pos hmaybe]
    exact hpair rfl hmaybe
  rw [if_neg hmaybe]
  by_cases hquote : c = '"'
  · rw [if_pos hquote]
    cases hlength : quotedLength? rest with
    | none => exact .unreadable hquote hlength
    | some n => exact .quoted hquote hlength
  rw [if_neg hquote]
  have hword : isWordChar c := by
    simp_all [isWordChar]
  rw [if_pos hword]
  exact .word hword

theorem fronts_of_eq {c : Char} {rest : List Char} {front : Front} (h : Front.of c rest = front) :
    Fronts c rest front := h ▸ fronts_of c rest

theorem front_of_wellFormed {c : Char} {rest : List Char} {t : Token} {n : Nat}
    (h : Front.of c rest = .token t n) : t.WellFormed := by
  cases fronts_of_eq h with
  | opening => trivial
  | closing => trivial
  | operator => trivial
  | quoted _ hn => exact quoted_wellFormed hn
  | word hc => exact word_wellFormed hc

theorem forall_tokensFrom {P : Token → Prop} {p : Position} {s : List Char} {ts : List Located}
    (h : tokensFrom p s = .ok ts)
    (hP : ∀ {c rest t n}, c :: rest <:+ s → Front.of c rest = .token t n → P t) :
    ∀ t ∈ ts, P t.token := by
  -- along the recursion of the lexer, one case for each front
  induction p, s using tokensFrom.induct generalizing ts with
  | case1 p =>
    rw [tokensFrom_nil] at h
    cases h
    simp
  | case2 p c rest n hf ih =>
    rw [tokensFrom_cons, hf] at h
    have hrest : rest.drop (n - 1) <:+ c :: rest :=
      (List.drop_suffix _ rest).trans (List.suffix_cons c rest)
    exact ih h fun hsuffix => hP (hsuffix.trans hrest)
  | case3 p c rest t n hf ih =>
    rw [tokensFrom_cons, hf] at h
    obtain ⟨ts', hts', rfl⟩ := exists_of_map_eq_ok h
    have hrest : rest.drop (n - 1) <:+ c :: rest :=
      (List.drop_suffix _ rest).trans (List.suffix_cons c rest)
    rw [List.forall_mem_cons]
    exact ⟨hP (List.suffix_refl _) hf, ih hts' fun hsuffix => hP (hsuffix.trans hrest)⟩
  | case4 p c rest hf =>
    rw [tokensFrom_cons, hf] at h
    cases h

/-- The tokens of a text can all be written out again. -/
theorem tokensFrom_wellFormed {p : Position} {s : List Char} {ts : List Located}
    (h : tokensFrom p s = .ok ts) : ∀ t ∈ ts, t.token.WellFormed :=
  forall_tokensFrom h fun _ => front_of_wellFormed

end LoadOrder.Script

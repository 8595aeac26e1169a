import LoadOrder.Proofs.Script.RoundTrip

namespace LoadOrder.Script

theorem singleEqual_cons (c : Char) (s : List Char) :
    singleEqual (c :: s) = (c == '=' && s.head? != some '=') := by
  unfold singleEqual
  split
  · next heq =>
    obtain ⟨rfl, rfl⟩ := List.cons.inj heq
    rfl
  · next hne heq =>
    obtain ⟨rfl, rfl⟩ := List.cons.inj heq
    cases s with
    | nil => rfl
    | cons d s =>
      have hd : d ≠ '=' := fun hd => hne s (by rw [hd])
      simp [hd]
  · next hne =>
    have hc : c ≠ '=' := fun hc => hne s (by rw [hc])
    simp [hc]

theorem comparison_eq (plain withEqual : Operator) (s : List Char) :
    Front.comparison plain withEqual s =
      if s.head? = some '=' then .token (.operator withEqual) 2
      else .token (.operator plain) 1 := by
  unfold Front.comparison
  split
  · rfl
  · next hne =>
    rw [if_neg]
    intro heq
    obtain ⟨rest, rfl⟩ := List.head?_eq_some_iff.mp heq
    exact hne rest rfl

/-- The text is empty or begins with the end of a line. -/
def Ended (s : List Char) : Prop := ∀ c ∈ s.head?, c = '\n'

theorem ended_nil : Ended [] := by
  simp [Ended]

theorem ended_newline (s : List Char) : Ended ('\n' :: s) := by
  simp [Ended]

section Ended

variable {s after : List Char}

theorem Ended.head?_append (h : Ended after) :
    (s ++ after).head? = some '=' ↔ s.head? = some '=' := by
  cases s with
  | nil =>
    have hne : after.head? ≠ some '=' := fun heq => absurd (h '=' heq) (by decide)
    simp [hne]
  | cons c s => simp

theorem Ended.singleEqual_append (h : Ended after) : singleEqual (s ++ after) = singleEqual s := by
  cases s with
  | nil =>
    have hne : after.head? ≠ some '=' := fun heq => absurd (h '=' heq) (by decide)
    exact singleEqual_of_head? hne
  | cons c s =>
    rw [List.cons_append, singleEqual_cons, singleEqual_cons]
    congr 1
    rw [Bool.eq_iff_iff]
    simp only [bne_iff_ne, ne_eq, h.head?_append]

theorem Ended.wordLength_append (h : Ended after) : wordLength (s ++ after) = wordLength s := by
  induction s with
  | nil =>
    cases after with
    | nil => rfl
    | cons c after =>
      obtain rfl : c = '\n' := h c rfl
      rfl
  | cons c s ih => rw [List.cons_append, wordLength, wordLength, h.singleEqual_append, ih]

theorem wordLength_le (s : List Char) : wordLength s ≤ s.length := by
  induction s with
  | nil => exact Nat.le_refl 0
  | cons c s ih =>
    rw [wordLength, List.length_cons]
    split <;> omega

theorem quotedLength?_append {n : Nat} (h : quotedLength? s = some n) (after : List Char) :
    quotedLength? (s ++ after) = some n := by
  fun_induction quotedLength? s generalizing n with
  | case1 => cases h
  | case2 s => exact h
  | case3 c s ih =>
    obtain ⟨m, hm, rfl⟩ := Option.map_eq_some_iff.mp h
    simp [quotedLength?, ih hm]
  | case4 => cases h
  | case5 c s h₁ h₂ h₃ ih =>
    obtain ⟨m, hm, rfl⟩ := Option.map_eq_some_iff.mp h
    rw [List.cons_append, quotedLength?_cons h₁ (ne_backslash h₂ h₃), ih hm]
    rfl

theorem Ended.takeWhile_append (h : Ended after) :
    (s ++ after).takeWhile (· != '\n') = s.takeWhile (· != '\n') := by
  have hafter : after.takeWhile (· != '\n') = [] := by
    cases after with
    | nil => rfl
    | cons c after =>
      obtain rfl : c = '\n' := h c rfl
      rfl
  rw [List.takeWhile_append, hafter]
  split
  · next hlength => rw [List.append_nil, (List.takeWhile_prefix _).eq_of_length hlength]
  · rfl

theorem front_of_quote (s : List Char) :
    Front.of '"' s = match quotedLength? s with
      | some n => .token (.atom (.quoted (String.ofList (s.take n)))) (n + 2)
      | none => .unreadable := by
  cases hs : quotedLength? s <;> simp [Front.of, show isGap '"' = false by decide, hs]

theorem getElem?_quotedLength {n : Nat} (h : quotedLength? s = some n) : s[n]? = some '"' := by
  fun_induction quotedLength? s generalizing n with
  | case1 => cases h
  | case2 s =>
    obtain rfl := Option.some.inj h
    rfl
  | case3 c s ih =>
    obtain ⟨m, hm, rfl⟩ := Option.map_eq_some_iff.mp h
    exact ih hm
  | case4 => cases h
  | case5 c s h₁ h₂ h₃ ih =>
    obtain ⟨m, hm, rfl⟩ := Option.map_eq_some_iff.mp h
    exact ih hm

theorem quotedLength?_lt {n : Nat} (h : quotedLength? s = some n) : n < s.length :=
  (List.getElem?_eq_some_iff.mp (getElem?_quotedLength h)).1

theorem Fronts.source_eq {c : Char} {t : Token} {n : Nat} (h : Fronts c s (.token t n)) :
    t.source.toList = c :: s.take (n - 1) := by
  cases h with
  | opening hc => simp [Token.source, hc]
  | closing hc => simp [Token.source, hc]
  | @operator o n ho hn =>
    have hpos : n ≠ 0 := by
      rw [hn]
      cases o <;> decide
    obtain ⟨k, rfl⟩ := Nat.exists_eq_succ_of_ne_zero hpos
    rw [List.prefix_iff_eq_take, ← hn] at ho
    exact ho
  | @quoted length hc hn =>
    have htext : s.take (length + 1) = s.take length ++ ['"'] := by
      rw [List.take_add_one, getElem?_quotedLength hn]
      rfl
    simp [Token.source, Atom.source, hc, htext]
  | word => simp [Token.source, Atom.source]

theorem Ended.front_of_append (h : Ended after) {c : Char}
    (hc : Front.of c s ≠ .unreadable) : Front.of c (s ++ after) = Front.of c s := by
  by_cases hquote : c = '"'
  · subst hquote
    rw [front_of_quote] at hc ⊢
    rw [front_of_quote]
    cases hs : quotedLength? s with
    | none => simp [hs] at hc
    | some n =>
      rw [quotedLength?_append hs]
      simp only [List.take_append_of_le_length (Nat.le_of_lt (quotedLength?_lt hs))]
  · have hword : Front.word c (s ++ after) = Front.word c s := by
      simp only [Front.word, h.wordLength_append,
        List.take_append_of_le_length (wordLength_le s)]
    simp only [Front.of, comparison_eq, h.head?_append, h.takeWhile_append, hword, if_neg hquote]

def Front.size : Front → Nat
  | gap n => n
  | token _ n => n
  | unreadable => 0

theorem Fronts.size_le {c : Char} {front : Front} (h : Fronts c s front) :
    front.size ≤ s.length + 1 := by
  cases h with
  | gap => exact Nat.le_add_left 1 _
  | comment => exact Nat.succ_le_succ (List.takeWhile_prefix _).length_le
  | opening => exact Nat.le_add_left 1 _
  | closing => exact Nat.le_add_left 1 _
  | operator ho hn => simpa [Front.size, hn] using ho.length_le
  | quoted _ hn => exact Nat.succ_le_succ (quotedLength?_lt hn)
  | unreadable => exact Nat.zero_le _
  | word => exact Nat.succ_le_succ (wordLength_le s)

theorem Fronts.drop_append {c : Char} {front : Front} (h : Fronts c s front)
    (after : List Char) :
    (s ++ after).drop (front.size - 1) = s.drop (front.size - 1) ++ after :=
  List.drop_append_of_le_length (Nat.sub_le_of_le_add h.size_le)

/-- A text that can be read is read as the same tokens if the line ends behind it, wherever it
stands. -/
theorem lexes_append_of_tokensFrom {p : Position} {ts : List Located} {more : List Token}
    (h : tokensFrom p s = .ok ts) (hended : Ended after) (hafter : Lexes after more) :
    Lexes (s ++ after) (ts.map (·.token) ++ more) := by
  -- along the recursion of the lexer: every front is the one of the text alone
  induction p, s using tokensFrom.induct generalizing ts with
  | case1 p =>
    rw [tokensFrom_nil] at h
    cases h
    exact hafter
  | case2 p c rest n hf ih =>
    rw [tokensFrom_cons, hf] at h
    have hfront := hended.front_of_append (c := c) (s := rest) (by simp [hf])
    have hfronts := fronts_of c rest
    rw [hf] at hfront hfronts
    have hdrop : (rest ++ after).drop (n - 1) = rest.drop (n - 1) ++ after :=
      hfronts.drop_append after
    rw [List.cons_append]
    refine .of_gap hfront ?_
    rw [hdrop]
    exact ih h
  | case3 p c rest t n hf ih =>
    rw [tokensFrom_cons, hf] at h
    obtain ⟨ts', hts', rfl⟩ := exists_of_map_eq_ok h
    have hfront := hended.front_of_append (c := c) (s := rest) (by simp [hf])
    have hfronts := fronts_of c rest
    rw [hf] at hfront hfronts
    have hdrop : (rest ++ after).drop (n - 1) = rest.drop (n - 1) ++ after :=
      hfronts.drop_append after
    rw [List.cons_append, List.map_cons, List.cons_append]
    refine .of_token hfront ?_
    rw [hdrop]
    exact ih hts'
  | case4 p c rest hf =>
    rw [tokensFrom_cons, hf] at h
    cases h

end Ended

/-- A text is read as some trees. -/
def Says (text : String) (forest : List Tree) : Prop :=
  ∃ statements, parse text = .ok statements ∧ trees statements = forest

theorem says_of_lexes {text : String} {forest : List Tree}
    (h : Lexes text.toList (spelling forest)) (hshallow : nesting forest ≤ maxDepth) :
    Says text forest := by
  obtain ⟨ts, hts, hmap⟩ := h .start
  obtain ⟨statements, hread, htrees⟩ := ofTokens_of_spelling hmap.symm hshallow
  exact ⟨statements, by rw [parse_eq_ofTokens hts, hread], htrees⟩

theorem says_empty : Says "" [] := says_of_lexes .nil (Nat.zero_le _)

section Says

variable {text text' : String} {forest forest' : List Tree}

theorem Says.shallow (h : Says text forest) : nesting forest ≤ maxDepth := by
  obtain ⟨statements, hparse, rfl⟩ := h
  obtain ⟨_, _, hread⟩ := exists_tokens_of_parse hparse
  exact (spelling_of_ofTokens hread).2

theorem Says.lexes_append (h : Says text forest) {after : List Char} {more : List Token}
    (hended : Ended after) (hafter : Lexes after more) :
    Lexes (text.toList ++ after) (spelling forest ++ more) := by
  obtain ⟨statements, hparse, rfl⟩ := h
  obtain ⟨ts, hts, hread⟩ := exists_tokens_of_parse hparse
  rw [(spelling_of_ofTokens hread).1]
  exact lexes_append_of_tokensFrom hts hended hafter

theorem Says.lexes (h : Says text forest) : Lexes text.toList (spelling forest) := by
  simpa using h.lexes_append ended_nil .nil

theorem nesting_append_le {n : Nat} (h : nesting forest ≤ n) (h' : nesting forest' ≤ n) :
    nesting (forest ++ forest') ≤ n := by
  rw [nesting_le_iff, List.forall_mem_append]
  exact ⟨nesting_le_iff.mp h, nesting_le_iff.mp h'⟩

/-- Two scripts with a newline between them say what the one says and then what the other says. -/
theorem Says.append (h : Says text forest) (h' : Says text' forest') :
    Says (text ++ "\n" ++ text') (forest ++ forest') := by
  refine says_of_lexes ?_ (nesting_append_le h.shallow h'.shallow)
  have hnewline : ("\n" : String).toList = ['\n'] := rfl
  have hrest : Lexes ('\n' :: text'.toList) (spelling forest') := h'.lexes.gap (by decide)
  simpa [hnewline] using h.lexes_append (ended_newline _) hrest

theorem says_join_ended {α : Type} {members : List α} {text : α → String} {forest : α → List Tree}
    (h : ∀ a ∈ members, Says (text a) (forest a)) :
    Says (String.join (members.map fun a => text a ++ "\n")) (members.flatMap forest) := by
  induction members with
  | nil => exact says_empty
  | cons a more ih =>
    rw [List.forall_mem_cons] at h
    rw [List.map_cons, String.join_cons, List.flatMap_cons]
    exact h.1.append (ih h.2)

end Says

end LoadOrder.Script

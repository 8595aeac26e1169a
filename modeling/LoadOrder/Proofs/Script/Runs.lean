import LoadOrder.Proofs.Script.Joined
import LoadOrder.Proofs.Text.Pieces
import Mathlib.Data.List.Chain

/-!
Plain texts, without quotes and comments. If no operator of such a text has two characters, its
tokens are its runs: the words between its gaps and signs, and the signs one by one.
-/

namespace LoadOrder.Script

variable {c : Char} {s s' w : List Char} {T : List Token}

/-- The words of a text, each as long as it can be, and its signs one by one. -/
def runs : List Char → List (List Char)
  | [] => []
  | c :: s =>
    if isGap c then runs s
    else if isWordChar c ∧ s.head?.any isWordChar then Text.consFirst c (runs s)
    else [c] :: runs s

theorem runs_gap_cons (hc : isGap c) (s : List Char) : runs (c :: s) = runs s := by
  rw [runs, if_pos hc]

/-- A sign is neither a gap nor a character of a word. -/
def IsSign (c : Char) : Prop := isGap c = false ∧ isWordChar c = false

instance (c : Char) : Decidable (IsSign c) :=
  inferInstanceAs (Decidable (isGap c = false ∧ isWordChar c = false))

theorem not_isGap_of_isWordChar (hc : isWordChar c) : ¬isGap c := by
  simp only [isWordChar, Bool.and_eq_true, Bool.not_eq_true'] at hc
  simp [hc]

theorem runs_sign_cons (hc : IsSign c) (s : List Char) : runs (c :: s) = [c] :: runs s := by
  rw [runs, if_neg (by simp [hc.1]), if_neg (by simp [hc.2])]

theorem runs_word_append (hw : ∀ c ∈ w, isWordChar c) (hne : w ≠ [])
    (hs : s.head?.any isWordChar = false) : runs (w ++ s) = w :: runs s := by
  induction w with
  | nil => exact absurd rfl hne
  | cons c w ih =>
    rw [List.forall_mem_cons] at hw
    rw [List.cons_append, runs, if_neg (not_isGap_of_isWordChar hw.1)]
    cases w with
    | nil => rw [List.nil_append, if_neg (by simp [hs])]
    | cons d w =>
      have hd : (d :: w ++ s).head?.any isWordChar := hw.2 d List.mem_cons_self
      rw [if_pos ⟨hw.1, hd⟩, ih hw.2 (List.cons_ne_nil _ _)]
      rfl

theorem runs_append (hs' : s'.head?.any isWordChar = false) (s : List Char) :
    runs (s ++ s') = runs s ++ runs s' := by
  induction s with
  | nil => rfl
  | cons c s ih =>
    have hhead : isWordChar c ∧ (s ++ s').head?.any isWordChar ↔
        isWordChar c ∧ s.head?.any isWordChar := by
      cases s with
      | nil => simp [hs']
      | cons d s => rfl
    rw [List.cons_append, runs, runs, ih]
    simp only [hhead]
    split
    · rfl
    · split
      · next hnext =>
        have hne : runs s ≠ [] := by
          cases s with
          | nil => simp at hnext
          | cons d s =>
            rw [runs, if_neg (not_isGap_of_isWordChar hnext.2)]
            split
            · cases runs s <;> simp [Text.consFirst]
            · simp
        exact Text.consFirst_append c hne _
      · rfl

def tokenOf : List Char → Token
  | ['\x7b'] => .opening
  | ['\x7d'] => .closing
  | ['='] => .operator .equal
  | ['<'] => .operator .less
  | ['>'] => .operator .greater
  | w => .atom (.word (String.ofList w))

theorem tokenOf_word (hw : ∀ c ∈ w, isWordChar c) :
    tokenOf w = .atom (.word (String.ofList w)) := by
  unfold tokenOf
  split <;> first | rfl | exact absurd (hw _ List.mem_cons_self) (by decide)

/-- No operator has a second character. -/
def Simple (tokens : List Token) : Prop := ∀ o, .operator o ∈ tokens → o.text.length = 1

theorem Simple.tail {t : Token} (h : Simple (t :: T)) : Simple T := fun o ho =>
  h o (List.mem_cons_of_mem _ ho)

theorem exists_of_wordLength (h : (s.drop (wordLength s)).head?.any isWordChar) :
    ∃ c rest o, s.drop (wordLength s) = c :: rest ∧ Front.of c rest = .token (.operator o) 2 ∧
      o.text.length ≠ 1 := by
  induction s with
  | nil => simp at h
  | cons c s ih =>
    rw [wordLength] at h ⊢
    split at h
    · next hstop =>
      rw [if_pos hstop]
      have hword : isWordChar c := by simpa using h
      simp only [hword, Bool.not_true, Bool.false_or, Bool.and_eq_true, Bool.or_eq_true,
        beq_iff_eq] at hstop
      obtain ⟨hmark, hequal⟩ := hstop
      cases s with
      | nil => simp [singleEqual] at hequal
      | cons d s =>
        rw [singleEqual_cons, Bool.and_eq_true, beq_iff_eq] at hequal
        obtain ⟨rfl, -⟩ := hequal
        rcases hmark with rfl | rfl
        · exact ⟨'!', '=' :: s, .notEqual, rfl, rfl, by decide⟩
        · exact ⟨'?', '=' :: s, .maybeEqual, rfl, rfl, by decide⟩
    · next hgo =>
      rw [if_neg hgo]
      exact ih h

theorem of_text_eq_singleton {o : Operator} (h : o.text.toList = [c]) :
    IsSign c ∧ tokenOf [c] = .operator o := by
  cases o <;> cases h <;> exact ⟨by decide, rfl⟩

/-- The tokens of a plain text without operators of two characters are its runs. -/
theorem map_tokenOf_runs {p : Position} {ts : List Located} (h : tokensFrom p s = .ok ts)
    (hquote : '"' ∉ s) (hcomment : '#' ∉ s) (hsimple : Simple (ts.map (·.token))) :
    ts.map (·.token) = (runs s).map tokenOf := by
  -- along the recursion of the lexer, one case for each front
  induction p, s using tokensFrom.induct generalizing ts with
  | case1 p =>
    rw [tokensFrom_nil] at h
    cases h
    rfl
  | case2 p c rest n hf ih =>
    rw [tokensFrom_cons, hf] at h
    rw [List.mem_cons, not_or] at hquote hcomment
    cases fronts_of_eq hf with
    | gap hc =>
      rw [runs_gap_cons hc]
      exact ih h hquote.2 hcomment.2 hsimple
    | comment hc => exact absurd hc.symm hcomment.1
  | case3 p c rest t n hf ih =>
    rw [tokensFrom_cons, hf] at h
    obtain ⟨ts, hts, rfl⟩ := exists_of_map_eq_ok h
    rw [List.mem_cons, not_or] at hquote hcomment
    rw [List.map_cons] at hsimple ⊢
    have hmore := ih hts (fun hmem => hquote.2 (List.mem_of_mem_drop hmem))
      (fun hmem => hcomment.2 (List.mem_of_mem_drop hmem)) hsimple.tail
    rw [hmore]
    cases fronts_of_eq hf with
    | opening hc =>
      rw [hc, runs_sign_cons (by decide)]
      rfl
    | closing hc =>
      rw [hc, runs_sign_cons (by decide)]
      rfl
    | @operator o n ho hn =>
      have hlength : o.text.toList.length = 1 := hsimple o List.mem_cons_self
      obtain ⟨d, hd⟩ := List.length_eq_one_iff.mp hlength
      rw [hlength] at hn
      subst hn
      rw [hd] at ho
      obtain ⟨hsign, htoken⟩ := of_text_eq_singleton hd
      rw [← (List.cons_prefix_cons.mp ho).1, runs_sign_cons hsign, List.map_cons, htoken]
      rfl
    | quoted hc => exact absurd hc.symm hquote.1
    | word hc =>
      have hword : ∀ d ∈ c :: rest.take (wordLength rest), isWordChar d :=
        List.forall_mem_cons.mpr ⟨hc, take_wordLength rest⟩
      -- if the word went on, an operator of two characters would be the next token
      have hends : (rest.drop (wordLength rest)).head?.any isWordChar = false := by
        rw [Bool.eq_false_iff]
        intro hgo
        obtain ⟨d, more, o, hdrop, hfront, ho⟩ := exists_of_wordLength hgo
        rw [Nat.add_sub_cancel, hdrop, tokensFrom_cons, hfront] at hts
        obtain ⟨_, -, rfl⟩ := exists_of_map_eq_ok hts
        exact ho (hsimple o (by simp))
      have hsplit : c :: rest.take (wordLength rest) ++ rest.drop (wordLength rest) = c :: rest := by
        rw [List.cons_append, List.take_append_drop]
      rw [← hsplit, runs_word_append hword (List.cons_ne_nil _ _) hends, List.map_cons,
        tokenOf_word hword]
      rfl
  | case4 p c rest hf =>
    rw [tokensFrom_cons, hf] at h
    cases h

theorem exists_tokensFrom (h : '"' ∉ s) (p : Position) : ∃ ts, tokensFrom p s = .ok ts := by
  induction p, s using tokensFrom.induct with
  | case1 p => exact ⟨[], tokensFrom_nil p⟩
  | case2 p c rest n hf ih =>
    rw [List.mem_cons, not_or] at h
    obtain ⟨ts, hts⟩ := ih fun hmem => h.2 (List.mem_of_mem_drop hmem)
    exact ⟨ts, by rw [tokensFrom_cons, hf]; exact hts⟩
  | case3 p c rest t n hf ih =>
    rw [List.mem_cons, not_or] at h
    obtain ⟨ts, hts⟩ := ih fun hmem => h.2 (List.mem_of_mem_drop hmem)
    exact ⟨⟨t, p⟩ :: ts, by rw [tokensFrom_cons, hf]; simp only [hts]; rfl⟩
  | case4 p c rest hf =>
    cases fronts_of_eq hf with
    | unreadable hc => exact absurd (hc ▸ List.mem_cons_self) h

/-- In front of an equals sign only a space can stand. -/
def Aired (s : List Char) : Prop := s.IsChain fun a b => b = '=' → a = ' '

theorem Aired.simple (h : Aired s) {p : Position} {ts : List Located}
    (hts : tokensFrom p s = .ok ts) : Simple (ts.map (·.token)) := by
  have hall : ∀ t ∈ ts, ∀ o, t.token = .operator o → o.text.length = 1 := by
    refine forall_tokensFrom (P := fun t => ∀ o, t = .operator o → o.text.length = 1) hts
      fun hsuffix hf o ho => ?_
    subst ho
    have hchain := List.IsChain.suffix h hsuffix
    cases fronts_of_eq hf with
    | operator hprefix hn =>
      have hpair := hchain.prefix hprefix
      cases o <;> first | rfl | exact absurd hpair (by decide)
  intro o ho
  obtain ⟨t, ht, hoperator⟩ := List.mem_map.mp ho
  exact hall t ht o hoperator

end LoadOrder.Script

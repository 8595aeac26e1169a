import LoadOrder.Proofs.Script.Tree
import LoadOrder.Proofs.Success

namespace LoadOrder.Script

def Pending.tokens : Pending → List Token
  | .nothing => []
  | .atom a _ => [.atom a]
  | .head h _ _ => headTokens (some h)

/-- The tokens of an open clause up to the brace that opens it, and of the statements before it. -/
def Open.tokens (o : Open) : List Token :=
  spelling (trees o.before.reverse) ++ headTokens o.head ++ [.opening]

namespace Reader

def tokens (r : Reader) : List Token :=
  r.opens.reverse.flatMap Open.tokens ++ spelling (trees r.done.reverse) ++ r.pending.tokens

/-- The statements read so far fit under the clauses that are open. -/
def Fits : List Open → List Statement → Prop
  | [], done => nesting (trees done) ≤ maxDepth
  | o :: opens, done => nesting (trees done) + (opens.length + 1) ≤ maxDepth ∧ Fits opens o.before

theorem Fits.le {opens : List Open} {done : List Statement} (h : Fits opens done) :
    nesting (trees done) + opens.length ≤ maxDepth := by
  cases opens with
  | nil => exact h
  | cons o opens => exact h.1

theorem Fits.cons {opens : List Open} {done : List Statement} {s : Statement}
    (h : Fits opens done) (hs : s.tree.nesting + opens.length ≤ maxDepth) :
    Fits opens (s :: done) := by
  have hmax : nesting (trees (s :: done)) + opens.length ≤ maxDepth := by
    rw [trees, nesting]
    have := h.le
    omega
  cases opens with
  | nil => exact hmax
  | cons o opens => exact ⟨hmax, h.2⟩

theorem Fits.cons_leaf {opens : List Open} {done : List Statement} {k : Option Head} {a : Atom}
    {p : Position} (h : Fits opens done) : Fits opens (.leaf k a p :: done) := by
  refine h.cons ?_
  have := h.le
  rw [Statement.tree, Tree.nesting]
  omega

@[simp] theorem settle_opens (r : Reader) : r.settle.opens = r.opens := by
  rcases r with ⟨opens, done, _ | _ | _⟩ <;> rfl

theorem tokens_settle (r : Reader) : r.settle.tokens = r.tokens := by
  rcases r with ⟨opens, done, _ | _ | _⟩ <;>
    simp [settle, tokens, Pending.tokens, trees_eq_map, Statement.tree, Tree.tokens, headTokens]

theorem fits_settle {r : Reader} (h : Fits r.opens r.done) :
    Fits r.settle.opens r.settle.done := by
  rcases r with ⟨opens, done, _ | _ | _⟩
  · exact h
  · exact h.cons_leaf
  · exact h

theorem openClause_eq_ok {r r' : Reader} {head : Option Head} {p q : Position}
    (h : r.openClause head p q = .ok r') :
    r.opens.length < maxDepth ∧ r' = ⟨⟨q, head, p, r.done⟩ :: r.opens, [], .nothing⟩ := by
  unfold openClause at h
  split at h
  · exact ⟨‹_›, (Except.ok.inj h).symm⟩
  · cases h

theorem closeClause_eq_ok {r r' : Reader} {p : Position} (h : r.closeClause p = .ok r') :
    ∃ o opens, r.opens = o :: opens ∧
      r' = ⟨opens, .clause o.head r.done.reverse o.start :: o.before, .nothing⟩ := by
  unfold closeClause at h
  split at h
  · cases h
  · exact ⟨_, _, ‹_›, (Except.ok.inj h).symm⟩

def Idle (r : Reader) : Prop := r.settle.pending = .nothing

theorem Idle.eq {r : Reader} (h : r.Idle) : r.settle.pending = .nothing := h

inductive Steps (r : Reader) (t : Located) (r' : Reader) : Prop
  | value {k p q a} (hp : r.pending = .head k p q) (ht : t.token = .atom a)
      (hr : r' = { r with done := .leaf (some k) a p :: r.done, pending := .nothing })
  | keyed {k p q} (hp : r.pending = .head k p q) (ht : t.token = .opening)
      (hr : r.openClause (some k) p t.position = .ok r')
  | operator {a p o} (hp : r.pending = .atom a p) (ht : t.token = .operator o)
      (hr : r' = { r with pending := .head ⟨a, o⟩ p t.position })
  | atom {a} (hi : r.Idle) (ht : t.token = .atom a)
      (hr : r' = { r.settle with pending := .atom a t.position })
  | opening (hi : r.Idle) (ht : t.token = .opening)
      (hr : r.settle.openClause none t.position t.position = .ok r')
  | closing (hi : r.Idle) (ht : t.token = .closing)
      (hr : r.settle.closeClause t.position = .ok r')

theorem step_cases {r r' : Reader} {t : Located} (h : r.step t = .ok r') : r.Steps t r' := by
  -- by what is pending and by the token; the three pairs without a case are refused
  rcases r with ⟨opens, done, _ | ⟨a, p⟩ | ⟨k, p, q⟩⟩ <;> rcases t with ⟨b | o | _ | _, at_⟩
  · exact .atom rfl rfl (Except.ok.inj h).symm
  · cases h
  · exact .opening rfl rfl h
  · exact .closing rfl rfl h
  · exact .atom rfl rfl (Except.ok.inj h).symm
  · exact .operator rfl rfl (Except.ok.inj h).symm
  · exact .opening rfl rfl h
  · exact .closing rfl rfl h
  · exact .value rfl rfl (Except.ok.inj h).symm
  · cases h
  · exact .keyed rfl rfl h
  · cases h

theorem openClause_keeps {r r' : Reader} {head : Option Head} {p q : Position}
    (h : r.openClause head p q = .ok r') (hp : r.pending.tokens = headTokens head)
    (hf : Fits r.opens r.done) :
    r'.tokens = r.tokens ++ [.opening] ∧ Fits r'.opens r'.done := by
  obtain ⟨hlt, rfl⟩ := openClause_eq_ok h
  constructor
  · simp only [tokens, hp]
    simp [Open.tokens, Pending.tokens, trees, spelling]
  · refine ⟨?_, hf⟩
    rw [trees, nesting]
    omega

theorem closeClause_keeps {r r' : Reader} {p : Position} (h : r.closeClause p = .ok r')
    (hp : r.pending = .nothing) (hf : Fits r.opens r.done) :
    r'.tokens = r.tokens ++ [.closing] ∧ Fits r'.opens r'.done := by
  obtain ⟨o, opens, ho, rfl⟩ := closeClause_eq_ok h
  rw [ho] at hf
  -- the clause is one level deeper than its body, and one clause fewer is open
  constructor
  · simp [tokens, hp, ho, Open.tokens, Pending.tokens, trees_eq_map, Statement.tree, Tree.tokens]
  · refine hf.2.cons ?_
    rw [Statement.tree, Tree.nesting, trees_reverse, nesting_reverse]
    have := hf.1
    omega

theorem step_keeps {r r' : Reader} {t : Located} (h : r.step t = .ok r')
    (hf : Fits r.opens r.done) :
    r'.tokens = r.tokens ++ [t.token] ∧ Fits r'.opens r'.done := by
  have hs := fits_settle hf
  cases step_cases h with
  | value hp ht hr =>
    subst hr
    refine ⟨?_, hf.cons_leaf⟩
    simp [tokens, hp, ht, Pending.tokens, trees_eq_map, Statement.tree, Tree.tokens]
  | keyed hp ht hr =>
    rw [ht]
    exact openClause_keeps hr (by rw [hp, Pending.tokens]) hf
  | operator hp ht hr =>
    subst hr
    refine ⟨?_, hf⟩
    simp [tokens, hp, ht, Pending.tokens, headTokens]
  | atom hi ht hr =>
    subst hr
    refine ⟨?_, hs⟩
    rw [← tokens_settle r, ht]
    simp [tokens, Pending.tokens, hi.eq]
  | opening hi ht hr =>
    rw [← tokens_settle r, ht]
    exact openClause_keeps hr (by rw [hi.eq]; rfl) hs
  | closing hi ht hr =>
    rw [← tokens_settle r, ht]
    exact closeClause_keeps hr hi hs

theorem steps_keep {r r' : Reader} {ts : List Located} (h : ts.foldlM step r = .ok r')
    (hf : Fits r.opens r.done) :
    r'.tokens = r.tokens ++ ts.map (·.token) ∧ Fits r'.opens r'.done := by
  -- on the tokens: the reader after the first one keeps what the rest is read with
  induction ts generalizing r with
  | nil =>
    obtain rfl := Except.ok.inj h
    exact ⟨by simp, hf⟩
  | cons t ts ih =>
    rw [List.foldlM_cons] at h
    obtain ⟨r₁, h₁, h⟩ := exists_of_bind_eq_ok h
    obtain ⟨ht, hf₁⟩ := step_keeps h₁ hf
    obtain ⟨hts, hf'⟩ := ih h hf₁
    exact ⟨by simp [hts, ht], hf'⟩

theorem finish_eq_ok {r : Reader} {statements : List Statement} (h : r.finish = .ok statements) :
    r.Idle ∧ r.opens = [] ∧ statements = r.settle.done.reverse := by
  rcases r with ⟨_ | ⟨o, opens⟩, done, _ | _ | _⟩ <;> simp_all [finish, Idle, settle]

end Reader

theorem spelling_of_ofTokens {ts : List Located} {statements : List Statement}
    (h : ofTokens ts = .ok statements) :
    spelling (trees statements) = ts.map (·.token) ∧ nesting (trees statements) ≤ maxDepth := by
  obtain ⟨r, hr, hfin⟩ := exists_of_bind_eq_ok h
  obtain ⟨ht, hf⟩ := Reader.steps_keep hr (Nat.zero_le _)
  obtain ⟨hi, ho, rfl⟩ := Reader.finish_eq_ok hfin
  -- at the end no clause is open, so the bound is the one on the statements themselves
  have hs := Reader.fits_settle hf
  rw [Reader.settle_opens, ho] at hs
  rw [← Reader.tokens_settle] at ht
  constructor
  · simpa [Reader.tokens, ho, hi.eq, Pending.tokens, Reader.start, trees, spelling] using ht
  · rw [trees_reverse, nesting_reverse]
    exact hs

namespace Reader

/-- Wherever the tokens stand, they are read, and `P` holds of the reader after them. -/
def Reads (r : Reader) (tokens : List Token) (P : Reader → Prop) : Prop :=
  ∀ ts : List Located, ts.map (·.token) = tokens → ∃ r', ts.foldlM step r = .ok r' ∧ P r'

theorem Reads.nil {r : Reader} {P : Reader → Prop} (h : P r) : r.Reads [] P := by
  intro ts hts
  obtain rfl := List.map_eq_nil_iff.mp hts
  exact ⟨r, rfl, h⟩

theorem Reads.single {r : Reader} {token : Token} {P : Reader → Prop}
    (h : ∀ p, ∃ r', r.step ⟨token, p⟩ = .ok r' ∧ P r') : r.Reads [token] P := by
  intro ts hts
  obtain ⟨⟨t, p⟩, rest, rfl, rfl, hrest⟩ := List.map_eq_cons_iff.mp hts
  obtain rfl := List.map_eq_nil_iff.mp hrest
  obtain ⟨r', hr, hP⟩ := h p
  exact ⟨r', by rw [List.foldlM_cons, hr]; rfl, hP⟩

theorem Reads.mono {r : Reader} {tokens : List Token} {P Q : Reader → Prop}
    (h : r.Reads tokens P) (hPQ : ∀ r', P r' → Q r') : r.Reads tokens Q := by
  intro ts hts
  obtain ⟨r', hr, hP⟩ := h ts hts
  exact ⟨r', hr, hPQ r' hP⟩

theorem Reads.append {r : Reader} {before after : List Token} {P Q : Reader → Prop}
    (h : r.Reads before P) (h' : ∀ r', P r' → r'.Reads after Q) : r.Reads (before ++ after) Q := by
  intro ts hts
  obtain ⟨ts₁, ts₂, rfl, h₁, h₂⟩ := List.map_eq_append_iff.mp hts
  obtain ⟨r₁, hr₁, hP⟩ := h ts₁ h₁
  obtain ⟨r₂, hr₂, hQ⟩ := h' r₁ hP ts₂ h₂
  exact ⟨r₂, by rw [List.foldlM_append, hr₁]; exact hr₂, hQ⟩

/-- A token that is no operator is read as if the statement before it were settled. -/
theorem step_settle {r : Reader} {t : Located} (hi : r.Idle) (ht : ∀ o, t.token ≠ .operator o) :
    r.step t = r.settle.step t := by
  rcases r with ⟨opens, done, _ | ⟨a, p⟩ | ⟨k, p, q⟩⟩
  · rfl
  · rcases t with ⟨b | o | _ | _, at_⟩
    · rfl
    · exact absurd rfl (ht o)
    · rfl
    · rfl
  · cases hi

/-- The next value belongs to a key with its operator, or to none. -/
def Awaits (opens : List Open) (done : List Statement) : Option Head → Reader → Prop
  | none, r => r.settle = ⟨opens, done, .nothing⟩
  | some k, r => ∃ p q, r = ⟨opens, done, .head k p q⟩

variable {r : Reader} {opens : List Open} {done : List Statement} {head : Option Head}

theorem idle_of_settle (h : r.settle = ⟨opens, done, .nothing⟩) : r.Idle := by
  rw [Idle, h]

theorem reads_head (h : r.settle = ⟨opens, done, .nothing⟩) (head : Option Head) :
    r.Reads (headTokens head) (Awaits opens done head) := by
  cases head with
  | none => exact .nil h
  | some k =>
    have hkey : r.Reads [.atom k.key] fun r' => ∃ p, r' = ⟨opens, done, .atom k.key p⟩ := by
      refine .single fun p => ⟨_, ?_, p, rfl⟩
      rw [step_settle (idle_of_settle h) (by simp), h]
      rfl
    refine hkey.append fun r' hr' => .single fun q => ?_
    obtain ⟨p, rfl⟩ := hr'
    exact ⟨_, rfl, p, q, rfl⟩

theorem Awaits.atom (h : Awaits opens done head r) (a : Atom) :
    r.Reads [.atom a] fun r' =>
      ∃ s, s.tree = .leaf head a ∧ r'.settle = ⟨opens, s :: done, .nothing⟩ := by
  refine .single fun p => ?_
  cases head with
  | none =>
    rw [step_settle (idle_of_settle h) (by simp), show r.settle = _ from h]
    exact ⟨_, rfl, .leaf none a p, rfl, rfl⟩
  | some k =>
    obtain ⟨q, q', rfl⟩ := h
    exact ⟨_, rfl, .leaf (some k) a q, rfl, rfl⟩

theorem Awaits.opening (h : Awaits opens done head r) (hlt : opens.length < maxDepth) :
    r.Reads [.opening] fun r' =>
      ∃ o : Open, o.head = head ∧ o.before = done ∧ r' = ⟨o :: opens, [], .nothing⟩ := by
  refine .single fun p => ?_
  cases head with
  | none =>
    rw [step_settle (idle_of_settle h) (by simp), show r.settle = _ from h]
    exact ⟨_, if_pos hlt, _, rfl, rfl, rfl⟩
  | some k =>
    obtain ⟨q, q', rfl⟩ := h
    exact ⟨_, if_pos hlt, _, rfl, rfl, rfl⟩

theorem reads_closing {o : Open} (h : r.settle = ⟨o :: opens, done, .nothing⟩) :
    r.Reads [.closing] fun r' =>
      r' = ⟨opens, .clause o.head done.reverse o.start :: o.before, .nothing⟩ := by
  refine .single fun p => ⟨_, ?_, rfl⟩
  rw [step_settle (idle_of_settle h) (by simp), h]
  rfl

mutual

/-- A tree that is not nested too deep is read as one statement. -/
theorem reads_tree (t : Tree) {r : Reader} {opens : List Open} {done : List Statement}
    (h : r.settle = ⟨opens, done, .nothing⟩) (hn : t.nesting + opens.length ≤ maxDepth) :
    r.Reads t.tokens fun r' =>
      ∃ s, s.tree = t ∧ r'.settle = ⟨opens, s :: done, .nothing⟩ := by
  match t with
  | .leaf head a => exact (reads_head h head).append fun r' hr' => hr'.atom a
  | .clause head body =>
    rw [Tree.nesting] at hn
    -- the head, the opening brace, the body and the closing brace, one after the other
    refine (reads_head h head).append fun r₁ h₁ => ?_
    have hopening := h₁.opening (by omega)
    refine hopening.append fun r₂ h₂ => ?_
    obtain ⟨o, rfl, rfl, rfl⟩ := h₂
    refine (reads_spelling body rfl (by simp only [List.length_cons]; omega)).append
      fun r₃ h₃ => ?_
    obtain ⟨statements, rfl, h₃⟩ := h₃
    refine (reads_closing h₃).mono fun r₄ h₄ => ?_
    refine ⟨.clause o.head statements o.start, rfl, ?_⟩
    rw [h₄, List.append_nil, List.reverse_reverse]
    rfl

theorem reads_spelling (forest : List Tree) {r : Reader} {opens : List Open}
    {done : List Statement} (h : r.settle = ⟨opens, done, .nothing⟩)
    (hn : nesting forest + opens.length ≤ maxDepth) :
    r.Reads (spelling forest) fun r' =>
      ∃ new, trees new = forest ∧ r'.settle = ⟨opens, new.reverse ++ done, .nothing⟩ := by
  match forest with
  | [] => exact .nil ⟨[], rfl, h⟩
  | t :: rest =>
    rw [nesting] at hn
    refine (reads_tree t h (by omega)).append fun r₁ h₁ => ?_
    obtain ⟨s, rfl, h₁⟩ := h₁
    refine (reads_spelling rest h₁ (by omega)).mono fun r₂ h₂ => ?_
    obtain ⟨new, rfl, h₂⟩ := h₂
    exact ⟨s :: new, rfl, by simpa using h₂⟩

end

theorem finish_of_settle (h : r.settle = ⟨[], done, .nothing⟩) : r.finish = .ok done.reverse := by
  have ho : r.opens = [] := by rw [← settle_opens, h]
  rcases r with ⟨_ | _, done', _ | _ | _⟩ <;> simp_all [finish, settle]

end Reader

theorem ofTokens_of_spelling {ts : List Located} {forest : List Tree}
    (h : spelling forest = ts.map (·.token)) (hn : nesting forest ≤ maxDepth) :
    ∃ statements, ofTokens ts = .ok statements ∧ trees statements = forest := by
  have hstart : Reader.start.settle = ⟨[], [], .nothing⟩ := rfl
  obtain ⟨r, hr, statements, rfl, hs⟩ := Reader.reads_spelling forest hstart hn ts h.symm
  refine ⟨statements, ?_, rfl⟩
  have hfin := Reader.finish_of_settle hs
  rw [List.append_nil, List.reverse_reverse] at hfin
  rw [ofTokens, hr]
  exact hfin

/-- A token list is a script exactly if it spells trees that are not nested too deep. -/
theorem ofTokens_eq_ok_iff {ts : List Located} {forest : List Tree} :
    (∃ statements, ofTokens ts = .ok statements ∧ trees statements = forest) ↔
      spelling forest = ts.map (·.token) ∧ nesting forest ≤ maxDepth := by
  constructor
  · rintro ⟨statements, h, rfl⟩
    exact spelling_of_ofTokens h
  · rintro ⟨h, hn⟩
    exact ofTokens_of_spelling h hn

/-- A token list that is refused spells no trees, or trees that are nested too deep. -/
theorem maxDepth_lt_nesting {ts : List Located} {e : SyntaxError} {forest : List Tree}
    (he : ofTokens ts = .error e) (h : spelling forest = ts.map (·.token)) :
    maxDepth < nesting forest := by
  refine Nat.lt_of_not_le fun hn => ?_
  obtain ⟨statements, hok, -⟩ := ofTokens_of_spelling h hn
  rw [he] at hok
  cases hok

theorem parse_eq_ofTokens {text : String} {ts : List Located} (h : tokens text = .ok ts) :
    parse text = ofTokens ts := by
  rw [parse, h]

theorem exists_tokens_of_parse {text : String} {statements : List Statement}
    (h : parse text = .ok statements) :
    ∃ ts, tokens text = .ok ts ∧ ofTokens ts = .ok statements := by
  rw [parse] at h
  split at h
  · cases h
  · exact ⟨_, ‹_›, h⟩

/-- A text is a script exactly if its tokens spell trees that are not nested too deep; the trees
are then the ones read, and no others have this spelling. Every token list is read to an end. -/
theorem parse_iff_spelling {text : String} {ts : List Located} (h : tokens text = .ok ts) :
    (∀ forest, (∃ statements, parse text = .ok statements ∧ trees statements = forest) ↔
      spelling forest = ts.map (·.token) ∧ nesting forest ≤ maxDepth) ∧
    (∀ forest forest', spelling forest = ts.map (·.token) → spelling forest' = ts.map (·.token) →
      forest = forest') ∧
    ∀ ts', (∃ statements, ofTokens ts' = .ok statements) ∨
      ∃ e, ofTokens ts' = .error e ∧
        ∀ forest, spelling forest = ts'.map (·.token) → maxDepth < nesting forest := by
  refine ⟨fun forest => ?_, fun forest forest' hf hf' => ?_, fun ts' => ?_⟩
  · rw [parse_eq_ofTokens h]
    exact ofTokens_eq_ok_iff
  · exact spelling_injective (hf.trans hf'.symm)
  · cases hread : ofTokens ts' with
    | ok statements => exact .inl ⟨statements, rfl⟩
    | error e => exact .inr ⟨e, rfl, fun forest hf => maxDepth_lt_nesting hread hf⟩

theorem parse_iff_spelling_nested :
    ∃ ts, tokens "\"k\" = \x7b \x7b \x7d a!=\"#\" b \x7d" = .ok ts ∧
      ∃ statements, parse "\"k\" = \x7b \x7b \x7d a!=\"#\" b \x7d" = .ok statements ∧
        trees statements = [.clause (some ⟨.quoted "k", .equal⟩)
          [.clause none [], .leaf (some ⟨.word "a", .notEqual⟩) (.quoted "#"),
            .leaf none (.word "b")]] := by
  have h : ((tokens "\"k\" = \x7b \x7b \x7d a!=\"#\" b \x7d").toOption.map (List.map Located.token)) =
      some [.atom (.quoted "k"), .operator .equal, .opening, .opening, .closing,
        .atom (.word "a"), .operator .notEqual, .atom (.quoted "#"), .atom (.word "b"),
        .closing] := by
    decide +kernel
  obtain ⟨ts, hts, hmap⟩ := Option.map_eq_some_iff.mp h
  have hok := eq_ok_of_toOption hts
  exact ⟨ts, hok, ((parse_iff_spelling hok).1 _).mpr ⟨hmap.symm, by decide⟩⟩

end LoadOrder.Script

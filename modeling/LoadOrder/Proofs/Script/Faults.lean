import LoadOrder.Proofs.Script.OpenQuotes
import LoadOrder.Proofs.Script.Respaced
import LoadOrder.Proofs.Script.Traced

namespace LoadOrder.Script

def Token.NoValue (t : Token) : Prop := t = .closing ∨ ∃ o, t = .operator o

namespace Reader

variable {r : Reader} {t : Located} {e : SyntaxError}

theorem openClause_eq_error {k : Option Head} {p q : Position}
    (h : r.openClause k p q = .error e) : maxDepth ≤ r.opens.length ∧ e = ⟨.tooDeep, q⟩ := by
  unfold openClause at h
  split at h
  · cases h
  · exact ⟨Nat.le_of_not_lt ‹_›, (Except.error.inj h).symm⟩

theorem closeClause_eq_error {p : Position} (h : r.closeClause p = .error e) :
    r.opens = [] ∧ e = ⟨.unmatchedClosing, p⟩ := by
  unfold closeClause at h
  split at h
  · exact ⟨‹_›, (Except.error.inj h).symm⟩
  · cases h

/-- Every token that cannot be read, with what is said about it. -/
inductive Refuses (r : Reader) (t : Located) : SyntaxError → Prop
  | missingValue {k p q} (hp : r.pending = .head k p q) (ht : t.token.NoValue) :
    Refuses r t ⟨.missingValue k.operator, q⟩
  | operatorWithoutKey {o} (hp : r.pending = .nothing) (ht : t.token = .operator o) :
    Refuses r t ⟨.operatorWithoutKey o, t.position⟩
  | unmatchedClosing (hi : r.Idle) (ho : r.opens = []) (ht : t.token = .closing) :
    Refuses r t ⟨.unmatchedClosing, t.position⟩
  | tooDeep (hd : maxDepth ≤ r.opens.length) (ht : t.token = .opening) :
    Refuses r t ⟨.tooDeep, t.position⟩

theorem refuses_opening {k : Option Head} {p : Position}
    (h : r.settle.openClause k p t.position = .error e) (ht : t.token = .opening) :
    r.Refuses t e := by
  obtain ⟨hd, rfl⟩ := openClause_eq_error h
  rw [settle_opens] at hd
  exact .tooDeep hd ht

theorem refuses_closing (h : r.settle.closeClause t.position = .error e) (hi : r.Idle)
    (ht : t.token = .closing) : r.Refuses t e := by
  obtain ⟨ho, rfl⟩ := closeClause_eq_error h
  rw [settle_opens] at ho
  exact .unmatchedClosing hi ho ht

theorem step_refuses (h : r.step t = .error e) : r.Refuses t e := by
  -- by what is pending and by the token, as for the tokens that are read
  rcases r with ⟨opens, done, _ | ⟨a, p⟩ | ⟨k, p, q⟩⟩ <;> rcases t with ⟨b | o | _ | _, at_⟩
  · cases h
  · obtain rfl := Except.error.inj h
    exact .operatorWithoutKey rfl rfl
  · exact refuses_opening h rfl
  · exact refuses_closing h rfl rfl
  · cases h
  · cases h
  · exact refuses_opening h rfl
  · exact refuses_closing h rfl rfl
  · cases h
  · obtain rfl := Except.error.inj h
    exact .missingValue rfl (.inr ⟨o, rfl⟩)
  · exact refuses_opening h rfl
  · obtain rfl := Except.error.inj h
    exact .missingValue rfl (.inl rfl)

theorem finish_eq_error (h : r.finish = .error e) :
    (∃ k p q, r.pending = .head k p q ∧ e = ⟨.missingValue k.operator, q⟩) ∨
      r.Idle ∧ ∃ o opens, r.opens = o :: opens ∧ e = ⟨.unclosed, o.opened⟩ := by
  rcases r with ⟨_ | ⟨o, opens⟩, done, _ | ⟨a, p⟩ | ⟨k, p, q⟩⟩
  · cases h
  · cases h
  · exact .inl ⟨k, p, q, rfl, (Except.error.inj h).symm⟩
  · exact .inr ⟨rfl, o, opens, rfl, (Except.error.inj h).symm⟩
  · exact .inr ⟨rfl, o, opens, rfl, (Except.error.inj h).symm⟩
  · exact .inl ⟨k, p, q, rfl, (Except.error.inj h).symm⟩

end Reader

def LeavesOpen (n : Nat) (tokens : List Token) : Prop :=
  tokens.count .opening = tokens.count .closing + n

theorem LeavesOpen.append {m n : Nat} {tokens tokens' : List Token} (h : LeavesOpen m tokens)
    (h' : LeavesOpen n tokens') : LeavesOpen (m + n) (tokens ++ tokens') := by
  rw [LeavesOpen] at h h' ⊢
  rw [List.count_append, List.count_append, h, h']
  omega

theorem leavesOpen_atom (a : Atom) : LeavesOpen 0 [.atom a] := by
  simp [LeavesOpen]

theorem leavesOpen_headTokens (k : Option Head) : LeavesOpen 0 (headTokens k) := by
  cases k with
  | none => rfl
  | some k => simp [LeavesOpen, headTokens]

mutual

theorem leavesOpen_tree (t : Tree) : LeavesOpen 0 t.tokens := by
  match t with
  | .leaf k a =>
    rw [Tree.tokens]
    exact (leavesOpen_headTokens k).append (leavesOpen_atom a)
  | .clause k body =>
    have hbody := leavesOpen_spelling body
    have hclause : LeavesOpen 0 (.opening :: (spelling body ++ [.closing])) := by
      simp_all [LeavesOpen]
    rw [Tree.tokens]
    exact (leavesOpen_headTokens k).append hclause

theorem leavesOpen_spelling (forest : List Tree) : LeavesOpen 0 (spelling forest) := by
  match forest with
  | [] => rfl
  | t :: rest => exact (leavesOpen_tree t).append (leavesOpen_spelling rest)

end

theorem leavesOpen_opens (opens : List Open) :
    LeavesOpen opens.length (opens.reverse.flatMap Open.tokens) := by
  induction opens with
  | nil => rfl
  | cons o opens ih =>
    have hbrace : LeavesOpen 1 [.opening] := rfl
    have ho : LeavesOpen 1 o.tokens :=
      ((leavesOpen_spelling _).append (leavesOpen_headTokens o.head)).append hbrace
    simpa using ih.append ho

theorem Reader.leavesOpen_tokens (r : Reader) : LeavesOpen r.opens.length r.tokens := by
  have hpending : LeavesOpen 0 r.pending.tokens := by
    cases r.pending with
    | nothing => rfl
    | atom a p => exact leavesOpen_atom a
    | head k p q => exact leavesOpen_headTokens (some k)
  exact ((leavesOpen_opens r.opens).append (leavesOpen_spelling _)).append hpending

def unplaced (tokens : List Token) : List Located := tokens.map (⟨·, .start⟩)

@[simp] theorem map_token_unplaced (tokens : List Token) :
    (unplaced tokens).map (·.token) = tokens := by
  rw [unplaced, List.map_map]
  exact List.map_id _

/-- Some script begins with these tokens. -/
def Viable (before : List Token) : Prop :=
  ∃ text ts statements, tokens text = .ok ts ∧ parse text = .ok statements ∧
    before <+: ts.map (·.token)

theorem exists_ok_of_outcome_eq {x y : Except SyntaxError (List Statement)}
    {statements : List Statement} (h : outcome x = outcome y) (hy : y = .ok statements) :
    ∃ statements', x = .ok statements' := by
  subst hy
  cases x with
  | error e => cases h
  | ok statements' => exact ⟨statements', rfl⟩

section Viable

variable {before : List Located} {r : Reader}

/-- Tokens can become a script if there are more tokens with which they are read as one, wherever
these stand. -/
theorem viable_iff (hwell : ∀ t ∈ before, t.token.WellFormed) :
    Viable (before.map (·.token)) ↔ ∃ more : List Token, (∀ t ∈ more, t.WellFormed) ∧
      ∃ statements, ofTokens (before ++ unplaced more) = .ok statements := by
  constructor
  · rintro ⟨text, ts, statements, hts, hparse, more, hmore⟩
    have hmorewell : ∀ t ∈ more, t.WellFormed := by
      have hallwell := List.forall_mem_map.mpr (tokensFrom_wellFormed hts)
      rw [← hmore, List.forall_mem_append] at hallwell
      exact hallwell.2
    have hsame : (before ++ unplaced more).map (·.token) = ts.map (·.token) := by
      simp [hmore]
    rw [parse_eq_ofTokens hts] at hparse
    exact ⟨more, hmorewell, exists_ok_of_outcome_eq (outcome_ofTokens_eq hsame) hparse⟩
  · rintro ⟨more, hmorewell, statements, hread⟩
    have hallwell : ∀ t ∈ before.map (·.token) ++ more, t.WellFormed := by
      rw [List.forall_mem_append, List.forall_mem_map]
      exact ⟨hwell, hmorewell⟩
    obtain ⟨text, ts, hts, hmap⟩ := exists_text hallwell
    have hsame : ts.map (·.token) = (before ++ unplaced more).map (·.token) := by
      simp [hmap]
    obtain ⟨statements', hread'⟩ := exists_ok_of_outcome_eq (outcome_ofTokens_eq hsame) hread
    rw [← parse_eq_ofTokens hts] at hread'
    exact ⟨text, ts, statements', hts, hread', more, hmap.symm⟩

namespace Reader

theorem reads_closings {opens : List Open} {done : List Statement}
    (h : r.settle = ⟨opens, done, .nothing⟩) :
    r.Reads (.replicate opens.length .closing) fun r' =>
      ∃ done', r'.settle = ⟨[], done', .nothing⟩ := by
  induction opens generalizing r done with
  | nil => exact .nil ⟨done, h⟩
  | cons o opens ih =>
    refine (reads_closing h).append fun r' hr' => ?_
    subst hr'
    exact ih rfl

/-- A reader can go on to the end of a script from anywhere. -/
theorem exists_completion (r : Reader) :
    ∃ more : List Token, (∀ t ∈ more, t.WellFormed) ∧
      r.Reads more fun r' => ∃ done, r'.settle = ⟨[], done, .nothing⟩ := by
  have hclosings (n : Nat) : ∀ t ∈ List.replicate n Token.closing, t.WellFormed := by
    intro t ht
    rw [List.eq_of_mem_replicate ht]
    trivial
  rcases r with ⟨opens, done, _ | ⟨a, p⟩ | ⟨k, p, q⟩⟩
  · exact ⟨_, hclosings _, reads_closings rfl⟩
  · exact ⟨_, hclosings _, reads_closings rfl⟩
  · have hvalue : (Atom.quoted "").WellFormed := fun _ => rfl
    refine ⟨[.atom (.quoted "")] ++ .replicate opens.length .closing, ?_, ?_⟩
    · rw [List.forall_mem_append, List.forall_mem_singleton]
      exact ⟨hvalue, hclosings _⟩
    · have hhead : Awaits opens done (some k) ⟨opens, done, .head k p q⟩ := ⟨p, q, rfl⟩
      refine (hhead.atom (.quoted "")).append fun r' hr' => ?_
      obtain ⟨s, -, hs⟩ := hr'
      exact reads_closings hs

end Reader

theorem ofTokens_append (h : before.foldlM Reader.step .start = .ok r) (after : List Located) :
    ofTokens (before ++ after) = after.foldlM Reader.step r >>= Reader.finish := by
  rw [ofTokens, List.foldlM_append, h]
  rfl

theorem viable_of_steps (hwell : ∀ t ∈ before, t.token.WellFormed)
    (h : before.foldlM Reader.step .start = .ok r) : Viable (before.map (·.token)) := by
  obtain ⟨more, hmorewell, hreads⟩ := r.exists_completion
  obtain ⟨r', hr', done, hdone⟩ := hreads (unplaced more) (map_token_unplaced more)
  refine (viable_iff hwell).mpr ⟨more, hmorewell, done.reverse, ?_⟩
  rw [ofTokens_append h, hr']
  exact Reader.finish_of_settle hdone

theorem not_viable_of_step {t : Located} {e : SyntaxError}
    (hwell : ∀ t ∈ before, t.token.WellFormed) (ht : t.token.WellFormed)
    (h : before.foldlM Reader.step .start = .ok r) (hstep : r.step t = .error e) :
    ¬Viable ((before ++ [t]).map (·.token)) := by
  intro hviable
  have hwell' : ∀ t' ∈ before ++ [t], t'.token.WellFormed := by
    rw [List.forall_mem_append, List.forall_mem_singleton]
    exact ⟨hwell, ht⟩
  obtain ⟨more, -, statements, hread⟩ := (viable_iff hwell').mp hviable
  rw [List.append_assoc, ofTokens_append h, List.singleton_append, List.foldlM_cons, hstep] at hread
  cases hread

end Viable

/-- Why the tokens are not a script, if the first of them can be read and no more, and the place
that the fault has. -/
inductive Stops (before after : List Located) : SyntaxError → Prop
  /-- A closing brace behind whole statements: no clause is open. -/
  | unmatchedClosing {p more forest} (next : after = ⟨.closing, p⟩ :: more)
      (closed : spelling forest = before.map (·.token)) :
    Stops before after ⟨.unmatchedClosing, p⟩
  | operatorWithoutKey {o p more} (next : after = ⟨.operator o, p⟩ :: more) :
    Stops before after ⟨.operatorWithoutKey o, p⟩
  /-- An operator with a token behind it that is no value, or with none. -/
  | missingValue {o p earlier} (last : before = earlier ++ [⟨.operator o, p⟩])
      (next : ∀ t ∈ after.head?, t.token.NoValue) :
    Stops before after ⟨.missingValue o, p⟩
  /-- Behind the brace there are whole statements only, up to the last token. -/
  | unclosed {p outer inner forest} (innermost : before = outer ++ ⟨.opening, p⟩ :: inner)
      (closed : spelling forest = inner.map (·.token)) (last : after = []) :
    Stops before after ⟨.unclosed, p⟩
  | tooDeep {p more} (next : after = ⟨.opening, p⟩ :: more)
      (depth : LeavesOpen maxDepth (before.map (·.token))) :
    Stops before after ⟨.tooDeep, p⟩

section Stops

variable {before after : List Located} {r : Reader} {t : Located} {e : SyntaxError}

theorem tokens_of_steps (h : before.foldlM Reader.step .start = .ok r) :
    r.tokens = before.map (·.token) := by
  simpa [Reader.tokens, Reader.start, Pending.tokens, trees, spelling] using
    (Reader.steps_keep h (Nat.zero_le _)).1

theorem readFrom_of_steps (h : before.foldlM Reader.step .start = .ok r) : r.ReadFrom before :=
  Reader.readFrom_start.steps h

theorem opens_length_le (h : before.foldlM Reader.step .start = .ok r) :
    r.opens.length ≤ maxDepth := by
  have hfits := (Reader.steps_keep h (Nat.zero_le _)).2
  have := hfits.le
  omega

theorem exists_concat_operator {k : Head} {p q : Position} (h : r.ReadFrom before)
    (hp : r.pending = .head k p q) :
    ∃ earlier, before = earlier ++ [⟨.operator k.operator, q⟩] := by
  obtain ⟨outer, inner, -, -, rfl⟩ := h
  exact ⟨outer ++ inner ++ [⟨.atom k.key, p⟩], by simp [hp, Pending.located]⟩

theorem Open.ReadFrom.exists_brace {o : Open} {ts : List Located} (h : o.ReadFrom ts) :
    ∃ lead, ts = lead ++ [o.brace] := by
  cases h with
  | @mk earlier lead => exact ⟨earlier ++ lead, by simp⟩

theorem Reader.Refuses.stops {more : List Located} (h : r.Refuses t e)
    (hsteps : before.foldlM Reader.step .start = .ok r) : Stops before (t :: more) e := by
  obtain ⟨token, p⟩ := t
  cases h with
  | missingValue hp ht =>
    obtain ⟨earlier, hlast⟩ := exists_concat_operator (readFrom_of_steps hsteps) hp
    refine .missingValue hlast fun t hhead => ?_
    obtain rfl := Option.some.inj hhead
    exact ht
  | operatorWithoutKey hp ht =>
    obtain rfl : token = _ := ht
    exact .operatorWithoutKey rfl
  | unmatchedClosing hi ho ht =>
    obtain rfl : token = _ := ht
    have hclosed : spelling (trees r.settle.done.reverse) = before.map (·.token) := by
      rw [← tokens_of_steps hsteps, ← Reader.tokens_settle]
      simp [Reader.tokens, ho, hi.eq, Pending.tokens]
    exact .unmatchedClosing rfl hclosed
  | tooDeep hd ht =>
    obtain rfl : token = _ := ht
    have hdepth := r.leavesOpen_tokens
    rw [tokens_of_steps hsteps, Nat.le_antisymm (opens_length_le hsteps) hd] at hdepth
    exact .tooDeep rfl hdepth

theorem stops_of_finish (hsteps : before.foldlM Reader.step .start = .ok r)
    (h : r.finish = .error e) : Stops before [] e := by
  have hfrom := readFrom_of_steps hsteps
  rcases Reader.finish_eq_error h with ⟨k, p, q, hp, rfl⟩ | ⟨hi, o, opens, ho, rfl⟩
  · obtain ⟨earlier, hlast⟩ := exists_concat_operator hfrom hp
    exact .missingValue hlast (by simp)
  · obtain ⟨outer, inner, houter, hinner, hbefore⟩ := hfrom.settle
    rw [Reader.settle_opens, ho] at houter
    cases houter with
    | @cons _ _ outer _ _ hinnermost =>
      obtain ⟨lead, rfl⟩ := hinnermost.exists_brace
      have hlast : before = outer ++ lead ++ ⟨.opening, o.opened⟩ :: inner := by
        simp [hbefore, hi.eq, Pending.located, Open.brace]
      exact .unclosed hlast hinner.spelled.symm rfl

/-- Tokens that are not a script are read up to one that could not follow in any script, or to their
end. -/
theorem stops_of_ofTokens {ts : List Located} (hwell : ∀ t ∈ ts, t.token.WellFormed)
    (h : ofTokens ts = .error e) :
    ∃ before after, ts = before ++ after ∧ Viable (before.map (·.token)) ∧
      (∀ t ∈ after.head?, ¬Viable ((before ++ [t]).map (·.token))) ∧ Stops before after e := by
  rcases error_or_of_bind_eq_error h with hsteps | ⟨r, hsteps, hfinish⟩
  · obtain ⟨before, t, after, r, rfl, hbefore, hstep⟩ := exists_of_foldlM_eq_error hsteps
    rw [List.forall_mem_append, List.forall_mem_cons] at hwell
    refine ⟨before, t :: after, rfl, viable_of_steps hwell.1 hbefore, fun t' ht' => ?_,
      (Reader.step_refuses hstep).stops hbefore⟩
    obtain rfl := Option.some.inj ht'
    exact not_viable_of_step hwell.1 hwell.2.1 hbefore hstep
  · exact ⟨ts, [], (List.append_nil ts).symm, viable_of_steps hwell hsteps, by simp,
      stops_of_finish hsteps hfinish⟩

theorem Stops.fault_ne (h : Stops before after e) : e.fault ≠ .unexpectedCharacter := by
  cases h <;> exact Fault.noConfusion

theorem Fault.message_ne {f : Fault} (h : f ≠ .unexpectedCharacter) :
    f.message ≠ "unexpected character" := by
  cases f with
  | unterminatedString => decide
  | unexpectedCharacter => exact absurd rfl h
  | unclosed => decide
  | unmatchedClosing => decide
  | operatorWithoutKey o => cases o <;> decide
  | missingValue o => cases o <;> decide
  | tooDeep => decide

end Stops

/-- Why a text is not a script: either a quote in it is never closed, which is the fault, or its
tokens, each at its place, are read as long as a script can begin with them, and the fault has the
place of the token that is to blame. -/
theorem parse_error_precise {text : String} {e : SyntaxError} (h : parse text = .error e) :
    e.fault.message ≠ "unexpected character" ∧
    (∀ before rest, text.toList = before ++ '"' :: rest → Outside before → NeverClosed rest →
      e = ⟨.unterminatedString, .behind before⟩ ∧ e.fault.message = "unterminated string") ∧
    ((∀ before rest, text.toList = before ++ '"' :: rest → Outside before → ¬NeverClosed rest) →
      ∃ before after, tokens text = .ok (before ++ after) ∧
        (∃ pieces rest, Holds [] text.toList pieces rest (before ++ after)) ∧
        Viable (before.map (·.token)) ∧
        (∀ t ∈ after.head?, ¬Viable ((before ++ [t]).map (·.token))) ∧
        Stops before after e) := by
  have hquote : ∀ before rest, text.toList = before ++ '"' :: rest → Outside before →
      NeverClosed rest →
        e = ⟨.unterminatedString, .behind before⟩ ∧ e.fault.message = "unterminated string" := by
    intro before rest htext houtside hopen
    rw [parse, tokens_eq_error_iff.mpr ⟨before, rest, htext, houtside, hopen, rfl⟩] at h
    obtain rfl := Except.error.inj h
    exact ⟨rfl, rfl⟩
  cases hts : tokens text with
  | error e' =>
    obtain ⟨before, rest, htext, houtside, hopen, -⟩ := tokens_eq_error_iff.mp hts
    have hfault : e.fault ≠ .unexpectedCharacter := by
      rw [(hquote before rest htext houtside hopen).1]
      exact Fault.noConfusion
    exact ⟨Fault.message_ne hfault, hquote, fun hclosed =>
      absurd hopen (hclosed before rest htext houtside)⟩
  | ok ts =>
    rw [parse_eq_ofTokens hts] at h
    obtain ⟨before, after, rfl, hviable, hnot, hstops⟩ :=
      stops_of_ofTokens (tokensFrom_wellFormed hts) h
    rw [tokens, Position.start_eq_behind] at hts
    exact ⟨Fault.message_ne hstops.fault_ne, hquote, fun _ =>
      ⟨before, after, rfl, exists_holds hts, hviable, hnot, hstops⟩⟩

def brokenOff : String := "a = \x7b # \"\n b!=\x7d"

theorem parse_error_precise_brokenOff :
    ∃ e, parse brokenOff = .error e ∧ e = ⟨.missingValue .notEqual, ⟨2, 3⟩⟩ ∧
      (∃ before after, tokens brokenOff = .ok (before ++ after) ∧
        (∃ pieces rest, Holds [] brokenOff.toList pieces rest (before ++ after)) ∧
        Viable (before.map (·.token)) ∧
        (∀ t ∈ after.head?, ¬Viable ((before ++ [t]).map (·.token))) ∧ Stops before after e) := by
  have hfault : (match parse brokenOff with | .error e => some e | .ok _ => none) =
      some ⟨.missingValue .notEqual, ⟨2, 3⟩⟩ := by
    decide +kernel
  cases h : parse brokenOff with
  | ok statements =>
    rw [h] at hfault
    cases hfault
  | error e =>
    rw [h] at hfault
    obtain rfl := Option.some.inj hfault
    obtain ⟨-, hquote, hstops⟩ := parse_error_precise h
    refine ⟨_, rfl, rfl, hstops fun before rest htext houtside hopen => ?_⟩
    have he := congrArg SyntaxError.fault (hquote before rest htext houtside hopen).1
    cases he

end LoadOrder.Script

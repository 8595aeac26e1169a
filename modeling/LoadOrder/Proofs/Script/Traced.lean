import LoadOrder.Proofs.Script.Places
import LoadOrder.Proofs.Script.Reading

namespace LoadOrder.Script

mutual

/-- A statement with the tokens it is read from. Its place is that of the first of them. -/
inductive Statement.ReadFrom : Statement → List Located → Prop
  | leaf {k : Option Head} {a : Atom} {p : Position} {ts : List Located}
      (spelled : ts.map (·.token) = headTokens k ++ [.atom a])
      (first : ts.head?.map (·.position) = some p) :
    Statement.ReadFrom (.leaf k a p) ts
  | clause {k : Option Head} {body : List Statement} {p : Position} {lead inner : List Located}
      {close : Located} (opens : lead.map (·.token) = headTokens k ++ [.opening])
      (first : lead.head?.map (·.position) = some p) (inside : AllReadFrom body inner)
      (closes : close.token = .closing) :
    Statement.ReadFrom (.clause k body p) (lead ++ inner ++ [close])

/-- Statements with the tokens they are read from, one after the other. -/
inductive AllReadFrom : List Statement → List Located → Prop
  | nil : AllReadFrom [] []
  | cons {s statements ts ts'} (first : Statement.ReadFrom s ts)
      (rest : AllReadFrom statements ts') :
    AllReadFrom (s :: statements) (ts ++ ts')

end

mutual

theorem Statement.ReadFrom.spelled {s : Statement} {ts : List Located} (h : s.ReadFrom ts) :
    ts.map (·.token) = s.tree.tokens := by
  match s with
  | .leaf k a p =>
    cases h with
    | leaf spelled first => rw [spelled, Statement.tree, Tree.tokens]
  | .clause k body p =>
    cases h with
    | clause opens first inside closes =>
      simp [opens, inside.spelled, closes, Statement.tree, Tree.tokens]

theorem AllReadFrom.spelled {statements : List Statement} {ts : List Located}
    (h : AllReadFrom statements ts) : ts.map (·.token) = spelling (trees statements) := by
  match statements with
  | [] =>
    cases h
    rfl
  | s :: rest =>
    cases h with
    | cons first more => rw [List.map_append, first.spelled, more.spelled, trees, spelling]

end

theorem exists_cons_of_first {ts : List Located} {p : Position}
    (h : ts.head?.map (·.position) = some p) : ∃ t more, ts = t :: more ∧ t.position = p := by
  obtain ⟨t, ht, hp⟩ := Option.map_eq_some_iff.mp h
  obtain ⟨more, rfl⟩ := List.head?_eq_some_iff.mp ht
  exact ⟨t, more, rfl, hp⟩

theorem Statement.ReadFrom.exists_first {s : Statement} {ts : List Located} (h : s.ReadFrom ts) :
    ∃ t more, ts = t :: more ∧ t.position = s.position ∧ s.tree.tokens.head? = some t.token := by
  have hspelled := h.spelled
  cases h with
  | leaf spelled first =>
    obtain ⟨t, more, rfl, hp⟩ := exists_cons_of_first first
    exact ⟨t, more, rfl, hp, by rw [← hspelled]; rfl⟩
  | clause opens first inside closes =>
    obtain ⟨t, more, rfl, hp⟩ := exists_cons_of_first first
    exact ⟨t, _, rfl, hp, by rw [← hspelled]; rfl⟩

theorem AllReadFrom.append {statements statements' : List Statement} {ts ts' : List Located}
    (h : AllReadFrom statements ts) (h' : AllReadFrom statements' ts') :
    AllReadFrom (statements ++ statements') (ts ++ ts') := by
  induction statements generalizing ts with
  | nil =>
    cases h
    exact h'
  | cons s statements ih =>
    cases h with
    | cons first rest =>
      rw [List.append_assoc]
      exact .cons first (ih rest)

theorem AllReadFrom.concat {done : List Statement} {s : Statement} {ts ts' : List Located}
    (h : AllReadFrom done.reverse ts) (h' : s.ReadFrom ts') :
    AllReadFrom (s :: done).reverse (ts ++ ts') := by
  rw [List.reverse_cons]
  simpa using h.append (.cons h' .nil)

/-- What has been read of a statement that may go on. -/
def Pending.located : Pending → List Located
  | .nothing => []
  | .atom a p => [⟨.atom a, p⟩]
  | .head k p q => [⟨.atom k.key, p⟩, ⟨.operator k.operator, q⟩]

def Open.brace (o : Open) : Located := ⟨.opening, o.opened⟩

/-- An open clause with the tokens of the statements before it and its own up to its brace. -/
inductive Open.ReadFrom : Open → List Located → Prop
  | mk {o : Open} {before lead : List Located} (earlier : AllReadFrom o.before.reverse before)
      (spelled : lead.map (·.token) = headTokens o.head)
      (first : (lead ++ [o.brace]).head?.map (·.position) = some o.start) :
    Open.ReadFrom o (before ++ (lead ++ [o.brace]))

/-- The open clauses, innermost first, with the tokens up to the innermost brace. -/
inductive OpensReadFrom : List Open → List Located → Prop
  | nil : OpensReadFrom [] []
  | cons {o : Open} {opens : List Open} {outer inner : List Located}
      (earlier : OpensReadFrom opens outer) (innermost : o.ReadFrom inner) :
    OpensReadFrom (o :: opens) (outer ++ inner)

namespace Reader

def ReadFrom (r : Reader) (ts : List Located) : Prop :=
  ∃ outer inner, OpensReadFrom r.opens outer ∧ AllReadFrom r.done.reverse inner ∧
    ts = outer ++ inner ++ r.pending.located

variable {r r' : Reader} {ts : List Located} {t : Located}

theorem readFrom_start : start.ReadFrom [] := ⟨[], [], .nil, .nil, rfl⟩

theorem ReadFrom.settle (h : r.ReadFrom ts) : r.settle.ReadFrom ts := by
  obtain ⟨outer, inner, houter, hinner, rfl⟩ := h
  rcases r with ⟨opens, done, _ | ⟨a, p⟩ | _⟩
  · exact ⟨outer, inner, houter, hinner, rfl⟩
  · have ha : (Statement.leaf none a p).ReadFrom [⟨.atom a, p⟩] := .leaf rfl rfl
    exact ⟨outer, _, houter, hinner.concat ha, by simp [Reader.settle, Pending.located]⟩
  · exact ⟨outer, inner, houter, hinner, rfl⟩

theorem ReadFrom.openClause {k : Option Head} {p : Position} (h : r.ReadFrom ts)
    (ht : t.token = .opening) (hopen : r.openClause k p t.position = .ok r')
    (hk : r.pending.located.map (·.token) = headTokens k)
    (hp : (r.pending.located ++ [t]).head?.map (·.position) = some p) :
    r'.ReadFrom (ts ++ [t]) := by
  obtain ⟨outer, inner, houter, hinner, rfl⟩ := h
  obtain ⟨-, rfl⟩ := openClause_eq_ok hopen
  obtain ⟨token, q⟩ := t
  obtain rfl : token = .opening := ht
  have ho : Open.ReadFrom ⟨q, k, p, r.done⟩ (inner ++ (r.pending.located ++ [⟨.opening, q⟩])) :=
    .mk hinner hk hp
  exact ⟨_, [], .cons houter ho, .nil, by simp [Pending.located]⟩

theorem ReadFrom.closeClause (h : r.ReadFrom ts) (ht : t.token = .closing)
    (hp : r.pending = .nothing) (hclose : r.closeClause t.position = .ok r') :
    r'.ReadFrom (ts ++ [t]) := by
  obtain ⟨outer, inner, houter, hinner, rfl⟩ := h
  obtain ⟨o, opens, ho, rfl⟩ := closeClause_eq_ok hclose
  rw [ho] at houter
  obtain _ | ⟨houter, ⟨hbefore, hlead, hfirst⟩⟩ := houter
  have hclause : (Statement.clause o.head r.done.reverse o.start).ReadFrom _ :=
    .clause (by rw [List.map_append, hlead]; rfl) hfirst hinner ht
  exact ⟨_, _, houter, hbefore.concat hclause, by simp [hp, Pending.located]⟩

/-- A step adds its token to those that have been read. -/
theorem ReadFrom.step (h : r.ReadFrom ts) (hstep : r.step t = .ok r') :
    r'.ReadFrom (ts ++ [t]) := by
  cases step_cases hstep with
  | @value k p q a hp ht hr =>
    obtain ⟨outer, inner, houter, hinner, rfl⟩ := h
    have hleaf : (Statement.leaf (some k) a p).ReadFrom (r.pending.located ++ [t]) :=
      .leaf (by simp [hp, Pending.located, headTokens, ht]) (by rw [hp]; rfl)
    subst hr
    exact ⟨outer, _, houter, hinner.concat hleaf, by simp [Pending.located]⟩
  | keyed hp ht hr => exact h.openClause ht hr (by rw [hp]; rfl) (by rw [hp]; rfl)
  | operator hp ht hr =>
    obtain ⟨outer, inner, houter, hinner, rfl⟩ := h
    subst hr
    exact ⟨outer, inner, houter, hinner, by simp [hp, Pending.located, ← ht]⟩
  | atom hi ht hr =>
    obtain ⟨outer, inner, houter, hinner, rfl⟩ := h.settle
    subst hr
    exact ⟨outer, inner, houter, hinner, by simp [hi.eq, Pending.located, ← ht]⟩
  | opening hi ht hr =>
    exact h.settle.openClause ht hr (by rw [hi.eq]; rfl) (by rw [hi.eq]; rfl)
  | closing hi ht hr => exact h.settle.closeClause ht hi hr

theorem ReadFrom.steps {ts' : List Located} (h : r.ReadFrom ts)
    (hsteps : ts'.foldlM Reader.step r = .ok r') : r'.ReadFrom (ts ++ ts') := by
  induction ts' generalizing r ts with
  | nil =>
    obtain rfl := Except.ok.inj hsteps
    simpa using h
  | cons t ts' ih =>
    rw [List.foldlM_cons] at hsteps
    obtain ⟨r₁, h₁, hsteps⟩ := exists_of_bind_eq_ok hsteps
    simpa using ih (h.step h₁) hsteps

end Reader

theorem allReadFrom_of_ofTokens {ts : List Located} {statements : List Statement}
    (h : ofTokens ts = .ok statements) : AllReadFrom statements ts := by
  obtain ⟨r, hr, hfinish⟩ := exists_of_bind_eq_ok h
  obtain ⟨hi, ho, rfl⟩ := Reader.finish_eq_ok hfinish
  obtain ⟨outer, inner, houter, hinner, hts⟩ := (Reader.readFrom_start.steps hr).settle
  rw [Reader.settle_opens, ho] at houter
  cases houter
  obtain rfl : ts = inner := by simpa [hi.eq, Pending.located] using hts
  exact hinner

mutual

/-- A statement and all statements in it, in the order of the text. -/
def Statement.walk : Statement → List Statement
  | .leaf k a p => [.leaf k a p]
  | .clause k body p => .clause k body p :: walk body

/-- All statements of some trees, in the order of the text. -/
def walk : List Statement → List Statement
  | [] => []
  | s :: rest => s.walk ++ walk rest

end

mutual

theorem Statement.ReadFrom.sublist {s : Statement} {ts : List Located} (h : s.ReadFrom ts) :
    (s.walk.map Statement.position).Sublist (ts.map (·.position)) := by
  obtain ⟨t, more, hts, hplace, -⟩ := h.exists_first
  match s with
  | .leaf k a p =>
    rw [hts]
    simp [Statement.walk, ← hplace]
  | .clause k body p =>
    cases h with
    | @clause _ _ _ lead inner close opens first inside closes =>
      have hinner : inner.Sublist more := by
        obtain ⟨t', lead', rfl, -⟩ := exists_cons_of_first first
        obtain ⟨rfl, rfl⟩ := List.cons.inj hts
        exact (List.sublist_append_right lead' inner).trans (List.sublist_append_left _ _)
      rw [hts, Statement.walk, List.map_cons, List.map_cons, hplace]
      exact (inside.sublist.trans (hinner.map _)).cons_cons _

theorem AllReadFrom.sublist {statements : List Statement} {ts : List Located}
    (h : AllReadFrom statements ts) :
    ((walk statements).map Statement.position).Sublist (ts.map (·.position)) := by
  match statements with
  | [] =>
    cases h
    exact .slnil
  | s :: rest =>
    cases h with
    | cons first more =>
      rw [walk, List.map_append, List.map_append]
      exact first.sublist.append more.sublist

end

mutual

theorem Statement.ReadFrom.exists_part {s : Statement} {ts : List Located} (h : s.ReadFrom ts)
    {s' : Statement} (hs : s' ∈ s.walk) : ∃ ts', ts' ⊆ ts ∧ s'.ReadFrom ts' := by
  match s with
  | .leaf k a p =>
    obtain rfl := List.mem_singleton.mp hs
    exact ⟨ts, List.Subset.refl ts, h⟩
  | .clause k body p =>
    rcases List.mem_cons.mp hs with rfl | hs
    · exact ⟨ts, List.Subset.refl ts, h⟩
    · cases h with
      | clause opens first inside closes =>
        obtain ⟨ts', hpart, hfrom⟩ := inside.exists_part hs
        refine ⟨ts', fun t ht => ?_, hfrom⟩
        simp [hpart ht]

theorem AllReadFrom.exists_part {statements : List Statement} {ts : List Located}
    (h : AllReadFrom statements ts) {s' : Statement} (hs : s' ∈ walk statements) :
    ∃ ts', ts' ⊆ ts ∧ s'.ReadFrom ts' := by
  match statements with
  | [] => cases hs
  | s :: rest =>
    cases h with
    | cons first more =>
      rcases List.mem_append.mp hs with hs | hs
      · obtain ⟨ts', hpart, hfrom⟩ := first.exists_part hs
        exact ⟨ts', List.subset_append_of_subset_left _ hpart, hfrom⟩
      · obtain ⟨ts', hpart, hfrom⟩ := more.exists_part hs
        exact ⟨ts', List.subset_append_of_subset_right _ hpart, hfrom⟩

end

/-- Every statement stands at the line and the column of the first character of its first token, and
a walk through the whole tree goes forward in the text. -/
theorem positions_of_parse {text : String} {statements : List Statement}
    (h : parse text = .ok statements) :
    (∃ ts pieces rest, tokens text = .ok ts ∧ Holds [] text.toList pieces rest ts ∧
      AllReadFrom statements ts) ∧
    (∀ s ∈ walk statements, ∃ before t after, text.toList = before ++ t.source.toList ++ after ∧
      s.tree.tokens.head? = some t ∧ s.position = .behind before) ∧
    ((walk statements).map Statement.position).Pairwise Position.Before := by
  obtain ⟨ts, hts, hread⟩ := exists_tokens_of_parse h
  have hstart : tokensFrom (.behind []) text.toList = .ok ts := hts
  obtain ⟨pieces, rest, hholds⟩ := exists_holds hstart
  have hfrom := allReadFrom_of_ofTokens hread
  refine ⟨⟨ts, pieces, rest, hts, hholds, hfrom⟩, fun s hs => ?_, ?_⟩
  · obtain ⟨ts', hpart, hs⟩ := hfrom.exists_part hs
    obtain ⟨t, more, rfl, hplace, hfirst⟩ := hs.exists_first
    have ht : t ∈ placed [] pieces := hholds.places ▸ hpart List.mem_cons_self
    obtain ⟨before, after, htext, hbehind⟩ := exists_text_of_mem_placed ht
    refine ⟨before, t.token, after ++ rest, ?_, hfirst, hplace.symm.trans hbehind⟩
    rw [hholds.text, htext, List.append_assoc]
  · have hsame : pieces.map Piece.token = ts.map (·.token) := by
      rw [hholds.places, map_token_placed]
    have hincreasing : (ts.map (·.position)).Pairwise Position.Before := by
      rw [hholds.places, List.pairwise_map]
      exact placed_increasing (wellFormed_of_pieces hts hsame)
    exact hincreasing.sublist hfrom.sublist

def overLines : String := "\uFEFFa = b\n  \"ä\n\" = \x7b x!=y\n\x7d"

theorem positions_of_parse_overLines :
    ∃ statements, parse overLines = .ok statements ∧
      (walk statements).map Statement.position = [⟨1, 2⟩, ⟨2, 3⟩, ⟨3, 7⟩] ∧
      (∃ ts pieces rest, tokens overLines = .ok ts ∧ Holds [] overLines.toList pieces rest ts ∧
        AllReadFrom statements ts) ∧
      (∀ s ∈ walk statements, ∃ before t after,
        overLines.toList = before ++ t.source.toList ++ after ∧
          s.tree.tokens.head? = some t ∧ s.position = .behind before) ∧
      ((walk statements).map Statement.position).Pairwise Position.Before := by
  have h : (parse overLines).toOption.map
      (fun statements => (walk statements).map Statement.position) =
        some [⟨1, 2⟩, ⟨2, 3⟩, ⟨3, 7⟩] := by
    decide +kernel
  obtain ⟨statements, hs, hplaces⟩ := Option.map_eq_some_iff.mp h
  have hok := eq_ok_of_toOption hs
  exact ⟨statements, hok, hplaces, positions_of_parse hok⟩

end LoadOrder.Script

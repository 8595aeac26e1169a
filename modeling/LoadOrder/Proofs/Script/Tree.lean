import LoadOrder.Script.Layout

namespace LoadOrder.Script

/-- A statement without its place. -/
inductive Tree
  | leaf (head : Option Head) (value : Atom)
  | clause (head : Option Head) (body : List Tree)

mutual

def Statement.tree : Statement → Tree
  | .leaf h a _ => .leaf h a
  | .clause h body _ => .clause h (trees body)

def trees : List Statement → List Tree
  | [] => []
  | s :: rest => s.tree :: trees rest

end

def headTokens : Option Head → List Token
  | none => []
  | some h => [.atom h.key, .operator h.operator]

mutual

def Tree.tokens : Tree → List Token
  | .leaf h a => headTokens h ++ [.atom a]
  | .clause h body => headTokens h ++ .opening :: (spelling body ++ [.closing])

/-- The tokens that spell some trees one after the other. -/
def spelling : List Tree → List Token
  | [] => []
  | t :: rest => t.tokens ++ spelling rest

end

mutual

/-- How deep the clauses of a tree are nested. -/
def Tree.nesting : Tree → Nat
  | .leaf _ _ => 0
  | .clause _ body => nesting body + 1

def nesting : List Tree → Nat
  | [] => 0
  | t :: rest => max t.nesting (nesting rest)

end

theorem trees_eq_map (statements : List Statement) :
    trees statements = statements.map Statement.tree := by
  induction statements with
  | nil => rfl
  | cons s rest ih => rw [trees, ih, List.map_cons]

theorem trees_append (statements statements' : List Statement) :
    trees (statements ++ statements') = trees statements ++ trees statements' := by
  simp only [trees_eq_map, List.map_append]

theorem trees_reverse (statements : List Statement) :
    trees statements.reverse = (trees statements).reverse := by
  simp only [trees_eq_map, List.map_reverse]

@[simp] theorem spelling_append (forest forest' : List Tree) :
    spelling (forest ++ forest') = spelling forest ++ spelling forest' := by
  induction forest with
  | nil => rfl
  | cons t rest ih => rw [List.cons_append, spelling, spelling, ih, List.append_assoc]

@[simp] theorem spelling_singleton (t : Tree) : spelling [t] = t.tokens := by
  simp [spelling]

theorem nesting_le_iff {forest : List Tree} {n : Nat} :
    nesting forest ≤ n ↔ ∀ t ∈ forest, t.nesting ≤ n := by
  induction forest with
  | nil => simp [nesting]
  | cons t rest ih => rw [nesting, Nat.max_le, ih, List.forall_mem_cons]

theorem nesting_reverse (forest : List Tree) : nesting forest.reverse = nesting forest := by
  refine Nat.le_antisymm (nesting_le_iff.mpr fun t ht => ?_) (nesting_le_iff.mpr fun t ht => ?_)
  · exact nesting_le_iff.mp (Nat.le_refl _) t (List.mem_reverse.mp ht)
  · exact nesting_le_iff.mp (Nat.le_refl _) t (List.mem_reverse.mpr ht)

theorem mem_spelling {t : Token} {forest : List Tree} :
    t ∈ spelling forest ↔ ∃ tree ∈ forest, t ∈ tree.tokens := by
  induction forest with
  | nil => simp [spelling]
  | cons tree more ih => simp [spelling, ih]

theorem tree_mem_trees {s : Statement} {statements : List Statement} (h : s ∈ statements) :
    s.tree ∈ trees statements := by
  rw [trees_eq_map]
  exact List.mem_map_of_mem h

section Body

variable {k : Option Head} {body : List Statement} {p : Position} {s : Statement}

theorem tokens_of_mem_body (hs : s ∈ body) :
    ∀ t ∈ s.tree.tokens, t ∈ (Statement.clause k body p).tree.tokens := by
  intro t ht
  have hmem := mem_spelling.mpr ⟨s.tree, tree_mem_trees hs, ht⟩
  simp [Statement.tree, Tree.tokens, hmem]

theorem nesting_of_mem_body (hs : s ∈ body) :
    s.tree.nesting < (Statement.clause k body p).tree.nesting := by
  have hbody := nesting_le_iff.mp (Nat.le_refl _) _ (tree_mem_trees hs)
  rw [Statement.tree, Tree.nesting]
  omega

end Body

def FreeOfOperator : List Token → Prop
  | .operator _ :: _ => False
  | _ => True

/-- Nothing follows in the same clause. -/
def ClauseEnds : List Token → Prop
  | [] => True
  | .closing :: _ => True
  | _ => False

theorem clauseEnds_nil : ClauseEnds [] := trivial

theorem clauseEnds_closing (rest : List Token) : ClauseEnds (.closing :: rest) := trivial

theorem ClauseEnds.freeOfOperator {rest : List Token} (h : ClauseEnds rest) :
    FreeOfOperator rest := by
  unfold ClauseEnds at h
  unfold FreeOfOperator
  split at h <;> simp_all

theorem tree_tokens_head (t : Tree) (rest : List Token) :
    FreeOfOperator (t.tokens ++ rest) ∧ ¬ClauseEnds (t.tokens ++ rest) := by
  rcases t with ⟨_ | h, a⟩ | ⟨_ | h, body⟩ <;>
    simp [Tree.tokens, headTokens, FreeOfOperator, ClauseEnds]

theorem spelling_freeOfOperator (forest : List Tree) {rest : List Token} (h : ClauseEnds rest) :
    FreeOfOperator (spelling forest ++ rest) := by
  cases forest with
  | nil => exact h.freeOfOperator
  | cons t more =>
    rw [spelling, List.append_assoc]
    exact (tree_tokens_head t _).1

/-- A key is read as one: the operator after it decides. -/
theorem headTokens_append_inj {h h' : Option Head} {x x' : Token} {rest rest' : List Token}
    (hr : FreeOfOperator rest) (hr' : FreeOfOperator rest')
    (he : headTokens h ++ x :: rest = headTokens h' ++ x' :: rest') :
    h = h' ∧ x = x' ∧ rest = rest' := by
  -- a key on one side only leaves an operator at the front of what follows the value
  rcases h with _ | h <;> rcases h' with _ | h' <;>
    simp only [headTokens, List.nil_append, List.cons_append, List.cons.injEq] at he
  · exact ⟨rfl, he⟩
  · rw [he.2] at hr
    exact hr.elim
  · rw [← he.2] at hr'
    exact hr'.elim
  · obtain ⟨hk, ho, hxx, hrr⟩ := he
    have hh : h = h' := by
      cases h; cases h'
      simp_all
    exact ⟨congrArg some hh, hxx, hrr⟩

mutual

theorem tree_tokens_append_inj {t t' : Tree} {rest rest' : List Token}
    (hr : FreeOfOperator rest) (hr' : FreeOfOperator rest')
    (he : t.tokens ++ rest = t'.tokens ++ rest') : t = t' ∧ rest = rest' := by
  -- after equal heads the next token tells leaves and clauses apart
  rcases t with ⟨h, a⟩ | ⟨h, body⟩ <;> rcases t' with ⟨h', a'⟩ | ⟨h', body'⟩ <;>
    simp only [Tree.tokens, List.append_assoc, List.cons_append, List.nil_append] at he
  · obtain ⟨rfl, ha, rfl⟩ := headTokens_append_inj hr hr' he
    simp_all
  · have hb := spelling_freeOfOperator body' (clauseEnds_closing rest')
    exact absurd (headTokens_append_inj hr hb he).2.1 (by simp)
  · have hb := spelling_freeOfOperator body (clauseEnds_closing rest)
    exact absurd (headTokens_append_inj hb hr' he).2.1 (by simp)
  · have hb := spelling_freeOfOperator body (clauseEnds_closing rest)
    have hb' := spelling_freeOfOperator body' (clauseEnds_closing rest')
    obtain ⟨rfl, -, hbody⟩ := headTokens_append_inj hb hb' he
    obtain ⟨rfl, hrest⟩ := spelling_append_inj (clauseEnds_closing rest)
      (clauseEnds_closing rest') hbody
    exact ⟨rfl, List.tail_eq_of_cons_eq hrest⟩

/-- A spelling followed by the end of its clause can be read in one way only. -/
theorem spelling_append_inj {forest forest' : List Tree} {rest rest' : List Token}
    (hr : ClauseEnds rest) (hr' : ClauseEnds rest')
    (he : spelling forest ++ rest = spelling forest' ++ rest') :
    forest = forest' ∧ rest = rest' := by
  -- a tree never begins with the end of its clause, so both lists are empty or none is
  rcases forest with _ | ⟨t, more⟩ <;> rcases forest' with _ | ⟨t', more'⟩ <;>
    simp only [spelling, List.nil_append, List.append_assoc] at he
  · exact ⟨rfl, he⟩
  · exact absurd (he ▸ hr) (tree_tokens_head t' _).2
  · exact absurd (he ▸ hr') (tree_tokens_head t _).2
  · obtain ⟨rfl, hmore⟩ := tree_tokens_append_inj (spelling_freeOfOperator more hr)
      (spelling_freeOfOperator more' hr') he
    obtain ⟨rfl, rfl⟩ := spelling_append_inj hr hr' hmore
    exact ⟨rfl, rfl⟩

end

theorem spelling_injective : Function.Injective spelling := by
  intro forest forest' h
  exact (spelling_append_inj clauseEnds_nil clauseEnds_nil (by rw [h])).1

end LoadOrder.Script

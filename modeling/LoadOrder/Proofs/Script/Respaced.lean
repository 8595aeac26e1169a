import LoadOrder.Proofs.Script.Fillers

namespace LoadOrder.Script

section Moved

variable (f : Position → Position)

mutual

def Statement.moved : Statement → Statement
  | .leaf k a p => .leaf k a (f p)
  | .clause k body p => .clause k (allMoved body) (f p)

def allMoved : List Statement → List Statement
  | [] => []
  | s :: rest => s.moved :: allMoved rest

end

theorem allMoved_eq_map (statements : List Statement) :
    allMoved f statements = statements.map (Statement.moved f) := by
  induction statements with
  | nil => rfl
  | cons s rest ih => rw [allMoved, ih, List.map_cons]

mutual

theorem tree_moved (s : Statement) : (s.moved f).tree = s.tree := by
  match s with
  | .leaf k a p => rfl
  | .clause k body p => rw [Statement.moved, Statement.tree, trees_allMoved body, Statement.tree]

theorem trees_allMoved (statements : List Statement) :
    trees (allMoved f statements) = trees statements := by
  match statements with
  | [] => rfl
  | s :: rest => rw [allMoved, trees, tree_moved s, trees_allMoved rest, trees]

end

def Located.moved (t : Located) : Located := ⟨t.token, f t.position⟩

def SyntaxError.moved (e : SyntaxError) : SyntaxError := ⟨e.fault, f e.position⟩

def Open.moved (o : Open) : Open := ⟨f o.opened, o.head, f o.start, allMoved f o.before⟩

def Pending.moved : Pending → Pending
  | .nothing => .nothing
  | .atom a p => .atom a (f p)
  | .head k p q => .head k (f p) (f q)

def Reader.moved (r : Reader) : Reader :=
  ⟨r.opens.map (Open.moved f), allMoved f r.done, r.pending.moved f⟩

def movedResult {α β : Type} (g : α → β) (x : Except SyntaxError α) : Except SyntaxError β :=
  (x.map g).mapError (SyntaxError.moved f)

variable {f}

theorem movedResult_bind {α β γ δ : Type} {g : α → γ} {g' : β → δ} (x : Except SyntaxError α)
    {k : α → Except SyntaxError β} {k' : γ → Except SyntaxError δ}
    (h : ∀ a, k' (g a) = movedResult f g' (k a)) :
    movedResult f g x >>= k' = movedResult f g' (x >>= k) := by
  cases x with
  | error e => rfl
  | ok a => exact h a

namespace Reader

theorem settle_moved (r : Reader) : (r.moved f).settle = r.settle.moved f := by
  rcases r with ⟨opens, done, _ | _ | _⟩ <;> rfl

theorem openClause_moved (r : Reader) (k : Option Head) (p q : Position) :
    (r.moved f).openClause k (f p) (f q) = movedResult f (moved f) (r.openClause k p q) := by
  simp only [openClause, moved, List.length_map]
  split <;> rfl

theorem closeClause_moved (r : Reader) (p : Position) :
    (r.moved f).closeClause (f p) = movedResult f (moved f) (r.closeClause p) := by
  rcases r with ⟨_ | ⟨o, opens⟩, done, pending⟩
  · rfl
  · simp [closeClause, moved, movedResult, Except.map, Except.mapError, Open.moved,
      Pending.moved, allMoved_eq_map, Statement.moved]

theorem step_moved (r : Reader) (t : Located) :
    (r.moved f).step (t.moved f) = movedResult f (moved f) (r.step t) := by
  have hopen := openClause_moved (f := f) r
  have hopen' := openClause_moved (f := f) r.settle
  have hclose := closeClause_moved (f := f) r.settle
  rw [← settle_moved] at hopen' hclose
  -- by what is pending and by the token: only braces look at more than these two
  rcases r with ⟨opens, done, _ | ⟨a, q⟩ | ⟨k, q, q'⟩⟩ <;> rcases t with ⟨b | o | _ | _, p⟩
  · rfl
  · rfl
  · exact hopen' none p p
  · exact hclose p
  · rfl
  · rfl
  · exact hopen' none p p
  · exact hclose p
  · rfl
  · rfl
  · exact hopen (some k) q p
  · rfl

theorem finish_moved (r : Reader) :
    (r.moved f).finish = movedResult f (allMoved f) r.finish := by
  rcases r with ⟨_ | _, done, _ | _ | _⟩ <;>
    simp [finish, settle, moved, movedResult, Except.map, Except.mapError, Pending.moved,
      SyntaxError.moved, Open.moved, allMoved_eq_map, Statement.moved]

theorem steps_moved (ts : List Located) (r : Reader) :
    (ts.map (Located.moved f)).foldlM step (r.moved f) =
      movedResult f (moved f) (ts.foldlM step r) := by
  induction ts generalizing r with
  | nil => rfl
  | cons t ts ih =>
    rw [List.map_cons, List.foldlM_cons, List.foldlM_cons, step_moved]
    exact movedResult_bind _ ih

end Reader

/-- Tokens at other places are read as statements at other places. -/
theorem ofTokens_moved (ts : List Located) :
    ofTokens (ts.map (Located.moved f)) = movedResult f (allMoved f) (ofTokens ts) := by
  have hsteps := Reader.steps_moved (f := f) ts .start
  rw [ofTokens, ofTokens]
  rw [show Reader.start.moved f = .start from rfl] at hsteps
  rw [hsteps]
  exact movedResult_bind _ Reader.finish_moved

end Moved

def outcome (x : Except SyntaxError (List Statement)) : Except Fault (List Tree) :=
  (x.map trees).mapError SyntaxError.fault

theorem outcome_movedResult (f : Position → Position) (x : Except SyntaxError (List Statement)) :
    outcome (movedResult f (allMoved f) x) = outcome x := by
  cases x with
  | error e => rfl
  | ok statements => exact congrArg Except.ok (trees_allMoved f statements)

theorem outcome_ofTokens_eq {ts ts' : List Located}
    (h : ts'.map (·.token) = ts.map (·.token)) :
    outcome (ofTokens ts') = outcome (ofTokens ts) := by
  let f : Position → Position := fun _ => .start
  have hplace (ts : List Located) :
      ts.map (Located.moved f) = (ts.map (·.token)).map (⟨·, .start⟩) := by
    rw [List.map_map]
    rfl
  have hsame : ts'.map (Located.moved f) = ts.map (Located.moved f) := by
    rw [hplace, hplace, h]
  rw [← outcome_movedResult f (ofTokens ts'), ← ofTokens_moved, hsame, ofTokens_moved,
    outcome_movedResult]

/-- A text that is laid out anew, with fillers of all kinds between its tokens, has the same tokens,
and what is read is the same up to places, or fails for the same reason. -/
theorem parse_respaced {text : String} {ts : List Located} (h : tokens text = .ok ts)
    {pieces : List Piece} {rest : List Char} (hsame : pieces.map Piece.token = ts.map (·.token))
    (hfiller : ∀ x ∈ pieces, Filler x.filler) (hapart : Apart pieces) (hrest : Trailer rest) :
    (∃ ts', tokens (String.ofList (textOf pieces ++ rest)) = .ok ts' ∧
      ts'.map (·.token) = ts.map (·.token)) ∧
    outcome (parse (String.ofList (textOf pieces ++ rest))) = outcome (parse text) := by
  have hwell := wellFormed_of_pieces h hsame
  obtain ⟨ts', hts', hmap⟩ := lexes_textOf hwell hfiller hapart hrest .start
  have hlex : tokens (String.ofList (textOf pieces ++ rest)) = .ok ts' := by
    rw [tokens, String.toList_ofList]
    exact hts'
  refine ⟨⟨ts', hlex, hmap.trans hsame⟩, ?_⟩
  rw [parse_eq_ofTokens hlex, parse_eq_ofTokens h]
  exact outcome_ofTokens_eq (hmap.trans hsame)

def spacedOut : List Piece :=
  [⟨[], .atom (.word "a")⟩, ⟨['#', '=', '\n'], .operator .notEqual⟩,
    ⟨['\uFEFF'], .atom (.quoted "#")⟩, ⟨['\u2003'], .opening⟩, ⟨[' '], .atom (.word "b!")⟩,
    ⟨['\n', '\n'], .closing⟩]

theorem parse_respaced_spacedOut :
    String.ofList (textOf spacedOut ++ [' ', '#', '\x7b']) =
        "a#=\n!=\uFEFF\"#\"\u2003\x7b b!\n\n\x7d #\x7b" ∧
      ∃ ts, tokens "a!=\"#\"\x7bb!\x7d" = .ok ts ∧ spacedOut.map Piece.token = ts.map (·.token) ∧
        (∀ x ∈ spacedOut, Filler x.filler) ∧ Apart spacedOut ∧ Trailer [' ', '#', '\x7b'] ∧
        (∃ ts', tokens (String.ofList (textOf spacedOut ++ [' ', '#', '\x7b'])) = .ok ts' ∧
          ts'.map (·.token) = ts.map (·.token)) ∧
        outcome (parse (String.ofList (textOf spacedOut ++ [' ', '#', '\x7b']))) =
          outcome (parse "a!=\"#\"\x7bb!\x7d") := by
  refine ⟨by decide +kernel, ?_⟩
  have h : (tokens "a!=\"#\"\x7bb!\x7d").toOption.map (·.map (·.token)) =
      some (spacedOut.map Piece.token) := by
    decide +kernel
  obtain ⟨ts, hts, hmap⟩ := Option.map_eq_some_iff.mp h
  have hok := eq_ok_of_toOption hts
  have hfiller : ∀ x ∈ spacedOut, Filler x.filler := by
    simp only [spacedOut, List.forall_mem_cons, List.not_mem_nil, false_imp_iff, implies_true,
      and_true]
    exact ⟨.nil, @Filler.comment ['='] [] (by decide) .nil, .gap (by decide) .nil,
      .gap (by decide) .nil, .gap (by decide) .nil, .gap (by decide) (.gap (by decide) .nil)⟩
  have hapart : Apart spacedOut := by
    simp [Apart, spacedOut]
  have hrest : Trailer [' ', '#', '\x7b'] :=
    @Trailer.comment [' '] ['\x7b'] filler_space (by decide)
  exact ⟨ts, hok, hmap.symm, hfiller, hapart, hrest,
    parse_respaced hok hmap.symm hfiller hapart hrest⟩

end LoadOrder.Script

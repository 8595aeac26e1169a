import Mathlib.Data.List.Forall2
import LoadOrder.Proofs.Definition.Extract

namespace LoadOrder.Script

theorem everywhere_of_tokensFrom {p : Position} {s : List Char} {ts : List Located}
    (h : tokensFrom p s = .ok ts) : Everywhere (· ∈ s) (ts.map (·.token)) := by
  rw [Everywhere, List.forall_mem_map]
  refine forall_tokensFrom (P := fun t => ∀ c ∈ t.source.toList, c ∈ s) h ?_
  intro c rest t n hsuffix hfront d hd
  have hfronts := fronts_of c rest
  rw [hfront] at hfronts
  rw [hfronts.source_eq] at hd
  exact hsuffix.subset (List.cons_subset_cons c (List.take_subset _ rest) hd)

theorem Says.everywhere {text : String} {forest : List Tree} (h : Says text forest) :
    Everywhere (· ∈ text.toList) (spelling forest) := by
  obtain ⟨statements, hparse, rfl⟩ := h
  obtain ⟨ts, hts, hread⟩ := exists_tokens_of_parse hparse
  rw [(spelling_of_ofTokens hread).1]
  exact everywhere_of_tokensFrom hts

theorem forall_code (s : Statement) : ∀ c ∈ s.code.toList, c ≠ '\t' ∧ c ≠ '\r' := by
  intro c hc
  rw [Statement.code, String.toList_ofList, List.mem_flatMap] at hc
  obtain ⟨d, hd, hc⟩ := hc
  have hreturn : d ≠ '\r' := by
    have hkept := (List.dropWhile_sublist _).mem (Text.mem_of_mem_dropEndWhile _ hd)
    simpa using (List.mem_filter.mp hkept).2
  split at hc
  · simp only [List.mem_cons, List.not_mem_nil, or_false, or_self] at hc
    subst hc
    decide
  · next htab =>
    rw [List.mem_singleton] at hc
    subst hc
    exact ⟨htab, hreturn⟩

theorem Statement.Readable.says_code_iff {s : Statement} (h : s.Readable) :
    Says s.code [s.tree] ↔ Printable s.tree.tokens := by
  constructor
  · intro hsays
    have htokens := hsays.everywhere
    rw [spelling_singleton] at htokens
    exact fun t ht c hc => forall_code s c (htokens t ht c hc)
  · intro hprintable
    exact (h.spelled hprintable).says_code

def Statement.inner : Statement → List Statement
  | .leaf .. => []
  | .clause _ body _ => body

def statementsAt : Nat → List Statement → List Statement
  | 0, statements => statements
  | depth + 1, statements => statementsAt depth (statements.flatMap Statement.inner)

def nodesAt : Nat → List Node → List Node
  | 0, nodes => nodes
  | depth + 1, nodes => nodesAt depth (nodes.flatMap Node.children)

theorem children_ofStatement (level : Nat) (s : Statement) :
    (Node.ofStatement level s).children = s.inner.map (Node.ofStatement (level + 1)) := by
  rcases s with ⟨_ | k, a, p⟩ | ⟨k, body, p⟩
  · rfl
  · rfl
  · simp [Node.ofStatement, Node.children, Statement.inner, nodesOf_eq_map]

theorem nodesAt_map_ofStatement (depth level : Nat) (statements : List Statement) :
    nodesAt depth (statements.map (Node.ofStatement level)) =
      (statementsAt depth statements).map (Node.ofStatement (level + depth)) := by
  induction depth generalizing level statements with
  | zero => rfl
  | succ depth ih =>
    have hchildren : (statements.map (Node.ofStatement level)).flatMap Node.children =
        (statements.flatMap Statement.inner).map (Node.ofStatement (level + 1)) := by
      simp only [List.flatMap_map, children_ofStatement, List.map_flatMap]
    rw [nodesAt, hchildren, ih, statementsAt, Nat.add_right_comm, Nat.add_assoc]

theorem Statement.Readable.inner {s : Statement} (h : s.Readable) : ∀ t ∈ s.inner, t.Readable := by
  cases s with
  | leaf k a p => simp [Statement.inner]
  | clause k body p => exact h.body

theorem readable_statementsAt (depth : Nat) {statements : List Statement}
    (h : ∀ s ∈ statements, s.Readable) : ∀ s ∈ statementsAt depth statements, s.Readable := by
  induction depth generalizing statements with
  | zero => exact h
  | succ depth ih =>
    apply ih
    intro t ht
    obtain ⟨s, hs, ht⟩ := List.mem_flatMap.mp ht
    exact (h s hs).inner t ht

/-- An element that keeps its code keeps what says its statement, unless a token of the statement
has a tab or a carriage return. -/
theorem code_says_statement_iff {text : String} {statements : List Statement} {depth : Nat}
    (hparse : parse text = .ok statements) (hdepth : keepsCode (2 + depth)) :
    List.Forall₂ (fun s node => ∃ code, node.code = some code ∧
        (Says code [s.tree] ↔ Printable s.tree.tokens))
      (statementsAt depth statements) (nodesAt depth (nodesOf 2 statements)) := by
  have hreadable := readable_statementsAt depth fun _ => readable_of_parse hparse
  rw [nodesOf_eq_map, nodesAt_map_ofStatement, List.forall₂_map_right_iff, List.forall₂_same]
  intro s hs
  exact ⟨s.code, code_ofStatement s hdepth, (hreadable s hs).says_code_iff⟩

theorem code_says_statement_besideTab :
    ∃ statements, parse "o = \x7b b = \"x\ty\" c = \"z\" \x7d" = .ok statements ∧
      (statementsAt 1 statements).map (fun s => decide (Printable s.tree.tokens)) =
        [false, true] ∧
      List.Forall₂ (fun s node => ∃ code, node.code = some code ∧
          (Says code [s.tree] ↔ Printable s.tree.tokens))
        (statementsAt 1 statements) (nodesAt 1 (nodesOf 2 statements)) := by
  have h : (parse "o = \x7b b = \"x\ty\" c = \"z\" \x7d").toOption.map
      (fun statements => (statementsAt 1 statements).map fun s =>
        decide (Printable s.tree.tokens)) = some [false, true] := by
    decide +kernel
  obtain ⟨statements, hs, hprintable⟩ := Option.map_eq_some_iff.mp h
  have hok := eq_ok_of_toOption hs
  exact ⟨statements, hok, hprintable, code_says_statement_iff hok (by decide)⟩

/-- The code of a statement with a tab between quotes has spaces in its place. -/
theorem not_code_says_statement : ¬∀ (text : String) (statements : List Statement) (depth : Nat),
    parse text = .ok statements → keepsCode (2 + depth) →
      List.Forall₂ (fun s node => ∃ code, node.code = some code ∧ Says code [s.tree])
        (statementsAt depth statements) (nodesAt depth (nodesOf 2 statements)) := by
  intro hall
  have h : (parse "a = \"x\ty\"").toOption.map
      (fun statements => statements.map fun s => decide (Printable s.tree.tokens)) =
        some [false] := by
    decide +kernel
  obtain ⟨statements, hs, hprintable⟩ := Option.map_eq_some_iff.mp h
  obtain ⟨s, rfl, htab⟩ := List.map_eq_singleton_iff.mp hprintable
  have hok := eq_ok_of_toOption hs
  have hreadable := readable_of_parse hok List.mem_cons_self
  have hcode := hall _ _ 0 hok (by decide)
  rw [nodesOf_eq_map, nodesAt_map_ofStatement, List.forall₂_map_right_iff, List.forall₂_same]
    at hcode
  obtain ⟨code, hcode, hsays⟩ := hcode s List.mem_cons_self
  obtain rfl := Option.some.inj (hcode.symm.trans (code_ofStatement s (by decide)))
  exact of_decide_eq_false htab (hreadable.says_code_iff.mp hsays)

end LoadOrder.Script

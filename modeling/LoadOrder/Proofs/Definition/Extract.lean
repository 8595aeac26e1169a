import LoadOrder.Definition.Extract
import LoadOrder.Proofs.Script.Code

namespace LoadOrder

namespace Script

mutual

theorem layout_congr {s s' : Statement} (h : s.tree = s'.tree) (indent : Nat) :
    s.layout indent = s'.layout indent := by
  match s, s' with
  | .leaf k a p, .leaf k' a' p' =>
    obtain ⟨rfl, rfl⟩ := Tree.leaf.inj h
    rfl
  | .clause k body p, .clause k' body' p' =>
    obtain ⟨rfl, hbody⟩ := Tree.clause.inj h
    rw [Statement.layout, Statement.layout, clauseLayout_congr hbody]
  | .leaf .., .clause .. => cases h
  | .clause .., .leaf .. => cases h

theorem clauseLayout_congr {body body' : List Statement} (h : trees body = trees body')
    (indent : Nat) : clauseLayout indent body = clauseLayout indent body' := by
  match body, body' with
  | [], [] => rfl
  | s :: more, s' :: more' =>
    obtain ⟨hs, hmore⟩ := List.cons.inj h
    rw [clauseLayout, clauseLayout, layout_congr hs, linesLayout_congr hmore]
  | [], _ :: _ => cases h
  | _ :: _, [] => cases h

theorem linesLayout_congr {statements statements' : List Statement}
    (h : trees statements = trees statements') (indent : Nat) :
    linesLayout indent statements = linesLayout indent statements' := by
  match statements, statements' with
  | [], [] => rfl
  | s :: more, s' :: more' =>
    obtain ⟨hs, hmore⟩ := List.cons.inj h
    rw [linesLayout, linesLayout, layout_congr hs, linesLayout_congr hmore]
  | [], _ :: _ => cases h
  | _ :: _, [] => cases h

end

theorem code_congr {s s' : Statement} (h : s.tree = s'.tree) : s.code = s'.code := by
  rw [Statement.code, Statement.code, layout_congr h]

mutual

theorem ofStatement_congr {s s' : Statement} (h : s.tree = s'.tree) (level : Nat) :
    Node.ofStatement level s = Node.ofStatement level s' := by
  have hcode := code_congr h
  match s, s' with
  | .leaf k a p, .leaf k' a' p' =>
    obtain ⟨rfl, rfl⟩ := Tree.leaf.inj h
    cases k <;> simp only [Node.ofStatement, hcode]
  | .clause k body p, .clause k' body' p' =>
    obtain ⟨rfl, hbody⟩ := Tree.clause.inj h
    simp only [Node.ofStatement, hcode, nodesOf_congr hbody]
  | .leaf .., .clause .. => cases h
  | .clause .., .leaf .. => cases h

theorem nodesOf_congr {statements statements' : List Statement}
    (h : trees statements = trees statements') (level : Nat) :
    nodesOf level statements = nodesOf level statements' := by
  match statements, statements' with
  | [], [] => rfl
  | s :: more, s' :: more' =>
    obtain ⟨hs, hmore⟩ := List.cons.inj h
    rw [nodesOf, nodesOf, ofStatement_congr hs, nodesOf_congr hmore]
  | [], _ :: _ => cases h
  | _ :: _, [] => cases h

end

theorem code_ofStatement (s : Statement) {level : Nat} (h : keepsCode level) :
    (Node.ofStatement level s).code = some s.code := by
  rcases s with ⟨_ | k, a, p⟩ | ⟨k, body, p⟩ <;> simp [Node.ofStatement, Node.code, h]

end Script

open Script

namespace Entry

theorem code_ofTop (node : Node) : (ofTop node).code = node.code.getD "" := by
  cases node with
  | clause key code children => rfl
  | value value code => rfl
  | pair key value code =>
    simp only [ofTop]
    split
    · rfl
    · split <;> rfl

theorem separator_ofTop (node : Node) : (ofTop node).tag = "" ∧ (ofTop node).separator = "" := by
  cases node with
  | clause key code children => exact ⟨rfl, rfl⟩
  | value value code => exact ⟨rfl, rfl⟩
  | pair key value code =>
    simp only [ofTop]
    split
    · exact ⟨rfl, rfl⟩
    · split <;> exact ⟨rfl, rfl⟩

theorem code_ofTagged (tag : String) (node : Node) :
    (ofTagged tag node).code = node.code.getD "" := by
  cases node <;> rfl

theorem place_ofTagged (tag : String) (node : Node) :
    (ofTagged tag node).tag = tag ∧ (ofTagged tag node).separator = "\x7b" := by
  cases node <;> exact ⟨rfl, rfl⟩

end Entry

/-- The key of a statement as the name of a block. -/
def Script.Statement.blockName (s : Statement) : String := (s.head.map Head.name).getD ""

def Script.Statement.entries (tagged : Bool) (s : Statement) : List Entry :=
  match s with
  | .clause k body p =>
    if tagged then
      body.map fun t => .ofTagged (Statement.clause k body p).blockName (Node.ofStatement 3 t)
    else [.ofTop (Node.ofStatement 2 (.clause k body p))]
  | .leaf k a p => [.ofTop (Node.ofStatement 2 (.leaf k a p))]

theorem entries_congr {s s' : Statement} (h : s.tree = s'.tree) (tagged : Bool) :
    s.entries tagged = s'.entries tagged := by
  have htop := ofStatement_congr h 2
  match s, s' with
  | .leaf k a p, .leaf k' a' p' => simp only [Statement.entries, htop]
  | .clause k body p, .clause k' body' p' =>
    obtain ⟨rfl, hbody⟩ := Tree.clause.inj h
    have hnodes := nodesOf_congr hbody 3
    rw [nodesOf_eq_map, nodesOf_eq_map] at hnodes
    cases tagged with
    | false => simp [Statement.entries, htop]
    | true =>
      have hentries := congrArg (List.map (Entry.ofTagged ((k.map Head.name).getD ""))) hnodes
      simpa [Statement.entries, Statement.blockName, Statement.head, Function.comp_def] using
        hentries
  | .leaf .., .clause .. => cases h
  | .clause .., .leaf .. => cases h

theorem ofNodes_nodesOf (tagged : Bool) (statements : List Statement) :
    Entry.ofNodes tagged (nodesOf 2 statements) =
      statements.flatMap (Statement.entries tagged) := by
  have hstatement : ∀ s : Statement, Entry.ofNodes tagged [Node.ofStatement 2 s] =
      s.entries tagged := by
    intro s
    rcases s with ⟨_ | k, a, p⟩ | ⟨k, body, p⟩
    · rfl
    · rfl
    · cases tagged with
      | false => rfl
      | true =>
        simp [Entry.ofNodes, Node.ofStatement, Statement.entries, nodesOf_eq_map,
          Statement.blockName, Statement.head]
  induction statements with
  | nil => rfl
  | cons s more ih => rw [nodesOf, List.flatMap_cons, ← ih, ← hstatement s]; simp [Entry.ofNodes]

def Definition.entry (d : Definition) : Entry :=
  ⟨d.id, d.kind, d.code, d.codeTag, d.codeSeparator⟩

def Source.mark (source : Source) : Entry := ⟨fileName source.file, .emptyFile, "", "", ""⟩

/-- The entries of a file that has the mark if it has nothing else. -/
def Source.marked (source : Source) (entries : List Entry) : List Entry :=
  if entries.isEmpty then [source.mark] else entries

theorem map_entry_number (source : Source) (entries : List Entry) :
    (source.number entries).map Definition.entry = source.marked entries := by
  unfold Source.number
  rw [List.map_map]
  exact List.zipIdx_map_fst ..

theorem map_entry_attachVariables (definitions : List Definition) :
    (attachVariables definitions).map Definition.entry = definitions.map Definition.entry := by
  unfold attachVariables
  rw [List.map_map]
  apply List.map_congr_left
  intro d _
  simp only [Function.comp_apply]
  split <;> rfl

def Source.made (source : Source) (statements : List Statement) : List Definition :=
  attachVariables (source.number (statements.flatMap (Statement.entries source.tagged)))

theorem Source.definitions_eq_ok_iff {source : Source} {definitions : List Definition} :
    source.definitions = .ok definitions ↔
      ∃ statements, parse (Text.join "\n" source.lines) = .ok statements ∧
        definitions = source.made statements := by
  unfold Source.definitions File.ofLines Source.made
  cases parse (Text.join "\n" source.lines) with
  | error e => simp [Except.map]
  | ok statements => simp [Except.map, ofNodes_nodesOf, eq_comm]

theorem map_entry_made (source : Source) (statements : List Statement) :
    (source.made statements).map Definition.entry =
      source.marked (statements.flatMap (Statement.entries source.tagged)) := by
  rw [Source.made, map_entry_attachVariables, map_entry_number]

theorem exists_of_mem_made {source : Source} {statements : List Statement} {d : Definition}
    (h : d ∈ source.made statements) :
    ∃ order scope, d = { source.definition d.entry order with scope := scope } := by
  obtain ⟨d', hd', rfl⟩ := List.mem_map.mp h
  obtain ⟨⟨entry, i⟩, -, rfl⟩ := List.mem_map.mp hd'
  refine ⟨i + 1, ?_⟩
  dsimp only
  split
  · exact ⟨[], rfl⟩
  · exact ⟨_, rfl⟩

theorem originalCode_of_mem_made {source : Source} {statements : List Statement} {d : Definition}
    (h : d ∈ source.made statements) : d.originalCode = d.code := by
  obtain ⟨order, scope, hd⟩ := exists_of_mem_made h
  rw [hd]
  rfl

theorem map_order_made (source : Source) (statements : List Statement) :
    (source.made statements).map (·.order) = List.range' 1 (source.made statements).length := by
  have hnumber (entries : List Entry) : (source.number entries).map (·.order) =
      List.range' 1 (source.number entries).length := by
    rw [Source.number, List.map_map, List.length_map, List.length_zipIdx]
    have hplaces := congrArg (List.map (1 + ·)) (List.zipIdx_map_snd 0 (source.marked entries))
    rw [List.map_map, List.map_add_range'] at hplaces
    exact (List.map_congr_left fun x _ => Nat.add_comm x.2 1).trans hplaces
  have hattach (definitions : List Definition) :
      (attachVariables definitions).map (·.order) = definitions.map (·.order) := by
    unfold attachVariables
    rw [List.map_map]
    apply List.map_congr_left
    intro d _
    simp only [Function.comp_apply]
    split <;> rfl
  rw [Source.made, hattach, hnumber, attachVariables, List.length_map]

theorem pairwise_order_made (source : Source) (statements : List Statement) :
    (source.made statements).Pairwise fun a b => a.order ≤ b.order := by
  rw [← List.pairwise_map, map_order_made]
  exact (List.pairwise_lt_range' 1).imp Nat.le_of_lt

theorem entry_mem_of_mem_made {source : Source} {statements : List Statement}
    (hsome : ∃ d ∈ source.made statements, d.kind ≠ .emptyFile) {d : Definition}
    (h : d ∈ source.made statements) : ∃ s ∈ statements, d.entry ∈ s.entries source.tagged := by
  have hentry : ∀ d ∈ source.made statements,
      d.entry ∈ source.marked (statements.flatMap (Statement.entries source.tagged)) := by
    intro d hd
    rw [← map_entry_made]
    exact List.mem_map_of_mem hd
  rw [Source.marked] at hentry
  split at hentry
  · obtain ⟨d, hd, hkind⟩ := hsome
    have hmark : d.kind = .emptyFile :=
      congrArg Entry.kind (List.mem_singleton.mp (hentry d hd))
    exact absurd hmark hkind
  · exact List.mem_flatMap.mp (hentry d h)

theorem entries_of_separator {s : Statement} {tagged : Bool} {entry : Entry}
    (h : entry ∈ s.entries tagged) (hs : entry.separator = "") :
    s.entries tagged = [entry] ∧ entry.code = s.code := by
  have htop (e : Entry) (he : e ∈ [Entry.ofTop (Node.ofStatement 2 s)]) : e.code = s.code := by
    rw [List.mem_singleton.mp he, Entry.code_ofTop, code_ofStatement s (by decide)]
    rfl
  cases s with
  | leaf k a p => exact ⟨by rw [List.mem_singleton.mp h]; rfl, htop _ h⟩
  | clause k body p =>
    cases tagged with
    | false => exact ⟨by rw [List.mem_singleton.mp h]; rfl, htop _ h⟩
    | true =>
      obtain ⟨t, -, rfl⟩ := List.mem_map.mp h
      rw [(Entry.place_ofTagged _ _).2] at hs
      exact absurd hs (by decide)

theorem entries_of_tag {s : Statement} {tagged : Bool} {entry : Entry}
    (h : entry ∈ s.entries tagged) (hs : entry.separator ≠ "") :
    ∃ k body p, s = .clause k body p ∧ tagged = true ∧
      ∃ t ∈ body, entry = .ofTagged s.blockName (Node.ofStatement 3 t) ∧ entry.code = t.code := by
  cases s with
  | leaf k a p =>
    rw [List.mem_singleton.mp h] at hs
    exact absurd (Entry.separator_ofTop _).2 hs
  | clause k body p =>
    cases tagged with
    | false =>
      rw [List.mem_singleton.mp h] at hs
      exact absurd (Entry.separator_ofTop _).2 hs
    | true =>
      obtain ⟨t, ht, rfl⟩ := List.mem_map.mp h
      refine ⟨k, body, p, rfl, rfl, t, ht, rfl, ?_⟩
      rw [Entry.code_ofTagged, code_ofStatement t (by decide)]
      rfl

end LoadOrder

import LoadOrder.Proofs.Script.Code

namespace LoadOrder.Script

/-- No line is blank. -/
def Solid (s : List Char) : Prop :=
  ∀ piece ∈ Text.split Text.isNewline s, ∃ c ∈ piece, isGap c = false

theorem solid_of_piece {s : List Char} (hline : ∀ c ∈ s, c ≠ '\n') {c : Char} (hc : c ∈ s)
    (hgap : isGap c = false) : Solid s := by
  have hsplit := Text.split_of_forall_not fun c hc => Text.isNewline_eq_false (hline c hc)
  intro piece hpiece
  rw [hsplit, List.mem_singleton] at hpiece
  rw [hpiece]
  exact ⟨c, hc, hgap⟩

theorem Solid.newline {before after : List Char} (h : Solid before) (h' : Solid after) :
    Solid (before ++ '\n' :: after) := by
  intro piece hpiece
  rw [Text.split_append Text.isNewline_newline, List.mem_append] at hpiece
  exact hpiece.elim (h piece) (h' piece)

theorem Solid.prepend {line after : List Char} (hline : ∀ c ∈ line, c ≠ '\n') (h : Solid after) :
    Solid (line ++ after) := by
  obtain ⟨first, later, hafter, happend⟩ :=
    Text.exists_split_append (fun c hc => Text.isNewline_eq_false (hline c hc)) after
  intro piece hpiece
  rw [Solid, hafter, List.forall_mem_cons] at h
  rw [happend, List.mem_cons] at hpiece
  rcases hpiece with rfl | hpiece
  · obtain ⟨c, hc, hgap⟩ := h.1
    exact ⟨c, List.mem_append_right line hc, hgap⟩
  · exact h.2 piece hpiece

theorem Solid.indentation {after : List Char} (n : Nat) (h : Solid after) :
    Solid (List.replicate n '\t' ++ after) :=
  h.prepend fun c hc => by
    rw [List.eq_of_mem_replicate hc]
    decide

/-- No token goes over the end of a line. -/
def OnLines (tokens : List Token) : Prop := Everywhere (· ≠ '\n') tokens

/-- Neither newlines nor tabs nor carriage returns stand in a token. -/
def SingleLine (tokens : List Token) : Prop :=
  Everywhere (fun c => c ≠ '\n' ∧ c ≠ '\t' ∧ c ≠ '\r') tokens

instance (tokens : List Token) : Decidable (SingleLine tokens) :=
  decidable_of_iff (tokens.all fun t => t.source.toList.all fun c =>
    c != '\n' && c != '\t' && c != '\r') (by simp [SingleLine, Everywhere, and_assoc])

theorem SingleLine.onLines {tokens : List Token} (h : SingleLine tokens) : OnLines tokens :=
  fun t ht c hc => (h t ht c hc).1

theorem SingleLine.printable {tokens : List Token} (h : SingleLine tokens) : Printable tokens :=
  fun t ht c hc => (h t ht c hc).2

mutual

theorem solid_layout {s : Statement} (hw : ∀ t ∈ s.tree.tokens, t.WellFormed)
    (hl : OnLines s.tree.tokens) (indent : Nat) : Solid (s.layout indent) := by
  match s with
  | .leaf k a p =>
    rw [Statement.tree, Tree.tokens, OnLines, everywhere_append, everywhere_cons] at hl
    rw [Statement.tree, Tree.tokens, List.forall_mem_append] at hw
    obtain ⟨⟨c, more, hsource, hgap⟩, -⟩ := tight_atom (hw.2 _ List.mem_cons_self)
    have hatom : Solid a.source.toList :=
      solid_of_piece hl.2.1 (by rw [hsource]; exact List.mem_cons_self) hgap
    exact hatom.prepend (forall_headLayout (by decide) hl.1)
  | .clause k body p =>
    rw [Statement.tree, Tree.tokens, OnLines, everywhere_append, everywhere_cons,
      everywhere_append] at hl
    rw [Statement.tree, Tree.tokens, List.forall_mem_append, List.forall_mem_cons,
      List.forall_mem_append] at hw
    have hhead := forall_headLayout (P := (· ≠ '\n')) (by decide) hl.1
    refine (solid_clauseLayout hw.2.2.1 hl.2.2.1 indent).prepend hhead

theorem solid_clauseLayout {body : List Statement}
    (hw : ∀ t ∈ spelling (trees body), t.WellFormed) (hl : OnLines (spelling (trees body)))
    (indent : Nat) : Solid (clauseLayout indent body) := by
  match body with
  | [] =>
    rw [clauseLayout]
    exact solid_of_piece (by simp) (c := '\x7b') (by decide) (by decide)
  | s :: more =>
    have hopen : Solid ['\x7b'] := solid_of_piece (by simp) (c := '\x7b') (by decide) (by decide)
    have hclose : Solid ['\x7d'] := solid_of_piece (by simp) (c := '\x7d') (by decide) (by decide)
    have hlines := solid_linesLayout hw hl (indent + 1) (hclose.indentation indent)
    rw [clauseLayout_cons]
    simpa using hopen.newline hlines

theorem solid_linesLayout {statements : List Statement}
    (hw : ∀ t ∈ spelling (trees statements), t.WellFormed)
    (hl : OnLines (spelling (trees statements))) (indent : Nat) {after : List Char}
    (h : Solid after) : Solid (linesLayout indent statements ++ after) := by
  match statements with
  | [] => exact h
  | s :: more =>
    rw [trees, spelling, OnLines, everywhere_append] at hl
    rw [trees, spelling, List.forall_mem_append] at hw
    have hmore := solid_linesLayout hw.2 hl.2 indent h
    have hs := ((solid_layout hw.1 hl.1 indent).indentation indent).newline hmore
    simpa [linesLayout] using hs

end

/-- A statement whose code has the lines of its layout. -/
structure Statement.Plain (s : Statement) : Prop where
  spelled : s.Spelled
  onLines : OnLines s.tree.tokens

theorem newline_notMem_expandTab (c : Char) (h : c ≠ '\n') : '\n' ∉ expandTab c := by
  intro hmem
  unfold expandTab at hmem
  split at hmem
  · exact absurd hmem (by decide)
  · exact h (List.mem_singleton.mp hmem).symm

theorem Statement.Plain.solid_code {s : Statement} (h : s.Plain) : Solid s.code.toList := by
  rw [toList_code h.spelled.wellFormed h.spelled.printable]
  intro piece hpiece
  rw [Text.split_flatMap rfl newline_notMem_expandTab] at hpiece
  obtain ⟨line, hline, rfl⟩ := List.mem_map.mp hpiece
  obtain ⟨c, hc, hcgap⟩ := solid_layout h.spelled.wellFormed h.onLines 0 line hline
  refine ⟨c, List.mem_flatMap.mpr ⟨c, hc, ?_⟩, hcgap⟩
  rw [spacing_expandTab.keeps c hcgap]
  exact List.mem_singleton_self c

theorem Statement.Plain.body {k : Option Head} {body : List Statement} {p : Position}
    (h : (Statement.clause k body p).Plain) : ∀ s ∈ body, s.Plain := by
  intro s hs
  have hmem := tokens_of_mem_body (k := k) (p := p) hs
  exact ⟨h.spelled.body s hs, fun t ht => h.onLines t (hmem t ht)⟩

end LoadOrder.Script

import LoadOrder.Proofs.Script.Lines

/-!
Layouts cut at the end of a line. The two parts are read on their own, and whatever statements are
put between them become a part of the statement.
-/

namespace LoadOrder.Script

/-- A text that is read as some tokens, whatever follows it. -/
def Spells (text : List Char) (tokens : List Token) : Prop :=
  ∀ (rest : List Char) (more : List Token), Lexes rest more → Lexes (text ++ rest) (tokens ++ more)

theorem Spells.append {text text' : List Char} {tokens tokens' : List Token}
    (h : Spells text tokens) (h' : Spells text' tokens') :
    Spells (text ++ text') (tokens ++ tokens') := by
  intro rest more hrest
  rw [List.append_assoc, List.append_assoc]
  exact h _ _ (h' _ _ hrest)

theorem spells_gaps {gaps : List Char} (h : ∀ c ∈ gaps, isGap c) : Spells gaps [] :=
  fun _ _ hrest => hrest.gaps h

section Newlines

variable {x y u v : List Char}

theorem newline_cases (h : x ++ '\n' :: y = u ++ '\n' :: v) :
    (∃ w, x = u ++ '\n' :: w ∧ v = w ++ '\n' :: y) ∨ (u = x ∧ v = y) ∨
      ∃ w, u = x ++ '\n' :: w ∧ y = w ++ '\n' :: v := by
  rcases List.append_eq_append_iff.mp h with ⟨w, rfl, hy⟩ | ⟨w, rfl, hv⟩ <;> cases w
  · exact .inr (.inl ⟨by simp, (List.cons.inj hy).2.symm⟩)
  · obtain ⟨rfl, htail⟩ := List.cons.inj hy
    exact .inr (.inr ⟨_, rfl, htail⟩)
  · exact .inr (.inl ⟨by simp, (List.cons.inj hv).2⟩)
  · obtain ⟨rfl, htail⟩ := List.cons.inj hv
    exact .inl ⟨_, rfl, htail⟩

theorem newline_after (hx : ∀ c ∈ x, c ≠ '\n') (h : x ++ y = u ++ '\n' :: v) :
    ∃ w, u = x ++ w ∧ y = w ++ '\n' :: v := by
  rcases List.append_eq_append_iff.mp h with ⟨w, hu, hy⟩ | ⟨w, rfl, hv⟩
  · exact ⟨w, hu, hy⟩
  · cases w with
    | nil => exact ⟨[], by simp, by simpa using hv.symm⟩
    | cons c w =>
      obtain ⟨rfl, -⟩ := List.cons.inj hv
      exact absurd rfl (hx '\n' (by simp))

theorem newline_before (hy : ∀ c ∈ y, c ≠ '\n') (h : x ++ y = u ++ '\n' :: v) :
    ∃ w, x = u ++ '\n' :: w ∧ v = w ++ y := by
  rcases List.append_eq_append_iff.mp h with ⟨w, rfl, rfl⟩ | ⟨w, rfl, hv⟩
  · exact absurd rfl (hy '\n' (by simp))
  · cases w with
    | nil =>
      rw [List.nil_append] at hv
      exact absurd rfl (hy '\n' (by simp [← hv]))
    | cons c w =>
      obtain ⟨rfl, htail⟩ := List.cons.inj hv
      exact ⟨w, rfl, htail⟩

end Newlines

/-- The two parts of a text that is cut at the end of a line, read on their own. -/
structure Cut (g : Char → List Char) (u v : List Char) (before after : List Token) : Prop where
  before : Spells (u.flatMap g ++ ['\n']) before
  after : Spells (v.flatMap g) after

section Cuts

variable {g : Char → List Char}

theorem spells_newline : Spells ['\n'] [] := spells_gaps (by simp; decide)

theorem Spacing.spells (hg : Spacing g) {gaps : List Char} (h : ∀ c ∈ gaps, isGap c) :
    Spells (gaps.flatMap g) [] := by
  apply spells_gaps
  intro d hd
  obtain ⟨c, hc, hd⟩ := List.mem_flatMap.mp hd
  exact hg.gaps c (h c hc) d hd

theorem isGap_indentation (n : Nat) : ∀ c ∈ List.replicate n '\t', isGap c := by
  intro c hc
  rw [List.eq_of_mem_replicate hc]
  decide

theorem ne_newline_of_indentation (n : Nat) : ∀ c ∈ List.replicate n '\t', c ≠ '\n' := by
  intro c hc
  rw [List.eq_of_mem_replicate hc]
  decide

theorem spells_head (hg : Spacing g) (k : Option Head) (hw : ∀ t ∈ headTokens k, t.Stands g) :
    Spells ((headLayout k).flatMap g) (headTokens k) := fun _ _ hrest => hrest.spacedHead hg k hw

theorem spells_lines (hg : Spacing g) (statements : List Statement) (indent : Nat)
    (hw : ∀ t ∈ spelling (trees statements), t.Stands g) :
    Spells ((linesLayout indent statements).flatMap g) (spelling (trees statements)) :=
  fun _ _ hrest => hrest.spacedLines hg statements indent hw

theorem spells_line (hg : Spacing g) (s : Statement) (indent : Nat)
    (hw : ∀ t ∈ s.tree.tokens, t.Stands g) {gaps : List Char} (hne : gaps ≠ [])
    (hgaps : ∀ c ∈ gaps, isGap c) :
    Spells ((List.replicate indent '\t' ++ s.layout indent).flatMap g ++ gaps) s.tree.tokens := by
  intro rest more hrest
  obtain ⟨c, gaps, rfl⟩ := List.exists_cons_of_ne_nil hne
  have hparted : Parted (c :: gaps ++ rest) := parted_cons (hgaps c List.mem_cons_self) _
  have hs := (hrest.gaps hgaps).spacedLayout hg s indent hw hparted
  simpa using hs.spacedIndentation hg indent

theorem spells_braces (hg : Spacing g) (indent : Nat) :
    Spells (['\x7b'].flatMap g) [.opening] ∧
      Spells ((List.replicate indent '\t' ++ ['\x7d']).flatMap g) [.closing] := by
  have hopen : g '\x7b' = ['\x7b'] := hg.keeps _ (by decide)
  have hclose : g '\x7d' = ['\x7d'] := hg.keeps _ (by decide)
  constructor
  · rw [List.flatMap_singleton, hopen]
    exact fun _ _ hrest => hrest.opening
  · rw [List.flatMap_append, List.flatMap_singleton, hclose]
    exact (hg.spells (isGap_indentation indent)).append fun _ _ hrest => hrest.closing

mutual

/-- A statement cut at the end of a line is still one statement with others in the cut. -/
theorem exists_cut_layout (hg : Spacing g) (s : Statement) (indent : Nat)
    (hw : ∀ t ∈ s.tree.tokens, t.Stands g) (hl : OnLines s.tree.tokens) {u v : List Char}
    (h : s.layout indent = u ++ '\n' :: v) :
    ∃ before after, Cut g u v before after ∧
      ∀ forest, ∃ tree : Tree, tree.tokens = before ++ spelling forest ++ after := by
  have hmem : '\n' ∈ s.layout indent := by simp [h]
  match s with
  | .leaf k a p =>
    rw [Statement.tree, Tree.tokens, OnLines, everywhere_append, everywhere_cons] at hl
    rw [Statement.layout, List.mem_append] at hmem
    rcases hmem with hmem | hmem
    · exact absurd rfl (forall_headLayout (P := (· ≠ '\n')) (by decide) hl.1 _ hmem)
    · exact absurd rfl (hl.2.1 _ hmem)
  | .clause k [] p =>
    rw [Statement.tree, Tree.tokens, OnLines, everywhere_append] at hl
    rw [Statement.layout, clauseLayout, List.mem_append] at hmem
    rcases hmem with hmem | hmem
    · exact absurd rfl (forall_headLayout (P := (· ≠ '\n')) (by decide) hl.1 _ hmem)
    · exact absurd hmem (by decide)
  | .clause k (s :: more) p =>
    rw [Statement.tree, Tree.tokens, OnLines, everywhere_append, everywhere_cons,
      everywhere_append] at hl
    rw [Statement.tree, Tree.tokens, List.forall_mem_append, List.forall_mem_cons,
      List.forall_mem_append] at hw
    have hhead := spells_head hg k hw.1
    obtain ⟨hopening, hclosing⟩ := spells_braces hg indent
    have hfirst : ∀ c ∈ headLayout k ++ ['\x7b'], c ≠ '\n' := by
      rw [List.forall_mem_append]
      exact ⟨forall_headLayout (by decide) hl.1, by simp⟩
    have hlast : ∀ c ∈ List.replicate indent '\t' ++ ['\x7d'], c ≠ '\n' := by
      rw [List.forall_mem_append]
      exact ⟨ne_newline_of_indentation indent, by simp⟩
    have hlines : headLayout k ++ ['\x7b'] ++ '\n' :: (linesLayout (indent + 1) (s :: more) ++
        (List.replicate indent '\t' ++ ['\x7d'])) = u ++ '\n' :: v := by
      rw [← h, Statement.layout, clauseLayout_cons]
      simp
    -- the end of the line is the one behind the opening brace, or one of the statements'
    rcases newline_cases hlines with ⟨w, hcut, -⟩ | ⟨rfl, rfl⟩ | ⟨w, rfl, hcut⟩
    · exact absurd rfl (hfirst '\n' (by simp [hcut]))
    · refine ⟨headTokens k ++ [.opening], spelling (trees (s :: more)) ++ [.closing],
        ⟨?_, ?_⟩, fun forest => ⟨.clause k (forest ++ trees (s :: more)), ?_⟩⟩
      · simpa using (hhead.append hopening).append spells_newline
      · simpa using (spells_lines hg (s :: more) (indent + 1) hw.2.2.1).append hclosing
      · simp [Tree.tokens]
    · obtain ⟨w', hinside, rfl⟩ := newline_before hlast hcut
      obtain ⟨before, after, hparts, hroom⟩ :=
        exists_cut_lines hg (s :: more) (indent + 1) hw.2.2.1 hl.2.2.1 hinside
      have hnewline : Spells (['\n'].flatMap g) [] := hg.spells (by simp; decide)
      refine ⟨headTokens k ++ .opening :: before, after ++ [.closing], ⟨?_, ?_⟩, fun forest => ?_⟩
      · simpa using ((hhead.append hopening).append hnewline).append hparts.before
      · simpa using hparts.after.append hclosing
      · obtain ⟨forest', hforest⟩ := hroom forest
        exact ⟨.clause k forest', by simp [Tree.tokens, hforest]⟩

theorem exists_cut_lines (hg : Spacing g) (statements : List Statement) (indent : Nat)
    (hw : ∀ t ∈ spelling (trees statements), t.Stands g)
    (hl : OnLines (spelling (trees statements))) {u v : List Char}
    (h : linesLayout indent statements = u ++ '\n' :: v) :
    ∃ before after, Cut g u v before after ∧
      ∀ forest, ∃ forest', spelling forest' = before ++ spelling forest ++ after := by
  match statements with
  | [] => simp [linesLayout] at h
  | s :: more =>
    rw [trees, spelling, List.forall_mem_append] at hw
    rw [trees, spelling, OnLines, everywhere_append] at hl
    have hnewline : Spells (['\n'].flatMap g) [] := hg.spells (by simp; decide)
    have hmore := spells_lines hg more indent hw.2
    have hlines : List.replicate indent '\t' ++ s.layout indent ++ '\n' :: linesLayout indent more =
        u ++ '\n' :: v := by
      rw [← h, linesLayout]
    -- the cut is in the first statement, behind it, or in the others
    rcases newline_cases hlines with ⟨w, hcut, rfl⟩ | ⟨rfl, rfl⟩ | ⟨w, rfl, hcut⟩
    · obtain ⟨u', rfl, hinside⟩ := newline_after (ne_newline_of_indentation indent) hcut
      obtain ⟨before, after, hparts, hroom⟩ := exists_cut_layout hg s indent hw.1 hl.1 hinside
      refine ⟨before, after ++ spelling (trees more), ⟨?_, ?_⟩, fun forest => ?_⟩
      · simpa using (hg.spells (isGap_indentation indent)).append hparts.before
      · simpa using hparts.after.append (hnewline.append hmore)
      · obtain ⟨tree, htree⟩ := hroom forest
        exact ⟨tree :: trees more, by simp [spelling, htree]⟩
    · refine ⟨s.tree.tokens, spelling (trees more), ⟨?_, hmore⟩, fun forest => ?_⟩
      · exact spells_line hg s indent hw.1 (by simp) (by simp; decide)
      · exact ⟨s.tree :: (forest ++ trees more), by simp [spelling]⟩
    · obtain ⟨before, after, hparts, hroom⟩ := exists_cut_lines hg more indent hw.2 hl.2 hcut
      have hs := spells_line hg s indent hw.1 hg.newline (hg.gaps _ (by decide))
      refine ⟨s.tree.tokens ++ before, after, ⟨?_, hparts.after⟩, fun forest => ?_⟩
      · simpa using hs.append hparts.before
      · obtain ⟨forest', hforest⟩ := hroom forest
        exact ⟨s.tree :: forest', by simp [spelling, hforest]⟩

end

end Cuts

end LoadOrder.Script

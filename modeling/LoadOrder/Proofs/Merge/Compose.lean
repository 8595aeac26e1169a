import LoadOrder.Merge.Compose
import LoadOrder.Proofs.Script.Cut

namespace LoadOrder

open Script

def indentLine (width : Nat) (c : Char) : List Char :=
  if c = '\n' then '\n' :: List.replicate width ' ' else [c]

theorem flatMap_split_indented (width : Nat) (s : List Char) :
    (Text.split Text.isNewline s).flatMap (fun line => List.replicate width ' ' ++ line ++ ['\n']) =
      List.replicate width ' ' ++ s.flatMap (indentLine width) ++ ['\n'] := by
  induction s with
  | nil => simp [Text.split]
  | cons c s ih =>
    by_cases hc : c = '\n'
    · subst hc
      rw [Text.split, if_pos Text.isNewline_newline, List.flatMap_cons, ih]
      simp [indentLine]
    · obtain ⟨first, later, hs⟩ := List.exists_cons_of_ne_nil (Text.split_ne_nil Text.isNewline s)
      rw [hs, List.flatMap_cons] at ih
      rw [Text.split, if_neg (by simp [Text.isNewline, hc]), hs, Text.consFirst, List.flatMap_cons]
      simp only [List.append_assoc, List.append_cancel_left_eq] at ih
      simpa [indentLine, hc] using ih

theorem isBlankText_ofList {s : List Char} {c : Char} (hc : c ∈ s) (hgap : isGap c = false) :
    Text.isBlankText (String.ofList s) = false := by
  have hblank : Text.isBlank c = false := by
    rw [isGap, Bool.or_eq_false_iff] at hgap
    exact hgap.1
  simp only [Text.isBlankText, String.toList_ofList, List.all_eq_false]
  exact ⟨c, hc, by simp [hblank]⟩

theorem solidLines_code {s : Statement} (h : s.Plain) :
    solidLines s.code = (Text.split Text.isNewline s.code.toList).map String.ofList := by
  have hbare := bare_code h.spelled.wellFormed h.spelled.printable
  rw [solidLines, Text.linesOf, (Text.lines_eq_split hbare).1, List.filter_eq_self]
  intro line hline
  obtain ⟨piece, hpiece, rfl⟩ := List.mem_map.mp hline
  obtain ⟨c, hc, hgap⟩ := h.solid_code piece hpiece
  rw [isBlankText_ofList hc hgap]
  rfl

theorem toList_join_indented (width : Nat) (lines : List (List Char)) :
    (String.join ((lines.map String.ofList).map (indented width))).toList =
      lines.flatMap fun line => List.replicate width ' ' ++ line ++ ['\n'] := by
  rw [String.toList_join, List.map_map, List.flatMap_map]
  congr 1
  funext line
  simp [indented]

/-- The gaps of a statement's layout in the indented lines of its code. -/
def reindent (width : Nat) (c : Char) : List Char := (expandTab c).flatMap (indentLine width)

theorem indentLine_of_ne {width : Nat} {c : Char} (h : c ≠ '\n') : indentLine width c = [c] :=
  if_neg h

theorem spacing_reindent (width : Nat) : Spacing (reindent width) := by
  have hline (c : Char) (hc : isGap c) : ∀ d ∈ indentLine width c, isGap d := by
    unfold indentLine
    split
    · rw [List.forall_mem_cons]
      refine ⟨by decide, fun d hd => ?_⟩
      rw [List.eq_of_mem_replicate hd]
      decide
    · simpa using hc
  refine ⟨fun c hc => ?_, fun c hc d hd => ?_, ?_, ?_⟩
  · have hne : c ≠ '\n' := by
      rintro rfl
      exact absurd hc (by decide)
    rw [reindent, spacing_expandTab.keeps c hc, List.flatMap_singleton, indentLine_of_ne hne]
  · obtain ⟨e, he, hd⟩ := List.mem_flatMap.mp hd
    exact hline e (spacing_expandTab.gaps c hc e he) d hd
  · simp [reindent, expandTab, indentLine]
  · simp [reindent, expandTab, indentLine]

/-- A part of a layout as its lines, with spaces for tabs. -/
def expandedLines (s : List Char) : List String :=
  (Text.split Text.isNewline s).map fun line => String.ofList (line.flatMap expandTab)

theorem toList_join_expandedLines (width : Nat) (s : List Char) :
    (String.join ((expandedLines s).map (indented width))).toList =
      List.replicate width ' ' ++ s.flatMap (reindent width) ++ ['\n'] := by
  have hlines : expandedLines s =
      (Text.split Text.isNewline (s.flatMap expandTab)).map String.ofList := by
    rw [expandedLines, Text.split_flatMap rfl newline_notMem_expandTab, List.map_map]
    rfl
  rw [hlines, toList_join_indented, flatMap_split_indented, List.flatMap_assoc]
  rfl

theorem solidLines_eq_expandedLines {s : Statement} (h : s.Plain) :
    solidLines s.code = expandedLines (s.layout 0) := by
  rw [solidLines_code h, toList_code h.spelled.wellFormed h.spelled.printable,
    Text.split_flatMap rfl newline_notMem_expandTab, List.map_map]
  rfl

theorem toList_indentedLines_code (width : Nat) {s : Statement} (h : s.Plain) :
    (indentedLines width s.code).toList =
      List.replicate width ' ' ++ (s.layout 0).flatMap (reindent width) ++ ['\n'] := by
  rw [indentedLines, solidLines_eq_expandedLines h, toList_join_expandedLines]

/-- A text without carriage returns that is read as some tokens, whatever follows it. -/
structure Writes (text : List Char) (tokens : List Token) : Prop where
  spells : Spells text tokens
  plain : '\r' ∉ text

theorem Writes.append {text text' : List Char} {tokens tokens' : List Token}
    (h : Writes text tokens) (h' : Writes text' tokens') :
    Writes (text ++ text') (tokens ++ tokens') := by
  refine ⟨h.spells.append h'.spells, ?_⟩
  rw [List.mem_append, not_or]
  exact ⟨h.plain, h'.plain⟩

theorem writes_nil : Writes [] [] := ⟨spells_gaps (by simp), List.not_mem_nil⟩

theorem writes_newline : Writes ['\n'] [] := ⟨spells_newline, by decide⟩

theorem writes_spaces (width : Nat) : Writes (List.replicate width ' ') [] := by
  refine ⟨spells_gaps fun c hc => ?_, fun hc => ?_⟩
  · rw [List.eq_of_mem_replicate hc]
    decide
  · exact absurd (List.eq_of_mem_replicate hc) (by decide)

theorem return_notMem_reindent {width : Nat} {c : Char} (h : c ≠ '\r') :
    '\r' ∉ reindent width c := by
  intro hmem
  obtain ⟨d, hd, hline⟩ := List.mem_flatMap.mp hmem
  have hd' : d = '\r' := by
    unfold indentLine at hline
    split at hline
    · rcases List.mem_cons.mp hline with heq | hspace
      · exact absurd heq (by decide)
      · exact absurd (List.eq_of_mem_replicate hspace) (by decide)
    · exact (List.mem_singleton.mp hline).symm
  unfold expandTab at hd
  split at hd
  · rw [hd'] at hd
    exact absurd hd (by decide)
  · exact h ((List.mem_singleton.mp hd).symm.trans hd')

theorem return_notMem_flatMap {width : Nat} {s : List Char} (h : ∀ c ∈ s, c ≠ '\r') :
    '\r' ∉ s.flatMap (reindent width) := by
  rw [List.mem_flatMap]
  rintro ⟨c, hc, hreturn⟩
  exact return_notMem_reindent (h c hc) hreturn

namespace Script.Statement.Plain

variable {s : Statement}

theorem stands (h : s.Plain) (width : Nat) : ∀ t ∈ s.tree.tokens, t.Stands (reindent width) := by
  intro t ht
  refine ⟨h.spelled.wellFormed t ht, fun c hc => ?_⟩
  have htab := (h.spelled.printable t ht c hc).1
  rw [reindent, expandTab, if_neg htab, List.flatMap_singleton,
    indentLine_of_ne (h.onLines t ht c hc)]

theorem layout_ne_return (h : s.Plain) : ∀ c ∈ s.layout 0, c ≠ '\r' :=
  forall_layout (by decide) (by decide) (by decide) s 0
    fun t ht c hc => (h.spelled.printable t ht c hc).2

end Script.Statement.Plain

theorem writes_indentedLines (width : Nat) {s : Statement} (h : s.Plain) :
    Writes (indentedLines width s.code).toList s.tree.tokens := by
  have hnewline : ∀ c ∈ ['\n'], isGap c := by simp; decide
  have hspells : Spells ((s.layout 0).flatMap (reindent width) ++ ['\n']) s.tree.tokens := by
    simpa using spells_line (spacing_reindent width) s 0 (h.stands width) (by simp) hnewline
  have hreturn : '\r' ∉ (s.layout 0).flatMap (reindent width) ++ ['\n'] := by
    rw [List.mem_append, not_or]
    exact ⟨return_notMem_flatMap h.layout_ne_return, by decide⟩
  rw [toList_indentedLines_code width h, List.append_assoc]
  exact (writes_spaces width).append ⟨hspells, hreturn⟩

theorem writes_codes (width : Nat) {statements : List Statement} (h : ∀ s ∈ statements, s.Plain) :
    Writes (String.join ((statements.map Statement.code).map (indentedLines width))).toList
      (spelling (trees statements)) := by
  induction statements with
  | nil => exact writes_nil
  | cons s more ih =>
    rw [List.forall_mem_cons] at h
    rw [List.map_cons, List.map_cons, String.join_cons, String.toList_append, trees, spelling]
    exact (writes_indentedLines width h.1).append (ih h.2)

/-- The first line that closes a brace, if there is one, is the last line of its code. -/
def ClosesWhole : List String → Prop
  | [] => True
  | code :: rest =>
    match splitAtClosing? (solidLines code) with
    | none => ClosesWhole rest
    | some (_, _, after) => after = []

theorem closesWhole_cons (code : String) (rest : List String) :
    ClosesWhole (code :: rest) ↔
      (splitAtClosing? (solidLines code) = none → ClosesWhole rest) ∧
        ∀ parts ∈ splitAtClosing? (solidLines code), parts.2.2 = [] := by
  rw [ClosesWhole]
  cases splitAtClosing? (solidLines code) <;> simp

instance decidableClosesWhole : (codes : List String) → Decidable (ClosesWhole codes)
  | [] => .isTrue trivial
  | code :: rest =>
    have := decidableClosesWhole rest
    decidable_of_iff' _ (closesWhole_cons code rest)

theorem eq_of_splitAtClosing? {lines before after : List String} {closing : String}
    (h : splitAtClosing? lines = some (before, closing, after)) :
    lines = before ++ closing :: after := by
  induction lines generalizing before with
  | nil => cases h
  | cons line rest ih =>
    rw [splitAtClosing?] at h
    split at h
    · cases h
      rfl
    · obtain ⟨⟨before', closing', after'⟩, hrest, heq⟩ := Option.map_eq_some_iff.mp h
      cases heq
      rw [ih hrest, List.cons_append]

theorem splitAtClosing?_append (lines lines' : List String) :
    splitAtClosing? (lines ++ lines') =
      match splitAtClosing? lines with
      | some (before, closing, after) => some (before, closing, after ++ lines')
      | none => (splitAtClosing? lines').map fun (before, closing, after) =>
          (lines ++ before, closing, after) := by
  induction lines with
  | nil => simp [splitAtClosing?]
  | cons line rest ih =>
    rw [List.cons_append, splitAtClosing?, splitAtClosing?, ih]
    split
    · rfl
    · cases splitAtClosing? rest <;> simp [Function.comp_def]

theorem exists_append_of_closesWhole {codes : List String} (h : ClosesWhole codes)
    {before after : List String} {closing : String}
    (hsplit : splitAtClosing? (codes.flatMap solidLines) = some (before, closing, after)) :
    ∃ front back, codes = front ++ back ∧ front.flatMap solidLines = before ++ [closing] ∧
      back.flatMap solidLines = after := by
  induction codes generalizing before with
  | nil => cases hsplit
  | cons code rest ih =>
    rw [List.flatMap_cons, splitAtClosing?_append] at hsplit
    rw [ClosesWhole] at h
    cases hcode : splitAtClosing? (solidLines code) with
    | none =>
      simp only [hcode] at h hsplit
      obtain ⟨⟨before', closing', after'⟩, hrest, heq⟩ := Option.map_eq_some_iff.mp hsplit
      cases heq
      obtain ⟨front, back, rfl, hfront, hback⟩ := ih h hrest
      refine ⟨code :: front, back, rfl, ?_, hback⟩
      rw [List.flatMap_cons, hfront, List.append_assoc]
    | some parts =>
      obtain ⟨before', closing', after'⟩ := parts
      simp only [hcode] at h hsplit
      cases hsplit
      refine ⟨[code], rest, rfl, ?_, by rw [h, List.nil_append]⟩
      rw [List.flatMap_singleton, eq_of_splitAtClosing? hcode, h]

theorem join_map_indented (width : Nat) (codes : List String) :
    String.join ((codes.flatMap solidLines).map (indented width)) =
      String.join (codes.map (indentedLines width)) := by
  apply String.toList_injective
  induction codes with
  | nil => rfl
  | cons code rest ih =>
    rw [List.map_cons, String.join_cons, String.toList_append, ← ih, List.flatMap_cons,
      List.map_append, String.join_append, String.toList_append]
    rfl

theorem join_map_append (f : String → String) (lines lines' : List String) :
    String.join ((lines ++ lines').map f) =
      String.join (lines.map f) ++ String.join (lines'.map f) := by
  rw [List.map_append, String.join_append]

/-- The body of a block is read as its statements. What supports the others stays between them if
the first line that closes a brace is the last of its code. -/
theorem writes_blockBody {support bodies : List Statement} (hsupport : ∀ s ∈ support, s.Plain)
    (hbodies : ∀ s ∈ bodies, s.Plain)
    (hcloses : support ≠ [] → ClosesWhole (bodies.map Statement.code)) :
    ∃ statements, statements.Perm (support ++ bodies) ∧
      Writes (blockBody (support.map Statement.code) (bodies.map Statement.code)).toList
        (spelling (trees statements)) := by
  have hall := writes_codes 4 hbodies
  rw [← join_map_indented] at hall
  unfold blockBody
  cases hsplit : splitAtClosing? ((bodies.map Statement.code).flatMap solidLines) with
  | none =>
    refine ⟨support ++ bodies, .refl _, ?_⟩
    simp only [hsplit]
    rw [String.toList_append, trees_append, spelling_append]
    exact (writes_codes 4 hsupport).append hall
  | some parts =>
    obtain ⟨before, closing, after⟩ := parts
    simp only [hsplit]
    by_cases hnone : support = []
    · refine ⟨bodies, by rw [hnone]; exact .refl _, ?_⟩
      rw [eq_of_splitAtClosing? hsplit, List.append_cons, join_map_append] at hall
      simpa [hnone] using hall
    · obtain ⟨front, back, hcodes, hfront, hback⟩ :=
        exists_append_of_closesWhole (hcloses hnone) hsplit
      obtain ⟨front, back, rfl, rfl, rfl⟩ := List.map_eq_append_iff.mp hcodes
      rw [List.forall_mem_append] at hbodies
      refine ⟨front ++ support ++ back, ?_, ?_⟩
      · rw [← List.append_assoc]
        exact List.perm_append_comm.append_right back
      · rw [← hfront, ← hback, join_map_indented, join_map_indented, String.toList_append,
          String.toList_append, trees_append, trees_append, spelling_append, spelling_append]
        exact ((writes_codes 4 hbodies.1).append (writes_codes 8 hsupport)).append
          (writes_codes 4 hbodies.2)

theorem exists_cut_of_splitAtClosing? {s : Statement} (h : s.Plain) {before after : List String}
    {closing : String}
    (hsplit : splitAtClosing? (solidLines s.code) = some (before, closing, after))
    (hne : after ≠ []) :
    ∃ u v, s.layout 0 = u ++ '\n' :: v ∧ expandedLines u = before ++ [closing] ∧
      expandedLines v = after := by
  have hlines := eq_of_splitAtClosing? hsplit
  rw [solidLines_eq_expandedLines h, List.append_cons, expandedLines] at hlines
  obtain ⟨pieces, pieces', hpieces, hbefore, hafter⟩ := List.map_eq_append_iff.mp hlines
  have hsome : pieces ≠ [] := by
    rintro rfl
    simp at hbefore
  have hsome' : pieces' ≠ [] := by
    rintro rfl
    exact hne hafter.symm
  obtain ⟨u, v, huv, rfl, rfl⟩ :=
    Text.exists_of_split_eq_append Text.isNewline_iff hsome hsome' hpieces
  exact ⟨u, v, huv, hbefore, hafter⟩

theorem exists_of_not_closesWhole {statements : List Statement}
    (h : ¬ClosesWhole (statements.map Statement.code)) :
    ∃ front s back before closing after, statements = front ++ s :: back ∧
      splitAtClosing? (solidLines s.code) = some (before, closing, after) ∧ after ≠ [] ∧
      splitAtClosing? ((statements.map Statement.code).flatMap solidLines) =
        some ((front.map Statement.code).flatMap solidLines ++ before, closing,
          after ++ (back.map Statement.code).flatMap solidLines) := by
  induction statements with
  | nil => exact absurd trivial h
  | cons s more ih =>
    rw [List.map_cons, closesWhole_cons] at h
    rw [List.map_cons, List.flatMap_cons, splitAtClosing?_append]
    cases hs : splitAtClosing? (solidLines s.code) with
    | none =>
      have hmore : ¬ClosesWhole (more.map Statement.code) := by simpa [hs] using h
      obtain ⟨front, t, back, before, closing, after, rfl, ht, hafter, hsplit⟩ := ih hmore
      refine ⟨s :: front, t, back, before, closing, after, rfl, ht, hafter, ?_⟩
      simp only [hsplit, Option.map_some, List.map_cons, List.flatMap_cons, List.append_assoc]
    | some parts =>
      obtain ⟨before, closing, after⟩ := parts
      have hafter : after ≠ [] := by simpa [hs] using h
      exact ⟨[], s, more, before, closing, after, rfl, hs, hafter, rfl⟩

/-- If the first closing line is not the last of its code, the support is put into the statement of
the code, and the body is read as no more statements than there are others. -/
theorem writes_blockBody_of_not_closesWhole {support bodies : List Statement}
    (hsupport : ∀ s ∈ support, s.Plain) (hbodies : ∀ s ∈ bodies, s.Plain)
    (h : ¬ClosesWhole (bodies.map Statement.code)) :
    ∃ forest, forest.length = bodies.length ∧
      Writes (blockBody (support.map Statement.code) (bodies.map Statement.code)).toList
        (spelling forest) := by
  obtain ⟨front, s, back, before, closing, after, rfl, hs, hafter, hsplit⟩ :=
    exists_of_not_closesWhole h
  rw [List.forall_mem_append, List.forall_mem_cons] at hbodies
  obtain ⟨hfront, hplain, hback⟩ := hbodies
  obtain ⟨u, v, huv, hu, hv⟩ := exists_cut_of_splitAtClosing? hplain hs hafter
  obtain ⟨start, rest, hcut, hroom⟩ :=
    exists_cut_layout (spacing_reindent 4) s 0 (hplain.stands 4) hplain.onLines huv
  obtain ⟨tree, htree⟩ := hroom (trees support)
  have hreturn := hplain.layout_ne_return
  rw [huv, List.forall_mem_append, List.forall_mem_cons] at hreturn
  have hstart : Writes (String.join ((before ++ [closing]).map (indented 4))).toList start := by
    rw [← hu, toList_join_expandedLines, List.append_assoc]
    refine (writes_spaces 4).append ⟨hcut.before, ?_⟩
    simpa using return_notMem_flatMap hreturn.1
  have hrest : Writes (String.join (after.map (indented 4))).toList rest := by
    have hend : Writes (v.flatMap (reindent 4)) rest :=
      ⟨hcut.after, return_notMem_flatMap hreturn.2.2⟩
    rw [← hv, toList_join_expandedLines]
    simpa using ((writes_spaces 4).append hend).append writes_newline
  refine ⟨trees front ++ tree :: trees back, by simp [trees_eq_map], ?_⟩
  have hfirst := writes_codes 4 hfront
  have hlast := writes_codes 4 hback
  rw [← join_map_indented] at hfirst hlast
  simp only [blockBody, hsplit, List.append_assoc, join_map_append, String.toList_append]
  have htokens : spelling (trees front ++ tree :: trees back) =
      spelling (trees front) ++ (start ++ (spelling (trees support) ++
        (rest ++ spelling (trees back)))) := by
    simp [spelling, htree]
  rw [join_map_append, String.toList_append] at hstart
  have hbody :=
    hfirst.append (hstart.append ((writes_codes 8 hsupport).append (hrest.append hlast)))
  rw [htokens]
  simpa only [List.append_assoc] using hbody

theorem trimmed_of_tight {text : String} (h : Tight text.toList) : Text.trimmed text = text := by
  have hblank {c : Char} (hc : isGap c = false) : Text.isBlank c = false := by
    rw [isGap, Bool.or_eq_false_iff] at hc
    exact hc.1
  obtain ⟨⟨c, rest, hstart, hc⟩, before, d, hend, hd⟩ := h
  have htrim : Text.trimStart text.toList = text.toList := by
    rw [hstart, Text.trimStart, List.dropWhile_cons, hblank hc]
    rfl
  apply String.toList_injective
  rw [Text.trimmed, String.toList_ofList, Text.trim, htrim, hend, Text.dropEndWhile,
    List.reverse_append, List.reverse_singleton, List.singleton_append, List.dropWhile_cons,
    hblank hd]
  simp

theorem closingOf?_brace : closingOf? "\x7b" = some "\x7d" := by
  decide

theorem writes_blockText {k : Atom} (hk : k.WellFormed) (hreturn : '\r' ∉ k.source.toList)
    {support bodies : List String} {forest : List Tree}
    (hbody : Writes (blockBody support bodies).toList (spelling forest)) :
    ∃ text, (blockText k.source "\x7b" support bodies).toList = text ++ ['\x7d', '\n'] ∧
      Writes (text ++ ['\x7d']) (Tree.clause (some ⟨k, .equal⟩) forest).tokens := by
  refine ⟨k.source.toList ++ [' ', '=', ' ', '\x7b', '\n'] ++ (blockBody support bodies).toList,
    ?_, ?_⟩
  · have hbrace : Text.trimmed "\x7b" = "\x7b" := by decide
    have hstart : " = ".toList ++ "\x7b".toList ++ "\n".toList =
        [' ', '=', ' ', '\x7b', '\n'] := rfl
    simp only [blockText, closingOf?_brace, hbrace, String.toList_append, List.append_assoc,
      ← hstart]
    rfl
  · constructor
    · intro rest more hrest
      have hclause := ((hbody.spells _ _ hrest.closing).gap (c := '\n') (by decide)).opening
      have hparted (s : List Char) : Parted (' ' :: s) := parted_cons (by decide) s
      have hoperator := (hclause.gap (c := ' ') (by decide)).operator .equal (hparted _)
      have hkey := (hoperator.gap (c := ' ') (by decide)).atom hk (hparted _)
      simpa [Tree.tokens, headTokens, Operator.text] using hkey
    · simpa [hreturn] using hbody.plain

end LoadOrder

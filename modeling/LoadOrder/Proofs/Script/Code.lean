import LoadOrder.Proofs.Script.Rejoined

namespace LoadOrder.Script

def expandTab (c : Char) : List Char := if c = '\t' then [' ', ' ', ' ', ' '] else [c]

theorem spacing_expandTab : Spacing expandTab := by
  refine ⟨fun c hc => ?_, fun c hc d hd => ?_, by decide, by decide⟩
  · unfold expandTab
    rw [if_neg]
    rintro rfl
    exact absurd hc (by decide)
  · unfold expandTab at hd
    split at hd
    · simp only [List.mem_cons, List.not_mem_nil, or_false, or_self] at hd
      rw [hd]
      decide
    · rw [List.mem_singleton] at hd
      rwa [hd]

def Printable (tokens : List Token) : Prop := Everywhere (fun c => c ≠ '\t' ∧ c ≠ '\r') tokens

instance (tokens : List Token) : Decidable (Printable tokens) :=
  decidable_of_iff (tokens.all fun t => t.source.toList.all fun c => c != '\t' && c != '\r')
    (by simp [Printable, Everywhere])

/-- No tab and no carriage return stands between the quotes, if the token has any. -/
def Token.Untabbed : Token → Prop
  | .atom (.quoted text) => '\t' ∉ text.toList ∧ '\r' ∉ text.toList
  | _ => True

instance : DecidablePred Token.Untabbed
  | .atom (.quoted _) => inferInstanceAs (Decidable (_ ∧ _))
  | .atom (.word _) => .isTrue trivial
  | .operator _ => .isTrue trivial
  | .opening => .isTrue trivial
  | .closing => .isTrue trivial

theorem printable_of_untabbed {tokens : List Token} (hw : ∀ t ∈ tokens, t.WellFormed)
    (h : ∀ t ∈ tokens, t.Untabbed) : Printable tokens := by
  have hsolid {c : Char} (hc : isGap c = false) : c ≠ '\t' ∧ c ≠ '\r' := by
    constructor
    · rintro rfl
      exact absurd hc (by decide)
    · rintro rfl
      exact absurd hc (by decide)
  intro t ht c hc
  cases t with
  | atom a =>
    cases a with
    | word text =>
      have hword := (hw _ ht).2 c hc
      simp only [isWordChar, Bool.and_eq_true, Bool.not_eq_true'] at hword
      exact hsolid (by simp [hword])
    | quoted text =>
      obtain ⟨htab, hreturn⟩ := h _ ht
      have hcases : c = '"' ∨ c ∈ text.toList := by
        simp only [Token.source, Atom.source, String.toList_append, List.mem_append] at hc
        simpa [or_comm, or_assoc] using hc
      rcases hcases with rfl | hmem
      · decide
      · exact ⟨fun heq => htab (heq ▸ hmem), fun heq => hreturn (heq ▸ hmem)⟩
  | operator o => exact hsolid (not_isGap_of_all (by cases o <;> decide) c hc)
  | opening => exact hsolid (not_isGap_of_all (by decide) c hc)
  | closing => exact hsolid (not_isGap_of_all (by decide) c hc)

theorem stripEnds_of_ne {c : Char} {s : List Char} (hfirst : s.head? ≠ some c)
    (hlast : s.getLast? ≠ some c) : stripEnds c s = s := by
  have hstart : s.dropWhile (· == c) = s := by
    cases s with
    | nil => rfl
    | cons d s =>
      have hd : (d == c) = false := beq_false_of_ne fun h => hfirst (by rw [h]; rfl)
      rw [List.dropWhile_cons, hd]
      rfl
  have hend : ∀ d ∈ s.getLast?, (d == c) = false := by
    intro d hd
    apply beq_false_of_ne
    rintro rfl
    exact hlast hd
  rw [stripEnds, hstart, Text.dropEndWhile_eq_self hend]

theorem toList_code {s : Statement} (hw : ∀ t ∈ s.tree.tokens, t.WellFormed)
    (hp : Printable s.tree.tokens) : s.code.toList = (s.layout 0).flatMap expandTab := by
  have hreturn : (s.layout 0).filter (· != '\r') = s.layout 0 := by
    rw [List.filter_eq_self]
    have hall := forall_layout (P := (· ≠ '\r')) (by decide) (by decide) (by decide) s 0
      fun t ht c hc => (hp t ht c hc).2
    simpa using hall
  have htight := tight_layout hw 0
  have hstrip : stripEnds '\n' (s.layout 0) = s.layout 0 :=
    stripEnds_of_ne (htight.head?_ne (by decide)) (htight.getLast?_ne (by decide))
  unfold Statement.code
  rw [hreturn, hstrip, String.toList_ofList]
  rfl

theorem Tight.flatMap {g : Char → List Char} (hg : Spacing g) {s : List Char} (h : Tight s) :
    Tight (s.flatMap g) := by
  obtain ⟨⟨c, rest, hc, hgap⟩, ⟨before, d, hd, hgap'⟩⟩ := h
  constructor
  · refine ⟨c, rest.flatMap g, ?_, hgap⟩
    rw [hc, List.flatMap_cons, hg.keeps c hgap]
    rfl
  · refine ⟨before.flatMap g, d, ?_, hgap'⟩
    rw [hd, List.flatMap_append]
    simp [hg.keeps d hgap']

theorem stands_of_printable {tokens : List Token} (hw : ∀ t ∈ tokens, t.WellFormed)
    (hp : Printable tokens) : ∀ t ∈ tokens, t.Stands expandTab :=
  fun t ht => ⟨hw t ht, fun c hc => if_neg (hp t ht c hc).1⟩

theorem bare_code {s : Statement} (hw : ∀ t ∈ s.tree.tokens, t.WellFormed)
    (hp : Printable s.tree.tokens) : Text.Bare s.code.toList := by
  have htight := (tight_layout hw 0).flatMap spacing_expandTab
  rw [← toList_code hw hp] at htight
  refine ⟨?_, ?_, htight.getLast?_ne (by decide)⟩
  · obtain ⟨⟨c, rest, hc, -⟩, -⟩ := htight
    rw [hc]
    exact List.cons_ne_nil c rest
  · rw [toList_code hw hp, List.mem_flatMap]
    rintro ⟨c, hc, hreturn⟩
    have hall := forall_layout (P := (· ≠ '\r')) (by decide) (by decide) (by decide) s 0
      fun t ht c hc => (hp t ht c hc).2
    unfold expandTab at hreturn
    split at hreturn
    · exact absurd hreturn (by decide)
    · rw [List.mem_singleton] at hreturn
      exact hall c hc hreturn.symm

theorem lexes_code {s : Statement} (hw : ∀ t ∈ s.tree.tokens, t.WellFormed)
    (hp : Printable s.tree.tokens) : Lexes s.code.toList s.tree.tokens := by
  rw [toList_code hw hp]
  simpa using Lexes.nil.spacedLayout spacing_expandTab s 0 (stands_of_printable hw hp) parted_nil

structure Statement.Readable (s : Statement) : Prop where
  wellFormed : ∀ t ∈ s.tree.tokens, t.WellFormed
  shallow : s.tree.nesting ≤ maxDepth

theorem readable_of_parse {text : String} {statements : List Statement}
    (h : parse text = .ok statements) {s : Statement} (hs : s ∈ statements) : s.Readable := by
  have htree := tree_mem_trees hs
  have hwell : ∀ t ∈ s.tree.tokens, t.WellFormed := fun t ht =>
    spelling_wellFormed h t (mem_spelling.mpr ⟨s.tree, htree, ht⟩)
  obtain ⟨_, _, hread⟩ := exists_tokens_of_parse h
  have hnesting := (spelling_of_ofTokens hread).2
  exact ⟨hwell, nesting_le_iff.mp hnesting _ htree⟩

theorem Statement.Readable.body {k : Option Head} {body : List Statement} {p : Position}
    (h : (Statement.clause k body p).Readable) : ∀ s ∈ body, s.Readable := by
  intro s hs
  have hmem := tokens_of_mem_body (k := k) (p := p) hs
  have hshallow := Nat.le_trans (Nat.le_of_lt (nesting_of_mem_body hs)) h.shallow
  exact ⟨fun t ht => h.wellFormed t (hmem t ht), hshallow⟩

/-- A statement that is read again from its code. -/
structure Statement.Spelled (s : Statement) : Prop where
  wellFormed : ∀ t ∈ s.tree.tokens, t.WellFormed
  printable : Printable s.tree.tokens
  shallow : s.tree.nesting ≤ maxDepth

theorem Statement.Readable.spelled {s : Statement} (h : s.Readable)
    (hp : Printable s.tree.tokens) : s.Spelled :=
  ⟨h.wellFormed, hp, h.shallow⟩

theorem Statement.Spelled.readable {s : Statement} (h : s.Spelled) : s.Readable :=
  ⟨h.wellFormed, h.shallow⟩

theorem spelled_of_parse {text : String} {statements : List Statement}
    (h : parse text = .ok statements) {s : Statement} (hs : s ∈ statements)
    (hp : Printable s.tree.tokens) : s.Spelled :=
  (readable_of_parse h hs).spelled hp

theorem Statement.Spelled.body {k : Option Head} {body : List Statement} {p : Position}
    (h : (Statement.clause k body p).Spelled) : ∀ s ∈ body, s.Spelled := by
  intro s hs
  have hmem := tokens_of_mem_body (k := k) (p := p) hs
  exact (h.readable.body s hs).spelled fun t ht => h.printable t (hmem t ht)

theorem Statement.Spelled.says_code {s : Statement} (h : s.Spelled) : Says s.code [s.tree] := by
  have hlexes : Lexes s.code.toList (spelling [s.tree]) := by
    rw [spelling_singleton]
    exact lexes_code h.wellFormed h.printable
  exact says_of_lexes hlexes (by simpa [nesting] using h.shallow)

/-- The lines of a statement's code are read as the statement, up to its place. -/
theorem Statement.Spelled.parse_code {s : Statement} (h : s.Spelled) :
    ∃ again, parse (Text.join "\n" (Text.linesOf s.code)) = .ok [again] ∧ again.tree = s.tree := by
  have hreturn : Everywhere (· ≠ '\r') (spelling [s.tree]) := by
    rw [spelling_singleton]
    exact fun t ht c hc => (h.printable t ht c hc).2
  obtain ⟨statements, hparse, htrees⟩ := h.says_code.linesOf hreturn
  rw [trees_eq_map, List.map_eq_singleton_iff] at htrees
  obtain ⟨again, rfl, htree⟩ := htrees
  exact ⟨again, hparse, htree⟩

end LoadOrder.Script

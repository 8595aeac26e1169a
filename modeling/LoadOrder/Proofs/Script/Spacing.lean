import LoadOrder.Proofs.Script.Lexing
import LoadOrder.Proofs.Script.Reading

namespace LoadOrder.Script

/-- A replacement of gaps by gaps. Spaces and newlines, which part tokens, stay gaps. -/
structure Spacing (g : Char → List Char) : Prop where
  keeps : ∀ c, isGap c = false → g c = [c]
  gaps : ∀ c, isGap c → ∀ d ∈ g c, isGap d
  space : g ' ' ≠ []
  newline : g '\n' ≠ []

theorem spacing_id : Spacing fun c => [c] := by
  refine ⟨fun _ _ => rfl, fun c hc d hd => ?_, by simp, by simp⟩
  rw [List.mem_singleton] at hd
  rwa [hd]

/-- A token that can be written out, and whose text a replacement leaves as it is. -/
def Token.Stands (g : Char → List Char) (t : Token) : Prop :=
  t.WellFormed ∧ ∀ c ∈ t.source.toList, g c = [c]

theorem flatMap_of_forall_eq {g : Char → List Char} {s : List Char} (h : ∀ c ∈ s, g c = [c]) :
    s.flatMap g = s := by
  induction s with
  | nil => rfl
  | cons c s ih =>
    rw [List.forall_mem_cons] at h
    rw [List.flatMap_cons, h.1, ih h.2, List.singleton_append]

theorem stands_id {t : Token} (h : t.WellFormed) : t.Stands fun c => [c] := ⟨h, fun _ _ => rfl⟩

section Spaced

variable {g : Char → List Char} {rest : List Char} {tokens : List Token}

theorem Lexes.spaced (hg : Spacing g) {c : Char} (hc : isGap c) (h : Lexes rest tokens) :
    Lexes (g c ++ rest) tokens := h.gaps (hg.gaps c hc)

theorem Spacing.parted (hg : Spacing g) {c : Char} (hc : isGap c) (hne : g c ≠ [])
    (rest : List Char) : Parted (g c ++ rest) := by
  obtain ⟨d, ds, hd⟩ := List.exists_cons_of_ne_nil hne
  rw [hd]
  exact parted_cons (hg.gaps c hc d (by rw [hd]; exact List.mem_cons_self)) _

theorem Lexes.spacedIndentation (hg : Spacing g) (n : Nat) (h : Lexes rest tokens) :
    Lexes ((List.replicate n '\t').flatMap g ++ rest) tokens := by
  refine h.gaps fun d hd => ?_
  obtain ⟨c, hc, hd⟩ := List.mem_flatMap.mp hd
  obtain rfl := List.eq_of_mem_replicate hc
  exact hg.gaps _ (by decide) d hd

theorem Lexes.spacedAtom {a : Atom} (ha : (Token.atom a).Stands g) (hp : Parted rest)
    (h : Lexes rest tokens) : Lexes (a.source.toList.flatMap g ++ rest) (.atom a :: tokens) := by
  have htext : a.source.toList.flatMap g = a.source.toList := flatMap_of_forall_eq ha.2
  rw [htext]
  exact h.atom ha.1 hp

theorem operator_flatMap (hg : Spacing g) (o : Operator) :
    o.text.toList.flatMap g = o.text.toList := by
  have hsolid : (o.text.toList.all fun c => !isGap c) = true := by cases o <;> decide
  apply flatMap_of_forall_eq
  intro c hc
  apply hg.keeps
  simpa using List.all_eq_true.mp hsolid c hc

theorem Lexes.spacedHead (hg : Spacing g) (k : Option Head)
    (hw : ∀ t ∈ headTokens k, t.Stands g) (h : Lexes rest tokens) :
    Lexes ((headLayout k).flatMap g ++ rest) (headTokens k ++ tokens) := by
  cases k with
  | none => exact h
  | some k =>
    -- from the right: every token is read in front of what is read already
    have hparted := hg.parted (c := ' ') (by decide) hg.space
    have ho : Lexes (k.operator.text.toList ++ (g ' ' ++ rest)) (.operator k.operator :: tokens) :=
      (h.spaced hg (by decide)).operator k.operator (hparted rest)
    have hk := (ho.spaced hg (c := ' ') (by decide)).spacedAtom (hw _ List.mem_cons_self)
      (hparted _)
    simpa [headLayout, Head.layout, headTokens, operator_flatMap hg] using hk

mutual

theorem Lexes.spacedLayout (hg : Spacing g) (s : Statement) (indent : Nat)
    (hw : ∀ t ∈ s.tree.tokens, t.Stands g) {rest : List Char} {tokens : List Token}
    (hp : Parted rest) (h : Lexes rest tokens) :
    Lexes ((s.layout indent).flatMap g ++ rest) (s.tree.tokens ++ tokens) := by
  match s with
  | .leaf k a p =>
    rw [Statement.tree, Tree.tokens, List.forall_mem_append] at hw
    have ha := h.spacedAtom (hw.2 _ List.mem_cons_self) hp
    simpa [Statement.layout, Statement.tree, Tree.tokens] using ha.spacedHead hg k hw.1
  | .clause k body p =>
    rw [Statement.tree, Tree.tokens, List.forall_mem_append, List.forall_mem_cons,
      List.forall_mem_append] at hw
    have hb := h.spacedClause hg body indent hw.2.2.1
    simpa [Statement.layout, Statement.tree, Tree.tokens] using hb.spacedHead hg k hw.1

theorem Lexes.spacedClause (hg : Spacing g) (body : List Statement) (indent : Nat)
    (hw : ∀ t ∈ spelling (trees body), t.Stands g) {rest : List Char} {tokens : List Token}
    (h : Lexes rest tokens) :
    Lexes ((clauseLayout indent body).flatMap g ++ rest)
      (.opening :: (spelling (trees body) ++ .closing :: tokens)) := by
  have hopen : g '\x7b' = ['\x7b'] := hg.keeps _ (by decide)
  have hclose : g '\x7d' = ['\x7d'] := hg.keeps _ (by decide)
  match body with
  | [] =>
    simpa [clauseLayout, hopen, hclose, trees, spelling] using
      (h.closing.spaced hg (c := ' ') (by decide)).opening
  | s :: more =>
    have hlines :=
      (h.closing.spacedIndentation hg indent).spacedLines hg (s :: more) (indent + 1) hw
    rw [clauseLayout_cons]
    simpa [hopen, hclose] using (hlines.spaced hg (c := '\n') (by decide)).opening

theorem Lexes.spacedLines (hg : Spacing g) (statements : List Statement) (indent : Nat)
    (hw : ∀ t ∈ spelling (trees statements), t.Stands g) {rest : List Char} {tokens : List Token}
    (h : Lexes rest tokens) :
    Lexes ((linesLayout indent statements).flatMap g ++ rest)
      (spelling (trees statements) ++ tokens) := by
  match statements with
  | [] => exact h
  | s :: more =>
    rw [trees, spelling, List.forall_mem_append] at hw
    have hmore := (h.spacedLines hg more indent hw.2).spaced hg (c := '\n') (by decide)
    have hs := hmore.spacedLayout hg s indent hw.1 (hg.parted (by decide) hg.newline _)
    simpa [linesLayout, trees, spelling] using hs.spacedIndentation hg indent

end

end Spaced

/-- A layout is read as the tokens of its statement. -/
theorem Lexes.layout (s : Statement) (indent : Nat) (hw : ∀ t ∈ s.tree.tokens, t.WellFormed)
    {rest : List Char} {tokens : List Token} (hp : Parted rest) (h : Lexes rest tokens) :
    Lexes (s.layout indent ++ rest) (s.tree.tokens ++ tokens) := by
  simpa using h.spacedLayout spacing_id s indent (fun t ht => stands_id (hw t ht)) hp

/-- A text that begins and ends in a token. -/
def Tight (s : List Char) : Prop :=
  (∃ c rest, s = c :: rest ∧ isGap c = false) ∧ ∃ before c, s = before ++ [c] ∧ isGap c = false

theorem tight_of_ends {c d : Char} (hc : isGap c = false) (hd : isGap d = false)
    (middle : List Char) : Tight (c :: (middle ++ [d])) :=
  ⟨⟨c, _, rfl, hc⟩, c :: middle, d, rfl, hd⟩

theorem tight_of_forall {s : List Char} (hne : s ≠ []) (h : ∀ c ∈ s, isGap c = false) :
    Tight s := by
  constructor
  · obtain ⟨c, rest, rfl⟩ := List.exists_cons_of_ne_nil hne
    exact ⟨c, rest, rfl, h c List.mem_cons_self⟩
  · refine ⟨s.dropLast, s.getLast hne, (List.dropLast_concat_getLast hne).symm, ?_⟩
    exact h _ (List.getLast_mem hne)

theorem Tight.head?_ne {s : List Char} (h : Tight s) {c : Char} (hc : isGap c) :
    s.head? ≠ some c := by
  obtain ⟨⟨d, rest, rfl, hd⟩, -⟩ := h
  intro heq
  rw [Option.some.inj heq, hc] at hd
  cases hd

theorem Tight.getLast?_ne {s : List Char} (h : Tight s) {c : Char} (hc : isGap c) :
    s.getLast? ≠ some c := by
  obtain ⟨-, before, d, rfl, hd⟩ := h
  intro heq
  rw [List.getLast?_concat] at heq
  rw [Option.some.inj heq, hc] at hd
  cases hd

theorem tight_atom {a : Atom} (ha : a.WellFormed) : Tight a.source.toList := by
  cases a with
  | word w =>
    apply tight_of_forall ha.1
    intro c hc
    have hword := ha.2 c hc
    simp only [isWordChar, Bool.and_eq_true, Bool.not_eq_true'] at hword
    simp [hword]
  | quoted s =>
    have hquote : isGap '"' = false := by decide
    simpa [Atom.source] using tight_of_ends hquote hquote s.toList

theorem not_isGap_of_all {s : List Char} (h : s.all fun c => !isGap c) :
    ∀ c ∈ s, isGap c = false := by
  simpa using h

theorem tight_token {t : Token} (h : t.WellFormed) : Tight t.source.toList := by
  cases t with
  | atom a => exact tight_atom h
  | operator o =>
    have hne : o.text.toList ≠ [] := by cases o <;> decide
    exact tight_of_forall hne (not_isGap_of_all (by cases o <;> decide))
  | opening => exact tight_of_forall (by decide) (not_isGap_of_all (by decide))
  | closing => exact tight_of_forall (by decide) (not_isGap_of_all (by decide))

theorem Tight.append {s t : List Char} (hs : Tight s) (ht : Tight t) (middle : List Char) :
    Tight (s ++ middle ++ t) := by
  obtain ⟨⟨c, rest, rfl, hc⟩, -⟩ := hs
  obtain ⟨-, before, d, rfl, hd⟩ := ht
  exact ⟨⟨c, rest ++ middle ++ (before ++ [d]), by simp, hc⟩,
    c :: rest ++ middle ++ before, d, by simp, hd⟩

theorem tight_head {k : Option Head} (hw : ∀ t ∈ headTokens k, t.WellFormed) {t : List Char}
    (ht : Tight t) : Tight (headLayout k ++ t) := by
  cases k with
  | none => exact ht
  | some k =>
    have hkey : Tight k.key.source.toList := tight_atom (hw _ List.mem_cons_self)
    simpa [headLayout, Head.layout] using hkey.append ht (' ' :: k.operator.text.toList ++ [' '])

theorem tight_clauseLayout (indent : Nat) (body : List Statement) :
    Tight (clauseLayout indent body) := by
  cases body with
  | nil => exact tight_of_ends (by decide) (by decide) [' ']
  | cons s more =>
    rw [clauseLayout_cons]
    exact tight_of_ends (by decide) (by decide)
      ('\n' :: linesLayout (indent + 1) (s :: more) ++ List.replicate indent '\t')

theorem tight_layout {s : Statement} (hw : ∀ t ∈ s.tree.tokens, t.WellFormed) (indent : Nat) :
    Tight (s.layout indent) := by
  cases s with
  | leaf k a p =>
    rw [Statement.tree, Tree.tokens, List.forall_mem_append] at hw
    exact tight_head hw.1 (tight_atom (hw.2 _ List.mem_cons_self))
  | clause k body p =>
    rw [Statement.tree, Tree.tokens, List.forall_mem_append] at hw
    exact tight_head hw.1 (tight_clauseLayout indent body)

def Everywhere (P : Char → Prop) (tokens : List Token) : Prop :=
  ∀ t ∈ tokens, ∀ c ∈ t.source.toList, P c

theorem everywhere_append {P : Char → Prop} {before after : List Token} :
    Everywhere P (before ++ after) ↔ Everywhere P before ∧ Everywhere P after :=
  List.forall_mem_append

theorem everywhere_cons {P : Char → Prop} {t : Token} {tokens : List Token} :
    Everywhere P (t :: tokens) ↔ (∀ c ∈ t.source.toList, P c) ∧ Everywhere P tokens :=
  List.forall_mem_cons

theorem everywhere_spelling {P : Char → Prop} {forest : List Tree}
    (h : Everywhere P (spelling forest)) {tree : Tree} (htree : tree ∈ forest) :
    Everywhere P tree.tokens :=
  fun t ht => h t (mem_spelling.mpr ⟨tree, htree, ht⟩)

section Characters

variable {P : Char → Prop}

theorem forall_headLayout (hspace : P ' ') {k : Option Head} (h : Everywhere P (headTokens k)) :
    ∀ c ∈ headLayout k, P c := by
  cases k with
  | none => simp [headLayout]
  | some k =>
    simp only [headTokens, everywhere_cons] at h
    obtain ⟨hkey, hoperator, -⟩ := h
    simp only [headLayout, Head.layout, Option.map_some, Option.getD_some, List.forall_mem_append,
      List.forall_mem_cons]
    exact ⟨⟨hkey, hspace, hoperator⟩, hspace, by simp⟩

theorem forall_indentation (htab : P '\t') (n : Nat) : ∀ c ∈ List.replicate n '\t', P c := by
  intro c hc
  rwa [List.eq_of_mem_replicate hc]

mutual

theorem forall_layout (hspace : P ' ') (htab : P '\t') (hnewline : P '\n') (s : Statement)
    (indent : Nat) (h : Everywhere P s.tree.tokens) : ∀ c ∈ s.layout indent, P c := by
  match s with
  | .leaf k a p =>
    rw [Statement.tree, Tree.tokens, everywhere_append, everywhere_cons] at h
    rw [Statement.layout, List.forall_mem_append]
    exact ⟨forall_headLayout hspace h.1, h.2.1⟩
  | .clause k body p =>
    rw [Statement.tree, Tree.tokens, everywhere_append, everywhere_cons, everywhere_append,
      everywhere_cons] at h
    rw [Statement.layout, List.forall_mem_append]
    refine ⟨forall_headLayout hspace h.1, ?_⟩
    have hopen : P '\x7b' := h.2.1 _ (by decide)
    have hclose : P '\x7d' := h.2.2.2.1 _ (by decide)
    match body with
    | [] => simp [clauseLayout, hopen, hclose, hspace]
    | s :: more =>
      have hlines := forall_linesLayout hspace htab hnewline (s :: more) (indent + 1) h.2.2.1
      rw [clauseLayout_cons]
      simp only [List.cons_append, List.forall_mem_cons, List.forall_mem_append]
      exact ⟨hopen, hnewline, ⟨hlines, forall_indentation htab indent⟩, by simp [hclose]⟩

theorem forall_linesLayout (hspace : P ' ') (htab : P '\t') (hnewline : P '\n')
    (statements : List Statement) (indent : Nat) (h : Everywhere P (spelling (trees statements))) :
    ∀ c ∈ linesLayout indent statements, P c := by
  match statements with
  | [] => simp [linesLayout]
  | s :: more =>
    rw [trees, spelling, everywhere_append] at h
    have hs := forall_layout hspace htab hnewline s indent h.1
    have hmore := forall_linesLayout hspace htab hnewline more indent h.2
    simp only [linesLayout, List.forall_mem_append, List.forall_mem_cons]
    exact ⟨⟨forall_indentation htab indent, hs⟩, hnewline, hmore⟩

end

end Characters

end LoadOrder.Script

import Mathlib.Data.List.Forall2
import LoadOrder.Proofs.Definition.Extract
import LoadOrder.Proofs.Merge.Compose

/-!
The blocks of a composed text, read again. The text of a group is a block with the definitions of
the group, or with fewer if what supports the others is put into one of them.
-/

namespace LoadOrder

open Script

section Block

variable {k : Head} {body : List Statement} {p : Position} {group : List Definition}

/-- A definition that one of the statements makes in the block of a tag. -/
def MadeIn (name : String) (body : List Statement) (d : Definition) : Prop :=
  ∃ t ∈ body, d.originalCode = t.code ∧ d.entry = .ofTagged name (Node.ofStatement 3 t)

theorem exists_statements_of_madeIn {name : String} (h : ∀ d ∈ group, MadeIn name body d) :
    ∃ statements : List Statement, (∀ t ∈ statements, t ∈ body) ∧
      group.map (·.originalCode) = statements.map Statement.code ∧
      group.map Definition.entry =
        statements.map fun t => Entry.ofTagged name (Node.ofStatement 3 t) := by
  induction group with
  | nil => exact ⟨[], by simp, rfl, rfl⟩
  | cons d group ih =>
    rw [List.forall_mem_cons] at h
    obtain ⟨t, ht, hcode, hentry⟩ := h.1
    obtain ⟨statements, hmem, hcodes, hentries⟩ := ih h.2
    refine ⟨t :: statements, ?_, ?_, ?_⟩
    · rw [List.forall_mem_cons]
      exact ⟨ht, hmem⟩
    · rw [List.map_cons, List.map_cons, hcode, hcodes]
    · rw [List.map_cons, List.map_cons, hentry, hentries]

def supportOf (group : List Definition) : List Definition :=
  group.filter (·.kind == .namespace) ++ group.filter (·.kind == .variable)

theorem perm_supportOf (group : List Definition) :
    (supportOf group).Perm (group.filter Definition.isSupport) := by
  have hnamespace : group.filter (·.kind == .namespace) =
      (group.filter Definition.isSupport).filter (·.kind == .namespace) := by
    rw [List.filter_filter]
    apply List.filter_congr
    intro d _
    cases hkind : d.kind <;> simp [Definition.isSupport, hkind, Kind.isSupport]
  have hvariable : group.filter (·.kind == .variable) =
      (group.filter Definition.isSupport).filter fun d => !d.kind == .namespace := by
    rw [List.filter_filter]
    apply List.filter_congr
    intro d _
    cases hkind : d.kind <;> simp [Definition.isSupport, hkind, Kind.isSupport]
  rw [supportOf, hnamespace, hvariable]
  exact List.filter_append_perm _ _

theorem perm_supportOf_append (group : List Definition) :
    (supportOf group ++ group.filter (!·.isSupport)).Perm group :=
  ((perm_supportOf group).append_right _).trans (List.filter_append_perm _ _)

theorem MadeIn.place {name : String} {d : Definition} (h : MadeIn name body d) :
    d.codeTag = name ∧ d.codeSeparator = "\x7b" := by
  obtain ⟨t, -, -, hentry⟩ := h
  have hplace := Entry.place_ofTagged name (Node.ofStatement 3 t)
  rw [← hentry] at hplace
  exact hplace

theorem key_of_plain (h : (Statement.clause (some k) body p).Plain) :
    k.key.WellFormed ∧ '\r' ∉ k.key.source.toList ∧ k.name = k.key.source := by
  have hmem : Token.atom k.key ∈ (Statement.clause (some k) body p).tree.tokens := by
    simp [Statement.tree, Tree.tokens, headTokens]
  have hkey : k.key.WellFormed := h.spelled.wellFormed _ hmem
  have hreturn : '\r' ∉ k.key.source.toList := fun hc => (h.spelled.printable _ hmem _ hc).2 rfl
  exact ⟨hkey, hreturn, trimmed_of_tight (tight_atom hkey)⟩

theorem trimmed_name (h : (Statement.clause (some k) body p).Plain) :
    Text.trimmed k.name = k.name := by
  obtain ⟨hkey, -, hname⟩ := key_of_plain h
  rw [hname]
  exact trimmed_of_tight (tight_atom hkey)

theorem source_ne_empty {a : Atom} (h : a.WellFormed) : a.source ≠ "" := by
  intro hempty
  obtain ⟨⟨c, rest, hsource, -⟩, -⟩ := tight_atom h
  rw [hempty] at hsource
  cases hsource

theorem groupText_of_madeIn {name : String} (hne : group ≠ [])
    (hmade : ∀ d ∈ group, MadeIn name body d) (htrim : Text.trimmed name = name)
    (hname : name ≠ "") :
    groupText group = blockText name "\x7b" ((supportOf group).map (·.originalCode))
      ((group.filter (!·.isSupport)).map (·.originalCode)) := by
  obtain ⟨first, rest, rfl⟩ := List.exists_cons_of_ne_nil hne
  obtain ⟨htag, hseparator⟩ := (hmade first List.mem_cons_self).place
  simp only [groupText, htag, hseparator, htrim, if_neg hname, supportOf]

theorem entries_of_tree {statements : List Statement} {s : Statement}
    (h : s.tree = .clause (some ⟨k.key, .equal⟩) (trees statements)) :
    s.entries true = statements.map fun t => Entry.ofTagged k.name (Node.ofStatement 3 t) := by
  let written := Statement.clause (some ⟨k.key, .equal⟩) statements .start
  have hentries : s.entries true = written.entries true := entries_congr h true
  rw [hentries]
  rfl

theorem length_entries {forest : List Tree} {h : Option Head} {s : Statement}
    (hs : s.tree = .clause h forest) : (s.entries true).length = forest.length := by
  cases s with
  | leaf k a p => cases hs
  | clause k body p =>
    obtain ⟨-, rfl⟩ := Tree.clause.inj hs
    simp [Statement.entries, trees_eq_map]

/-- The support of a group is not put into one of its objects. -/
def Whole (group : List Definition) : Prop :=
  (∃ d ∈ group, d.isSupport) →
    ClosesWhole ((group.filter (!·.isSupport)).map (·.originalCode))

/-- What the text of a group is read as: a statement with the entries of the group, or with fewer if
some are put into an object. -/
structure ReadAs (group : List Definition) (tree : Tree) : Prop where
  shallow : Whole group → tree.nesting ≤ maxDepth
  entries : Whole group → ∀ s : Statement, s.tree = tree →
    (s.entries true).Perm (group.map Definition.entry)
  fewer : ¬Whole group → ∀ s : Statement, s.tree = tree →
    s.entries true ≠ [] ∧ (s.entries true).length < group.length

/-- The statements of a block that a group is made from: those that support the others, and the
others. -/
structure Parts (name : String) (body : List Statement) (group : List Definition)
    (support bodies : List Statement) : Prop where
  support_mem : ∀ t ∈ support, t ∈ body
  bodies_mem : ∀ t ∈ bodies, t ∈ body
  support_codes : (supportOf group).map (·.originalCode) = support.map Statement.code
  bodies_codes : (group.filter (!·.isSupport)).map (·.originalCode) = bodies.map Statement.code
  entries : (group.map Definition.entry).Perm
    ((support ++ bodies).map fun t => Entry.ofTagged name (Node.ofStatement 3 t))

theorem exists_parts {name : String} (hmade : ∀ d ∈ group, MadeIn name body d) :
    ∃ support bodies, Parts name body group support bodies := by
  have hperm := perm_supportOf_append group
  have hboth : ∀ d ∈ supportOf group ++ group.filter (!·.isSupport), MadeIn name body d :=
    fun d hd => hmade d (hperm.mem_iff.mp hd)
  rw [List.forall_mem_append] at hboth
  obtain ⟨support, hin, hcodes, hentries⟩ := exists_statements_of_madeIn hboth.1
  obtain ⟨bodies, hin', hcodes', hentries'⟩ := exists_statements_of_madeIn hboth.2
  have hsplit := (hperm.map Definition.entry).symm
  rw [List.map_append, hentries, hentries', ← List.map_append] at hsplit
  exact ⟨support, bodies, hin, hin', hcodes, hcodes', hsplit⟩

namespace Parts

variable {name : String} {support bodies : List Statement}

theorem length_eq (h : Parts name body group support bodies) :
    group.length = support.length + bodies.length := by
  simpa using h.entries.length_eq

theorem support_eq_nil_iff (h : Parts name body group support bodies) :
    support = [] ↔ ¬∃ d ∈ group, d.isSupport := by
  rw [← List.map_eq_nil_iff (f := Statement.code), ← h.support_codes, List.map_eq_nil_iff,
    List.eq_nil_iff_forall_not_mem]
  simp [(perm_supportOf group).mem_iff]

theorem readAs_of_whole (h : Parts k.name body group support bodies)
    (hplain : (Statement.clause (some k) body p).Plain) (hwhole : Whole group) :
    ∃ forest, ReadAs group (.clause (some ⟨k.key, .equal⟩) forest) ∧
      Writes (blockBody (support.map Statement.code) (bodies.map Statement.code)).toList
        (spelling forest) := by
  have hcloses : support ≠ [] → ClosesWhole (bodies.map Statement.code) := by
    intro hne
    rw [← h.bodies_codes]
    exact hwhole (not_not.mp (mt h.support_eq_nil_iff.mpr hne))
  obtain ⟨statements, hperm, hbody⟩ := writes_blockBody
    (fun t ht => hplain.body t (h.support_mem t ht))
    (fun t ht => hplain.body t (h.bodies_mem t ht)) hcloses
  refine ⟨trees statements, ⟨fun _ => ?_, fun _ s hs => ?_, fun hnot => absurd hwhole hnot⟩, hbody⟩
  · have hall : ∀ t ∈ statements, t ∈ body := by
      intro t ht
      rw [hperm.mem_iff, List.mem_append] at ht
      exact ht.elim (h.support_mem t) (h.bodies_mem t)
    have hdeep : nesting (trees statements) ≤ nesting (trees body) := by
      rw [nesting_le_iff, trees_eq_map, List.forall_mem_map]
      exact fun t ht => nesting_le_iff.mp (Nat.le_refl _) _ (tree_mem_trees (hall t ht))
    have hshallow := hplain.spelled.shallow
    rw [Statement.tree, Tree.nesting] at hshallow
    rw [Tree.nesting]
    omega
  · rw [entries_of_tree hs]
    exact (hperm.map _).trans h.entries.symm

theorem readAs_of_not_whole (h : Parts k.name body group support bodies)
    (hplain : (Statement.clause (some k) body p).Plain) (hwhole : ¬Whole group) :
    ∃ forest, ReadAs group (.clause (some ⟨k.key, .equal⟩) forest) ∧
      Writes (blockBody (support.map Statement.code) (bodies.map Statement.code)).toList
        (spelling forest) := by
  obtain ⟨hexists, hnot⟩ := Classical.not_imp.mp hwhole
  rw [h.bodies_codes] at hnot
  obtain ⟨forest, hlength, hbody⟩ := writes_blockBody_of_not_closesWhole
    (fun t ht => hplain.body t (h.support_mem t ht))
    (fun t ht => hplain.body t (h.bodies_mem t ht)) hnot
  refine ⟨forest, ⟨fun hw => absurd hw hwhole, fun hw => absurd hw hwhole, fun _ s hs => ?_⟩, hbody⟩
  have hsupport : support ≠ [] := fun hnil => h.support_eq_nil_iff.mp hnil hexists
  have hbodies : bodies ≠ [] := by
    rintro rfl
    exact hnot trivial
  have hsupportPos := List.length_pos_of_ne_nil hsupport
  have hbodiesPos := List.length_pos_of_ne_nil hbodies
  have hgroup := h.length_eq
  have hentries := length_entries hs
  rw [← List.length_pos_iff]
  omega

end Parts

theorem readAs_groupText (h : (Statement.clause (some k) body p).Plain) (hne : group ≠ [])
    (hmade : ∀ d ∈ group, MadeIn k.name body d) :
    ∃ text tree, (groupText group).toList = text ++ ['\x7d', '\n'] ∧
      Writes (text ++ ['\x7d']) tree.tokens ∧ ReadAs group tree := by
  obtain ⟨hkey, hreturn, hname⟩ := key_of_plain h
  obtain ⟨support, bodies, hparts⟩ := exists_parts hmade
  have hgroup := groupText_of_madeIn hne hmade (trimmed_name h)
    (by rw [hname]; exact source_ne_empty hkey)
  rw [hname, hparts.support_codes, hparts.bodies_codes] at hgroup
  have hread : ∃ forest, ReadAs group (.clause (some ⟨k.key, .equal⟩) forest) ∧
      Writes (blockBody (support.map Statement.code) (bodies.map Statement.code)).toList
        (spelling forest) := by
    by_cases hwhole : Whole group
    · exact hparts.readAs_of_whole h hwhole
    · exact hparts.readAs_of_not_whole h hwhole
  obtain ⟨forest, hreads, hbody⟩ := hread
  obtain ⟨text, htext, hwrites⟩ := writes_blockText hkey hreturn hbody
  exact ⟨text, _, by rw [hgroup, htext], hwrites, hreads⟩

end Block

theorem exists_readAs {buckets : Buckets Definition} (hne : buckets ≠ [])
    (h : ∀ bucket ∈ buckets, ∃ text tree, (groupText bucket.2).toList = text ++ ['\x7d', '\n'] ∧
      Writes (text ++ ['\x7d']) tree.tokens ∧ ReadAs bucket.2 tree) :
    ∃ text forest, (String.join (buckets.map (groupText ·.2))).toList = text ++ ['\x7d', '\n'] ∧
      Writes (text ++ ['\x7d']) (spelling forest) ∧
        List.Forall₂ (fun bucket tree => ReadAs bucket.2 tree) buckets forest := by
  induction buckets with
  | nil => exact absurd rfl hne
  | cons bucket rest ih =>
    rw [List.forall_mem_cons] at h
    obtain ⟨text, tree, htext, hwrites, hreads⟩ := h.1
    rw [List.map_cons, String.join_cons, String.toList_append, htext]
    by_cases hrest : rest = []
    · subst hrest
      exact ⟨text, [tree], by simp, by simpa using hwrites, .cons hreads .nil⟩
    · obtain ⟨text', forest, htext', hwrites', hreads'⟩ := ih hrest h.2
      refine ⟨text ++ '\x7d' :: '\n' :: text', tree :: forest, ?_, ?_, .cons hreads hreads'⟩
      · rw [htext']
        simp
      · have hboth := (hwrites.append writes_newline).append hwrites'
        simpa [spelling] using hboth

section Forests

variable {buckets : Buckets Definition} {forest : List Tree}

theorem perm_of_whole (h : List.Forall₂ (fun bucket tree => ReadAs bucket.2 tree) buckets forest)
    (hwhole : ∀ bucket ∈ buckets, Whole bucket.2) :
    nesting forest ≤ maxDepth ∧ ∀ statements, trees statements = forest →
      (statements.flatMap (Statement.entries true)).Perm
        ((buckets.flatMap (·.2)).map Definition.entry) := by
  induction h with
  | nil =>
    refine ⟨Nat.zero_le _, fun statements htrees => ?_⟩
    rw [trees_eq_map, List.map_eq_nil_iff] at htrees
    rw [htrees]
    exact .refl _
  | cons hreads hrest ih =>
    rw [List.forall_mem_cons] at hwhole
    obtain ⟨hnesting, hperm⟩ := ih hwhole.2
    refine ⟨?_, fun statements htrees => ?_⟩
    · rw [nesting, Nat.max_le]
      exact ⟨hreads.shallow hwhole.1, hnesting⟩
    · rw [trees_eq_map] at htrees
      obtain ⟨s, more, rfl, hs, hmore⟩ := List.map_eq_cons_iff.mp htrees
      rw [← trees_eq_map] at hmore
      rw [List.flatMap_cons, List.flatMap_cons, List.map_append]
      exact (hreads.entries hwhole.1 s hs).append (hperm more hmore)

/-- Blocks have no more entries than their groups, and fewer if one of them is not whole. -/
theorem length_of_not_whole
    (h : List.Forall₂ (fun bucket tree => ReadAs bucket.2 tree) buckets forest)
    {statements : List Statement} (htrees : trees statements = forest) :
    (statements.flatMap (Statement.entries true)).length ≤ (buckets.flatMap (·.2)).length ∧
      ((∃ bucket ∈ buckets, ¬Whole bucket.2) →
        statements.flatMap (Statement.entries true) ≠ [] ∧
          (statements.flatMap (Statement.entries true)).length <
            (buckets.flatMap (·.2)).length) := by
  induction h generalizing statements with
  | nil =>
    rw [trees_eq_map, List.map_eq_nil_iff] at htrees
    simp [htrees]
  | @cons bucket tree buckets forest hreads hrest ih =>
    rw [trees_eq_map] at htrees
    obtain ⟨s, more, rfl, hs, hmore⟩ := List.map_eq_cons_iff.mp htrees
    rw [← trees_eq_map] at hmore
    obtain ⟨hle, hlt⟩ := ih hmore
    simp only [List.flatMap_cons, List.length_append, ne_eq, List.append_eq_nil_iff]
    by_cases hwhole : Whole bucket.2
    · have hlength := (hreads.entries hwhole s hs).length_eq
      rw [List.length_map] at hlength
      refine ⟨by omega, fun ⟨bucket', hmem, hnot⟩ => ?_⟩
      rcases List.mem_cons.mp hmem with rfl | hmem
      · exact absurd hwhole hnot
      · obtain ⟨hne, hfewer⟩ := hlt ⟨bucket', hmem, hnot⟩
        exact ⟨fun hnil => hne hnil.2, by omega⟩
    · obtain ⟨hne, hfewer⟩ := hreads.fewer hwhole s hs
      exact ⟨by omega, fun _ => ⟨fun hnil => hne hnil.1, by omega⟩⟩

end Forests

theorem parse_linesOf {text : List Char} {forest : List Tree} {code : String}
    (h : Writes (text ++ ['\x7d']) (spelling forest))
    (hcode : code.toList = text ++ ['\x7d', '\n']) :
    (nesting forest ≤ maxDepth →
      ∃ statements, parse (Text.join "\n" (Text.linesOf code)) = .ok statements) ∧
    ∀ statements, parse (Text.join "\n" (Text.linesOf code)) = .ok statements →
      trees statements = forest := by
  have hbare : Text.Bare (text ++ ['\x7d']) := ⟨by simp, h.plain, by simp⟩
  have hended : code = String.ofList (text ++ ['\x7d']) ++ "\n" := by
    apply String.toList_injective
    rw [hcode, String.toList_append, String.toList_ofList]
    simp
  have hjoin : Text.join "\n" (Text.linesOf code) = String.ofList (text ++ ['\x7d']) := by
    rw [hended]
    exact (Text.join_linesOf (by rwa [String.toList_ofList])).2
  have hlexes : Lexes (text ++ ['\x7d']) (spelling forest) := by
    simpa using h.spells _ _ Lexes.nil
  obtain ⟨ts, hts, hmap⟩ := hlexes .start
  have htokens : tokens (Text.join "\n" (Text.linesOf code)) = .ok ts := by
    rw [hjoin]
    rwa [tokens, String.toList_ofList]
  rw [parse_eq_ofTokens htokens]
  constructor
  · intro hshallow
    obtain ⟨statements, hread, -⟩ := ofTokens_of_spelling hmap.symm hshallow
    exact ⟨statements, hread⟩
  · intro statements hread
    have hspelling := (spelling_of_ofTokens hread).1
    rw [hmap] at hspelling
    exact spelling_injective hspelling

end LoadOrder

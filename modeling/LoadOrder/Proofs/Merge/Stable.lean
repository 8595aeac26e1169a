import LoadOrder.Proofs.Merge.Contents
import LoadOrder.Proofs.Merge.Untagged
import LoadOrder.Proofs.Sorting

namespace LoadOrder

open Script

section Arranged

variable {α β : Type}

def byName (id : α → String) (l : List α) : List α := l.mergeSort fun a b => id a ≤ id b

/-- Namespaces by name, then variables by name, then the others in their order. -/
def arranged (kind : α → Kind) (id : α → String) (l : List α) : List α :=
  byName id (l.filter (kind · == .namespace)) ++ byName id (l.filter (kind · == .variable)) ++
    l.filter fun a => !(kind a).isSupport

variable {kind : α → Kind} {id : α → String}

theorem le_trans_id (a b c : α) (hab : decide (id a ≤ id b)) (hbc : decide (id b ≤ id c)) :
    decide (id a ≤ id c) :=
  decide_eq_true (String.le_trans (of_decide_eq_true hab) (of_decide_eq_true hbc))

theorem le_total_id (a b : α) : (decide (id a ≤ id b) || decide (id b ≤ id a)) = true := by
  simpa using String.le_total (id a) (id b)

theorem byName_nil : byName id ([] : List α) = [] := List.mergeSort_nil

theorem byName_cons (a : α) (l : List α) : byName id (a :: l) =
    (byName id l).filter (fun b => !decide (id a ≤ id b)) ++
      a :: (byName id l).filter (fun b => decide (id a ≤ id b)) :=
  (mergeSort_parts le_trans_id le_total_id a l).2

theorem filter_byName (p : α → Bool) (l : List α) :
    (byName id l).filter p = byName id (l.filter p) :=
  filter_mergeSort le_trans_id le_total_id p l

theorem byName_byName (l : List α) : byName id (byName id l) = byName id l :=
  List.mergeSort_of_pairwise (List.pairwise_mergeSort le_trans_id le_total_id l)

theorem map_byName (f : β → α) (l : List β) :
    (byName (fun b => id (f b)) l).map f = byName id (l.map f) :=
  List.map_mergeSort fun _ _ _ _ => rfl

theorem mem_arranged {a : α} {l : List α} : a ∈ arranged kind id l ↔ a ∈ l := by
  cases hkind : kind a <;> simp [arranged, byName, hkind, Kind.isSupport]

theorem map_arranged (kind : α → Kind) (id : α → String) (f : β → α) (l : List β) :
    (arranged (fun b => kind (f b)) (fun b => id (f b)) l).map f = arranged kind id (l.map f) := by
  simp only [arranged, List.map_append, map_byName, List.filter_map]
  rfl

theorem filter_arranged (kind : α → Kind) (id : α → String) (l : List α) :
    (arranged kind id l).filter (kind · == .namespace) =
        byName id (l.filter (kind · == .namespace)) ∧
      (arranged kind id l).filter (kind · == .variable) =
        byName id (l.filter (kind · == .variable)) ∧
      (arranged kind id l).filter (fun a => !(kind a).isSupport) =
        l.filter fun a => !(kind a).isSupport := by
  have hkind (k : Kind) : (k == .namespace && k == .variable) = false ∧
      (k == .namespace && !k.isSupport) = false ∧ (k == .variable && !k.isSupport) = false := by
    cases k <;> decide
  simp [arranged, filter_byName, List.filter_filter, byName_nil, hkind, Bool.and_comm]

theorem arranged_arranged (l : List α) :
    arranged kind id (arranged kind id l) = arranged kind id l := by
  obtain ⟨hnamespace, hvariable, hothers⟩ := filter_arranged kind id l
  rw [arranged, hnamespace, hvariable, hothers, byName_byName, byName_byName]
  rfl

end Arranged

theorem filter_support_exportOrder {p : Definition → Bool} (hp : ∀ d, p d → d.isSupport)
    (exported : List Definition) :
    (exportOrder exported).filter p = byName Definition.id (exported.filter p) := by
  have hsupport : (exported.filter Definition.isSupport).filter p = exported.filter p := by
    rw [List.filter_filter]
    apply List.filter_congr
    intro d _
    cases hd : p d with
    | false => rfl
    | true => exact hp d hd
  have hothers : ((exported.filter (!·.isSupport)).mergeSort fun a b => a.order ≤ b.order).filter
      p = [] := by
    rw [List.filter_eq_nil_iff]
    intro d hd hpd
    rw [List.mem_mergeSort, List.mem_filter, hp d hpd] at hd
    exact absurd hd.2 (by decide)
  have hnames : ((exported.filter Definition.isSupport).mergeSort fun a b => a.id ≤ b.id).filter p =
      byName Definition.id (exported.filter p) := by
    rw [← hsupport]
    exact filter_byName p _
  rw [exportOrder, List.filter_append, hnames, hothers, List.append_nil]

/-- The export of a numbered file has the definitions in this order. -/
theorem composed_exportOrder {exported : List Definition}
    (h : exported.Pairwise fun a b => a.order ≤ b.order) :
    composed (exportOrder exported) = arranged Definition.kind Definition.id exported := by
  have hkind (k : Kind) (hk : k.isSupport) (d : Definition) (hd : d.kind == k) : d.isSupport := by
    rw [Definition.isSupport, eq_of_beq hd]
    exact hk
  rw [composed, supportOf, filter_support_exportOrder (hkind .namespace rfl),
    filter_support_exportOrder (hkind .variable rfl), filter_exportOrder h]
  rfl

def Script.Statement.entry (s : Statement) : Entry := .ofTop (Node.ofStatement 2 s)

theorem entries_of_untagged (s : Statement) : s.entries false = [s.entry] := by
  cases s <;> rfl

theorem code_entry (s : Statement) : s.entry.code = s.code := by
  rw [Statement.entry, Entry.code_ofTop, code_ofStatement s (by decide)]
  rfl

theorem flatMap_entries_of_untagged (statements : List Statement) :
    statements.flatMap (Statement.entries false) = statements.map Statement.entry := by
  rw [List.flatMap_congr fun s _ => entries_of_untagged s, List.map_eq_flatMap]

theorem map_entry_congr {statements statements' : List Statement}
    (h : trees statements = trees statements') :
    statements.map Statement.entry = statements'.map Statement.entry := by
  have hnodes := nodesOf_congr h 2
  rw [nodesOf_eq_map, nodesOf_eq_map] at hnodes
  have hentries := congrArg (List.map Entry.ofTop) hnodes
  rw [List.map_map, List.map_map] at hentries
  exact hentries

def Source.entries (source : Source) (statements : List Statement) : List Entry :=
  source.marked (statements.map Statement.entry)

def Entry.arranged (entries : List Entry) : List Entry :=
  LoadOrder.arranged Entry.kind Entry.id entries

def Entry.written (entries : List Entry) : String :=
  String.join (entries.map fun e => e.code ++ "\n")

theorem map_entry_definitions (definitions : List Definition) :
    (arranged Definition.kind Definition.id definitions).map Definition.entry =
      Entry.arranged (definitions.map Definition.entry) :=
  map_arranged Entry.kind Entry.id Definition.entry definitions

theorem map_contents (definitions : List Definition) :
    definitions.map Definition.contents =
      (definitions.map Definition.entry).map fun e => (e.id, e.kind, e.code) := by
  rw [List.map_map]
  rfl

theorem map_arranged_contents (definitions : List Definition) :
    (arranged Definition.kind Definition.id definitions).map Definition.contents =
      arranged (fun c => c.2.1) (fun c => c.1) (definitions.map Definition.contents) :=
  map_arranged (fun c : String × Kind × String => c.2.1) (fun c => c.1) Definition.contents
    definitions

theorem arranged_marked (source : Source) (entries : List Entry) :
    Entry.arranged (source.marked entries) = source.marked (Entry.arranged entries) := by
  by_cases h : entries = []
  · subst h
    simp [Source.marked, Source.mark, Entry.arranged, arranged, byName, Kind.isSupport]
  · obtain ⟨entry, hentry⟩ := List.exists_mem_of_ne_nil entries h
    have harranged : Entry.arranged entries ≠ [] :=
      List.ne_nil_of_mem (mem_arranged.mpr hentry)
    rw [Source.marked, Source.marked, if_neg (by simpa using h), if_neg (by simpa using harranged)]

theorem map_entry_of_untagged (source : Source) (huntagged : source.tagged = false)
    (statements : List Statement) :
    (source.made statements).map Definition.entry = source.entries statements := by
  rw [map_entry_made, huntagged, flatMap_entries_of_untagged]
  rfl

theorem tag_of_mem_entries {source : Source} {statements : List Statement} {entry : Entry}
    (h : entry ∈ source.entries statements) : entry.tag = "" := by
  rw [Source.entries, Source.marked] at h
  split at h
  · rw [List.mem_singleton.mp h]
    rfl
  · obtain ⟨s, -, rfl⟩ := List.mem_map.mp h
    exact (Entry.separator_ofTop _).1

theorem entries_ne_nil (source : Source) (statements : List Statement) :
    source.entries statements ≠ [] := by
  rw [Source.entries, Source.marked]
  split
  · exact List.cons_ne_nil _ _
  · next hsome => simpa using hsome

theorem exists_composeExport_of_untagged (source : Source) (huntagged : source.tagged = false)
    (statements : List Statement) :
    ∃ m, composeExport? (source.made statements) = some m ∧
      m.code = Entry.written (Entry.arranged (source.entries statements)) := by
  have hentries := map_entry_of_untagged source huntagged statements
  have hperm := perm_exportOrder (source.made statements)
  have hne : exportOrder (source.made statements) ≠ [] := by
    intro hnil
    rw [hnil] at hperm
    apply entries_ne_nil source statements
    rw [← hentries, hperm.nil_eq.symm, List.map_nil]
  have htag : ∀ d ∈ exportOrder (source.made statements), Text.isBlankText d.codeTag := by
    intro d hd
    have hentry : d.entry ∈ source.entries statements := by
      rw [← hentries]
      exact List.mem_map_of_mem (hperm.mem_iff.mp hd)
    have hempty : d.codeTag = "" := tag_of_mem_entries hentry
    rw [hempty]
    rfl
  obtain ⟨m, hm, hcode⟩ := exists_compose_of_untagged hne htag
  refine ⟨m, hm, ?_⟩
  have hcodes : (composed (exportOrder (source.made statements))).map (fun d =>
      d.originalCode ++ "\n") =
        ((composed (exportOrder (source.made statements))).map Definition.entry).map fun e =>
          e.code ++ "\n" := by
    rw [List.map_map]
    apply List.map_congr_left
    intro d hd
    have hmade := hperm.mem_iff.mp ((perm_supportOf_append _).mem_iff.mp hd)
    rw [originalCode_of_mem_made hmade]
    rfl
  have harranged : (composed (exportOrder (source.made statements))).map Definition.entry =
      Entry.arranged (source.entries statements) := by
    rw [composed_exportOrder (pairwise_order_made source statements), ← hentries,
      map_entry_definitions]
  rw [hcode, hcodes, harranged, Entry.written]

/-- The statements of a file in the order of the composition. -/
def Script.arrangedStatements (statements : List Statement) : List Statement :=
  LoadOrder.arranged (fun s => s.entry.kind) (fun s => s.entry.id) statements

theorem map_entry_arrangedStatements (statements : List Statement) :
    (Script.arrangedStatements statements).map Statement.entry =
      Entry.arranged (statements.map Statement.entry) :=
  map_arranged Entry.kind Entry.id Statement.entry statements

theorem entries_arranged (source : Source) (statements : List Statement) :
    source.entries (Script.arrangedStatements statements) =
      Entry.arranged (source.entries statements) := by
  rw [Source.entries, Source.entries, map_entry_arrangedStatements, arranged_marked]

section Read

variable {statements : List Statement}

theorem says_written (source : Source) (hspelled : ∀ s ∈ statements, s.Spelled) :
    Says (Entry.written (source.entries statements)) (trees statements) := by
  by_cases h : statements = []
  · subst h
    exact says_empty.append says_empty
  · have hentries : source.entries statements = statements.map Statement.entry := by
      rw [Source.entries, Source.marked, if_neg (by simpa using h)]
    have hwritten : Entry.written (source.entries statements) =
        String.join (statements.map fun s => s.code ++ "\n") := by
      rw [Entry.written, hentries, List.map_map]
      simp only [Function.comp_def, code_entry]
    have hcode : ∀ s ∈ statements, Says s.code [s.tree] := fun s hs => (hspelled s hs).says_code
    have htrees : trees statements = statements.flatMap fun s => [s.tree] := by
      rw [trees_eq_map, List.map_eq_flatMap]
    rw [hwritten, htrees]
    exact says_join_ended hcode

/-- The lines of the code of a file without tags are read as its entries. -/
theorem exists_parse_written (source : Source) (hspelled : ∀ s ∈ statements, s.Spelled) :
    ∃ again, parse (Text.join "\n"
        (Text.linesOf (Entry.written (source.entries statements)))) = .ok again ∧
      source.entries again = source.entries statements := by
  have hreturn : Everywhere (· ≠ '\r') (spelling (trees statements)) := by
    intro t ht c hc
    obtain ⟨tree, htree, ht⟩ := mem_spelling.mp ht
    rw [trees_eq_map] at htree
    obtain ⟨s, hs, rfl⟩ := List.mem_map.mp htree
    exact ((hspelled s hs).printable t ht c hc).2
  obtain ⟨again, hagain, htrees⟩ := (says_written source hspelled).linesOf hreturn
  exact ⟨again, hagain, by rw [Source.entries, Source.entries, map_entry_congr htrees]⟩

end Read

/-- A file without tags is composed into a text that has the definitions of the file again, the
namespaces and then the variables by name in front, and that is composed into itself. -/
theorem composeExport?_stable {source : Source} {text : String} {statements : List Statement}
    (huntagged : source.tagged = false) (hparse : parse text = .ok statements)
    (huntabbed : ∀ t ∈ spelling (trees statements), t.Untabbed) :
    ∃ definitions m again m', (source.withText text).definitions = .ok definitions ∧
      composeExport? definitions = some m ∧
      (source.withText m.code).definitions = .ok again ∧
      again.map Definition.contents =
        (arranged Definition.kind Definition.id definitions).map Definition.contents ∧
      composeExport? again = some m' ∧ m'.code = m.code := by
  have hprintable := printable_of_untabbed (spelling_wellFormed hparse) huntabbed
  have hsays : Says text (trees statements) := ⟨statements, hparse, rfl⟩
  obtain ⟨read, hread, htrees⟩ := hsays.linesOf fun t ht c hc => (hprintable t ht c hc).2
  have hspelled : ∀ s ∈ Script.arrangedStatements read, s.Spelled := by
    intro s hs
    have hmem := mem_arranged.mp hs
    rw [← htrees] at hprintable
    exact spelled_of_parse hread hmem (everywhere_spelling hprintable (tree_mem_trees hmem))
  obtain ⟨m, hm, hcode⟩ :=
    exists_composeExport_of_untagged (source.withText text) huntagged read
  rw [← entries_arranged] at hcode
  obtain ⟨again, hagain, hentries⟩ := exists_parse_written (source.withText text) hspelled
  rw [← hcode] at hagain
  obtain ⟨m', hm', hcode'⟩ :=
    exists_composeExport_of_untagged (source.withText m.code) huntagged again
  have hsame : (source.withText m.code).entries again =
      Entry.arranged ((source.withText text).entries read) := by
    rw [← entries_arranged]
    exact hentries
  refine ⟨_, m, _, m', Source.definitions_eq_ok_iff.mpr ⟨read, hread, rfl⟩, hm,
    Source.definitions_eq_ok_iff.mpr ⟨again, hagain, rfl⟩, ?_, hm', ?_⟩
  · rw [map_contents, map_contents, map_entry_definitions,
      map_entry_of_untagged (source.withText m.code) huntagged,
      map_entry_of_untagged (source.withText text) huntagged, hsame]
  · rw [hcode', hsame, hcode, entries_arranged]
    exact congrArg Entry.written (arranged_arranged _)

def fileOfObjects : Source where
  file := "common/x/00.txt"
  diskFile := ""
  modName := "a"
  dependencies := []
  lines := []
  tagged := false

def supportBelowObject : String :=
  "b = \x7b id = z c > 1 \x7d # end\r\n@y = 1\n@x = \"p\nq\"\nnamespace = n\n\na != c"

theorem composeExport?_stable_supportBelowObject :
    ∃ statements definitions m again m', parse supportBelowObject = .ok statements ∧
      (∀ t ∈ spelling (trees statements), t.Untabbed) ∧
      (fileOfObjects.withText supportBelowObject).definitions = .ok definitions ∧
      composeExport? definitions = some m ∧
      (fileOfObjects.withText m.code).definitions = .ok again ∧
      again.map Definition.contents =
        [("n", .namespace, "namespace = n"), ("@x", .variable, "@x = \"p\nq\""),
          ("@y", .variable, "@y = 1"), ("z", .object, "b = \x7b\n    id = z\n    c > 1\n\x7d"),
          ("a", .object, "a != c")] ∧
      composeExport? again = some m' ∧ m'.code = m.code := by
  have hscript : (parse supportBelowObject).toOption.any fun statements =>
      decide (∀ t ∈ spelling (trees statements), t.Untabbed) := by
    decide +kernel
  have hread : (fileOfObjects.withText supportBelowObject).definitions.toOption.map
      (·.map Definition.contents) =
        some [("z", .object, "b = \x7b\n    id = z\n    c > 1\n\x7d"),
          ("@y", .variable, "@y = 1"), ("@x", .variable, "@x = \"p\nq\""),
          ("n", .namespace, "namespace = n"), ("a", .object, "a != c")] := by
    decide +kernel
  obtain ⟨statements, hstatements, huntabbed⟩ := (Option.any_eq_true _ _).mp hscript
  have hparse := eq_ok_of_toOption hstatements
  have huntagged : fileOfObjects.tagged = false := rfl
  obtain ⟨definitions, m, again, m', hdefinitions, hm, hagain, hcontents, hm', hcode⟩ :=
    composeExport?_stable huntagged hparse (of_decide_eq_true huntabbed)
  refine ⟨statements, definitions, m, again, m', hparse, of_decide_eq_true huntabbed, hdefinitions,
    hm, hagain, ?_, hm', hcode⟩
  rw [hdefinitions] at hread
  have hlist := Option.some.inj hread
  dsimp only at hlist
  rw [hcontents, map_arranged_contents, hlist]
  simp [arranged, byName_cons, byName_nil, Kind.isSupport]

end LoadOrder

import Mathlib.Data.List.Forall2
import LoadOrder.Proofs.Definition.Extract
import LoadOrder.Proofs.Success

namespace LoadOrder

open Script

/-- What is listed of a statement, with its tag: the statement itself, or the statements in it. -/
def Script.Statement.listed (tagged : Bool) (s : Statement) : List (Option String × Statement) :=
  match s with
  | .clause k body p =>
    if tagged then body.map fun t => (some (Statement.clause k body p).blockName, t)
    else [(none, .clause k body p)]
  | .leaf k a p => [(none, .leaf k a p)]

/-- What a statement declares under a tag or, without one, at the top level. -/
def Script.Statement.kind (tag : Option String) : Statement → Kind
  | .leaf (some k) _ _ =>
    if Entry.isVariableName k.name then .variable
    else if tag.isNone && Text.sameIgnoringCase k.name "namespace" then .namespace
    else .object
  | _ => .object

/-- The definition of a statement under a tag or, without one, at the top level. -/
structure Definition.Tells (d : Definition) (tag : Option String) (s : Statement) : Prop where
  kind : d.kind = s.kind tag
  code : d.code = s.code
  originalCode : d.originalCode = s.code
  codeTag : d.codeTag = tag.getD ""
  codeSeparator : d.codeSeparator = if tag.isSome then "\x7b" else ""

/-- The definitions of a file list what there is to list of its statements, and nothing else. -/
structure Source.Lists (source : Source) (statements : List Statement)
    (definitions : List Definition) : Prop where
  told : statements.flatMap (Statement.listed source.tagged) ≠ [] →
    List.Forall₂ (fun d listed => d.Tells listed.1 listed.2) definitions
      (statements.flatMap (Statement.listed source.tagged))
  marked_iff : (∃ d, definitions = [d] ∧ d.kind = .emptyFile) ↔
    statements.flatMap (Statement.listed source.tagged) = []
  order_eq : definitions.map (·.order) = List.range' 1 definitions.length
  scope_eq : ∀ d ∈ definitions, d.isSupport = false → d.scope = definitions.filter fun v =>
    v.isSupport && (v.codeTag = "" || Text.sameIgnoringCase v.codeTag d.codeTag)

def Entry.ofListed (listed : Option String × Statement) : Entry :=
  match listed.1 with
  | none => ofTop (Node.ofStatement 2 listed.2)
  | some tag => ofTagged tag (Node.ofStatement 3 listed.2)

theorem entries_eq_map (tagged : Bool) (s : Statement) :
    s.entries tagged = (s.listed tagged).map Entry.ofListed := by
  cases s with
  | leaf k a p => rfl
  | clause k body p =>
    cases tagged with
    | false => rfl
    | true =>
      simp only [Statement.entries, Statement.listed, if_true, List.map_map]
      rfl

theorem kind_ofListed (tag : Option String) (s : Statement) :
    (Entry.ofListed (tag, s)).kind = s.kind tag := by
  rcases s with ⟨_ | k, a, p⟩ | ⟨k, body, p⟩
  · cases tag <;> rfl
  · cases tag with
    | some tag =>
      simp only [Entry.ofListed, Node.ofStatement, Entry.ofTagged, Statement.kind]
      rfl
    | none =>
      simp only [Entry.ofListed, Node.ofStatement, Entry.ofTop, Statement.kind, Option.isNone_none,
        Bool.true_and]
      split
      · rfl
      · split <;> rfl
  · cases tag <;> rfl

theorem code_ofListed (tag : Option String) (s : Statement) :
    (Entry.ofListed (tag, s)).code = s.code := by
  cases tag with
  | none => rw [Entry.ofListed, Entry.code_ofTop, code_ofStatement s (by decide), Option.getD_some]
  | some tag =>
    rw [Entry.ofListed, Entry.code_ofTagged, code_ofStatement s (by decide), Option.getD_some]

theorem place_ofListed (tag : Option String) (s : Statement) :
    (Entry.ofListed (tag, s)).tag = tag.getD "" ∧
      (Entry.ofListed (tag, s)).separator = if tag.isSome then "\x7b" else "" := by
  cases tag with
  | none => exact Entry.separator_ofTop _
  | some tag => exact Entry.place_ofTagged tag _

theorem kind_ne_emptyFile (s : Statement) (tag : Option String) : s.kind tag ≠ .emptyFile := by
  unfold Statement.kind
  split
  · split
    · decide
    · split <;> decide
  · decide

theorem tells_of_entry {d : Definition} {tag : Option String} {s : Statement}
    (h : d.entry = Entry.ofListed (tag, s)) (hcode : d.originalCode = d.code) : d.Tells tag s := by
  have hkind : d.kind = s.kind tag := (congrArg Entry.kind h).trans (kind_ofListed tag s)
  have hlisted : d.code = s.code := (congrArg Entry.code h).trans (code_ofListed tag s)
  obtain ⟨htag, hseparator⟩ := place_ofListed tag s
  exact ⟨hkind, hlisted, hcode.trans hlisted, (congrArg Entry.tag h).trans htag,
    (congrArg Entry.separator h).trans hseparator⟩

/-- A definition with what it sees of some variables and namespaces. -/
def Definition.seeing (support : List Definition) (d : Definition) : Definition :=
  if d.isSupport then d else { d with scope := support.filter (·.inScope d) }

section Seeing

variable (support : List Definition) {d : Definition}

theorem seeing_of_isSupport (h : d.isSupport) : d.seeing support = d := if_pos h

theorem seeing_of_object (h : d.isSupport = false) :
    d.seeing support = { d with scope := support.filter (·.inScope d) } :=
  if_neg (Bool.eq_false_iff.mp h)

theorem isSupport_seeing (d : Definition) : (d.seeing support).isSupport = d.isSupport := by
  cases h : d.isSupport with
  | true => rw [seeing_of_isSupport support h, h]
  | false => rw [seeing_of_object support h, ← h]; rfl

end Seeing

theorem attachVariables_eq (definitions : List Definition) :
    attachVariables definitions =
      definitions.map (Definition.seeing (definitions.filter Definition.isSupport)) := rfl

theorem filter_attachVariables (definitions : List Definition) :
    (attachVariables definitions).filter Definition.isSupport =
      definitions.filter Definition.isSupport := by
  let support := definitions.filter Definition.isSupport
  have hsame : Definition.isSupport ∘ Definition.seeing support = Definition.isSupport :=
    funext (isSupport_seeing support)
  have hkept : ∀ d ∈ support, d.seeing support = d := fun d hd =>
    seeing_of_isSupport support (List.mem_filter.mp hd).2
  rw [attachVariables_eq, List.filter_map, hsame, List.map_congr_left hkept, List.map_id']

theorem scope_of_mem_attachVariables {definitions : List Definition} {d : Definition}
    (h : d ∈ attachVariables definitions) (hobject : d.isSupport = false) :
    d.scope = (attachVariables definitions).filter fun v => v.isSupport && v.inScope d := by
  rw [attachVariables_eq] at h
  obtain ⟨d', -, rfl⟩ := List.mem_map.mp h
  rw [isSupport_seeing] at hobject
  rw [List.filter_congr fun v _ => Bool.and_comm _ _, ← List.filter_filter, filter_attachVariables,
    seeing_of_object _ hobject]
  rfl

theorem forall₂_tells_made {source : Source} {statements : List Statement}
    (h : statements.flatMap (Statement.listed source.tagged) ≠ []) :
    List.Forall₂ (fun d listed => d.Tells listed.1 listed.2) (source.made statements)
      (statements.flatMap (Statement.listed source.tagged)) := by
  have hentries := map_entry_made source statements
  rw [List.flatMap_congr fun s _ => entries_eq_map source.tagged s, ← List.map_flatMap,
    Source.marked, if_neg (by simpa using h), ← List.forall₂_eq_eq_eq, List.forall₂_map_left_iff,
    List.forall₂_map_right_iff] at hentries
  have hcodes := (List.forall₂_and_left _ _).mpr
    ⟨fun d hd => originalCode_of_mem_made (d := d) hd, hentries⟩
  exact hcodes.imp fun d listed h => tells_of_entry h.2 h.1

theorem made_eq_mark_iff (source : Source) (statements : List Statement) :
    (∃ d, source.made statements = [d] ∧ d.kind = .emptyFile) ↔
      statements.flatMap (Statement.listed source.tagged) = [] := by
  constructor
  · rintro ⟨d, hd, hkind⟩
    by_contra h
    have htold := forall₂_tells_made h
    rw [hd] at htold
    obtain ⟨listed, rest, htells, -, -⟩ := List.forall₂_cons_left_iff.mp htold
    exact kind_ne_emptyFile _ _ (htells.kind.symm.trans hkind)
  · intro h
    have hentries := map_entry_made source statements
    rw [List.flatMap_congr fun s _ => entries_eq_map source.tagged s, ← List.map_flatMap, h,
      Source.marked] at hentries
    obtain ⟨d, hd, hentry⟩ := List.map_eq_singleton_iff.mp hentries
    exact ⟨d, hd, congrArg Entry.kind hentry⟩

/-- The definitions of a file that is a script list its statements. -/
theorem lists_of_definitions {source : Source} {statements : List Statement}
    (hparse : parse (Text.join "\n" source.lines) = .ok statements) :
    ∃ definitions, source.definitions = .ok definitions ∧ source.Lists statements definitions :=
  ⟨source.made statements, Source.definitions_eq_ok_iff.mpr ⟨statements, hparse, rfl⟩,
    forall₂_tells_made, made_eq_mark_iff source statements, map_order_made source statements,
    fun _ hd hobject => scope_of_mem_attachVariables hd hobject⟩

def namespaceAndBlock : Source where
  file := "common/t/00.txt"
  diskFile := ""
  modName := "m"
  dependencies := []
  lines := ["namespace = ev", "NGame = \x7b", "  @x = 1", "  a = \x7b b = @x \x7d", "  c", "\x7d"]
  tagged := true

theorem lists_of_definitions_namespaceAndBlock :
    ∃ statements definitions, parse (Text.join "\n" namespaceAndBlock.lines) = .ok statements ∧
      namespaceAndBlock.definitions = .ok definitions ∧
      namespaceAndBlock.Lists statements definitions ∧
      definitions.map (fun d => (d.id, d.scope.map (·.id))) =
        [("ev", []), ("@x", []), ("a", ["ev", "@x"]), ("c", ["ev", "@x"])] := by
  have hsome : (parse (Text.join "\n" namespaceAndBlock.lines)).toOption.isSome := by
    decide +kernel
  obtain ⟨statements, hstatements⟩ := Option.isSome_iff_exists.mp hsome
  have hparse := eq_ok_of_toOption hstatements
  obtain ⟨definitions, hdefinitions, hlists⟩ := lists_of_definitions hparse
  have hscopes : namespaceAndBlock.definitions.toOption.map
      (·.map fun d => (d.id, d.scope.map (·.id))) =
        some [("ev", []), ("@x", []), ("a", ["ev", "@x"]), ("c", ["ev", "@x"])] := by
    decide +kernel
  rw [hdefinitions] at hscopes
  exact ⟨statements, definitions, hparse, hdefinitions, hlists, Option.some.inj hscopes⟩

end LoadOrder

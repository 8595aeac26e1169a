import Mathlib.Data.List.Nodup
import LoadOrder.Proofs.Definition.Index
import LoadOrder.Proofs.Merge.Blocks

namespace LoadOrder

open Script

def exportOrder (exported : List Definition) : List Definition :=
  (exported.filter Definition.isSupport).mergeSort (fun a b => a.id ≤ b.id) ++
    (exported.filter (!·.isSupport)).mergeSort fun a b => a.order ≤ b.order

theorem perm_exportOrder (exported : List Definition) : (exportOrder exported).Perm exported :=
  ((List.mergeSort_perm _ _).append (List.mergeSort_perm _ _)).trans (List.filter_append_perm _ _)

theorem filter_exportOrder {exported : List Definition}
    (h : exported.Pairwise fun a b => a.order ≤ b.order) :
    (exportOrder exported).filter (!·.isSupport) = exported.filter (!·.isSupport) := by
  have hsupport : ((exported.filter Definition.isSupport).mergeSort fun a b => a.id ≤ b.id).filter
      (!·.isSupport) = [] := by
    rw [List.filter_eq_nil_iff]
    intro d hd
    rw [List.mem_mergeSort, List.mem_filter] at hd
    simp [hd.2]
  have hothers : (exported.filter (!·.isSupport)).mergeSort (fun a b => a.order ≤ b.order) =
      exported.filter (!·.isSupport) :=
    List.mergeSort_of_pairwise ((h.filter _).imp fun hle => decide_eq_true hle)
  rw [exportOrder, List.filter_append, hsupport, hothers, List.nil_append, List.filter_filter]
  simp

theorem filter_bucket {exported : List Definition} {key tag : String}
    (h : exported.Pairwise fun a b => a.order ≤ b.order)
    (htag : ∀ d ∈ exported, d.blockKey = key ↔ d.codeTag = tag) :
    ((exportOrder exported).filter (·.blockKey == key)).filter (!·.isSupport) =
      exported.filter fun d => !d.isSupport && d.codeTag == tag := by
  rw [List.filter_comm, filter_exportOrder h, List.filter_filter]
  apply List.filter_congr
  intro d hd
  rw [Bool.and_comm, Bool.eq_iff_iff]
  simp [htag d hd]

def exportBuckets (exported : List Definition) : Buckets Definition :=
  Buckets.sorted Definition.blockKey (exportOrder exported)

theorem mem_exportBuckets {exported : List Definition} {key : String} {group : List Definition} :
    (key, group) ∈ exportBuckets exported ↔
      group = (exportOrder exported).filter (·.blockKey == key) ∧ group ≠ [] :=
  (Buckets.holds_sorted _ _).1.mem_iff

theorem perm_exportBuckets (exported : List Definition) :
    ((exportBuckets exported).flatMap (·.2)).Perm exported :=
  (Buckets.perm_flatMap_sorted _ _).trans (perm_exportOrder exported)

theorem exists_composeExport {exported : List Definition} (h : exported ≠ []) :
    ∃ m, composeExport? exported = some m ∧
      m.code = String.join ((exportBuckets exported).map (groupText ·.2)) := by
  have hne : exportOrder exported ≠ [] := by
    intro hnil
    have hperm := perm_exportOrder exported
    rw [hnil] at hperm
    exact h hperm.nil_eq.symm
  obtain ⟨first, rest, hordered⟩ := List.exists_cons_of_ne_nil hne
  have hcompose : composeExport? exported = compose? (exportOrder exported) := rfl
  rw [hcompose, exportBuckets, hordered]
  exact ⟨_, rfl, rfl⟩

/-- No variable is put into an object of its tag: the first line of the objects that closes a brace
is the last line of its object. -/
def LeavesWhole (definitions : List Definition) : Prop :=
  ∀ v ∈ definitions, v.isSupport → ClosesWhole ((definitions.filter fun d =>
    !d.isSupport && d.codeTag == v.codeTag).map (·.code))

instance (definitions : List Definition) : Decidable (LeavesWhole definitions) :=
  inferInstanceAs (Decidable (∀ v ∈ definitions, _))

def Script.Statement.isBlock : Statement → Bool
  | .clause (some _) _ _ => true
  | _ => false

theorem exists_of_isBlock {s : Statement} (h : s.isBlock) :
    ∃ k body p, s = .clause (some k) body p := by
  unfold Statement.isBlock at h
  split at h
  · exact ⟨_, _, _, rfl⟩
  · cases h

/-- Statements that are blocks under names that differ. -/
structure Blocks (statements : List Statement) : Prop where
  plain : ∀ s ∈ statements, s.Plain
  keyed : ∀ s ∈ statements, s.isBlock
  distinct : (statements.map fun s => Text.lowercase s.blockName).Nodup

section Blocks

variable {source : Source} {statements : List Statement}

theorem Blocks.madeIn (h : Blocks statements) (htagged : source.tagged = true)
    (hobject : ∃ d ∈ source.made statements, d.kind = .object) :
    ∀ d ∈ source.made statements,
      ∃ k body p, .clause (some k) body p ∈ statements ∧ MadeIn k.name body d := by
  intro d hd
  have hsome : ∃ d ∈ source.made statements, d.kind ≠ .emptyFile := by
    obtain ⟨d, hd, hkind⟩ := hobject
    exact ⟨d, hd, by simp [hkind]⟩
  obtain ⟨s, hs, hentry⟩ := entry_mem_of_mem_made hsome hd
  obtain ⟨k, body, p, rfl⟩ := exists_of_isBlock (h.keyed s hs)
  rw [htagged] at hentry
  obtain ⟨t, ht, hof⟩ := List.mem_map.mp hentry
  have hcode : d.originalCode = t.code := by
    rw [originalCode_of_mem_made hd]
    have hentrycode := congrArg Entry.code hof
    rw [Entry.code_ofTagged, code_ofStatement t (by decide)] at hentrycode
    exact hentrycode.symm
  exact ⟨k, body, p, hs, t, ht, hcode, hof.symm⟩

theorem Blocks.blockKey_iff (h : Blocks statements) {k k' : Head} {body body' : List Statement}
    {p p' : Position} (hs : .clause (some k) body p ∈ statements)
    (hs' : .clause (some k') body' p' ∈ statements) {d : Definition}
    (hd : MadeIn k'.name body' d) :
    (d.blockKey = Text.lowercase k.name ↔ d.codeTag = k.name) ∧
      (d.codeTag = k.name → MadeIn k.name body d) := by
  have htag : d.codeTag = k'.name := hd.place.1
  have hkey : d.blockKey = Text.lowercase k'.name := by
    rw [Definition.blockKey, htag, trimmed_name (h.plain _ hs')]
  have hsame (heq : Text.lowercase k'.name = Text.lowercase k.name) :
      Statement.clause (some k') body' p' = .clause (some k) body p :=
    List.inj_on_of_nodup_map h.distinct hs' hs heq
  rw [hkey, htag]
  refine ⟨⟨fun heq => ?_, fun heq => by rw [heq]⟩, fun heq => ?_⟩
  · cases hsame heq
    rfl
  · cases hsame (by rw [heq])
    exact hd

theorem Blocks.exists_block (h : Blocks statements) (htagged : source.tagged = true)
    (hobject : ∃ d ∈ source.made statements, d.kind = .object) {key : String}
    {group : List Definition} (hbucket : (key, group) ∈ exportBuckets (source.made statements)) :
    group ≠ [] ∧ ∃ k body p, .clause (some k) body p ∈ statements ∧
      (∀ d ∈ group, MadeIn k.name body d) ∧
        group.filter (!·.isSupport) = (source.made statements).filter fun d =>
          !d.isSupport && d.codeTag == k.name := by
  obtain ⟨hgroup, hne⟩ := mem_exportBuckets.mp hbucket
  have hmem : ∀ d ∈ group, d ∈ source.made statements ∧ d.blockKey = key := by
    intro d hd
    rw [hgroup, List.mem_filter, beq_iff_eq, (perm_exportOrder _).mem_iff] at hd
    exact hd
  obtain ⟨first, hfirst⟩ := List.exists_mem_of_ne_nil group hne
  obtain ⟨k, body, p, hs, hmade⟩ := h.madeIn htagged hobject first (hmem first hfirst).1
  have hkey : key = Text.lowercase k.name := by
    rw [← (hmem first hfirst).2, (h.blockKey_iff hs hs hmade).1]
    exact hmade.place.1
  have hiff : ∀ d ∈ source.made statements,
      (d.blockKey = key ↔ d.codeTag = k.name) ∧ (d.codeTag = k.name → MadeIn k.name body d) := by
    intro d hd
    obtain ⟨k', body', p', hs', hmade'⟩ := h.madeIn htagged hobject d hd
    rw [hkey]
    exact h.blockKey_iff hs hs' hmade'
  refine ⟨hne, k, body, p, hs, fun d hd => ?_, ?_⟩
  · obtain ⟨hd, hdkey⟩ := hmem d hd
    exact (hiff d hd).2 ((hiff d hd).1.mp hdkey)
  · rw [hgroup]
    exact filter_bucket (pairwise_order_made source statements) fun d hd => (hiff d hd).1

theorem Blocks.readAs_bucket (h : Blocks statements) (htagged : source.tagged = true)
    (hobject : ∃ d ∈ source.made statements, d.kind = .object) {bucket : String × List Definition}
    (hbucket : bucket ∈ exportBuckets (source.made statements)) :
    ∃ text tree, (groupText bucket.2).toList = text ++ ['\x7d', '\n'] ∧
      Writes (text ++ ['\x7d']) tree.tokens ∧ ReadAs bucket.2 tree := by
  obtain ⟨hne, k, body, p, hs, hmade, -⟩ := h.exists_block htagged hobject hbucket
  exact readAs_groupText (h.plain _ hs) hne hmade

/-- No variable is put into an object if all buckets are whole, and only then. -/
theorem Blocks.leavesWhole_iff (h : Blocks statements) (htagged : source.tagged = true)
    (hobject : ∃ d ∈ source.made statements, d.kind = .object) :
    LeavesWhole (source.made statements) ↔
      ∀ bucket ∈ exportBuckets (source.made statements), Whole bucket.2 := by
  have hcodes (tag : String) :
      ((source.made statements).filter fun d => !d.isSupport && d.codeTag == tag).map
          (·.originalCode) =
        ((source.made statements).filter fun d => !d.isSupport && d.codeTag == tag).map (·.code) :=
    List.map_congr_left fun d hd => originalCode_of_mem_made (List.mem_filter.mp hd).1
  constructor
  · rintro hwhole ⟨key, group⟩ hbucket ⟨v, hv, hsupport⟩
    obtain ⟨-, k, body, p, -, hmade, hbodies⟩ := h.exists_block htagged hobject hbucket
    have hmem := (mem_exportBuckets.mp hbucket).1
    dsimp only at hv ⊢
    rw [hbodies, hcodes, ← (hmade v hv).place.1]
    rw [hmem, List.mem_filter, (perm_exportOrder _).mem_iff] at hv
    exact hwhole v hv.1 hsupport
  · intro hwhole v hv hsupport
    let group := (exportOrder (source.made statements)).filter (·.blockKey == v.blockKey)
    have hgroup : v ∈ group := by
      rw [List.mem_filter, (perm_exportOrder _).mem_iff, beq_iff_eq]
      exact ⟨hv, rfl⟩
    have hbucket : (v.blockKey, group) ∈ exportBuckets (source.made statements) :=
      mem_exportBuckets.mpr ⟨rfl, List.ne_nil_of_mem hgroup⟩
    obtain ⟨-, k, body, p, -, hmade, hbodies⟩ := h.exists_block htagged hobject hbucket
    have hclosed := hwhole _ hbucket ⟨v, hgroup, hsupport⟩
    dsimp only at hclosed
    rw [hbodies, hcodes, ← (hmade v hgroup).place.1] at hclosed
    exact hclosed

/-- The text of the export is read as one tree for each bucket. -/
theorem Blocks.exists_reread (h : Blocks statements) (htagged : source.tagged = true)
    (hobject : ∃ d ∈ source.made statements, d.kind = .object) :
    ∃ m forest, composeExport? (source.made statements) = some m ∧
      List.Forall₂ (fun bucket tree => ReadAs bucket.2 tree)
        (exportBuckets (source.made statements)) forest ∧
      (nesting forest ≤ maxDepth →
        ∃ statements', parse (Text.join "\n" (Text.linesOf m.code)) = .ok statements') ∧
      ∀ statements', parse (Text.join "\n" (Text.linesOf m.code)) = .ok statements' →
        trees statements' = forest := by
  have hne : source.made statements ≠ [] := by
    obtain ⟨d, hd, -⟩ := hobject
    exact List.ne_nil_of_mem hd
  have hbuckets : exportBuckets (source.made statements) ≠ [] := by
    intro hnil
    have hperm := perm_exportBuckets (source.made statements)
    rw [hnil, List.flatMap_nil] at hperm
    exact hne hperm.nil_eq.symm
  obtain ⟨m, hm, hcode⟩ := exists_composeExport hne
  obtain ⟨text, forest, htext, hwrites, hreads⟩ :=
    exists_readAs hbuckets fun bucket hbucket => h.readAs_bucket htagged hobject hbucket
  rw [← hcode] at htext
  obtain ⟨hparses, htrees⟩ := parse_linesOf hwrites htext
  exact ⟨m, forest, hm, hreads, hparses, htrees⟩

end Blocks

theorem map_entry_of_tagged (source : Source) {statements : List Statement}
    (htagged : source.tagged = true) (hne : statements.flatMap (Statement.entries true) ≠ []) :
    (source.made statements).map Definition.entry =
      statements.flatMap (Statement.entries true) := by
  rw [map_entry_made, htagged, Source.marked, if_neg (by simpa using hne)]

theorem blocks_of_parse {text : String} {statements : List Statement}
    (hparse : parse text = .ok statements)
    (hline : SingleLine (spelling (trees statements)))
    (hkeyed : ∀ s ∈ statements, s.isBlock)
    (hdistinct : (statements.map fun s => Text.lowercase s.blockName).Nodup) :
    Blocks statements := by
  refine ⟨fun s hs => ?_, hkeyed, hdistinct⟩
  have htokens : SingleLine s.tree.tokens := everywhere_spelling hline (tree_mem_trees hs)
  exact ⟨spelled_of_parse hparse hs htokens.printable, htokens.onLines⟩

/-- What a definition says, wherever it stands. -/
def Definition.contents (d : Definition) : String × Kind × String := (d.id, d.kind, d.code)

theorem perm_contents {definitions definitions' : List Definition}
    (h : (definitions.map Definition.entry).Perm (definitions'.map Definition.entry))
    (tag : String) :
    ((definitions.filter (·.codeTag == tag)).map Definition.contents).Perm
      ((definitions'.filter (·.codeTag == tag)).map Definition.contents) := by
  have hentries (ds : List Definition) : (ds.filter (·.codeTag == tag)).map Definition.contents =
      ((ds.map Definition.entry).filter (·.tag == tag)).map fun e => (e.id, e.kind, e.code) := by
    rw [List.filter_map, List.map_map]
    rfl
  rw [hentries, hentries]
  exact (h.filter _).map _

def Source.withText (source : Source) (text : String) : Source :=
  { source with lines := Text.linesOf text }

theorem length_eq_of_perm_contents {definitions definitions' : List Definition}
    (h : ∀ tag, ((definitions.filter (·.codeTag == tag)).map Definition.contents).Perm
      ((definitions'.filter (·.codeTag == tag)).map Definition.contents)) :
    definitions.length = definitions'.length := by
  have hperm : (definitions.map (·.codeTag)).Perm (definitions'.map (·.codeTag)) := by
    rw [List.perm_iff_count]
    intro tag
    have hlength := (h tag).length_eq
    rw [List.length_map, List.length_map] at hlength
    rw [List.count_eq_countP, List.count_eq_countP, List.countP_map, List.countP_map,
      List.countP_eq_length_filter, List.countP_eq_length_filter]
    exact hlength
  simpa using hperm.length_eq

/-- The definitions of tagged blocks are composed into a text that is read as the same definitions
under every tag, in some order, if and only if no variable is put into an object. -/
theorem composeExport?_keeps_contents_iff {source : Source} {statements : List Statement}
    {definitions : List Definition} (htagged : source.tagged = true)
    (hparse : parse (Text.join "\n" source.lines) = .ok statements)
    (hline : SingleLine (spelling (trees statements)))
    (hkeyed : ∀ s ∈ statements, s.isBlock)
    (hdistinct : (statements.map fun s => Text.lowercase s.blockName).Nodup)
    (hdefinitions : source.definitions = .ok definitions)
    (hobject : ∃ d ∈ definitions, d.kind = .object) :
    (∃ m again, composeExport? definitions = some m ∧
      (source.withText m.code).definitions = .ok again ∧
      ∀ tag, ((again.filter (·.codeTag == tag)).map Definition.contents).Perm
        ((definitions.filter (·.codeTag == tag)).map Definition.contents)) ↔
      LeavesWhole definitions := by
  have hblocks := blocks_of_parse hparse hline hkeyed hdistinct
  obtain ⟨statements', hparse', rfl⟩ := Source.definitions_eq_ok_iff.mp hdefinitions
  obtain rfl := Except.ok.inj (hparse.symm.trans hparse')
  obtain ⟨m, forest, hm, hreads, hparses, htrees⟩ := hblocks.exists_reread htagged hobject
  have hperm := perm_exportBuckets (source.made statements)
  rw [hblocks.leavesWhole_iff htagged hobject]
  constructor
  · rintro ⟨m', again, hm', hagain, hsame⟩
    obtain rfl := Option.some.inj (hm.symm.trans hm')
    obtain ⟨statements', hstatements', rfl⟩ := Source.definitions_eq_ok_iff.mp hagain
    obtain ⟨-, hfewer⟩ := length_of_not_whole hreads (htrees statements' hstatements')
    intro bucket hbucket
    by_contra hnot
    obtain ⟨hsome, hlt⟩ := hfewer ⟨bucket, hbucket, hnot⟩
    have hlength := length_eq_of_perm_contents hsame
    rw [← map_entry_of_tagged (source.withText m.code) htagged hsome, List.length_map,
      hperm.length_eq, hlength] at hlt
    exact Nat.lt_irrefl _ hlt
  · intro hwhole
    obtain ⟨hshallow, hentries⟩ := perm_of_whole hreads hwhole
    obtain ⟨statements', hstatements'⟩ := hparses hshallow
    refine ⟨m, _, hm, Source.definitions_eq_ok_iff.mpr ⟨statements', hstatements', rfl⟩,
      perm_contents ?_⟩
    have hread := (hentries statements' (htrees statements' hstatements')).trans
      (hperm.map Definition.entry)
    have hsome : statements'.flatMap (Statement.entries true) ≠ [] := by
      intro hnil
      obtain ⟨d, hd, -⟩ := hobject
      rw [hnil] at hread
      rw [List.map_eq_nil_iff.mp hread.nil_eq.symm] at hd
      cases hd
    rw [map_entry_of_tagged (source.withText m.code) htagged hsome]
    exact hread

def fileOfBlocks (lines : List String) : Source where
  file := "common/defines/00.txt"
  diskFile := ""
  modName := "a"
  dependencies := []
  lines := lines
  tagged := true

def variableAfterObject : Source :=
  fileOfBlocks ["NGame = \x7b", "  @v = 3", "  a = \x7b", "    c = @v", "  \x7d", "\x7d",
    "Other = \x7b x \x7d"]

theorem composeExport?_keeps_variableAfterObject :
    ∃ definitions m again, variableAfterObject.definitions = .ok definitions ∧
      composeExport? definitions = some m ∧
      (variableAfterObject.withText m.code).definitions = .ok again ∧
      ∀ tag, ((again.filter (·.codeTag == tag)).map Definition.contents).Perm
        ((definitions.filter (·.codeTag == tag)).map Definition.contents) := by
  have hscript : (parse (Text.join "\n" variableAfterObject.lines)).toOption.any fun statements =>
      decide (SingleLine (spelling (trees statements)) ∧ (∀ s ∈ statements, s.isBlock) ∧
        (statements.map fun s => Text.lowercase s.blockName).Nodup) := by
    decide +kernel
  have hread : variableAfterObject.definitions.toOption.any fun definitions =>
      decide ((∃ d ∈ definitions, d.kind = .object) ∧ LeavesWhole definitions) := by
    decide +kernel
  obtain ⟨statements, hstatements, hblocks⟩ := (Option.any_eq_true _ _).mp hscript
  obtain ⟨definitions, hdefinitions, hsome⟩ := (Option.any_eq_true _ _).mp hread
  obtain ⟨hline, hkeyed, hdistinct⟩ := of_decide_eq_true hblocks
  obtain ⟨hobject, hwhole⟩ := of_decide_eq_true hsome
  have hok := eq_ok_of_toOption hdefinitions
  obtain ⟨m, again, hm, hagain, hperm⟩ := (composeExport?_keeps_contents_iff rfl
    (eq_ok_of_toOption hstatements) hline hkeyed hdistinct hok hobject).mpr hwhole
  exact ⟨definitions, m, again, hok, hm, hagain, hperm⟩

def variableInObject : Source :=
  fileOfBlocks ["NGame = \x7b", "  a = \x7b", "    b = \x7b c = 1 \x7d", "    d = 2", "  \x7d",
    "  @v = 3", "\x7d"]

/-- Not all definitions of tagged blocks are read again: the variable is put into the object, behind
the clause. -/
theorem not_composeExport?_keeps_contents :
    ¬∀ (source : Source) (statements : List Statement) (definitions : List Definition),
      source.tagged = true → parse (Text.join "\n" source.lines) = .ok statements →
      SingleLine (spelling (trees statements)) →
      (∀ s ∈ statements, s.isBlock) →
      (statements.map fun s => Text.lowercase s.blockName).Nodup →
      source.definitions = .ok definitions → (∃ d ∈ definitions, d.kind = .object) →
      (∀ s ∈ statements, s.entries true ≠ []) →
        ∃ m again, composeExport? definitions = some m ∧
          (source.withText m.code).definitions = .ok again ∧
          ∀ tag, ((again.filter (·.codeTag == tag)).map Definition.contents).Perm
            ((definitions.filter (·.codeTag == tag)).map Definition.contents) := by
  intro h
  have hscript : (parse (Text.join "\n" variableInObject.lines)).toOption.any fun statements =>
      decide (SingleLine (spelling (trees statements)) ∧ (∀ s ∈ statements, s.isBlock) ∧
        (statements.map fun s => Text.lowercase s.blockName).Nodup ∧
          ∀ s ∈ statements, s.entries true ≠ []) := by
    decide +kernel
  have hread : variableInObject.definitions.toOption.any fun definitions =>
      decide ((∃ d ∈ definitions, d.kind = .object) ∧
        (definitions.filter (·.codeTag == "NGame")).length = 2 ∧
        ((composeExport? definitions).bind fun m =>
          (variableInObject.withText m.code).definitions.toOption).any
            fun again => (again.filter (·.codeTag == "NGame")).length = 1) := by
    decide +kernel
  obtain ⟨statements, hstatements, hblocks⟩ := (Option.any_eq_true _ _).mp hscript
  obtain ⟨definitions, hdefinitions, hsome⟩ := (Option.any_eq_true _ _).mp hread
  obtain ⟨hline, hkeyed, hdistinct, hentries⟩ := of_decide_eq_true hblocks
  obtain ⟨hobject, htwo, hone⟩ := of_decide_eq_true hsome
  obtain ⟨m, again, hm, hagain, hperm⟩ := h variableInObject statements definitions rfl
    (eq_ok_of_toOption hstatements) hline hkeyed hdistinct (eq_ok_of_toOption hdefinitions)
    hobject hentries
  have hlength := (hperm "NGame").length_eq
  simp only [hm, hagain, Option.bind_some, Except.toOption, Option.any_some,
    decide_eq_true_eq] at hone
  rw [List.length_map, List.length_map, hone, htwo] at hlength
  exact absurd hlength (by decide)

end LoadOrder

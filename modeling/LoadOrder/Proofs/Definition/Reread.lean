import LoadOrder.Merge.Plan
import LoadOrder.Proofs.Definition.Extract

namespace LoadOrder

open Script

namespace Definition

/-- What decides where a definition is exported: its identity, its tag and what follows the tag. -/
def place (d : Definition) : String × String × String := (d.identity, d.codeTag, d.codeSeparator)

/-- A single definition, exported where `d` is. -/
def KeepsPlace (d : Definition) (again : List Definition) : Prop :=
  again.map place = [d.place]

instance (d : Definition) (again : List Definition) : Decidable (d.KeepsPlace again) :=
  inferInstanceAs (Decidable (again.map place = [d.place]))

/-- The source that the code of a definition is read from. -/
def rereadFrom (rules : Option Rules) (d : Definition) (code : String) : Source where
  file := d.file
  diskFile := d.diskFile
  modName := d.modName
  dependencies := d.dependencies
  lines := Text.linesOf code
  tagged := rules.any (·.isTagged d.file)

end Definition

theorem reread_of_definitions {rules : Option Rules} {d : Definition} {code : String}
    {parsed : List Definition} (h : (d.rereadFrom rules code).definitions = .ok parsed) :
    reread rules d code =
      (parsed.filter fun d => !d.isSupport && d.kind != .emptyFile).map fun d =>
        { d with scope := parsed.filter Definition.isSupport } := by
  unfold reread
  unfold Definition.rereadFrom at h
  simp only [h]

theorem place_of_mem_made {source : Source} {statements : List Statement} {d : Definition}
    (h : d ∈ source.made statements) : d.place = (source.definition d.entry 0).place := by
  obtain ⟨order, scope, hd⟩ := exists_of_mem_made h
  rw [hd]
  rfl

theorem file_of_mem_made {source : Source} {statements : List Statement} {d : Definition}
    (h : d ∈ source.made statements) : d.file = source.file := by
  obtain ⟨order, scope, hd⟩ := exists_of_mem_made h
  rw [hd]
  rfl

theorem place_definition {source source' : Source} (h : source.file = source'.file)
    (entry : Entry) :
    (source.definition entry 0).place = (source'.definition entry 0).place := by
  simp only [Definition.place, Definition.identity, Source.definition, h]

section Reread

variable {source : Source} {rules : Option Rules} {statements : List Statement} {d : Definition}

/-- The source of a definition's code is a file of the same name, with tags or without. -/
theorem definitions_rereadFrom (rules : Option Rules) {s : Statement} (hs : s.Spelled)
    (hcode : d.code = s.code) :
    ∃ again, again.tree = s.tree ∧
      (d.rereadFrom rules d.code).definitions = .ok ((d.rereadFrom rules d.code).made [again]) := by
  obtain ⟨again, hparse, htree⟩ := hs.parse_code
  have hlines : (d.rereadFrom rules d.code).lines = Text.linesOf s.code := by
    rw [← hcode]
    rfl
  rw [← hlines] at hparse
  exact ⟨again, htree, Source.definitions_eq_ok_iff.mpr ⟨[again], hparse, rfl⟩⟩

theorem keepsPlace_of_entries {s : Statement} (hs : s.Spelled) (hcode : d.code = s.code)
    (hmade : d ∈ source.made statements) (hkind : d.kind = .object)
    (hentries : s.entries (rules.any (·.isTagged d.file)) = [d.entry]) :
    d.KeepsPlace (reread rules d d.code) := by
  obtain ⟨again, htree, hread⟩ := definitions_rereadFrom rules hs hcode
  have hmap : ((d.rereadFrom rules d.code).made [again]).map Definition.entry = [d.entry] := by
    rw [map_entry_made, List.flatMap_singleton, entries_congr htree]
    exact congrArg (Source.marked _) hentries
  obtain ⟨d', hd', hentry⟩ := List.map_eq_singleton_iff.mp hmap
  have hkind' : d'.kind = .object := (congrArg Entry.kind hentry).trans hkind
  have hplace : d'.place = d.place := by
    have hmem : d' ∈ (d.rereadFrom rules d.code).made [again] := by simp [hd']
    rw [place_of_mem_made hmem, hentry, place_of_mem_made hmade]
    exact place_definition (file_of_mem_made hmade) d.entry
  have hobject : [d'].filter (fun d => !d.isSupport && d.kind != .emptyFile) = [d'] := by
    simp [Definition.isSupport, hkind', Kind.isSupport]
  rw [Definition.KeepsPlace, reread_of_definitions hread, hd', hobject]
  exact congrArg (fun place => [place]) hplace

/-- What is read from the code of one statement again has an entry of the statement. -/
theorem entry_of_keepsPlace {s : Statement} (hs : s.Spelled) (hcode : d.code = s.code)
    (hkeeps : d.KeepsPlace (reread rules d d.code)) :
    ∃ entry ∈ s.entries (rules.any (·.isTagged d.file)),
      entry.tag = d.codeTag ∧ entry.separator = d.codeSeparator := by
  obtain ⟨again, htree, hread⟩ := definitions_rereadFrom rules hs hcode
  obtain ⟨d', hd', hplace⟩ := List.map_eq_singleton_iff.mp hkeeps
  have hmem : d' ∈ reread rules d d.code := by simp [hd']
  rw [reread_of_definitions hread] at hmem
  obtain ⟨d'', hd'', rfl⟩ := List.mem_map.mp hmem
  obtain ⟨hmade, hobject⟩ := List.mem_filter.mp hd''
  simp only [Bool.and_eq_true, bne_iff_ne] at hobject
  obtain ⟨s', hs', hentry⟩ := entry_mem_of_mem_made ⟨d'', hmade, hobject.2⟩ hmade
  rw [List.mem_singleton.mp hs', entries_congr htree] at hentry
  have htag : (d''.codeTag, d''.codeSeparator) = (d.codeTag, d.codeSeparator) :=
    congrArg Prod.snd hplace
  exact ⟨d''.entry, hentry, congrArg Prod.fst htag, congrArg Prod.snd htag⟩

end Reread

/-- An object of a file keeps its place when its code is read again if it stands at the top level.
In the block of a tag it loses its place, unless it has the name of the tag. -/
theorem keepsPlace_reread_of_definitions {source : Source} {rules : Option Rules}
    {statements : List Statement} {definitions : List Definition} {d : Definition}
    (htagged : source.tagged = rules.any (·.isTagged source.file))
    (hparse : parse (Text.join "\n" source.lines) = .ok statements)
    (hdefinitions : source.definitions = .ok definitions)
    (hd : d ∈ definitions) (hkind : d.kind = .object)
    (hprintable : ∀ s ∈ statements, d.entry ∈ s.entries source.tagged → Printable s.tree.tokens) :
    (d.codeSeparator = "" → d.KeepsPlace (reread rules d d.code)) ∧
      (d.codeSeparator ≠ "" → d.codeTag ≠ d.id → ¬d.KeepsPlace (reread rules d d.code)) := by
  obtain ⟨statements', hparse', rfl⟩ := Source.definitions_eq_ok_iff.mp hdefinitions
  obtain rfl := Except.ok.inj (hparse.symm.trans hparse')
  obtain ⟨s, hs, hentry⟩ := entry_mem_of_mem_made ⟨d, hd, by simp [hkind]⟩ hd
  have hspelled := spelled_of_parse hparse hs (hprintable s hs hentry)
  have hfile := file_of_mem_made hd
  rw [← hfile] at htagged
  rw [htagged] at hentry
  constructor
  · intro hseparator
    obtain ⟨hentries, hcode⟩ := entries_of_separator hentry hseparator
    exact keepsPlace_of_entries hspelled hcode hd hkind hentries
  · intro hseparator hname hkeeps
    obtain ⟨k, body, p, rfl, htrue, t, ht, hof, hcode⟩ := entries_of_tag hentry hseparator
    obtain ⟨entry, hmem, htag, hsep⟩ := entry_of_keepsPlace (hspelled.body t ht) hcode hkeeps
    -- read alone, the statement is at the top level, or its own name is the tag
    rw [htrue] at hmem
    cases t with
    | leaf k' a p' =>
      rw [List.mem_singleton.mp hmem, (Entry.separator_ofTop _).2] at hsep
      exact hseparator hsep.symm
    | clause k' body' p' =>
      obtain ⟨t', -, rfl⟩ := List.mem_map.mp hmem
      rw [(Entry.place_ofTagged _ _).1] at htag
      have hid : d.id = (Statement.clause k' body' p').blockName := congrArg Entry.id hof
      exact hname (htag.symm.trans hid.symm)

def blockAndObject : Source where
  file := "common/defines/00.txt"
  diskFile := ""
  modName := "a"
  dependencies := []
  lines := ["NGame = \x7b", "  START = 1", "\x7d", "other = 2"]
  tagged := true

def tagsInDefines : Rules := FolderRules.rules ⟨"g", [], [], ["common/defines"]⟩

theorem tagged_blockAndObject :
    blockAndObject.tagged = (some tagsInDefines).any (·.isTagged blockAndObject.file) := by
  decide +kernel

theorem keepsPlace_reread_blockAndObject :
    ∃ inBlock beside, blockAndObject.definitions = .ok [inBlock, beside] ∧
      ¬inBlock.KeepsPlace (reread tagsInDefines inBlock inBlock.code) ∧
      beside.KeepsPlace (reread tagsInDefines beside beside.code) := by
  have hscript : (parse (Text.join "\n" blockAndObject.lines)).toOption.any (fun statements =>
      decide (Printable (spelling (trees statements)))) := by
    decide +kernel
  have hread : blockAndObject.definitions.toOption.map
      (·.map fun d => (d.id, d.kind, d.codeTag, d.codeSeparator)) =
        some [("START", .object, "NGame", "\x7b"), ("other", .object, "", "")] := by
    decide +kernel
  obtain ⟨statements, hstatements, hprintable⟩ := (Option.any_eq_true _ _).mp hscript
  obtain ⟨definitions, hdefinitions, hmap⟩ := Option.map_eq_some_iff.mp hread
  obtain ⟨inBlock, rest, rfl, hin, hrest⟩ := List.map_eq_cons_iff.mp hmap
  obtain ⟨beside, rfl, hbeside⟩ := List.map_eq_singleton_iff.mp hrest
  have hparse := eq_ok_of_toOption hstatements
  have hok := eq_ok_of_toOption hdefinitions
  simp only [Prod.mk.injEq] at hin hbeside
  have hall := of_decide_eq_true hprintable
  have hprint : ∀ s ∈ statements, Printable s.tree.tokens := fun s hs =>
    everywhere_spelling hall (tree_mem_trees hs)
  refine ⟨inBlock, beside, hok, ?_, ?_⟩
  · apply (keepsPlace_reread_of_definitions tagged_blockAndObject hparse hok (by simp) hin.2.1
      fun s hs _ => hprint s hs).2
    · simp [hin]
    · simp [hin]
  · apply (keepsPlace_reread_of_definitions tagged_blockAndObject hparse hok (by simp) hbeside.2.1
      fun s hs _ => hprint s hs).1
    exact hbeside.2.2.2

theorem not_keepsPlace_reread_of_tagged :
    ¬∀ (source : Source) (rules : Option Rules) (definitions : List Definition),
      source.tagged = rules.any (·.isTagged source.file) → source.definitions = .ok definitions →
        ∀ d ∈ definitions, d.kind = .object → d.KeepsPlace (reread rules d d.code) := by
  intro h
  have hlost : blockAndObject.definitions.toOption.any fun definitions =>
      definitions.any fun d =>
        decide (d.kind = .object ∧ ¬d.KeepsPlace (reread tagsInDefines d d.code)) := by
    decide +kernel
  obtain ⟨definitions, hdefinitions, hany⟩ := (Option.any_eq_true _ _).mp hlost
  obtain ⟨d, hd, hobject⟩ := List.any_eq_true.mp hany
  obtain ⟨hkind, hnot⟩ := of_decide_eq_true hobject
  exact hnot (h _ _ _ tagged_blockAndObject (eq_ok_of_toOption hdefinitions) d hd hkind)

end LoadOrder

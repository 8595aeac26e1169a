import LoadOrder.Proofs.Definition.Extract
import LoadOrder.Proofs.Success
import LoadOrder.Proofs.Text.LowerCase
import LoadOrder.Proofs.Text.Pieces

namespace LoadOrder

open Script

def dashed (s : String) : List (List Char) := Text.split (· == '-') s.toList

def dashes (s : String) : Nat := s.toList.countP (· == '-')

theorem dashed_injective : Function.Injective dashed := fun _ _ h =>
  String.toList_injective (Text.split_injective (fun _ => beq_iff_eq) h)

theorem length_dashed (s : String) : (dashed s).length = dashes s + 1 := Text.length_split _ _

theorem dashed_append (a b : String) : dashed (a ++ "-" ++ b) = dashed a ++ dashed b := by
  have hdash : ("-" : String).toList = ['-'] := rfl
  rw [dashed, String.toList_append, String.toList_append, hdash, List.append_assoc,
    List.singleton_append]
  exact Text.split_append (by rfl) a.toList b.toList

theorem dashed_join {parts : List String} (h : parts ≠ []) :
    dashed (Text.join "-" parts) = parts.flatMap dashed := by
  induction parts with
  | nil => exact absurd rfl h
  | cons part more ih =>
    by_cases hmore : more = []
    · subst hmore
      simp [Text.join]
    · rw [Text.join, String.intercalate_cons_of_ne_nil hmore, dashed_append, List.flatMap_cons,
        ← ih hmore, Text.join]

/-- Texts whose pieces are the same one after another are the same, if each has as many dashes. -/
theorem eq_of_flatMap_dashed {parts parts' : List String}
    (h : parts.flatMap dashed = parts'.flatMap dashed)
    (hdashes : parts.map dashes = parts'.map dashes) : parts = parts' := by
  induction parts generalizing parts' with
  | nil => exact (List.map_eq_nil_iff.mp hdashes.symm).symm
  | cons part more ih =>
    obtain ⟨part', more', rfl, hpart, hmore⟩ := List.map_eq_cons_iff.mp hdashes.symm
    have hlength : (dashed part).length = (dashed part').length := by
      rw [length_dashed, length_dashed, hpart]
    rw [List.flatMap_cons, List.flatMap_cons] at h
    obtain ⟨hfirst, hrest⟩ := List.append_inj h hlength
    rw [dashed_injective hfirst, ih hrest hmore.symm]

namespace Definition

/-- The folder, the tag if the definition is in a block, and the id, all in small letters. -/
def parts (d : Definition) : List String :=
  if d.codeSeparator = "" then [folderType d.file, Text.lowercase d.id]
  else [folderType d.file, Text.lowercase d.codeTag, Text.lowercase d.id]

/-- The same folder, tag and id, whatever the case of their letters. -/
def SameUnit (d e : Definition) : Prop :=
  folderType d.file = folderType e.file ∧ Text.lowercase d.codeTag = Text.lowercase e.codeTag ∧
    Text.lowercase d.id = Text.lowercase e.id

instance (d e : Definition) : Decidable (d.SameUnit e) :=
  inferInstanceAs (Decidable (_ ∧ _ ∧ _))

variable {d e : Definition}

theorem parts_ne_nil (d : Definition) : d.parts ≠ [] := by
  unfold parts
  split <;> exact List.cons_ne_nil _ _

/-- A definition of a file: its type is made from folder and tag, and without a block it has no tag.
-/
structure IsPlaced (d : Definition) : Prop where
  type : d.type = if d.codeSeparator = "" then folderType d.file
    else folderType d.file ++ "-" ++ d.codeTag
  tag : d.codeSeparator = "" → d.codeTag = ""

theorem lowercase_folderType (file : String) :
    Text.lowercase (folderType file) = folderType file := by
  unfold folderType
  extract_lets chars
  split
  · exact Text.lowercase_lowercase _
  · rfl

theorem IsPlaced.identity_eq (h : d.IsPlaced) : d.identity = Text.join "-" d.parts := by
  rw [identity, h.type, parts]
  split
  · rw [Text.lowercase_append_dash, lowercase_folderType]
    rfl
  · rw [Text.lowercase_append_dash, Text.lowercase_append_dash, lowercase_folderType]
    simp [Text.join, String.append_assoc]

theorem IsPlaced.dashed_identity (h : d.IsPlaced) : dashed d.identity = d.parts.flatMap dashed := by
  rw [h.identity_eq, dashed_join d.parts_ne_nil]

theorem IsPlaced.identity_eq_iff (hd : d.IsPlaced) (he : e.IsPlaced) :
    d.identity = e.identity ↔ d.parts.flatMap dashed = e.parts.flatMap dashed := by
  rw [← hd.dashed_identity, ← he.dashed_identity]
  exact ⟨congrArg dashed, fun h => dashed_injective h⟩

theorem SameUnit.length_lt (h : d.SameUnit e) (hd : d.codeSeparator = "")
    (he : e.codeSeparator ≠ "") :
    (d.parts.flatMap dashed).length < (e.parts.flatMap dashed).length := by
  rw [parts, parts, if_pos hd, if_neg he, h.1, h.2.2]
  simp [length_dashed]

theorem SameUnit.symm (h : d.SameUnit e) : e.SameUnit d := ⟨h.1.symm, h.2.1.symm, h.2.2.symm⟩

theorem SameUnit.parts_eq (h : d.SameUnit e)
    (hpieces : d.parts.flatMap dashed = e.parts.flatMap dashed) : d.parts = e.parts := by
  by_cases hd : d.codeSeparator = "" <;> by_cases he : e.codeSeparator = ""
  · rw [parts, parts, if_pos hd, if_pos he, h.1, h.2.2]
  · exact absurd (congrArg List.length hpieces) (Nat.ne_of_lt (h.length_lt hd he))
  · exact absurd (congrArg List.length hpieces.symm) (Nat.ne_of_lt (h.symm.length_lt he hd))
  · rw [parts, parts, if_neg hd, if_neg he, h.1, h.2.1, h.2.2]

theorem IsPlaced.sameUnit_of_parts_eq (hd : d.IsPlaced) (he : e.IsPlaced)
    (h : d.parts = e.parts) : d.SameUnit e := by
  unfold parts at h
  split at h <;> split at h
  · next hd' he' => simp_all [SameUnit, hd.tag hd', he.tag he']
  · simp at h
  · simp at h
  · simp_all [SameUnit]

theorem IsPlaced.sameUnit_iff (hd : d.IsPlaced) (he : e.IsPlaced) (h : d.identity = e.identity) :
    d.SameUnit e ↔ d.parts.map dashes = e.parts.map dashes := by
  have hpieces := (hd.identity_eq_iff he).mp h
  constructor
  · exact fun hsame => by rw [hsame.parts_eq hpieces]
  · exact fun hdashes => hd.sameUnit_of_parts_eq he (eq_of_flatMap_dashed hpieces hdashes)

end Definition

theorem tag_of_separator {s : Statement} {tagged : Bool} {entry : Entry}
    (h : entry ∈ s.entries tagged) (hs : entry.separator = "") : entry.tag = "" := by
  cases s with
  | leaf k a p =>
    rw [List.mem_singleton.mp h]
    exact (Entry.separator_ofTop _).1
  | clause k body p =>
    cases tagged with
    | false =>
      rw [List.mem_singleton.mp h]
      exact (Entry.separator_ofTop _).1
    | true =>
      obtain ⟨t, -, rfl⟩ := List.mem_map.mp h
      rw [(Entry.place_ofTagged _ _).2] at hs
      exact absurd hs (by decide)

theorem isPlaced_of_definitions {source : Source} {definitions : List Definition}
    (h : source.definitions = .ok definitions) {d : Definition} (hd : d ∈ definitions) :
    d.IsPlaced := by
  obtain ⟨statements, -, rfl⟩ := Source.definitions_eq_ok_iff.mp h
  have hentry : d.entry ∈ source.marked (statements.flatMap (Statement.entries source.tagged)) := by
    rw [← map_entry_made]
    exact List.mem_map_of_mem hd
  constructor
  · obtain ⟨order, scope, hmade⟩ := exists_of_mem_made hd
    rw [hmade]
    rfl
  · intro hseparator
    rw [Source.marked] at hentry
    split at hentry
    · exact congrArg Entry.tag (List.mem_singleton.mp hentry)
    · obtain ⟨s, -, hs⟩ := List.mem_flatMap.mp hentry
      exact tag_of_separator hs hseparator

/-- Definitions of files have one identity exactly if the pieces between the dashes of their
folders, tags and ids are the same. Then these three are the same exactly if each of them has as
many dashes in both definitions. -/
theorem sameUnit_iff_of_definitions {source source' : Source}
    {definitions definitions' : List Definition} (h : source.definitions = .ok definitions)
    (h' : source'.definitions = .ok definitions') :
    ∀ d ∈ definitions, ∀ e ∈ definitions',
      (d.identity = e.identity ↔ d.parts.flatMap dashed = e.parts.flatMap dashed) ∧
        (d.identity = e.identity → (d.SameUnit e ↔ d.parts.map dashes = e.parts.map dashes)) := by
  intro d hd e he
  have hplaced := isPlaced_of_definitions h hd
  have hplaced' := isPlaced_of_definitions h' he
  exact ⟨hplaced.identity_eq_iff hplaced', hplaced.sameUnit_iff hplaced'⟩

def fileOfLine (file line : String) : Source where
  file := file
  diskFile := ""
  modName := "m"
  dependencies := []
  lines := [line]
  tagged := false

theorem sameUnit_of_capitals :
    ∃ d e, (fileOfLine "Common/On-Map/00.txt" "TAX-rate = 1").definitions = .ok [d] ∧
      (fileOfLine "common/on-map/01.txt" "tax-RATE = 2").definitions = .ok [e] ∧
      d.identity = e.identity ∧ d.SameUnit e := by
  have hread : (fileOfLine "Common/On-Map/00.txt" "TAX-rate = 1").definitions.toOption.any fun ds =>
      (fileOfLine "common/on-map/01.txt" "tax-RATE = 2").definitions.toOption.any fun es =>
        decide (ds.length = 1 ∧ es.length = 1) && ds.all fun d => es.all fun e =>
          decide (d.identity = e.identity ∧ d.parts.map dashes = e.parts.map dashes) := by
    decide +kernel
  obtain ⟨definitions, hdefinitions, hread⟩ := (Option.any_eq_true _ _).mp hread
  obtain ⟨definitions', hdefinitions', hread⟩ := (Option.any_eq_true _ _).mp hread
  obtain ⟨hlengths, hall⟩ := Bool.and_eq_true_iff.mp hread
  obtain ⟨hlength, hlength'⟩ := of_decide_eq_true hlengths
  obtain ⟨d, rfl⟩ := List.length_eq_one_iff.mp hlength
  obtain ⟨e, rfl⟩ := List.length_eq_one_iff.mp hlength'
  have hok := eq_ok_of_toOption hdefinitions
  have hok' := eq_ok_of_toOption hdefinitions'
  simp only [List.all_cons, List.all_nil, Bool.and_true, decide_eq_true_eq] at hall
  have hunit := sameUnit_iff_of_definitions hok hok' d (.head _) e (.head _)
  exact ⟨d, e, hok, hok', hall.1, (hunit.2 hall.1).mpr hall.2⟩

theorem not_sameUnit_of_identity_eq :
    ¬∀ (source source' : Source) (definitions definitions' : List Definition),
      source.definitions = .ok definitions → source'.definitions = .ok definitions' →
        ∀ d ∈ definitions, ∀ e ∈ definitions', d.identity = e.identity → d.SameUnit e := by
  intro h
  have hread : (fileOfLine "common/t/00.txt" "a-b = 1").definitions.toOption.any fun ds =>
      (fileOfLine "common/t-a/00.txt" "b = 2").definitions.toOption.any fun es =>
        ds.any fun d => es.any fun e => decide (d.identity = e.identity ∧ ¬d.SameUnit e) := by
    decide +kernel
  obtain ⟨definitions, hdefinitions, hread⟩ := (Option.any_eq_true _ _).mp hread
  obtain ⟨definitions', hdefinitions', hread⟩ := (Option.any_eq_true _ _).mp hread
  obtain ⟨d, hd, hread⟩ := List.any_eq_true.mp hread
  obtain ⟨e, he, hread⟩ := List.any_eq_true.mp hread
  obtain ⟨hidentity, hother⟩ := of_decide_eq_true hread
  exact hother (h _ _ _ _ (eq_ok_of_toOption hdefinitions) (eq_ok_of_toOption hdefinitions') d hd
    e he hidentity)

end LoadOrder

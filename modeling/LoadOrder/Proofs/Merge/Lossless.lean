import Mathlib.Data.List.Forall2
import LoadOrder.Proofs.Definition.Index
import LoadOrder.Proofs.Merge.Untagged

namespace LoadOrder

/-- The lines that are not blank, without the blanks at their ends. -/
def contents (lines : List String) : List String := (lines.map Text.trimmed).filter (· ≠ "")

/-- The lines of a text that are not blank, without the blanks at their ends. -/
def contentLines (text : String) : List String := contents (Text.linesOf text)

theorem contents_append (lines lines' : List String) :
    contents (lines ++ lines') = contents lines ++ contents lines' := by
  rw [contents, List.map_append, List.filter_append, contents, contents]

theorem contents_cons (line : String) (lines : List String) :
    contents (line :: lines) = contents [line] ++ contents lines :=
  contents_append [line] lines

theorem contents_flatMap {α : Type} (f : α → List String) (l : List α) :
    contents (l.flatMap f) = l.flatMap fun a => contents (f a) := by
  induction l with
  | nil => rfl
  | cons a l ih => rw [List.flatMap_cons, contents_append, ih, List.flatMap_cons]

theorem contents_congr {line line' : String} (h : Text.trimmed line = Text.trimmed line') :
    contents [line] = contents [line'] := by
  rw [contents, contents, List.map_singleton, List.map_singleton, h]

theorem contents_solidLines (text : String) : contents (solidLines text) = contentLines text := by
  rw [contentLines, solidLines]
  induction Text.linesOf text with
  | nil => rfl
  | cons line lines ih =>
    rw [contents_cons line lines, ← ih]
    cases hblank : Text.isBlankText line with
    | true => simp [hblank, contents, trimmed_of_isBlankText hblank]
    | false => rw [List.filter_cons_of_pos (by simp [hblank]), contents_cons]

section Pieces

open Text

theorem trim_append_return (s : List Char) : trim (s ++ ['\r']) = trim s := by
  have hreturn : isBlank '\r' := by decide
  unfold trim trimStart dropEndWhile
  rw [List.dropWhile_append]
  cases hs : s.dropWhile isBlank with
  | nil => simp [hreturn]
  | cons c rest => simp [hreturn]

theorem trim_spaces_append (width : Nat) (s : List Char) :
    trim (List.replicate width ' ' ++ s) = trim s := by
  have hspaces : ∀ c ∈ List.replicate width ' ', isBlank c := by
    intro c hc
    rw [List.eq_of_mem_replicate hc]
    decide
  rw [trim, trimStart, List.dropWhile_append_of_pos hspaces, trim, trimStart]

def behind (front : List Char) : List (List Char) → List (List Char)
  | [] => [front]
  | piece :: pieces => (front ++ piece) :: pieces

theorem behind_consFirst (front : List Char) (c : Char) (pieces : List (List Char)) :
    behind front (consFirst c pieces) = behind (front ++ [c]) pieces := by
  cases pieces with
  | nil => rfl
  | cons piece pieces => simp [consFirst, behind]

def contentsOf (pieces : List (List Char)) : List String := contents (pieces.map String.ofList)

theorem contentsOf_cons (piece : List Char) (pieces : List (List Char)) :
    contentsOf (piece :: pieces) = contents [String.ofList piece] ++ contentsOf pieces :=
  contents_cons _ _

theorem contentsOf_behind_nil (pieces : List (List Char)) :
    contentsOf (behind [] pieces) = contentsOf pieces := by
  cases pieces with
  | nil => rfl
  | cons piece pieces => rfl

theorem contentsOf_congr {piece piece' : List Char} {pieces pieces' : List (List Char)}
    (h : trim piece = trim piece') (hmore : contentsOf pieces = contentsOf pieces') :
    contentsOf (piece :: pieces) = contentsOf (piece' :: pieces') := by
  have htrimmed : trimmed (String.ofList piece) = trimmed (String.ofList piece') := by
    rw [trimmed, trimmed, String.toList_ofList, String.toList_ofList, h]
  rw [contentsOf_cons, contentsOf_cons, contents_congr htrimmed, hmore]

theorem contentsOf_lines (front s : List Char) :
    contentsOf (behind front (lines s)) = contentsOf (behind front (split isNewline s)) := by
  -- `front` is what has been read of the line
  fun_induction lines s generalizing front with
  | case1 => rw [split, behind, behind, List.append_nil]
  | case2 rest ih =>
    have hrest := ih []
    rw [contentsOf_behind_nil, contentsOf_behind_nil] at hrest
    rw [split, if_neg (by decide), split, if_pos isNewline_newline, behind, consFirst, behind,
      List.append_nil]
    exact contentsOf_congr (trim_append_return front).symm hrest
  | case3 rest ih =>
    have hrest := ih []
    rw [contentsOf_behind_nil, contentsOf_behind_nil] at hrest
    rw [split, if_pos isNewline_newline, behind, behind]
    exact contentsOf_congr rfl hrest
  | case4 c rest _ hnewline ih =>
    rw [split, if_neg (by simpa [isNewline] using hnewline), behind_consFirst, behind_consFirst]
    exact ih _

theorem contentLines_eq (text : String) :
    contentLines text = contentsOf (split isNewline text.toList) := by
  have hlines := contentsOf_lines [] text.toList
  rwa [contentsOf_behind_nil, contentsOf_behind_nil] at hlines

end Pieces

theorem contentLines_append_newline (s t : String) :
    contentLines (s ++ "\n" ++ t) = contentLines s ++ contentLines t := by
  have hnewline : ("\n" : String).toList = ['\n'] := rfl
  rw [contentLines_eq, contentLines_eq, contentLines_eq, String.toList_append,
    String.toList_append, hnewline, List.append_assoc, List.singleton_append,
    Text.split_append Text.isNewline_newline, contentsOf, List.map_append, contents_append]
  rfl

theorem contentLines_newline (s : String) : contentLines (s ++ "\n") = contentLines s := by
  have hend := contentLines_append_newline s ""
  rwa [String.append_empty, show contentLines "" = [] from rfl, List.append_nil] at hend

theorem contentLines_of_line {line : String} (h : '\n' ∉ line.toList) :
    contentLines line = contents [line] := by
  have hpiece : ∀ c ∈ line.toList, Text.isNewline c = false := fun c hc =>
    Text.isNewline_eq_false fun hn => h (hn ▸ hc)
  rw [contentLines_eq, Text.split_of_forall_not hpiece, contentsOf, List.map_singleton,
    String.ofList_toList]

/-- Whole lines, with these contents: after the text a new line begins. -/
structure Shows (text : String) (lines : List String) : Prop where
  ends : text = "" ∨ ∃ s, text = s ++ "\n"
  lines_eq : contentLines text = lines

theorem shows_newline (text : String) : Shows (text ++ "\n") (contentLines text) :=
  ⟨.inr ⟨text, rfl⟩, contentLines_newline text⟩

theorem Shows.append {text text' : String} {lines lines' : List String} (h : Shows text lines)
    (h' : Shows text' lines') : Shows (text ++ text') (lines ++ lines') := by
  constructor
  · rcases h'.ends with rfl | ⟨s, rfl⟩
    · rw [String.append_empty]
      exact h.ends
    · exact .inr ⟨text ++ s, String.append_assoc.symm⟩
  · rw [← h.lines_eq, ← h'.lines_eq]
    rcases h.ends with rfl | ⟨s, rfl⟩
    · rw [String.empty_append]
      rfl
    · rw [contentLines_append_newline, contentLines_newline]

theorem shows_join {α : Type} {text : α → String} {lines : α → List String} {l : List α}
    (h : ∀ a ∈ l, Shows (text a) (lines a)) :
    Shows (String.join (l.map text)) (l.flatMap lines) := by
  induction l with
  | nil => exact ⟨.inl rfl, rfl⟩
  | cons a l ih =>
    rw [List.forall_mem_cons] at h
    rw [List.map_cons, String.join_cons, List.flatMap_cons]
    exact h.1.append (ih h.2)

theorem newline_notMem_of_mem_solidLines {text line : String} (h : line ∈ solidLines text) :
    '\n' ∉ line.toList := by
  obtain ⟨l, hl, rfl⟩ := List.mem_map.mp (List.mem_filter.mp h).1
  rw [String.toList_ofList]
  exact Text.newline_notMem_of_mem_lines hl

theorem shows_indented (width : Nat) {line : String} (h : '\n' ∉ line.toList) :
    Shows (indented width line) (contents [line]) := by
  have hspaces : Text.trimmed (String.ofList (List.replicate width ' ') ++ line) =
      Text.trimmed line := by
    rw [Text.trimmed, String.toList_append, String.toList_ofList, trim_spaces_append, Text.trimmed]
  have hline : '\n' ∉ (String.ofList (List.replicate width ' ') ++ line).toList := by
    rw [String.toList_append, String.toList_ofList, List.mem_append, not_or]
    exact ⟨fun hc => absurd (List.eq_of_mem_replicate hc) (by decide), h⟩
  rw [← contents_congr hspaces, ← contentLines_of_line hline]
  exact shows_newline _

theorem shows_join_indented (width : Nat) {lines : List String}
    (h : ∀ line ∈ lines, '\n' ∉ line.toList) :
    Shows (String.join (lines.map (indented width))) (contents lines) := by
  have hjoin := shows_join fun line hline => shows_indented width (h line hline)
  rwa [← contents_flatMap fun line => [line], List.flatMap_singleton'] at hjoin

theorem contents_flatMap_solidLines (codes : List String) :
    contents (codes.flatMap solidLines) = codes.flatMap contentLines := by
  rw [contents_flatMap, List.flatMap_congr fun code _ => contents_solidLines code]

theorem newline_notMem_solidLines (codes : List String) :
    ∀ line ∈ codes.flatMap solidLines, '\n' ∉ line.toList := by
  intro line hline
  obtain ⟨code, -, hline⟩ := List.mem_flatMap.mp hline
  exact newline_notMem_of_mem_solidLines hline

theorem shows_join_indentedLines (width : Nat) (codes : List String) :
    Shows (String.join (codes.map (indentedLines width))) (codes.flatMap contentLines) := by
  rw [← join_map_indented, ← contents_flatMap_solidLines]
  exact shows_join_indented width (newline_notMem_solidLines codes)

theorem exists_shows_blockBody (support bodies : List String) :
    ∃ lines, Shows (blockBody support bodies) lines ∧
      lines.Perm ((support ++ bodies).flatMap contentLines) := by
  have hnone := newline_notMem_solidLines bodies
  cases hsplit : splitAtClosing? (bodies.flatMap solidLines) with
  | none =>
    simp only [blockBody, hsplit]
    refine ⟨_, (shows_join_indentedLines 4 support).append (shows_join_indented 4 hnone), ?_⟩
    rw [contents_flatMap_solidLines, List.flatMap_append]
  | some parts =>
    obtain ⟨before, closing, after⟩ := parts
    simp only [blockBody, hsplit]
    -- the support stands between the lines up to the closing one and the lines after it
    have hlines : bodies.flatMap solidLines = (before ++ [closing]) ++ after := by
      rw [eq_of_splitAtClosing? hsplit, List.append_cons]
    have hcontents := contents_flatMap_solidLines bodies
    rw [hlines, contents_append] at hcontents
    rw [hlines, List.forall_mem_append] at hnone
    refine ⟨_, ((shows_join_indented 4 hnone.1).append (shows_join_indentedLines 8 support)).append
      (shows_join_indented 4 hnone.2), ?_⟩
    rw [List.flatMap_append, ← hcontents, ← List.append_assoc]
    exact List.perm_append_comm.append_right _

def openingLine (tag separator : String) : String :=
  if (closingOf? separator).isSome then tag ++ " = " ++ Text.trimmed separator else tag ++ separator

/-- The lines of a block are those of its members, in its frame. -/
theorem exists_shows_blockText (tag separator : String) (support bodies : List String) :
    ∃ lines, Shows (blockText tag separator support bodies)
        (contentLines (openingLine tag separator) ++ lines ++ (closingOf? separator).toList) ∧
      lines.Perm ((support ++ bodies).flatMap contentLines) := by
  cases hclosing : closingOf? separator with
  | none =>
    simp only [blockText, openingLine, hclosing, Option.isSome_none, Bool.false_eq_true, if_false,
      Option.toList_none, List.append_nil]
    exact ⟨_, (shows_newline _).append (shows_join_indentedLines 4 _), .refl _⟩
  | some closing =>
    obtain rfl : closing = "\x7d" := by
      unfold closingOf? at hclosing
      split at hclosing
      · exact (Option.some.inj hclosing).symm
      · cases hclosing
    obtain ⟨lines, hbody, hperm⟩ := exists_shows_blockBody support bodies
    simp only [blockText, openingLine, hclosing, Option.isSome_some, if_true, Option.toList_some]
    refine ⟨lines, ?_, hperm⟩
    rw [String.append_assoc]
    exact ((shows_newline _).append hbody).append (shows_newline "\x7d")

def memberLines (group : List Definition) : List String :=
  group.flatMap fun d => contentLines d.originalCode

/-- The lines before and after the members of a group: none without a tag, otherwise the first line
of a block and its closing brace if it has one. -/
def frame : String × List Definition → List String × List String
  | (_, []) => ([], [])
  | (key, first :: _) =>
    if key = "" then ([], [])
    else (contentLines (openingLine (Text.trimmed first.codeTag) first.codeSeparator),
      (closingOf? first.codeSeparator).toList)

/-- The lines of a group are those of its members, in its frame. -/
def InFrame (bucket : String × List Definition) (lines : List String) : Prop :=
  ∃ inner, lines = (frame bucket).1 ++ inner ++ (frame bucket).2 ∧
    inner.Perm (memberLines bucket.2)

theorem perm_memberLines_composed (group : List Definition) :
    (memberLines (composed group)).Perm (memberLines group) :=
  (perm_supportOf_append group).flatMap_right _

theorem blockKey_eq_empty_iff (d : Definition) :
    d.blockKey = "" ↔ Text.trimmed d.codeTag = "" :=
  Text.lowercase_eq_empty_iff

theorem exists_shows_groupText {key : String} {group : List Definition}
    (h : ∀ d ∈ group, d.blockKey = key) :
    ∃ lines, Shows (groupText group) lines ∧ InFrame (key, group) lines := by
  have hmembers := perm_memberLines_composed group
  cases group with
  | nil => exact ⟨[], ⟨.inl rfl, rfl⟩, [], rfl, .refl _⟩
  | cons first rest =>
    have htag : Text.trimmed first.codeTag = "" ↔ key = "" := by
      rw [← h first List.mem_cons_self, blockKey_eq_empty_iff]
    by_cases hkey : key = ""
    · have hcodes : Shows (groupText (first :: rest)) (memberLines (composed (first :: rest))) := by
        rw [groupText, if_pos (htag.mpr hkey)]
        exact shows_join fun d _ => shows_newline _
      refine ⟨_, hcodes, _, ?_, hmembers⟩
      simp [frame, hkey]
    · obtain ⟨inner, hblock, hperm⟩ := exists_shows_blockText (Text.trimmed first.codeTag)
        first.codeSeparator ((supportOf (first :: rest)).map (·.originalCode))
        (((first :: rest).filter (!·.isSupport)).map (·.originalCode))
      rw [← List.map_append, List.flatMap_map] at hperm
      have hgroup : groupText (first :: rest) = blockText (Text.trimmed first.codeTag)
          first.codeSeparator ((supportOf (first :: rest)).map (·.originalCode))
          (((first :: rest).filter (!·.isSupport)).map (·.originalCode)) := by
        rw [groupText, if_neg (mt htag.mp hkey)]
        rfl
      rw [← hgroup] at hblock
      refine ⟨_, hblock, inner, ?_, hperm.trans hmembers⟩
      simp [frame, hkey]

theorem perm_of_inFrame {groups : Buckets Definition} {parts : List (List String)}
    (h : List.Forall₂ InFrame groups parts) :
    parts.flatten.Perm (memberLines (groups.flatMap (·.2)) ++
      groups.flatMap fun bucket => (frame bucket).1 ++ (frame bucket).2) := by
  induction h with
  | nil => exact .refl _
  | cons hfirst _ ih =>
    obtain ⟨inner, rfl, hinner⟩ := hfirst
    rw [List.perm_iff_count] at ih hinner ⊢
    intro line
    have hrest := ih line
    have hmembers := hinner line
    simp only [memberLines, List.flatten_cons, List.flatMap_cons, List.flatMap_append,
      List.count_append] at hrest hmembers ⊢
    omega

/-- A composition in parts: the keys of the blocks ascend, the untagged one first, each with all of
its members and with the lines of its text. -/
structure Composition (definitions : List Definition) (text : String)
    (groups : Buckets Definition) (parts : List (List String)) : Prop where
  mem_iff : ∀ key group, (key, group) ∈ groups ↔
    group = definitions.filter (·.blockKey == key) ∧ group ≠ []
  ascending : groups.keys.Pairwise (· < ·)
  untagged_first : ∀ bucket ∈ groups.tail, bucket.1 ≠ ""
  lines_eq : contentLines text = parts.flatten
  framed : List.Forall₂ InFrame groups parts
  perm : (contentLines text).Perm (memberLines definitions ++
    groups.flatMap fun bucket => (frame bucket).1 ++ (frame bucket).2)

theorem ne_empty_of_mem_tail {groups : Buckets Definition} (h : groups.keys.Pairwise (· < ·)) :
    ∀ bucket ∈ groups.tail, bucket.1 ≠ "" := by
  cases groups with
  | nil => simp
  | cons first rest =>
    rw [Buckets.keys_cons, List.pairwise_cons] at h
    intro bucket hbucket hempty
    have hlt := h.1 bucket.1 (List.mem_map_of_mem hbucket)
    rw [hempty, String.lt_iff] at hlt
    exact List.not_lt_nil _ hlt

/-- A composition has the lines of its members, every one of them once, and those of the frames of
the blocks; and the blocks stand one after the other. -/
theorem exists_composition {definitions : List Definition} (h : definitions ≠ []) :
    ∃ m groups parts, compose? definitions = some m ∧
      Composition definitions m.code groups parts := by
  obtain ⟨hholds, hascending⟩ := Buckets.holds_sorted Definition.blockKey definitions
  have hmembers := Buckets.perm_flatMap_sorted Definition.blockKey definitions
  generalize hgroups : Buckets.sorted Definition.blockKey definitions = groups at *
  have hshown : ∀ bucket ∈ groups,
      Shows (groupText bucket.2) (contentLines (groupText bucket.2)) ∧
        InFrame bucket (contentLines (groupText bucket.2)) := by
    rintro ⟨key, group⟩ hbucket
    have hkeys : ∀ d ∈ group, d.blockKey = key := by
      intro d hd
      rw [(hholds.mem_iff.mp hbucket).1, List.mem_filter, beq_iff_eq] at hd
      exact hd.2
    obtain ⟨lines, hshows, hframed⟩ := exists_shows_groupText hkeys
    obtain rfl := hshows.lines_eq
    exact ⟨hshows, hframed⟩
  let parts := groups.map fun bucket => contentLines (groupText bucket.2)
  have hframed : List.Forall₂ InFrame groups parts := by
    rw [List.forall₂_map_right_iff, List.forall₂_same]
    exact fun bucket hbucket => (hshown bucket hbucket).2
  have hlines : contentLines (String.join (groups.map (groupText ·.2))) = parts.flatten := by
    rw [(shows_join fun bucket hbucket => (hshown bucket hbucket).1).lines_eq]
    rfl
  obtain ⟨first, rest, rfl⟩ := List.exists_cons_of_ne_nil h
  refine ⟨_, groups, parts, rfl, fun _ _ => hholds.mem_iff, hascending,
    ne_empty_of_mem_tail hascending, ?_, hframed, ?_⟩
  · dsimp only
    rw [hgroups, hlines]
  · dsimp only
    rw [hgroups, hlines]
    exact (perm_of_inFrame hframed).trans ((hmembers.flatMap_right _).append_right _)

def blockAndMore : List Definition :=
  let tagged (d : Definition) : Definition := { d with codeTag := "NGame", codeSeparator := "\x7b" }
  [tagged (memberOf .object "country = \x7b\n    x = @v\n\x7d"),
    tagged (memberOf .variable "@v = 3"), memberOf .object "z = 3"]

theorem exists_composition_blockAndMore :
    blockAndMore ≠ [] ∧ ∃ m groups parts, compose? blockAndMore = some m ∧
      Composition blockAndMore m.code groups parts ∧
      contentLines m.code =
        ["z = 3", "NGame = \x7b", "country = \x7b", "x = @v", "\x7d", "@v = 3", "\x7d"] := by
  have hne : blockAndMore ≠ [] := by decide
  obtain ⟨m, groups, parts, hm, hparts⟩ := exists_composition hne
  have hlines : (compose? blockAndMore).map (contentLines ·.code) =
      some ["z = 3", "NGame = \x7b", "country = \x7b", "x = @v", "\x7d", "@v = 3", "\x7d"] := by
    decide +kernel
  rw [hm] at hlines
  exact ⟨hne, m, groups, parts, hm, hparts, Option.some.inj hlines⟩

end LoadOrder

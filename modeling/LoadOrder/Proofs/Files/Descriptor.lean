import LoadOrder.Files.Descriptor
import LoadOrder.Proofs.Files.Export
import LoadOrder.Proofs.Script.Joined
import LoadOrder.Proofs.Text.Pieces

namespace LoadOrder

namespace Script

theorem Quotable.withoutReturns {s : List Char} (h : Quotable s) :
    Quotable (Text.withoutReturns s) := by
  induction h with
  | nil => exact .nil
  | @escaped c s _ ih =>
    rw [Text.withoutReturns_cons (by decide)]
    obtain ⟨more, rfl, rfl, hskip⟩ | hkeep := Text.withoutReturns_cons_cases c s
    · rw [hskip, Text.withoutReturns_cons (by decide)]
      rw [Text.withoutReturns_cons (by decide)] at ih
      exact .escaped '\n' (ih.tail (by decide))
    · rw [hkeep]
      exact .escaped c ih
  | @cons c s hquote hescape _ ih =>
    obtain ⟨_, _, _, hskip⟩ | hkeep := Text.withoutReturns_cons_cases c s
    · rw [hskip]
      exact ih
    · rw [hkeep]
      exact .cons hquote hescape ih

def assignment (key text : String) : String := key ++ "=" ++ (Atom.quoted text).source

def quotedLines (texts : List String) : String :=
  Text.join "\n\t" (texts.map fun text => (Atom.quoted text).source)

def requirement (key : String) (texts : List String) : String :=
  key ++ "=\x7b\n\t" ++ quotedLines texts ++ "\n\x7d"

def descriptor (name path version : String) (dependencies : List String) : String :=
  assignment "name" name ++ "\n" ++ assignment "path" path ++ "\n" ++
    assignment "version" version ++
    if dependencies = [] then "" else "\n" ++ requirement "dependencies" dependencies

theorem toList_assignment (key text : String) :
    (assignment key text).toList = key.toList ++ '=' :: '"' :: (text.toList ++ ['"']) := by
  simp [assignment, Atom.source]

theorem toList_quotedLines_cons (text : String) {more : List String} (hmore : more ≠ []) :
    (quotedLines (text :: more)).toList =
      '"' :: (text.toList ++ '"' :: '\n' :: '\t' :: (quotedLines more).toList) := by
  rw [quotedLines, List.map_cons, Text.join,
    String.intercalate_cons_of_ne_nil (by simpa using hmore)]
  simp [quotedLines, Text.join, Atom.source]

theorem toList_quotedLines_singleton (text : String) :
    (quotedLines [text]).toList = '"' :: (text.toList ++ ['"']) := by
  simp [quotedLines, Text.join, Atom.source]

theorem toList_requirement (key : String) (texts : List String) :
    (requirement key texts).toList =
      key.toList ++ '=' :: '\x7b' :: '\n' :: '\t' ::
        ((quotedLines texts).toList ++ ['\n', '\x7d']) := by
  simp [requirement]

def assignmentTree (key text : String) : Tree := .leaf (some ⟨.word key, .equal⟩) (.quoted text)

def quotedTrees (texts : List String) : List Tree := texts.map fun text => .leaf none (.quoted text)

def requirementTree (key : String) (texts : List String) : Tree :=
  .clause (some ⟨.word key, .equal⟩) (quotedTrees texts)

def descriptorTrees (name path version : String) (dependencies : List String) : List Tree :=
  [assignmentTree "name" name] ++ [assignmentTree "path" path] ++
    [assignmentTree "version" version] ++
    if dependencies = [] then [] else [requirementTree "dependencies" dependencies]

theorem says_assignment (key : String) {text : String} (hne : key.toList ≠ [])
    (hkey : key.toList.all isKeyChar) (htext : Quotable text.toList) :
    Says (assignment key text) [assignmentTree key text] := by
  refine says_of_lexes ?_ (Nat.zero_le _)
  rw [toList_assignment]
  exact .key hne (List.all_eq_true.mp hkey) (by decide) (.quoted htext.wellFormed .nil)

theorem spelling_quotedTrees_cons (text : String) (more : List String) :
    spelling (quotedTrees (text :: more)) = .atom (.quoted text) :: spelling (quotedTrees more) := by
  simp [quotedTrees, spelling, Tree.tokens, headTokens]

theorem lexes_quotedLines {texts : List String} (htexts : ∀ text ∈ texts, Quotable text.toList)
    {rest : List Char} {tokens : List Token} (h : Lexes rest tokens) :
    Lexes ((quotedLines texts).toList ++ rest) (spelling (quotedTrees texts) ++ tokens) := by
  induction texts with
  | nil => exact h
  | cons text more ih =>
    rw [List.forall_mem_cons] at htexts
    rw [spelling_quotedTrees_cons, List.cons_append]
    by_cases hmore : more = []
    · subst hmore
      rw [toList_quotedLines_singleton]
      simpa [quotedTrees, spelling] using Lexes.quoted htexts.1.wellFormed h
    · rw [toList_quotedLines_cons text hmore]
      have hlater := ((ih htexts.2).gap (c := '\t') (by decide)).gap (c := '\n') (by decide)
      simpa using Lexes.quoted htexts.1.wellFormed hlater

theorem says_requirement (key : String) (hne : key.toList ≠ [])
    (hkey : key.toList.all isKeyChar) {texts : List String}
    (htexts : ∀ text ∈ texts, Quotable text.toList) :
    Says (requirement key texts) [requirementTree key texts] := by
  refine says_of_lexes ?_ ?_
  · have hclosing : Lexes ['\n', '\x7d'] [.closing] := (Lexes.closing .nil).gap (by decide)
    have hbody := ((lexes_quotedLines htexts hclosing).gap (c := '\t') (by decide)).gap (c := '\n')
      (by decide)
    rw [toList_requirement, spelling_singleton]
    exact .key hne (List.all_eq_true.mp hkey) (by decide) hbody.opening
  · have hbody : nesting (quotedTrees texts) ≤ 0 := by
      rw [nesting_le_iff, quotedTrees, List.forall_mem_map]
      exact fun _ _ => Nat.le_refl 0
    simp only [requirementTree, nesting, Tree.nesting, maxDepth]
    omega

theorem says_descriptor {name path version : String} {dependencies : List String}
    (hname : Quotable name.toList) (hpath : Quotable path.toList)
    (hversion : Quotable version.toList) (h : ∀ text ∈ dependencies, Quotable text.toList) :
    Says (descriptor name path version dependencies)
      (descriptorTrees name path version dependencies) := by
  have hpairs := ((says_assignment "name" (by decide) (by decide) hname).append
    (says_assignment "path" (by decide) (by decide) hpath)).append
    (says_assignment "version" (by decide) (by decide) hversion)
  unfold descriptor descriptorTrees
  split
  · simpa using hpairs
  · simpa [String.append_assoc] using hpairs.append
      (says_requirement "dependencies" (by decide) (by decide) h)

/-- A text without the carriage returns at the ends of its lines. -/
def plainEnds (text : String) : String := String.ofList (Text.withoutReturns text.toList)

theorem withoutReturns_append_of_notMem (s : List Char) (h : '\r' ∉ s) (after : List Char) :
    Text.withoutReturns (s ++ after) = s ++ Text.withoutReturns after := by
  induction s with
  | nil => rfl
  | cons c s ih =>
    rw [List.mem_cons, not_or] at h
    rw [List.cons_append, Text.withoutReturns_cons (Ne.symm h.1), ih h.2, List.cons_append]

theorem withoutReturns_quoted (text after : List Char) :
    Text.withoutReturns ('"' :: (text ++ '"' :: after)) =
      '"' :: (Text.withoutReturns text ++ '"' :: Text.withoutReturns after) := by
  rw [Text.withoutReturns_cons (by decide), Text.withoutReturns_append (by decide),
    Text.withoutReturns_cons (by decide)]

theorem withoutReturns_assignment {key : String} (hkey : '\r' ∉ key.toList) (text : String)
    (after : List Char) :
    Text.withoutReturns ((assignment key text).toList ++ after) =
      (assignment key (plainEnds text)).toList ++ Text.withoutReturns after := by
  simp only [toList_assignment, List.append_assoc, List.cons_append, List.nil_append]
  rw [withoutReturns_append_of_notMem _ hkey, Text.withoutReturns_cons (by decide),
    withoutReturns_quoted]
  simp [plainEnds]

theorem withoutReturns_quotedLines (texts : List String) (after : List Char) :
    Text.withoutReturns ((quotedLines texts).toList ++ after) =
      (quotedLines (texts.map plainEnds)).toList ++ Text.withoutReturns after := by
  induction texts with
  | nil => rfl
  | cons text more ih =>
    by_cases hmore : more = []
    · subst hmore
      rw [List.map_singleton, toList_quotedLines_singleton, toList_quotedLines_singleton]
      simp [withoutReturns_quoted, plainEnds]
    · rw [List.map_cons, toList_quotedLines_cons text hmore,
        toList_quotedLines_cons _ (by simpa using hmore)]
      have hgap (s : List Char) :
          Text.withoutReturns ('\n' :: '\t' :: s) = '\n' :: '\t' :: Text.withoutReturns s := by
        rw [Text.withoutReturns_cons (by decide), Text.withoutReturns_cons (by decide)]
      simp [withoutReturns_quoted, hgap, ih, plainEnds]

theorem withoutReturns_line (after : List Char) :
    Text.withoutReturns ("\n".toList ++ after) = "\n".toList ++ Text.withoutReturns after :=
  withoutReturns_append_of_notMem _ (by decide) after

theorem withoutReturns_requirement {key : String} (hkey : '\r' ∉ key.toList)
    (texts : List String) :
    Text.withoutReturns (requirement key texts).toList =
      (requirement key (texts.map plainEnds)).toList := by
  have hopening (s : List Char) :
      Text.withoutReturns ('=' :: '\x7b' :: '\n' :: '\t' :: s) =
        '=' :: '\x7b' :: '\n' :: '\t' :: Text.withoutReturns s :=
    withoutReturns_append_of_notMem ['=', '\x7b', '\n', '\t'] (by decide) s
  rw [toList_requirement, toList_requirement, withoutReturns_append_of_notMem _ hkey, hopening,
    withoutReturns_quotedLines]
  rfl

theorem withoutReturns_descriptor (name path version : String) (dependencies : List String) :
    Text.withoutReturns (descriptor name path version dependencies).toList =
      (descriptor (plainEnds name) (plainEnds path) (plainEnds version)
        (dependencies.map plainEnds)).toList := by
  unfold descriptor
  simp only [String.toList_append, List.append_assoc]
  rw [withoutReturns_assignment (by decide), withoutReturns_line,
    withoutReturns_assignment (by decide), withoutReturns_line,
    withoutReturns_assignment (by decide)]
  by_cases hnone : dependencies = []
  · rw [if_pos hnone, if_pos (List.map_eq_nil_iff.mpr hnone), String.toList_empty,
      Text.withoutReturns]
  · rw [if_neg hnone, if_neg (mt List.map_eq_nil_iff.mp hnone), String.toList_append,
      withoutReturns_line, withoutReturns_requirement (by decide), String.toList_append]

theorem getLast?_descriptor (name path version : String) (dependencies : List String) :
    (descriptor name path version dependencies).toList.getLast? =
      if dependencies = [] then some '"' else some '\x7d' := by
  have hquote : (assignment "version" version).toList.getLast? = some '"' := by
    rw [assignment, Atom.source, ← String.append_assoc, String.toList_append]
    exact List.getLast?_concat
  have hbrace : (requirement "dependencies" dependencies).toList.getLast? = some '\x7d' := by
    rw [requirement, String.toList_append, List.getLast?_append]
    rfl
  unfold descriptor
  split
  · rw [String.append_empty, String.toList_append, List.getLast?_append, hquote, Option.some_or]
  · simp only [String.toList_append, List.getLast?_append, hbrace, Option.some_or]

theorem join_linesOf_descriptor (name path version : String) (dependencies : List String) :
    Text.join "\n" (Text.linesOf (descriptor name path version dependencies ++ "\n")) =
      descriptor (plainEnds name) (plainEnds path) (plainEnds version)
        (dependencies.map plainEnds) := by
  apply String.toList_injective
  rw [Text.linesOf, Text.toList_join, ← withoutReturns_descriptor]
  have hlast : (descriptor name path version dependencies).toList.getLast? ≠ some '\r' := by
    rw [getLast?_descriptor]
    split
    · decide
    · decide
  simpa using Text.intercalate_lines hlast

section Values

variable {statements : List Statement}

theorem exists_of_trees_eq_cons {tree : Tree} {forest : List Tree}
    (h : trees statements = tree :: forest) :
    ∃ s rest, statements = s :: rest ∧ s.tree = tree ∧ trees rest = forest := by
  rw [trees_eq_map] at h
  obtain ⟨s, rest, rfl, hs, hrest⟩ := List.map_eq_cons_iff.mp h
  exact ⟨s, rest, rfl, hs, by rw [trees_eq_map, hrest]⟩

theorem exists_of_assignmentTree {key text : String} {forest : List Tree} (level : Nat)
    (h : trees statements = assignmentTree key text :: forest) :
    ∃ code rest, nodesOf level statements =
      .pair (Text.trimmed key) (Text.trimmed text) code :: nodesOf level rest ∧
        trees rest = forest := by
  obtain ⟨s, rest, rfl, hs, hrest⟩ := exists_of_trees_eq_cons h
  cases s with
  | clause => cases hs
  | leaf =>
    cases hs
    exact ⟨_, rest, rfl, hrest⟩

theorem nodesOf_of_quotedTrees {texts : List String} (level : Nat)
    (h : trees statements = quotedTrees texts) :
    (nodesOf level statements).filterMap
      (fun | .value value _ => some value | _ => none) = texts.map Text.trimmed := by
  induction texts generalizing statements with
  | nil =>
    rw [quotedTrees, List.map_nil, trees_eq_map, List.map_eq_nil_iff] at h
    rw [h]
    rfl
  | cons text more ih =>
    obtain ⟨s, rest, rfl, hs, hrest⟩ := exists_of_trees_eq_cons h
    cases s with
    | clause => cases hs
    | leaf =>
      cases hs
      rw [nodesOf, List.map_cons, ← ih hrest]
      rfl

theorem exists_of_requirementTree {key : String} {texts : List String} (level : Nat)
    (h : trees statements = [requirementTree key texts]) :
    ∃ code body, nodesOf level statements =
      [.clause (Text.trimmed key) code (nodesOf (level + 1) body)] ∧
        trees body = quotedTrees texts := by
  obtain ⟨s, rest, rfl, hs, hrest⟩ := exists_of_trees_eq_cons h
  rw [trees_eq_map, List.map_eq_nil_iff] at hrest
  subst hrest
  cases s with
  | leaf => cases hs
  | clause k body p =>
    obtain ⟨rfl, hbody⟩ := Tree.clause.inj hs
    exact ⟨_, body, rfl, hbody⟩

end Values

end Script

open Script

def quotedValue (text : String) : String := Text.trimmed (plainEnds text)

def Mod.readBack (m : Mod) (game : Game) (path : String) : Mod where
  name := quotedValue m.name
  descriptorFile := modFolder ++ "/" ++ (Path.fileName? path).getD ""
  path := Path.join game.userDirectory (quotedValue (Text.forwardSlashes m.path))
  version := quotedValue m.version
  source := .onDisk
  dependencies := m.dependencies.map quotedValue

/-- The texts of a mod's descriptor can stand between quotes. -/
structure Mod.Quotable (m : Mod) : Prop where
  name : Script.Quotable m.name.toList
  path : Script.Quotable (Text.forwardSlashes m.path).toList
  version : Script.Quotable m.version.toList
  dependencies : ∀ name ∈ m.dependencies, Script.Quotable name.toList

theorem descriptorText_eq (m : Mod) :
    m.descriptorText =
      descriptor m.name (Text.forwardSlashes m.path) m.version m.dependencies ++ "\n" := by
  apply String.toList_injective
  cases hnone : m.dependencies with
  | nil => simp [Mod.descriptorText, descriptor, toList_assignment, hnone]
  | cons name more =>
    simp [Mod.descriptorText, descriptor, toList_assignment, requirement, quotedLines, Atom.source,
      hnone]

theorem quotable_plainEnds {text : String} (h : Script.Quotable text.toList) :
    Script.Quotable (plainEnds text).toList := by
  rw [plainEnds, String.toList_ofList]
  exact h.withoutReturns

theorem ofDescriptor_of_trees {statements : List Statement} {name path version : String}
    {dependencies : List String} (h : trees statements =
      descriptorTrees name path version dependencies) (game : Game) (file title : String) :
    Mod.ofDescriptor game file ⟨title, nodesOf 2 statements⟩ =
      ⟨Text.trimmed name, modFolder ++ "/" ++ file,
        Path.join game.userDirectory (Text.trimmed path), Text.trimmed version, .onDisk,
        dependencies.map Text.trimmed⟩ := by
  simp only [descriptorTrees, List.append_assoc, List.singleton_append] at h
  obtain ⟨nameCode, rest, hname, hrest⟩ := exists_of_assignmentTree 2 h
  obtain ⟨pathCode, more, hpath, hmore⟩ := exists_of_assignmentTree 2 hrest
  obtain ⟨versionCode, last, hversion, hlast⟩ := exists_of_assignmentTree 2 hmore
  rw [hname, hpath, hversion]
  split at hlast
  · next hnone =>
    rw [trees_eq_map, List.map_eq_nil_iff] at hlast
    subst hnone hlast
    rfl
  · obtain ⟨code, body, hclause, hbody⟩ := exists_of_requirementTree 2 hlast
    rw [hclause, ← nodesOf_of_quotedTrees 3 hbody]
    rfl

/-- A descriptor is read back. What is lost of a text are the carriage returns at the ends of lines
and the blanks at the ends, and the path begins in the user directory unless it is absolute. -/
theorem readDescriptor_descriptorText {m : Type → Type} [Monad m] [LawfulMonad m] {σ : Type}
    (E : Execution m σ) (fs : FileSystem m) (game : Game) {mod : Mod} (hquotable : mod.Quotable)
    {path : String} {w w' : σ} (hread : E.attempt (fs.read path) w = (.ok mod.descriptorText, w')) :
    E.attempt (fs.readDescriptor game path) w = (.ok (mod.readBack game path), w') := by
  obtain ⟨statements, hparse, htrees⟩ := says_descriptor (quotable_plainEnds hquotable.name)
    (quotable_plainEnds hquotable.path) (quotable_plainEnds hquotable.version)
    (List.forall_mem_map.mpr fun name hname =>
      quotable_plainEnds (hquotable.dependencies name hname))
  unfold FileSystem.readDescriptor
  refine E.attempt_bind_eq_ok.mpr ⟨_, w', E.attempt_adapt_eq_ok.mpr hread, ?_⟩
  simp only [File.ofText, File.ofLines, descriptorText_eq, join_linesOf_descriptor, hparse,
    Except.map]
  rw [ofDescriptor_of_trees htrees, E.attempt_pure, List.map_map]
  rfl

def diskOfDescriptor (text : String) : Disk :=
  ⟨[], [(["user"], .folder), (["user", "mod"], .folder),
    (["user", "mod", "better.mod"], .file (.text text))]⟩

def gameOfUser : Game := ⟨"game", "user", ["common"]⟩

def absoluteMod : Mod :=
  ⟨"Better \x7bthings\x7d #2", "mod/better.mod", "/data/better", "2.1", .onDisk, ["Base", "a = b"]⟩

theorem readDescriptor_descriptorText_absoluteMod :
    absoluteMod.Quotable ∧
      Disk.acts.attempt (Disk.system.read "user/mod/better.mod")
        (diskOfDescriptor absoluteMod.descriptorText) =
          (.ok absoluteMod.descriptorText, diskOfDescriptor absoluteMod.descriptorText) ∧
      Disk.acts.attempt (Disk.system.readDescriptor gameOfUser "user/mod/better.mod")
        (diskOfDescriptor absoluteMod.descriptorText) =
          (.ok absoluteMod, diskOfDescriptor absoluteMod.descriptorText) := by
  have hdependencies : ∀ name ∈ absoluteMod.dependencies,
      name.toList.all fun c => c != '"' && c != '\\' := by
    decide
  have hquotable : absoluteMod.Quotable :=
    ⟨quotable_of_all (by decide), quotable_of_all (by decide), quotable_of_all (by decide),
      fun name hname => quotable_of_all (hdependencies name hname)⟩
  have hread : Disk.acts.attempt (Disk.system.read "user/mod/better.mod")
      (diskOfDescriptor absoluteMod.descriptorText) =
        (.ok absoluteMod.descriptorText, diskOfDescriptor absoluteMod.descriptorText) := by
    rfl
  have hback : absoluteMod.readBack gameOfUser "user/mod/better.mod" = absoluteMod := by
    decide +kernel
  refine ⟨hquotable, hread, ?_⟩
  rw [readDescriptor_descriptorText Disk.acts Disk.system gameOfUser hquotable hread, hback]

def relativeMod : Mod := ⟨" Better ", "mod/better.mod", "mod/better", "2.1", .onDisk, []⟩

theorem not_readDescriptor_descriptorText_verbatim :
    ¬∀ (game : Game) (mod : Mod) (path : String) (d : Disk), mod.source = .onDisk →
      d.read path = .ok mod.descriptorText →
        ∃ found, Disk.acts.attempt (Disk.system.readDescriptor game path) d = (.ok found, d) ∧
          found.name = mod.name ∧ found.path = Text.forwardSlashes mod.path ∧
          found.version = mod.version ∧ found.dependencies = mod.dependencies := by
  intro h
  obtain ⟨found, hfound, -, hpath, -⟩ := h gameOfUser relativeMod "user/mod/better.mod"
    (diskOfDescriptor relativeMod.descriptorText) rfl rfl
  have hread : (Disk.acts.attempt (Disk.system.readDescriptor gameOfUser "user/mod/better.mod")
      (diskOfDescriptor relativeMod.descriptorText)).1.toOption.any
        (fun found => found.path = "user/mod/better") := by
    decide +kernel
  rw [hfound] at hread
  simp only [Except.toOption, Option.any_some, decide_eq_true_eq] at hread
  rw [hread] at hpath
  exact absurd hpath (by decide)

end LoadOrder

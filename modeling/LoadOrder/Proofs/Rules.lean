import LoadOrder.Rules
import LoadOrder.Proofs.Text.LowerCase
import LoadOrder.Proofs.Text.Pieces

namespace LoadOrder

/-- A path as it is compared: in small letters and without backslashes. -/
def normalPath (path : String) : List Char := (Text.lowercase (Text.forwardSlashes path)).toList

/-- A folder as it is compared: without slashes at its end as well. -/
def normalFolder (folder : String) : List Char := Text.dropEndWhile (· == '/') (normalPath folder)

def segments (path : List Char) : List (List Char) := Text.split (· == '/') path

/-- Something is left of the folder, and its segments begin those of the file. -/
structure IsUnder (folder file : String) : Prop where
  named : normalFolder folder ≠ []
  begins : segments (normalFolder folder) <+: segments (normalPath file)

theorem segments_prefix_iff {folder file : List Char} :
    segments folder <+: segments file ↔ file = folder ∨ folder ++ ['/'] <+: file :=
  Text.split_prefix_iff fun _ => beq_iff_eq

theorem underAny_iff {folders : List String} {file : String} :
    underAny folders file ↔ ∃ folder ∈ folders, IsUnder folder file := by
  have hunder (folder : String) : IsUnder folder file ↔ normalFolder folder ≠ [] ∧
      segments (normalFolder folder) <+: segments (normalPath file) :=
    ⟨fun h => ⟨h.named, h.begins⟩, fun h => ⟨h.1, h.2⟩⟩
  simp only [hunder, segments_prefix_iff, underAny, normalFolder, normalPath, List.any_eq_true,
    Bool.and_eq_true, Bool.or_eq_true, bne_iff_ne, beq_iff_eq, List.isPrefixOf_iff_prefix]

theorem underAny_singleton {folder file : String} :
    underAny [folder] file ↔ IsUnder folder file := by
  simp [underAny_iff]

theorem isUnder_iff {folder file : String} : IsUnder folder file ↔ normalFolder folder ≠ [] ∧
    ∃ rest, normalPath file = normalFolder folder ++ rest ∧ ∀ c ∈ rest.head?, c = '/' := by
  constructor
  · rintro ⟨hnamed, hbegins⟩
    refine ⟨hnamed, ?_⟩
    rcases segments_prefix_iff.mp hbegins with heq | ⟨rest, hrest⟩
    · exact ⟨[], by simpa using heq, by simp⟩
    · exact ⟨'/' :: rest, by simpa using hrest.symm, by simp⟩
  · rintro ⟨hnamed, rest, hfile, hrest⟩
    refine ⟨hnamed, segments_prefix_iff.mpr ?_⟩
    cases rest with
    | nil => exact .inl (by simpa using hfile)
    | cons c rest =>
      rw [hrest c rfl] at hfile
      exact .inr ⟨rest, by simp [hfile]⟩

def forwardSlash (c : Char) : Char := if c = '\\' then '/' else c

def isSlash (c : Char) : Bool := c == '/' || c == '\\'

theorem forwardSlash_ne {c : Char} (h : isSlash c = false) : forwardSlash c ≠ '/' := by
  simp only [isSlash, Bool.or_eq_false_iff, beq_eq_false_iff_ne] at h
  rw [forwardSlash, if_neg h.2]
  exact h.1

theorem normalPath_eq (path : String) :
    normalPath path = Text.lowerFrom [] (path.toList.map forwardSlash) := by
  rw [normalPath, Text.lowercase, Text.forwardSlashes, String.toList_ofList, String.toList_ofList]
  rfl

/-- Both sides of a slash are compared each on its own. -/
theorem normalPath_append_slash (path below : String) :
    normalPath (path ++ "/" ++ below) = normalPath path ++ '/' :: normalPath below := by
  have hslash : ("/" : String).toList.map forwardSlash = ['/'] := by decide
  simp only [normalPath_eq, String.toList_append, List.map_append, hslash, List.append_assoc]
  exact Text.lowerFrom_append (by decide +kernel) _ _ _

theorem exists_normalPath_eq (path : String) :
    ∃ slashes, normalPath path = normalFolder path ++ slashes ∧ ∀ c ∈ slashes, c = '/' := by
  obtain ⟨slashes, hpath, hslashes⟩ :=
    Text.exists_eq_dropEndWhile_append (· == '/') (normalPath path)
  exact ⟨slashes, hpath, fun c hc => beq_iff_eq.mp (hslashes c hc)⟩

theorem normalFolder_eq {path : String} (h : path.toList.getLast?.any fun c => !isSlash c) :
    normalFolder path = normalPath path := by
  obtain ⟨c, hlast, hc⟩ := (Option.any_eq_true _ _).mp h
  obtain ⟨front, hpath⟩ := List.getLast?_eq_some_iff.mp hlast
  refine Text.dropEndWhile_eq_self fun d hd => ?_
  rw [normalPath_eq, hpath, List.map_append, List.map_singleton] at hd
  rw [beq_eq_false_iff_ne]
  rintro rfl
  exact Text.getLast?_lowerFrom_ne (forwardSlash_ne (by simpa using hc)) [] _ hd

section Spelling

variable {folder spelling : String} (hsame : normalFolder spelling = normalFolder folder)
include hsame

theorem isUnder_spelling (hnamed : normalFolder folder ≠ []) : IsUnder folder spelling := by
  obtain ⟨slashes, hpath, hslashes⟩ := exists_normalPath_eq spelling
  rw [hsame] at hpath
  exact isUnder_iff.mpr ⟨hnamed, slashes, hpath, fun c hc => hslashes c (List.mem_of_mem_head? hc)⟩

theorem isUnder_append_slash (hnamed : normalFolder folder ≠ []) (below : String) :
    IsUnder folder (spelling ++ "/" ++ below) := by
  obtain ⟨slashes, hpath, hslashes⟩ := exists_normalPath_eq spelling
  rw [hsame] at hpath
  refine isUnder_iff.mpr ⟨hnamed, slashes ++ '/' :: normalPath below, ?_, fun c hc => ?_⟩
  · rw [normalPath_append_slash, hpath, List.append_assoc]
  · cases slashes with
    | nil => exact (Option.some.inj hc).symm
    | cons slash slashes => exact Option.some.inj hc ▸ hslashes slash List.mem_cons_self

theorem not_isUnder_append {beside : String}
    (hend : spelling.toList.getLast?.any fun c => !isSlash c)
    (hbeside : beside.toList.head?.any fun c => !isSlash c) :
    ¬IsUnder folder (spelling ++ beside) := by
  intro h
  obtain ⟨-, rest, hfile, hrest⟩ := isUnder_iff.mp h
  obtain ⟨c, hhead, hc⟩ := (Option.any_eq_true _ _).mp hbeside
  obtain ⟨more, hmore⟩ := List.head?_eq_some_iff.mp hhead
  obtain ⟨front, hlength, hwhole⟩ := Text.exists_lowerFrom_append []
    (spelling.toList.map forwardSlash) (beside.toList.map forwardSlash)
  rw [normalPath_eq, String.toList_append, List.map_append, hwhole] at hfile
  rw [← normalPath_eq, ← normalFolder_eq hend, hsame] at hlength
  obtain ⟨-, hlater⟩ := List.append_inj hfile hlength
  have hname : forwardSlash c ≠ '/' := forwardSlash_ne (by simpa using hc)
  obtain ⟨first, hfirst, hother⟩ := Text.exists_head?_lowerFrom hname
    ((spelling.toList.map forwardSlash).reverse ++ []) (more.map forwardSlash)
  rw [← List.map_cons, ← hmore, hlater] at hfirst
  exact hother (hrest first hfirst)

end Spelling

/-- One of the folders is the file or an ancestor of it exactly if its segments begin those of the
file. So a folder, however it is spelled there, has itself and all that lies below it under it, and
no file beside it whose name only begins like its own. -/
theorem underAny_iff_segments (folders : List String) (file : String) :
    (underAny folders file ↔ ∃ folder ∈ folders, IsUnder folder file) ∧
      ∀ folder spelling : String, normalFolder spelling = normalFolder folder →
        (normalFolder folder ≠ [] →
          underAny [folder] spelling ∧ ∀ below, underAny [folder] (spelling ++ "/" ++ below)) ∧
        ∀ beside : String, (spelling.toList.getLast?.any fun c => !isSlash c) →
          (beside.toList.head?.any fun c => !isSlash c) →
            underAny [folder] (spelling ++ beside) = false := by
  refine ⟨underAny_iff, fun folder spelling hsame => ⟨fun hnamed => ⟨?_, fun below => ?_⟩, ?_⟩⟩
  · exact underAny_singleton.mpr (isUnder_spelling hsame hnamed)
  · exact underAny_singleton.mpr (isUnder_append_slash hsame hnamed below)
  · intro beside hend hbeside
    rw [← Bool.not_eq_true, underAny_singleton]
    exact not_isUnder_append hsame hend hbeside

theorem underAny_iff_segments_sigma :
    normalFolder "COMMON/ΑΣ" = normalFolder "common\\ας\\" ∧ normalFolder "common\\ας\\" ≠ [] ∧
      underAny ["gfx", "common\\ας\\"] "Common/ΑΣ/00.txt" ∧
      underAny ["common\\ας\\"] "COMMON/ΑΣ" ∧ underAny ["common\\ας\\"] "COMMON/ΑΣ/00.txt" ∧
      underAny ["common\\ας\\"] "COMMON/ΑΣ_2/00.txt" = false := by
  have hsame : normalFolder "COMMON/ΑΣ" = normalFolder "common\\ας\\" := by decide +kernel
  have hnamed : normalFolder "common\\ας\\" ≠ [] := by decide +kernel
  obtain ⟨hlist, hfolder⟩ := underAny_iff_segments ["gfx", "common\\ας\\"] "Common/ΑΣ/00.txt"
  obtain ⟨hunder, hbeside⟩ := hfolder "common\\ας\\" "COMMON/ΑΣ" hsame
  obtain ⟨hself, hbelow⟩ := hunder hnamed
  refine ⟨hsame, hnamed, hlist.mpr ?_, hself, hbelow "00.txt", ?_⟩
  · exact ⟨"common\\ας\\", by decide, hnamed, by decide +kernel⟩
  · exact hbeside "_2/00.txt" (by decide) (by decide)

end LoadOrder

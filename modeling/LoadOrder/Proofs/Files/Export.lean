import LoadOrder.Files.Export
import LoadOrder.Proofs.Disk
import LoadOrder.Proofs.Success

namespace LoadOrder

namespace Disk

variable {d d' : Disk} {path : String} {place : Place} {content : Content}

def content? (d : Disk) (place : Place) : Option Content :=
  match d.entry? place with
  | some (.file content) => some content
  | _ => none

/-- The place where a path may make an entry, whatever is on the way. -/
def newPlace (d : Disk) (path : String) : Place := (piecesToNew path).foldl step (d.origin path)

def SameFiles (d d' : Disk) : Prop :=
  d'.current = d.current ∧ ∀ p, d'.content? p = d.content? p

def Replaced (place : Place) (content : Content) (d d' : Disk) : Prop :=
  d'.current = d.current ∧
    ∀ p, d'.content? p = if p = place then some content else d.content? p

theorem sameFiles_refl (d : Disk) : SameFiles d d := ⟨rfl, fun _ => rfl⟩

theorem SameFiles.trans {d₁ d₂ d₃ : Disk} (h : SameFiles d₁ d₂) (h' : SameFiles d₂ d₃) :
    SameFiles d₁ d₃ := ⟨h'.1.trans h.1, fun p => (h'.2 p).trans (h.2 p)⟩

theorem foldl_step_replicate (place : Place) (n : Nat) :
    (List.replicate n "").foldl step place = place := by
  induction n with
  | zero => rfl
  | succ n ih => exact ih

theorem newPlace_eq (d : Disk) (path : String) :
    d.newPlace path = (pieces path).foldl step (d.origin path) := by
  obtain ⟨n, hn⟩ := Text.exists_split_eq (· == '/') path.toList
  have hpieces : pieces path = piecesToNew path ++ List.replicate n "" := by
    unfold piecesToNew pieces
    rw [hn, String.toList_ofList, List.map_append, List.map_replicate]
  rw [hpieces, List.foldl_append, foldl_step_replicate]
  rfl

theorem newPlace_congr (h : d'.current = d.current) (path : String) :
    d'.newPlace path = d.newPlace path := by
  rw [newPlace, newPlace, origin, origin, h]

theorem follow_eq_ok {pieces : List String} {start place : Place}
    (h : d.follow start pieces = .ok place) : place = pieces.foldl step start := by
  induction pieces generalizing start with
  | nil =>
    cases h
    rfl
  | cons piece pieces ih =>
    rw [follow] at h
    split at h
    · cases h
    · cases h
    · split at h
      · cases h
      · exact ih h

theorem locateNew_eq_ok (h : d.locateNew path = .ok place) : place = d.newPlace path := by
  unfold locateNew followPath at h
  split at h
  · cases h
  · exact follow_eq_ok h

theorem locateFile_eq_ok (h : d.locateFile path = .ok place) :
    place = d.newPlace path ∧ d.entry? place ≠ some .folder := by
  unfold locateFile at h
  split at h
  · obtain ⟨_, -, h⟩ := exists_of_bind_eq_ok h
    obtain ⟨_, h, -⟩ := exists_of_bind_eq_ok h
    cases h
  · obtain ⟨free, hfree, h⟩ := exists_of_bind_eq_ok h
    split at h
    · obtain ⟨_, h, -⟩ := exists_of_bind_eq_ok h
      cases h
    · next hfolder =>
      cases h
      exact ⟨locateNew_eq_ok hfree, hfolder⟩

theorem piecesToNew_eq (h : path.toList.getLast? ≠ some '/') : piecesToNew path = pieces path := by
  have hlast : ∀ c ∈ path.toList.getLast?, (c == '/') = false := by
    intro c hc
    rw [beq_eq_false_iff_ne]
    rintro rfl
    exact h hc
  rw [piecesToNew, Text.dropEndWhile_eq_self hlast, String.ofList_toList]

theorem locate_of_locateFile (h : d.locateFile path = .ok place) : d.locate path = .ok place := by
  unfold locateFile at h
  split at h
  · obtain ⟨_, -, h⟩ := exists_of_bind_eq_ok h
    obtain ⟨_, h, -⟩ := exists_of_bind_eq_ok h
    cases h
  · next hslash =>
    obtain ⟨free, hfree, h⟩ := exists_of_bind_eq_ok h
    split at h
    · obtain ⟨_, h, -⟩ := exists_of_bind_eq_ok h
      cases h
    · cases h
      rwa [locateNew, piecesToNew_eq hslash] at hfree

theorem entry?_put_self (hplace : d.entry? place ≠ some .folder) (entry : DiskEntry) :
    entry? (d.put place entry) place = some entry := by
  have hroot : place ≠ [] := by
    rintro rfl
    exact hplace rfl
  rw [entry?_put, if_pos ⟨hroot, rfl⟩]

theorem content?_put (hplace : d.entry? place ≠ some .folder) (entry : DiskEntry) (p : Place) :
    content? (d.put place entry) p =
      if p = place then (match entry with | .file content => some content | .folder => none)
      else d.content? p := by
  rw [content?]
  by_cases hp : p = place
  · subst hp
    rw [entry?_put_self hplace, if_pos rfl]
    cases entry <;> rfl
  · rw [entry?_put, if_neg fun h => hp h.2, if_neg hp]
    rfl

theorem replaced_put (h : d.locateFile path = .ok place) (content : Content) :
    Replaced (d.newPlace path) content d (d.put place (.file content)) := by
  obtain ⟨hnew, hfolder⟩ := locateFile_eq_ok h
  rw [← hnew]
  exact ⟨rfl, content?_put hfolder _⟩

theorem replaced_of_write (h : d.write path content = .ok d') :
    Replaced (d.newPlace path) content d d' := by
  obtain ⟨place, hplace, h⟩ := exists_of_bind_eq_ok h
  cases h
  exact replaced_put hplace content

/-- A copy replaces a file by what the source has. A file that is copied to itself is emptied. -/
theorem copied_of_copy {source : String} (h : d.copy source path = .ok d') :
    ∃ content, d.content? (d.newPlace source) = some content ∧
      Replaced (d.newPlace path)
        (if d.newPlace path = d.newPlace source then .text "" else content) d d' := by
  obtain ⟨⟨found, entry⟩, hfind, h⟩ := exists_of_bind_eq_ok h
  cases entry with
  | folder => cases h
  | file content =>
    obtain ⟨place, hplace, h⟩ := exists_of_bind_eq_ok h
    cases h
    obtain ⟨hlocate, hentry⟩ := find_eq_ok.mp hfind
    have hfound : found = d.newPlace source := by
      rw [newPlace_eq]
      exact follow_eq_ok (locate_eq_ok.mp hlocate).2
    have hnew := (locateFile_eq_ok hplace).1
    have hreplaced := replaced_put hplace (if place = found then .text "" else content)
    rw [← hnew] at hreplaced
    rw [← hfound, ← hnew]
    exact ⟨content, by rw [content?, hentry], hreplaced⟩

theorem sameFiles_of_createFolder (h : d.createFolder path = .ok d') : SameFiles d d' := by
  obtain ⟨place, -, h⟩ := exists_of_bind_eq_ok h
  split at h
  · cases h
  · next hfree =>
    cases h
    refine ⟨rfl, fun p => ?_⟩
    rw [content?_put (by simp [hfree])]
    split
    · next hp =>
      subst hp
      simp [content?, hfree]
    · rfl

theorem rel_createLineage {R : Disk → Disk → Prop} (hrefl : ∀ d, R d d)
    (htrans : ∀ {d d' d'' : Disk}, R d d' → R d' d'' → R d d'') {lineage : List String}
    (h : ∀ path ∈ lineage, ∀ {d d' : Disk}, d.createFolder path = .ok d' → R d d') (d : Disk) :
    R d (d.createLineage lineage).1 := by
  induction lineage with
  | nil => exact hrefl d
  | cons path ancestors ih =>
    obtain ⟨hpath, hancestors⟩ := List.forall_mem_cons.mp h
    have hbefore := ih hancestors
    unfold createLineage
    split
    · exact hrefl d
    · exact hrefl d
    · next first rest _ heq =>
      obtain ⟨rfl, rfl⟩ := List.cons.inj heq
      extract_lets finish
      have hfinish : ∀ d : Disk, R d (finish d).1 := by
        intro d
        dsimp only [finish]
        split
        · next d' hd => exact hpath hd
        · exact hrefl d
      split
      · next d' hd => exact hpath hd
      · -- the ancestors are made before the folder, and stay whether it can be made or not
        split
        · next d' hd =>
          rw [hd] at hbefore
          exact htrans hbefore (hfinish d')
        · next d' e hd =>
          rw [hd] at hbefore
          exact hbefore
      · exact hfinish d

theorem sameFiles_createFolders (d : Disk) (path : String) :
    SameFiles d (d.createFolders path).1 :=
  rel_createLineage sameFiles_refl SameFiles.trans (fun _ _ => sameFiles_of_createFolder) d

theorem SameFiles.replaced {d₁ : Disk} (h : SameFiles d d₁)
    (hreplaced : Replaced (d₁.newPlace path) content d₁ d') :
    Replaced (d.newPlace path) content d d' := by
  rw [newPlace_congr h.1] at hreplaced
  refine ⟨hreplaced.1.trans h.1, fun p => ?_⟩
  rw [hreplaced.2 p, h.2 p]

abbrev acts : Execution (StateM Disk) Disk := .ofState Disk

theorem attempt_change_eq_ok {f : Disk → Except FileError Disk} :
    acts.attempt (change f) d = (.ok (), d') ↔ f d = .ok d' := by
  have hchange : acts.attempt (change f) d = acts.attempt (change fun _ => f d) d := rfl
  rw [hchange]
  cases f d with
  | error e =>
    have herror : acts.attempt (change fun _ => .error e) d = (.error e, d) := rfl
    simp [herror]
  | ok left =>
    have hok : acts.attempt (change fun _ => .ok left) d = (.ok (), left) := rfl
    simp [hok]

theorem attempt_changeAlways (f : Disk → Disk × Except FileError Unit) (d : Disk) :
    acts.attempt (changeAlways f) d = ((f d).2, (f d).1) := by
  have hchange : acts.attempt (changeAlways f) d = acts.attempt (changeAlways fun _ => f d) d := rfl
  rw [hchange]
  rcases f d with ⟨left, _ | _⟩ <;> rfl

theorem sameFiles_of_ensureParent
    (h : acts.attempt (system.ensureParent path) d = (.ok (), d')) : SameFiles d d' := by
  unfold FileSystem.ensureParent at h
  split at h
  · next parent _ =>
    have hmade : acts.attempt (changeAlways (·.createFolders parent)) d = (.ok (), d') :=
      acts.attempt_adapt_eq_ok.mp h
    rw [attempt_changeAlways] at hmade
    obtain ⟨-, rfl⟩ := Prod.mk.inj hmade
    exact sameFiles_createFolders d parent
  · cases h
    exact sameFiles_refl d

theorem replaced_of_writeTo {text : String}
    (h : acts.attempt (system.writeTo path text) d = (.ok (), d')) :
    Replaced (d.newPlace path) (.text text) d d' := by
  obtain ⟨⟨⟩, made, hmade, hwrite⟩ := acts.attempt_bind_eq_ok.mp h
  have hchange := attempt_change_eq_ok.mp (acts.attempt_adapt_eq_ok.mp hwrite)
  exact (sameFiles_of_ensureParent hmade).replaced (replaced_of_write hchange)

theorem copied_of_copyTo {source : String}
    (h : acts.attempt (system.copyTo source path) d = (.ok (), d')) :
    ∃ content, d.content? (d.newPlace source) = some content ∧
      Replaced (d.newPlace path)
        (if d.newPlace path = d.newPlace source then .text "" else content) d d' := by
  obtain ⟨⟨⟩, made, hmade, hcopy⟩ := acts.attempt_bind_eq_ok.mp h
  obtain ⟨content, hcontent, hreplaced⟩ :=
    copied_of_copy (attempt_change_eq_ok.mp (acts.attempt_adapt_eq_ok.mp hcopy))
  have hsame := sameFiles_of_ensureParent hmade
  have hplaced := hsame.replaced hreplaced
  rw [newPlace_congr hsame.1, newPlace_congr hsame.1] at hplaced
  rw [newPlace_congr hsame.1, hsame.2] at hcontent
  exact ⟨content, hcontent, hplaced⟩

end Disk

namespace FileSystem

def exportPath (path file : String) : String := Path.join path (Text.forwardSlashes file)

theorem exportDefinitions_singleton {m : Type → Type} [Monad m] [LawfulMonad m]
    (fs : FileSystem m) (path : String) (d : Definition) :
    fs.exportDefinitions path [d] =
      if d.kind = .binary then fs.copyTo d.diskFile (exportPath path d.file)
      else fs.writeTo (exportPath path d.file) d.code := by
  unfold exportDefinitions collect collect
  by_cases hbinary : d.kind = .binary
  · rw [if_pos hbinary, if_pos hbinary]
    simp [exportPath]
  · rw [if_neg hbinary, if_neg hbinary]
    simp [exportPath, Texts.add]

end FileSystem

theorem Disk.replaced_of_exportDefinitions {d d' : Disk} {path : String} {definition : Definition}
    (h : acts.attempt (system.exportDefinitions path [definition]) d = (.ok (), d')) :
    ∃ content, Replaced (d.newPlace (FileSystem.exportPath path definition.file)) content d d' ∧
      (definition.kind ≠ .binary → content = .text definition.code) := by
  rw [FileSystem.exportDefinitions_singleton] at h
  split at h
  · next hbinary =>
    obtain ⟨content, -, hreplaced⟩ := copied_of_copyTo h
    exact ⟨_, hreplaced, fun hkind => absurd hbinary hkind⟩
  · exact ⟨_, replaced_of_writeTo h, fun _ => rfl⟩

end LoadOrder

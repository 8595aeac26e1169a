import LoadOrder.Proofs.Files.Export
import LoadOrder.Proofs.Merge.Calls
import LoadOrder.Proofs.Text.Pieces

namespace LoadOrder

theorem safeName_ne_dots (name : String) : safeName name ≠ "." ∧ safeName name ≠ ".." := by
  have hlast : ∀ {c}, (safeName name).toList.getLast? = some c → c ≠ '.' := by
    intro c hc
    unfold safeName safeChars at hc
    simpa using Text.getLast?_dropEndWhile (· == '.') (by simpa using hc)
  constructor
  · intro h
    exact hlast (by rw [h]; rfl) rfl
  · intro h
    exact hlast (by rw [h]; rfl) rfl

theorem not_isForbidden_of_mem_safeName {name : String} {c : Char}
    (h : c ∈ (safeName name).toList) : isForbidden c = false := by
  unfold safeName safeChars Text.trim at h
  rw [String.toList_ofList] at h
  have htrim := Text.mem_of_mem_dropEndWhile _ (Text.mem_of_mem_dropEndWhile _ h)
  have hkept := (List.dropWhile_sublist _).mem htrim
  simpa using (List.mem_filter.mp hkept).2

theorem slash_notMem_safeName (name : String) : '/' ∉ (safeName name).toList := by
  intro h
  have hforbidden := not_isForbidden_of_mem_safeName h
  exact absurd hforbidden (by decide)

theorem step_safeName (place : Place) (name : String) :
    Disk.step place (safeName name) =
      if safeName name = "" then place else place ++ [safeName name] := by
  obtain ⟨hdot, hdots⟩ := safeName_ne_dots name
  simp [Disk.step, hdot, hdots]

def Game.modsPath (game : Game) : String := Path.join game.userDirectory modFolder

/-- Between two states of a disk nothing has changed but what was at or below a component of the
folder of the mods, and that is gone. -/
def PurgesOnly (game : Game) (component : String) (before after : Disk) : Prop :=
  ∀ p, after.entry? p ≠ before.entry? p → after.entry? p = none ∧
    ∃ mods, before.locate game.modsPath = .ok mods ∧ mods ++ [component] <+: p

/-- Nothing is left in the folder of the mods, if it was there. -/
def PurgesAll (game : Game) (before after : Disk) : Prop :=
  ∀ mods, before.find (game.modsPath ++ "/") = .ok (mods, .folder) →
    before.locate game.modsPath = .ok mods ∧ ∀ p, mods <+: p → p ≠ mods → after.entry? p = none

theorem join_targetFolder (game : Game) (name : String) :
    Path.join game.userDirectory (targetFolder name) = game.modsPath ++ "/" ++ safeName name := by
  have hfolder : modFolder ≠ "" := by decide
  have habsolute : Path.isAbsolute modFolder = false := by decide
  unfold targetFolder Game.modsPath
  rw [String.append_assoc, Path.join_append hfolder habsolute, String.append_assoc]

theorem modsPath_ne_empty (game : Game) : game.modsPath ≠ "" := Path.join_ne_empty (by decide) _

theorem purgesOnly_removeFolder (game : Game) {name : String} (hname : safeName name ≠ "")
    (d : Disk) : PurgesOnly game (safeName name) d
      (d.removeFolder (Path.join game.userDirectory (targetFolder name))).1 := by
  intro p hp
  obtain ⟨hnone, place, hlocate, hbelow⟩ := Disk.entry?_removeFolder hp
  rw [join_targetFolder] at hlocate
  obtain ⟨mods, hmods, hplace⟩ :=
    Disk.locate_child (modsPath_ne_empty game) (slash_notMem_safeName name) hlocate
  rw [hplace, step_safeName, if_neg hname] at hbelow
  exact ⟨hnone, mods, hmods, hbelow⟩

theorem purgesAll_removeFolder (game : Game) {name : String} (hname : safeName name = "")
    (d : Disk) : PurgesAll game d
      (d.removeFolder (Path.join game.userDirectory (targetFolder name))).1 := by
  have hpath : Path.join game.userDirectory (targetFolder name) = game.modsPath ++ "/" := by
    rw [join_targetFolder, hname, String.append_empty]
  rw [hpath]
  intro mods hfind
  have hlocate : d.locate (game.modsPath ++ "/" ++ "") = .ok mods := by
    rw [String.append_empty]
    exact (Disk.find_eq_ok.mp hfind).1
  obtain ⟨parent, hparent, hplace⟩ :=
    Disk.locate_child (modsPath_ne_empty game) (by decide) hlocate
  constructor
  · have hstep : Disk.step parent "" = parent := by simp [Disk.step]
    rwa [hplace, hstep]
  · intro p hbelow hne
    exact Disk.entry?_removeFolder_below hfind hbelow hne

abbrev Watching (σ : Type) (m : Type → Type) := StateT (List (σ × σ)) m

def quietly {σ : Type} {m : Type → Type} [Monad m] {α : Type} (act : ExceptT Error m α) :
    ExceptT Error (Watching σ m) α := ExceptT.mk (StateT.lift act.run)

/-- The collaborators, with what is seen of the world right before and right after every purge. -/
def Collaborators.watched {σ : Type} {m : Type → Type} [Monad m] (see : m σ)
    (c : Collaborators m) : Collaborators (Watching σ m) where
  installed game := quietly (c.installed game)
  purge root path := ExceptT.mk do
    let before ← StateT.lift see
    let result ← StateT.lift (c.purge root path).run
    let after ← StateT.lift see
    modify (· ++ [(before, after)])
    return result
  createFolder root path := quietly (c.createFolder root path)
  writeDescriptor root path descriptor := quietly (c.writeDescriptor root path descriptor)
  patchState root patch := quietly (c.patchState root patch)
  listFiles path := quietly (c.listFiles path)
  exportDefinitions path definitions game := quietly (c.exportDefinitions path definitions game)
  exportFile root file path := quietly (c.exportFile root file path)
  publish event := StateT.lift (c.publish event)
  listing game := StateT.lift (c.listing game)
  storeListing game mods := StateT.lift (c.storeListing game mods)
  dropListing game := StateT.lift (c.dropListing game)

section Watched

variable {σ : Type} {m : Type → Type} [Monad m] [LawfulMonad m]

def erasure (σ : Type) (m : Type → Type) [Monad m] [LawfulMonad m] :
    ActRelation (Watching σ m) m where
  rel x y := ∀ log, Prod.fst <$> x.run log = y
  rel_pure a := by simp
  rel_bind {α β x y f g} hx hf := by
    intro log
    rw [StateT.run_bind, map_bind, ← hx log, bind_map_left]
    congr
    funext result
    exact hf result.1 result.2

theorem erasure_lift {α : Type} (x : m α) : (erasure σ m).rel (StateT.lift x) x := by
  intro log
  simp

theorem related_watched {see : m σ} (hsee : ∀ {α : Type} (x : m α), (see >>= fun _ => x) = x)
    (c : Collaborators m) (root path : String) :
    (c.watched see).Related (erasure σ m) root path c where
  installed game := erasure_lift _
  purge := by
    intro log
    have hconst : ∀ {α : Type} (a : α), (fun _ => a) <$> see = pure a := by
      intro α a
      rw [← bind_pure_comp]
      exact hsee (pure a)
    simp [Collaborators.watched, hsee, hconst]
  createFolder root path := erasure_lift _
  writeDescriptor root path descriptor := erasure_lift _
  patchState root patch := erasure_lift _
  listFiles path := erasure_lift _
  exportDefinitions path definitions game := erasure_lift _
  exportFile root file path := erasure_lift _
  publish event := erasure_lift _
  listing game := erasure_lift _
  storeListing game mods := erasure_lift _
  dropListing game := erasure_lift _

end Watched

abbrev DiskActs := StateT Cache (StateM Disk)

def seeDisk : DiskActs Disk := StateT.lift get

/-- The disk right before and right after every purge of a run. -/
def purges {α : Type} (act : ExceptT Error (Watching Disk DiskActs) α) (cache : Cache)
    (disk : Disk) : List (Disk × Disk) :=
  (((act.run.run []).run cache).run disk).1.1.2

theorem see_disk {α : Type} (x : DiskActs α) : (seeDisk >>= fun _ => x) = x := rfl

/-- Merges on a disk do the same when their purges are watched. -/
theorem run_watched (configured : List Mod) (rules : List Rules) (policy : DuplicatePolicy)
    (game : Game) (collection : Option Collection) (analysis : Analysis) (modOrder : List String)
    (name : String) :
    let world := Disk.system.collaborators configured
    let watched := world.watched seeDisk
    Prod.fst <$> (watched.mergeDefinitions rules policy (some game) collection analysis modOrder
        name).run.run [] =
      (world.mergeDefinitions rules policy (some game) collection analysis modOrder name).run ∧
    Prod.fst <$> (watched.mergeFiles (some game) collection name).run.run [] =
      (world.mergeFiles (some game) collection name).run := by
  intro world watched
  have hrelated := related_watched see_disk world game.userDirectory (targetFolder name)
  exact ⟨hrelated.mergeDefinitions rules policy collection analysis modOrder [],
    hrelated.mergeFiles collection []⟩

def logging (P : Disk → Disk → Prop) :
    ActRelation (Watching Disk DiskActs) (Watching Disk DiskActs) where
  rel x _ := ∀ log cache disk, (∀ pair ∈ log, P pair.1 pair.2) →
    ∀ pair ∈ (((x.run log).run cache).run disk).1.1.2, P pair.1 pair.2
  rel_pure a := fun log cache disk h => h
  rel_bind {α β x _ f _} hx hf := by
    intro log cache disk h
    let first := ((x.run log).run cache).run disk
    exact hf first.1.1.1 first.1.1.2 first.1.2 first.2 (hx log cache disk h)

theorem logging_lift {P : Disk → Disk → Prop} {α : Type} (x : DiskActs α) :
    (logging P).rel (StateT.lift x : Watching Disk DiskActs α) (StateT.lift x) :=
  fun _ _ _ h => h

theorem related_logging {P : Disk → Disk → Prop} (c : Collaborators DiskActs) {root path : String}
    (hpurge : ∀ cache disk, P disk (((c.purge root path).run.run cache).run disk).2) :
    (c.watched seeDisk).Related (logging P) root path (c.watched seeDisk) where
  installed game := logging_lift _
  purge := by
    intro log cache disk h pair hpair
    have hlog : pair ∈ log ++ [(disk, (((c.purge root path).run.run cache).run disk).2)] := hpair
    rcases List.mem_append.mp hlog with hold | hnew
    · exact h pair hold
    · rw [List.mem_singleton] at hnew
      rw [hnew]
      exact hpurge cache disk
  createFolder root path := logging_lift _
  writeDescriptor root path descriptor := logging_lift _
  patchState root patch := logging_lift _
  listFiles path := logging_lift _
  exportDefinitions path definitions game := logging_lift _
  exportFile root file path := logging_lift _
  publish event := logging_lift _
  listing game := logging_lift _
  storeListing game mods := logging_lift _
  dropListing game := logging_lift _

/-- Whatever a purge makes of a failure, it leaves the disk that the removal leaves. -/
theorem run_purge (fs : FileSystem (StateM Disk)) (configured : List Mod) (root path : String)
    (cache : Cache) (disk : Disk) :
    ((((fs.collaborators configured).purge root path).run.run cache).run disk).2 =
      ((fs.removeFolder (Path.join root path)).run.run disk).2 := by
  let removing (result : Except FileError Unit × Disk) : FileSystem (StateM Disk) :=
    { fs with removeFolder := fun _ => ExceptT.mk fun _ => result }
  have hrun : (((fs.collaborators configured).purge root path).run.run cache).run disk =
      ((((removing ((fs.removeFolder (Path.join root path)).run.run disk)).collaborators
        configured).purge root path).run.run cache).run disk := rfl
  rw [hrun]
  obtain ⟨result, left⟩ := (fs.removeFolder (Path.join root path)).run.run disk
  cases result with
  | ok done => rfl
  | error e => cases e <;> rfl

theorem run_purge_disk (configured : List Mod) (root path : String) (cache : Cache) (disk : Disk) :
    ((((Disk.system.collaborators configured).purge root path).run.run cache).run disk).2 =
      (disk.removeFolder (Path.join root path)).1 := by
  rw [run_purge]
  exact congrArg Prod.snd (Disk.attempt_changeAlways (·.removeFolder (Path.join root path)) disk)

/-- Every purge of a merge removes the folder of the mod that the merge makes, which is a component
of the folder of the mods, and leaves everything else as it is. If the name of the mod has nothing
that can be the name of a file, it removes all that is in the folder of the mods. -/
theorem merge_purges_one_folder (configured : List Mod) (rules : List Rules)
    (policy : DuplicatePolicy) (game : Game) (collection : Option Collection)
    (analysis : Analysis) (modOrder : List String) (name : String) (cache : Cache) (disk : Disk) :
    let world := (Disk.system.collaborators configured).watched seeDisk
    let byDefinitions :=
      world.mergeDefinitions rules policy (some game) collection analysis modOrder name
    let byFiles := world.mergeFiles (some game) collection name
    ∀ pair ∈ purges byDefinitions cache disk ++ purges byFiles cache disk,
      (safeName name ≠ "" → PurgesOnly game (safeName name) pair.1 pair.2) ∧
      (safeName name = "" → PurgesAll game pair.1 pair.2) := by
  intro world byDefinitions byFiles
  let P := fun before after : Disk =>
    (safeName name ≠ "" → PurgesOnly game (safeName name) before after) ∧
    (safeName name = "" → PurgesAll game before after)
  have hpurge : ∀ cache disk, P disk ((((Disk.system.collaborators configured).purge
      game.userDirectory (targetFolder name)).run.run cache).run disk).2 := by
    intro cache disk
    rw [run_purge_disk]
    exact ⟨fun hname => purgesOnly_removeFolder game hname disk,
      fun hname => purgesAll_removeFolder game hname disk⟩
  have hrelated := related_logging (Disk.system.collaborators configured) hpurge
  have hstart : ∀ pair ∈ ([] : List (Disk × Disk)), P pair.1 pair.2 :=
    fun pair hpair => absurd hpair List.not_mem_nil
  intro pair hpair
  rcases List.mem_append.mp hpair with hpair | hpair
  · exact hrelated.mergeDefinitions rules policy collection analysis modOrder [] cache disk hstart
      pair hpair
  · exact hrelated.mergeFiles collection [] cache disk hstart pair hpair

def diskOfOneMod : Disk where
  current := []
  entries := [(["user"], .folder), (["user", "mod"], .folder),
    (["user", "mod", "other"], .folder), (["user", "mod", "other", "x"], .file (.text "x = 1"))]

def mergeOfOneMod (name : String) : ExceptT Error (Watching Disk DiskActs) (Option Mod) :=
  let installed := { Mod.blank with name := "a", path := "/user/a" }
  ((Disk.system.collaborators [installed]).watched seeDisk).mergeFiles
    (some ⟨"g", "/user", ["common"]⟩) (some ⟨"c", ["a"]⟩) name

/-- A name that is made of points takes the folder of the mods away. -/
theorem mergeOfOneMod_points_purges_mods :
    ¬ ∀ pair ∈ purges (mergeOfOneMod "...") .empty diskOfOneMod, ∃ component,
      component ≠ "" ∧ PurgesOnly ⟨"g", "/user", ["common"]⟩ component pair.1 pair.2 := by
  intro h
  let mods : Place := ["user", "mod"]
  have hpurge : ∃ pair ∈ purges (mergeOfOneMod "...") .empty diskOfOneMod,
      (pair.1.locate "/user/mod").toOption = some mods ∧
        Disk.entry? pair.1 mods = some .folder ∧ Disk.entry? pair.2 mods = none := by
    decide +kernel
  obtain ⟨pair, hmem, hmods, hbefore, hafter⟩ := hpurge
  obtain ⟨component, -, honly⟩ := h pair hmem
  have hchanged : Disk.entry? pair.2 mods ≠ Disk.entry? pair.1 mods := by
    rw [hbefore, hafter]
    simp
  obtain ⟨-, place, hlocate, hbelow⟩ := honly mods hchanged
  have hpath : Game.modsPath ⟨"g", "/user", ["common"]⟩ = "/user/mod" := by decide
  rw [hpath] at hlocate
  rw [hlocate] at hmods
  have hplace : place = mods := Option.some.inj hmods
  -- a component of the folder is longer than the folder
  have hlength := hbelow.length_le
  rw [hplace, List.length_append, List.length_singleton] at hlength
  omega

end LoadOrder

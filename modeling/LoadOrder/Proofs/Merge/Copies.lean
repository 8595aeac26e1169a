import LoadOrder.Proofs.Files.Scan
import LoadOrder.Proofs.Merge.Customs

namespace LoadOrder

/-- A file in a folder. -/
abbrev Spot := String × String

/-- The mods whose files a collection merges: its own, and the one that keeps the decisions about
it. -/
def Collection.merged (collection : Collection) (installed : List Mod) : List Mod :=
  collection.resolve installed ++
    (installed.find? (·.name == patchName collection.name)).toList

/-- The copies of some files of a mod to a folder. -/
def Mod.copies (source : Mod) (path : String) (files : List String) : List (Spot × Spot) :=
  files.map fun file => ((source.path, file), (path, file))

/-- The collaborators, with what every copy is made of and what it makes. -/
def Collaborators.copying {m : Type → Type} [Monad m] (c : Collaborators m) :
    Collaborators (Watching Spot m) where
  installed game := quietly (c.installed game)
  purge root path := quietly (c.purge root path)
  createFolder root path := quietly (c.createFolder root path)
  writeDescriptor root path descriptor := quietly (c.writeDescriptor root path descriptor)
  patchState root patch := quietly (c.patchState root patch)
  listFiles path := quietly (c.listFiles path)
  exportDefinitions path definitions game := quietly (c.exportDefinitions path definitions game)
  exportFile root file path := ExceptT.mk do
    let result ← StateT.lift (c.exportFile root file path).run
    modify (· ++ [((root, file), (path, file))])
    return result
  publish event := StateT.lift (c.publish event)
  listing game := StateT.lift (c.listing game)
  storeListing game mods := StateT.lift (c.storeListing game mods)
  dropListing game := StateT.lift (c.dropListing game)

section Copying

variable {m : Type → Type} [Monad m] {σ : Type} (E : Execution m σ) {c : Collaborators m}
  {game : Game} {α β : Type}

abbrev copyActs : Execution (Watching Spot m) (List (Spot × Spot) × σ) := E.withState _

theorem attempt_quietly (x : ExceptT Error m α) (log : List (Spot × Spot)) (w : σ) :
    (copyActs E).attempt (quietly x) (log, w) =
      ((E.attempt x w).1, (log, (E.attempt x w).2)) :=
  E.attempt_lift_withState x log w

theorem attempt_exportFile (root file path : String) (log : List (Spot × Spot)) (w : σ) :
    (copyActs E).attempt (c.copying.exportFile root file path) (log, w) =
      ((E.attempt (c.exportFile root file path) w).1,
        (log ++ [((root, file), (path, file))], (E.attempt (c.exportFile root file path) w).2)) :=
  E.exec_lift_modify_withState (c.exportFile root file path).run _ log w

def CopiesNothing (x : ExceptT Error (Watching Spot m) α) : Prop :=
  ∀ log w, ((copyActs E).attempt x (log, w)).2.1 = log

theorem CopiesNothing.eq {E : Execution m σ} {x : ExceptT Error (Watching Spot m) α}
    (h : CopiesNothing E x) {log log' : List (Spot × Spot)} {w w' : σ} {result : Except Error α}
    (hx : (copyActs E).attempt x (log, w) = (result, (log', w'))) : log' = log := by
  rw [← h log w, hx]

theorem copiesNothing_pure (a : α) :
    CopiesNothing E (pure a : ExceptT Error (Watching Spot m) α) := by
  intro log w
  rw [(copyActs E).attempt_pure]

theorem copiesNothing_quietly (x : ExceptT Error m α) : CopiesNothing E (quietly x) := by
  intro log w
  rw [attempt_quietly]

theorem CopiesNothing.bind {E : Execution m σ} {x : ExceptT Error (Watching Spot m) α}
    {f : α → ExceptT Error (Watching Spot m) β} (h : CopiesNothing E x)
    (hf : ∀ a, CopiesNothing E (f a)) : CopiesNothing E (x >>= f) := by
  intro log w
  rw [(copyActs E).attempt_bind]
  rcases hx : (copyActs E).attempt x (log, w) with ⟨_ | a, log', w'⟩
  · exact h.eq hx
  · obtain rfl := h.eq hx
    exact hf a log' w'

theorem target_of_prepare {E : Execution m σ} {name : String} {installed : List Mod}
    {target : Target} {w w' : σ}
    (h : E.attempt (c.prepare game name installed) w = (.ok target, w')) :
    target = game.target name installed := by
  obtain ⟨_, _, -, h⟩ := E.attempt_bind_eq_ok.mp h
  obtain ⟨_, _, -, h⟩ := E.attempt_bind_eq_ok.mp h
  obtain ⟨_, _, -, h⟩ := E.attempt_bind_eq_ok.mp h
  obtain ⟨_, _, -, h⟩ := E.attempt_bind_eq_ok.mp h
  obtain ⟨_, _, -, h⟩ := E.attempt_bind_eq_ok.mp h
  rw [E.attempt_pure] at h
  cases h
  rfl

variable [LawfulMonad m]

theorem related_copying (c : Collaborators m) (root path : String) :
    c.copying.Related (erasure Spot m) root path c where
  installed game := erasure_lift _
  purge := erasure_lift _
  createFolder root path := erasure_lift _
  writeDescriptor root path descriptor := erasure_lift _
  patchState root patch := erasure_lift _
  listFiles path := erasure_lift _
  exportDefinitions path definitions game := erasure_lift _
  exportFile root file path := by
    intro log
    simp [Collaborators.copying]
  publish event := erasure_lift _
  listing game := erasure_lift _
  storeListing game mods := erasure_lift _
  dropListing game := erasure_lift _

theorem attempt_of_erasure {x : ExceptT Error (Watching Spot m) α} {y : ExceptT Error m α}
    (h : (erasure Spot m).fallible x y) {log log' : List (Spot × Spot)} {w w' : σ}
    {result : Except Error α} (hx : (copyActs E).attempt x (log, w) = (result, (log', w'))) :
    E.attempt y w = (result, w') := by
  have hy : E.attempt y w =
      (((copyActs E).attempt x (log, w)).1, ((copyActs E).attempt x (log, w)).2.2) := by
    unfold Execution.attempt
    rw [← h log, E.exec_map]
    rfl
  rw [hy, hx]

theorem copiesNothing_lift (x : m α) :
    CopiesNothing E (liftM (StateT.lift x : Watching Spot m α)) := by
  intro log w
  rw [(copyActs E).attempt_lift, E.exec_lift_withState]

variable {E}

theorem CopiesNothing.mapM {f : α → ExceptT Error (Watching Spot m) β}
    (hf : ∀ a, CopiesNothing E (f a)) (l : List α) : CopiesNothing E (l.mapM f) := by
  induction l with
  | nil => exact copiesNothing_pure E []
  | cons a l ih =>
    rw [List.mapM_cons]
    exact (hf a).bind fun b => ih.bind fun bs => copiesNothing_pure E (b :: bs)

theorem copiesNothing_installedMods (c : Collaborators m) (game : Game) :
    CopiesNothing E (c.copying.installedMods game) := by
  refine (copiesNothing_lift E (c.listing game)).bind fun stored => ?_
  cases stored with
  | some mods => exact copiesNothing_pure E mods
  | none =>
    refine (copiesNothing_quietly E (c.installed game)).bind fun mods => ?_
    exact (copiesNothing_lift E (c.storeListing game mods)).bind fun _ => copiesNothing_pure E mods

theorem copiesNothing_prepare (c : Collaborators m) (game : Game) (name : String)
    (installed : List Mod) : CopiesNothing E (c.copying.prepare game name installed) := by
  refine (copiesNothing_quietly E _).bind fun _ => ?_
  refine (copiesNothing_quietly E _).bind fun _ => ?_
  refine (copiesNothing_quietly E _).bind fun _ => ?_
  refine (copiesNothing_quietly E _).bind fun _ => ?_
  exact (copiesNothing_lift E (c.dropListing game)).bind fun _ => copiesNothing_pure E _

section Runs

variable {target : Target} {source : Mod} {log log' : List (Spot × Spot)} {w w' : σ}

theorem copies_of_copyFiles {t t' : Tracker} {files : List String}
    (h : (copyActs E).attempt (c.copying.copyFiles target source t files) (log, w) =
      (.ok t', (log', w'))) : log' = log ++ source.copies target.descriptor.path files := by
  induction files generalizing t log w with
  | nil =>
    rw [Collaborators.copyFiles, (copyActs E).attempt_pure] at h
    cases h
    simp [Mod.copies]
  | cons file files ih =>
    unfold Collaborators.copyFiles at h
    obtain ⟨done, ⟨next, left⟩, hcopy, hmore⟩ := (copyActs E).attempt_bind_eq_ok.mp h
    rw [attempt_exportFile] at hcopy
    obtain rfl := (Prod.mk.inj (Prod.mk.inj hcopy).2).1
    dsimp only at hmore
    cases hreport : (t.advance 1).2 with
    | none =>
      rw [hreport] at hmore
      rw [ih hmore]
      simp [Mod.copies]
    | some p =>
      rw [hreport] at hmore
      obtain ⟨⟨⟩, ⟨next, last⟩, hpublish, hrest⟩ := (copyActs E).attempt_bind_eq_ok.mp hmore
      obtain rfl := (copiesNothing_lift E (c.publish (.files 2 p))).eq hpublish
      rw [ih hrest]
      simp [Mod.copies]

theorem copies_of_copyMods {t : Tracker} {listed : List (Mod × List String)}
    (h : (copyActs E).attempt (c.copying.copyMods target t listed) (log, w) =
      (.ok (), (log', w'))) :
    log' = log ++ listed.flatMap fun entry => entry.1.copies target.descriptor.path entry.2 := by
  induction listed generalizing t log w with
  | nil =>
    rw [Collaborators.copyMods, (copyActs E).attempt_pure] at h
    cases h
    simp
  | cons entry listed ih =>
    obtain ⟨source, files⟩ := entry
    unfold Collaborators.copyMods at h
    obtain ⟨t', ⟨next, left⟩, hfiles, hmore⟩ := (copyActs E).attempt_bind_eq_ok.mp h
    rw [ih hmore, copies_of_copyFiles hfiles, List.flatMap_cons, List.append_assoc]

/-- What a merge reads of its mods: the files of each that the game owns. -/
def Collaborators.listed (c : Collaborators m) (game : Game) (mods : List Mod) :
    ExceptT Error m (List (Mod × List String)) :=
  mods.mapM fun source => do return (source, (← c.listFiles source.path).filter game.owns)

/-- A merge that succeeds looks up what is installed, prepares its mod, lists the files of its mods,
and copies the files that it has listed, mod by mod. -/
theorem phases_of_mergeFiles {collection : Collection} {name : String} {merged : Mod}
    (h : (copyActs E).attempt (c.copying.mergeFiles (some game) (some collection) name) (log, w) =
      (.ok (some merged), (log', w'))) :
    ∃ installed w₁ w₂ listed w₃,
      E.attempt (c.installedMods game) w = (.ok installed, w₁) ∧
        E.attempt (c.prepare game name installed) w₁ = (.ok (game.target name installed), w₂) ∧
        merged = (game.target name installed).descriptor ∧
        E.attempt (c.listed game (collection.merged installed))
          (E.exec (c.publish (.files 1 0)) w₂).2 = (.ok listed, w₃) ∧
        E.attempt (c.copyMods (game.target name installed)
            (Tracker.start (listed.flatMap (·.2)).length 100) listed)
          (E.exec (c.publish (.files 1 100)) w₃).2 = (.ok (), w') ∧
        log' = log ++ listed.flatMap fun entry => entry.1.copies merged.path entry.2 := by
  unfold Collaborators.mergeFiles at h
  dsimp only at h
  split at h
  · rw [(copyActs E).attempt_pure] at h
    cases h
  obtain ⟨installed, ⟨log₁, left₁⟩, hinstalled, h⟩ := (copyActs E).attempt_bind_eq_ok.mp h
  split at h
  · rw [(copyActs E).attempt_pure] at h
    cases h
  obtain ⟨target, ⟨log₂, left₂⟩, htarget, h⟩ := (copyActs E).attempt_bind_eq_ok.mp h
  obtain ⟨⟨⟩, ⟨log₃, left₃⟩, hstart, h⟩ := (copyActs E).attempt_bind_eq_ok.mp h
  obtain ⟨listed, ⟨log₄, left₄⟩, hlisted, h⟩ := (copyActs E).attempt_bind_eq_ok.mp h
  obtain ⟨⟨⟩, ⟨log₅, left₅⟩, hend, h⟩ := (copyActs E).attempt_bind_eq_ok.mp h
  obtain ⟨⟨⟩, ⟨log₆, left₆⟩, hcopies, h⟩ := (copyActs E).attempt_bind_eq_ok.mp h
  rw [(copyActs E).attempt_pure] at h
  cases h
  -- only the last of these acts copies, and the others are those of a merge that is not watched
  have hrelated := related_copying c game.userDirectory (targetFolder name)
  have hsees (source : Mod) : (erasure Spot m).fallible
      (do return (source, (← c.copying.listFiles source.path).filter game.owns))
      (do return (source, (← c.listFiles source.path).filter game.owns)) :=
    (erasure Spot m).fallible_bind (hrelated.listFiles source.path) fun _ =>
      (erasure Spot m).fallible_pure _
  have hquiet (source : Mod) : CopiesNothing E
      (do return (source, (← c.copying.listFiles source.path).filter game.owns)) :=
    (copiesNothing_quietly E _).bind fun _ => copiesNothing_pure E _
  have hlog := copies_of_copyMods hcopies
  rw [(copiesNothing_lift E _).eq hend, (CopiesNothing.mapM hquiet _).eq hlisted,
    (copiesNothing_lift E _).eq hstart, (copiesNothing_prepare c game name installed).eq htarget,
    (copiesNothing_installedMods c game).eq hinstalled] at hlog
  have hprepared := attempt_of_erasure E (hrelated.prepare installed) htarget
  obtain rfl := target_of_prepare hprepared
  have hstarted := attempt_of_erasure E ((erasure Spot m).fallible_lift (hrelated.publish _)) hstart
  have hended := attempt_of_erasure E ((erasure Spot m).fallible_lift (hrelated.publish _)) hend
  rw [E.attempt_lift] at hstarted hended
  obtain rfl := (Prod.mk.inj hstarted).2
  obtain rfl := (Prod.mk.inj hended).2
  refine ⟨installed, left₁, left₂, listed, left₄, ?_, hprepared, rfl, ?_, ?_, hlog⟩
  · exact attempt_of_erasure E (hrelated.installedMods game) hinstalled
  · exact attempt_of_erasure E ((erasure Spot m).fallible_mapM _ hsees) hlisted
  · exact attempt_of_erasure E (hrelated.copyMods _ _ _) hcopies

theorem copies_of_mergeFiles {collection : Collection} {name : String} {merged : Mod}
    (h : (copyActs E).attempt (c.copying.mergeFiles (some game) (some collection) name) (log, w) =
      (.ok (some merged), (log', w'))) :
    ∃ installed w₀ w₁ w₂ listed,
      E.attempt (c.installedMods game) w = (.ok installed, w₀) ∧
        merged = (game.target name installed).descriptor ∧
        E.attempt (c.listed game (collection.merged installed)) w₁ = (.ok listed, w₂) ∧
        log' = log ++ listed.flatMap fun entry => entry.1.copies merged.path entry.2 := by
  obtain ⟨installed, w₁, w₂, listed, w₃, hinstalled, -, hmerged, hlisted, -, hlog⟩ :=
    phases_of_mergeFiles h
  exact ⟨installed, w₁, _, w₃, listed, hinstalled, hmerged, hlisted, hlog⟩

end Runs

end Copying

theorem filter_owns_eq_iff (game : Game) (files : List String) :
    files.filter game.owns = files.filter (FileSystem.considers game) ↔
      game.folders ≠ [] ∨ files = [] := by
  by_cases hnone : game.folders = []
  · have howns : game.owns = fun _ => false := by
      funext file
      simp [Game.owns, underAny, hnone]
    have hconsiders : FileSystem.considers game = fun _ => true := by
      funext file
      simp [FileSystem.considers, hnone]
    rw [howns, hconsiders, List.filter_false, List.filter_true, eq_comm]
    simp [hnone]
  · have hconsiders : FileSystem.considers game = game.owns := by
      funext file
      simp [FileSystem.considers, hnone]
    simp [hconsiders, hnone]

namespace Disk

/-- Every scan of a mod that succeeds goes through these files. -/
def Scans (tree : Disk) (game : Game) (source : Mod) (files : List String) : Prop :=
  ∀ rules definitions tree',
    acts.attempt (system.scanMod game source rules) tree = (.ok definitions, tree') →
      ∃ found, List.Forall₂ (tree.Finds source) files found ∧ definitions = found.flatten

theorem scans_of_modFiles {tree : Disk} {source : Mod} {files : List String} (game : Game)
    (h : acts.attempt (system.modFiles source.path) tree = (.ok files, tree)) :
    tree.Scans game source (files.filter (FileSystem.considers game)) := by
  intro rules definitions tree' hscan
  obtain ⟨files', found, hfiles, hall, hdefinitions⟩ := finds_of_scanMod hscan
  obtain rfl : files = files' := Except.ok.inj (Prod.mk.inj (h.symm.trans hfiles)).1
  exact ⟨found, hall, hdefinitions⟩

theorem owned_of_listFiles {configured : List Mod} {game : Game} {source : Mod}
    {w w' : Cache × Disk} {owned : Mod × List String}
    (h : mergeActs.attempt (do
      return (source, (← (system.collaborators configured).listFiles source.path).filter game.owns))
      w = (.ok owned, w')) :
    w' = w ∧ ∃ files, acts.attempt (system.modFiles source.path) w.2 = (.ok files, w.2) ∧
      owned = (source, files.filter game.owns) := by
  obtain ⟨files, next, hfiles, hdone⟩ := mergeActs.attempt_bind_eq_ok.mp h
  obtain ⟨hok, hleft⟩ := Prod.mk.inj ((attempt_keep acts _ w).symm.trans hfiles)
  have hdisk : (acts.attempt (system.modFiles source.path) w.2).2 = next.2 :=
    congrArg Prod.snd hleft
  have hread : acts.attempt (system.modFiles source.path) w.2 = (.ok files, next.2) :=
    Prod.ext hok hdisk
  have hnext : next = w := Prod.ext (congrArg Prod.fst hleft).symm (attempt_modFiles hread)
  subst hnext
  rw [mergeActs.attempt_pure] at hdone
  cases hdone
  exact ⟨rfl, files, hread, rfl⟩

theorem exists_listing {configured mods : List Mod} {game : Game} {w w' : Cache × Disk}
    {owned : List (Mod × List String)}
    (h : mergeActs.attempt ((system.collaborators configured).listed game mods) w =
      (.ok owned, w')) :
    ∃ listed : List (Mod × List String), listed.map (·.1) = mods ∧
      owned = listed.map (fun entry => (entry.1, entry.2.filter game.owns)) ∧
      ∀ entry ∈ listed,
        acts.attempt (system.modFiles entry.1.path) w.2 = (.ok entry.2, w.2) := by
  obtain ⟨-, hall⟩ := mergeActs.forall₂_of_mapM (fun _ _ _ => owned_of_listFiles) h
  clear h
  induction hall with
  | nil => exact ⟨[], rfl, rfl, by simp⟩
  | @cons source entry mods owned hentry _ ih =>
    obtain ⟨files, hread, rfl⟩ := hentry
    obtain ⟨listed, rfl, rfl, hlisted⟩ := ih
    exact ⟨(source, files) :: listed, rfl, rfl, List.forall_mem_cons.mpr ⟨hread, hlisted⟩⟩

/-- A merge file by file copies, of every mod, the files that the game owns, in the order in which
they are listed. They are the files that scans of the mod go through exactly if the game has folders
or there are no files. -/
theorem copies_eq_scanned_iff {configured : List Mod} {game : Game} {collection : Collection}
    {name : String} {merged : Mod} {copies : List (Spot × Spot)} {w w' : Cache × Disk}
    (h : (copyActs mergeActs).attempt ((system.collaborators configured).copying.mergeFiles
      (some game) (some collection) name) ([], w) = (.ok (some merged), (copies, w'))) :
    ∃ installed tree, ∃ listed : List (Mod × List String),
      (mergeActs.attempt ((system.collaborators configured).installedMods game) w).1 =
        .ok installed ∧
      listed.map (·.1) = collection.merged installed ∧
      copies = (listed.flatMap fun entry =>
        entry.1.copies merged.path (entry.2.filter game.owns)) ∧
      ∀ source files, (source, files) ∈ listed →
        acts.attempt (system.modFiles source.path) tree = (.ok files, tree) ∧
        tree.Scans game source (files.filter (FileSystem.considers game)) ∧
        (files.filter game.owns = files.filter (FileSystem.considers game) ↔
          game.folders ≠ [] ∨ files = []) := by
  obtain ⟨installed, _, w₁, w₂, owned, hinstalled, -, howned, hcopies⟩ := copies_of_mergeFiles h
  obtain ⟨listed, hmods, hlisted, hfiles⟩ := exists_listing howned
  refine ⟨installed, w₁.2, listed, by rw [hinstalled], hmods, ?_, ?_⟩
  · rw [hcopies, hlisted, List.flatMap_map]
    rfl
  · intro source files hmem
    have hread := hfiles _ hmem
    exact ⟨hread, scans_of_modFiles game hread, filter_owns_eq_iff game files⟩

end Disk

def modOfFile : Mod := { Mod.blank with name := "a", path := "/src" }

def diskOfFile : Disk where
  current := []
  entries := [(["user"], .folder), (["src"], .folder), (["src", "common"], .folder),
    (["src", "common", "00.txt"], .file (.text "x = 1"))]

def gameOfFolders (folders : List String) : Game := ⟨"g", "/user", folders⟩

def copiesOfFile (folders : List String) :
    Except Error (Option Mod) × List (Spot × Spot) × Cache × Disk :=
  (copyActs Disk.mergeActs).attempt ((Disk.system.collaborators [modOfFile]).copying.mergeFiles
    (some (gameOfFolders folders)) (some ⟨"c", ["a"]⟩) "New") ([], (.empty, diskOfFile))

theorem exists_copiesOfFile (folders : List String)
    (h : (copiesOfFile folders).1.toOption.any (·.isSome)) :
    ∃ merged, copiesOfFile folders = (.ok (some merged), (copiesOfFile folders).2) := by
  obtain ⟨result, hresult, hsome⟩ := (Option.any_eq_true _ _).mp h
  obtain ⟨merged, rfl⟩ := Option.isSome_iff_exists.mp hsome
  exact ⟨merged, eq_ok_of_mem hresult⟩

theorem copies_eq_scanned_oneFolder :
    ∃ merged copies w', copiesOfFile ["common"] = (.ok (some merged), (copies, w')) ∧
      copies = [(("/src", "common/00.txt"), ("/user/mod/New", "common/00.txt"))] ∧
      ∃ tree, ∃ listed : List (Mod × List String), listed.map (·.1) = [modOfFile] ∧
        ∀ source files, (source, files) ∈ listed → Disk.Scans tree (gameOfFolders ["common"])
          source (files.filter (gameOfFolders ["common"]).owns) := by
  obtain ⟨merged, hrun⟩ := exists_copiesOfFile ["common"] (by decide +kernel)
  obtain ⟨installed, tree, listed, hinstalled, hmods, -, hall⟩ := Disk.copies_eq_scanned_iff hrun
  have hmod : (Disk.mergeActs.attempt ((Disk.system.collaborators [modOfFile]).installedMods
      (gameOfFolders ["common"])) (.empty, diskOfFile)).1.toOption = some [modOfFile] := by
    decide +kernel
  obtain rfl : [modOfFile] = installed :=
    Except.ok.inj ((eq_ok_of_toOption hmod).symm.trans hinstalled)
  refine ⟨merged, _, _, hrun, by decide +kernel, tree, listed, hmods.trans (by decide +kernel), ?_⟩
  intro source files hmem
  obtain ⟨-, hscans, hiff⟩ := hall source files hmem
  rw [hiff.mpr (.inl (by decide))]
  exact hscans

/-- Without folders no file is copied, and a scan of the same mod finds definitions. -/
theorem copies_noFolders_miss_scanned :
    ∃ merged w' definitions, copiesOfFile [] = (.ok (some merged), ([], w')) ∧
      (Disk.acts.attempt (Disk.system.scanMod (gameOfFolders []) modOfFile none) w'.2).1 =
        .ok definitions ∧
      definitions.map (·.file) = ["common/00.txt"] := by
  obtain ⟨merged, hrun⟩ := exists_copiesOfFile [] (by decide +kernel)
  have hcopies : (copiesOfFile []).2.1 = [] := by decide +kernel
  have hscan : (Disk.acts.attempt (Disk.system.scanMod (gameOfFolders []) modOfFile none)
      (copiesOfFile []).2.2.2).1.toOption.any fun definitions =>
        definitions.map (·.file) = ["common/00.txt"] := by
    decide +kernel
  obtain ⟨definitions, hdefinitions, hfiles⟩ := (Option.any_eq_true _ _).mp hscan
  refine ⟨merged, (copiesOfFile []).2.2, definitions, ?_, eq_ok_of_toOption hdefinitions,
    of_decide_eq_true hfiles⟩
  rw [hrun, ← hcopies]

end LoadOrder

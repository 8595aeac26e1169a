import Mathlib.Data.List.Infix
import LoadOrder.Proofs.Merge.Once
import LoadOrder.Proofs.Merge.Purge

namespace LoadOrder

def Action.export? : Action → Option Definition
  | .export d => some d
  | .report _ => none

theorem filterMap_reports (event : Percent → Event) (p : Option Percent) :
    (reports event p).filterMap Action.export? = [] := by
  cases p <;> rfl

theorem filterMap_export (d : Option Definition) :
    (d.toList.map Action.export).filterMap Action.export? = d.toList := by
  cases d <;> rfl

theorem filterMap_cons_toList {α β : Type} (f : α → Option β) (a : α) (l : List α) :
    (a :: l).filterMap f = (f a).toList ++ l.filterMap f := by
  rw [List.filterMap_cons]
  cases f a <;> rfl

namespace Setting

theorem filterMap_customActions (s : Setting) (t : Tracker) (files : List String) :
    (s.customActions t files).2.filterMap Action.export? = files.filterMap s.customExport? := by
  induction files generalizing t with
  | nil => rfl
  | cons file files ih =>
    unfold customActions count
    simp only [List.filterMap_append, filterMap_reports, filterMap_export, ih, List.append_nil,
      filterMap_cons_toList s.customExport?]

theorem filterMap_groupActions (t : Tracker) (groups : List Nat) :
    (groupActions t groups).2.filterMap Action.export? = [] := by
  induction groups generalizing t with
  | nil => rfl
  | cons size groups ih =>
    unfold groupActions count
    simp only [List.filterMap_append, filterMap_reports, ih, List.append_nil]

theorem filterMap_fileActions (s : Setting) (t : Tracker) (plans : List FilePlan) :
    (s.fileActions t plans).2.filterMap Action.export? = plans.filterMap s.composed? := by
  induction plans generalizing t with
  | nil => rfl
  | cons plan plans ih =>
    unfold fileActions
    simp only [List.filterMap_append, filterMap_groupActions, filterMap_export, ih, List.nil_append,
      filterMap_cons_toList s.composed?]

/-- What a merge exports, in order: for every file of the user's definitions the first of them, and
then the files of the mods. -/
def exports (s : Setting) : List Definition :=
  s.analysis.custom.files.filterMap s.customExport? ++ s.plan.filterMap s.composed?

theorem exists_first (analysis : Analysis) {state : PatchState} {modOrder : List String}
    {rules : Option Rules} {policy : DuplicatePolicy} {d : Definition} (hd : d ∈ state.custom) :
    let s := Setting.of analysis state modOrder rules policy
    ∃ first, (s.analysis.custom.inFile d.fileKey).head? = some first ∧
      d.fileKey ∈ s.analysis.custom.files := by
  intro s
  obtain ⟨kept, hkept, hsame⟩ := exists_mem_keepLast hd
  have hfile := (Definition.sameSlot_iff.mp hsame).2.1
  have hin : kept ∈ s.analysis.custom.inFile d.fileKey := by
    change kept ∈ (Index.build state.custom false).inFile d.fileKey
    rw [Index.inFile_build, List.mem_filter, beq_iff_eq, lowercase_fileKey]
    exact ⟨hkept, hfile⟩
  exact ⟨_, List.head?_eq_some_head (List.ne_nil_of_mem hin),
    Index.mem_files_build.mpr ⟨kept, hkept, hfile⟩⟩

theorem filterMap_actions (s : Setting) : s.actions.filterMap Action.export? = s.exports := by
  unfold actions exports
  simp only [List.filterMap_append, filterMap_reports, filterMap_customActions,
    filterMap_fileActions, List.append_nil]

end Setting

/-- The files of a world from outside: what is in each, and which one an export goes to. -/
structure FileView (σ P : Type) where
  content? : σ → P → Option Content
  place : σ → (path file : String) → P

section Left

variable {P : Type} [DecidableEq P] {m : Type → Type} [Monad m] {σ : Type}

def lastAt (place : Definition → P) (p : P) (exports : List Definition) : Option Definition :=
  (exports.filter (place · = p)).getLast?

theorem lastAt_append (place : Definition → P) (p : P) (l l' : List Definition) :
    lastAt place p (l ++ l') = (lastAt place p l').or (lastAt place p l) := by
  rw [lastAt, List.filter_append, List.getLast?_append]
  rfl

theorem lastAt_singleton (place : Definition → P) (p : P) (d : Definition) :
    lastAt place p [d] = if place d = p then some d else none := by
  by_cases hp : place d = p <;> simp [lastAt, hp]

theorem lastAt_of_nodup {place : Definition → P} {exports : List Definition}
    (h : (exports.map place).Nodup) {d : Definition} (hd : d ∈ exports) :
    lastAt place (place d) exports = some d := by
  induction exports with
  | nil => cases hd
  | cons e exports ih =>
    rw [List.map_cons, List.nodup_cons] at h
    rw [← List.singleton_append, lastAt_append, lastAt_singleton]
    rcases List.mem_cons.mp hd with rfl | hd
    · have hnone : lastAt place (place d) exports = none := by
        rw [lastAt, List.getLast?_eq_none_iff, List.filter_eq_nil_iff]
        intro e he heq
        exact h.1 (List.mem_map.mpr ⟨e, he, by simpa using heq⟩)
      rw [hnone, if_pos rfl, Option.none_or]
    · rw [ih h.2 hd, Option.some_or]

def HasCode (content : Option Content) (code : String) : Prop :=
  ∃ text, content = some (.text text) ∧ code.toList <:+: text.toList

theorem hasCode_text {text code : String} :
    HasCode (some (.text text)) code ↔ code.toList <:+: text.toList := by
  constructor
  · rintro ⟨_, ⟨⟩, h⟩
    exact h
  · exact fun h => ⟨text, rfl, h⟩

instance (content : Option Content) (code : String) : Decidable (HasCode content code) :=
  match content with
  | some (.text _) => decidable_of_iff _ hasCode_text.symm
  | some (.bytes _) => .isFalse fun ⟨_, h, _⟩ => nomatch h
  | none => .isFalse fun ⟨_, h, _⟩ => nomatch h

/-- The export of a definition puts its code, or some copy, in the place of what is in its file.
Other files, and the places that exports go to, are not affected, and neither are they by reports.
-/
structure Collaborators.Replaces (c : Collaborators m) (E : Execution m σ) (files : FileView σ P) :
    Prop where
  place_eq : ∀ {path d game w w'},
    E.attempt (c.exportDefinitions path [d] game) w = (.ok (), w') → files.place w' = files.place w
  other : ∀ {path d game w w'},
    E.attempt (c.exportDefinitions path [d] game) w = (.ok (), w') →
      ∀ p ≠ files.place w path d.file, files.content? w' p = files.content? w p
  own : ∀ {path d game w w'},
    E.attempt (c.exportDefinitions path [d] game) w = (.ok (), w') → d.kind ≠ .binary →
      files.content? w' (files.place w path d.file) = some (.text d.code)
  publish : ∀ event w, files.place (E.exec (c.publish event) w).2 = files.place w ∧
    files.content? (E.exec (c.publish event) w).2 = files.content? w

def FileView.LeftBy (files : FileView σ P) (path : String) (exports : List Definition) (w w' : σ) :
    Prop :=
  files.place w' = files.place w ∧
    ∀ p, match lastAt (fun d => files.place w path d.file) p exports with
      | none => files.content? w' p = files.content? w p
      | some d => d.kind ≠ .binary → files.content? w' p = some (.text d.code)

variable {files : FileView σ P} {path : String} {w w' w'' : σ}

theorem FileView.LeftBy.content?_eq {l : List Definition} (h : files.LeftBy path l w w') {p : P}
    {d : Definition} (hlast : lastAt (fun d => files.place w path d.file) p l = some d)
    (hkind : d.kind ≠ .binary) : files.content? w' p = some (.text d.code) := by
  have hp := h.2 p
  rw [hlast] at hp
  exact hp hkind

theorem FileView.LeftBy.content?_eq_of_none {l : List Definition} (h : files.LeftBy path l w w')
    {p : P} (hlast : lastAt (fun d => files.place w path d.file) p l = none) :
    files.content? w' p = files.content? w p := by
  have hp := h.2 p
  rwa [hlast] at hp

theorem FileView.leftBy_nil (hplace : files.place w' = files.place w)
    (hcontent : files.content? w' = files.content? w) : files.LeftBy path [] w w' :=
  ⟨hplace, fun p => congrFun hcontent p⟩

theorem FileView.LeftBy.append {l l' : List Definition} (h : files.LeftBy path l w w')
    (h' : files.LeftBy path l' w' w'') : files.LeftBy path (l ++ l') w w'' := by
  refine ⟨h'.1.trans h.1, fun p => ?_⟩
  have hfirst := h.2 p
  have hlater := h'.2 p
  rw [h.1] at hlater
  rw [lastAt_append]
  cases hlast : lastAt (fun d => files.place w path d.file) p l' with
  | some d =>
    rw [hlast] at hlater
    exact hlater
  | none =>
    rw [hlast] at hlater
    rw [Option.none_or, hlater]
    exact hfirst

variable [LawfulMonad m] {c : Collaborators m} {E : Execution m σ} {game : Game} {target : Target}

theorem Collaborators.Replaces.act (hc : c.Replaces E files) {action : Action}
    (h : E.attempt (c.act game target action) w = (.ok (), w')) :
    files.LeftBy target.exportPath action.export?.toList w w' := by
  cases action with
  | «export» d =>
    refine ⟨hc.place_eq h, fun p => ?_⟩
    change match lastAt (fun d => files.place w target.exportPath d.file) p [d] with
      | none => _
      | some d => _
    rw [lastAt_singleton]
    by_cases hp : files.place w target.exportPath d.file = p
    · rw [if_pos hp, ← hp]
      exact hc.own h
    · rw [if_neg hp]
      exact hc.other h p (Ne.symm hp)
  | report event =>
    have hpublish : E.attempt (c.act game target (.report event)) w =
        (.ok (), (E.exec (c.publish event) w).2) := E.attempt_lift _ w
    rw [hpublish] at h
    obtain ⟨-, rfl⟩ := Prod.mk.inj h
    obtain ⟨hplace, hcontent⟩ := hc.publish event w
    exact FileView.leftBy_nil hplace hcontent

/-- After acts that succeed, a file has the code of the last export that went to it. -/
theorem Collaborators.Replaces.forM_act (hc : c.Replaces E files) {actions : List Action}
    (h : E.attempt (actions.forM (c.act game target)) w = (.ok (), w')) :
    files.LeftBy target.exportPath (actions.filterMap Action.export?) w w' := by
  induction actions generalizing w with
  | nil =>
    have hnil := (E.attempt_pure (ε := Error) () w).symm.trans h
    obtain ⟨-, rfl⟩ := Prod.mk.inj hnil
    exact FileView.leftBy_nil rfl rfl
  | cons action actions ih =>
    obtain ⟨⟨⟩, next, hact, hrest⟩ := E.attempt_bind_eq_ok.mp h
    rw [filterMap_cons_toList]
    exact (hc.act hact).append (ih hrest)

end Left

/-- What a merge does before it exports: the target and the stored decisions. -/
def Collaborators.ready {m : Type → Type} [Monad m] (c : Collaborators m) (game : Game)
    (collection : Collection) (name : String) : ExceptT Error m (Target × Option PatchState) := do
  let installed ← c.installedMods game
  let target ← c.prepare game name installed
  let state ← c.patchState (Path.join game.userDirectory modFolder) (patchName collection.name)
  return (target, state)

section Merges

variable {P : Type} [DecidableEq P] {m : Type → Type} [Monad m] {σ : Type} {c : Collaborators m}
  {E : Execution m σ} {files : FileView σ P} {rules : List Rules} {policy : DuplicatePolicy}
  {game : Game} {collection : Collection} {analysis : Analysis} {modOrder : List String}
  {name : String} {target : Target} {state : Option PatchState} {descriptor : Mod}
  {start ready final : σ}

theorem state_of_ready {read : Option PatchState}
    (hstate : ∀ root patch, c.patchState root patch = pure state)
    (h : E.attempt (c.ready game collection name) start = (.ok (target, read), ready)) :
    read = state := by
  obtain ⟨installed, w, -, h⟩ := E.attempt_bind_eq_ok.mp h
  obtain ⟨made, w, -, h⟩ := E.attempt_bind_eq_ok.mp h
  obtain ⟨stored, w, hstored, h⟩ := E.attempt_bind_eq_ok.mp h
  rw [hstate, E.attempt_pure] at hstored
  rw [E.attempt_pure] at h
  cases hstored
  cases h
  rfl

variable [LawfulMonad m]

theorem mergeDefinitions_eq (hanalysis : analysis.all.isEmpty = false) :
    c.mergeDefinitions rules policy (some game) (some collection) analysis modOrder name =
      c.ready game collection name >>= fun ready => do
        let setting := Setting.of analysis (ready.2.getD .blank) modOrder
          (Rules.forGame? rules game.key) policy
        setting.actions.forM (c.act game ready.1)
        return some ready.1.descriptor := by
  unfold Collaborators.mergeDefinitions Collaborators.ready
  simp [hanalysis]

/-- A merge that succeeds leaves the files that its exports leave. -/
theorem leftBy_mergeDefinitions (hc : c.Replaces E files)
    (hready : E.attempt (c.ready game collection name) start = (.ok (target, state), ready))
    (hrun : E.attempt (c.mergeDefinitions rules policy (some game) (some collection) analysis
      modOrder name) start = (.ok (some descriptor), final)) :
    files.LeftBy target.exportPath
      (Setting.of analysis (state.getD .blank) modOrder (Rules.forGame? rules game.key)
        policy).exports ready final := by
  cases hempty : analysis.all.isEmpty with
  | true =>
    have hnone : c.mergeDefinitions rules policy (some game) (some collection) analysis modOrder
        name = pure none := by
      unfold Collaborators.mergeDefinitions
      simp [hempty]
    rw [hnone, E.attempt_pure] at hrun
    cases (Prod.mk.inj hrun).1
  | false =>
    rw [mergeDefinitions_eq hempty, E.attempt_bind, hready] at hrun
    obtain ⟨⟨⟩, done, hacts, hlast⟩ := E.attempt_bind_eq_ok.mp hrun
    rw [E.attempt_pure] at hlast
    obtain ⟨-, rfl⟩ := Prod.mk.inj hlast
    rw [← Setting.filterMap_actions]
    exact hc.forM_act hacts

/-- After a merge, the code of a definition of the user is in its file exactly if the last export to
this file has it; a file that nothing is exported to is as it was. If no two exports go to the same
file, the code is there exactly if the first of the user's definitions in that file has it. -/
theorem mergeDefinitions_keeps_custom_iff (hc : c.Replaces E files)
    (hready : E.attempt (c.ready game collection name) start = (.ok (target, state), ready))
    (hrun : E.attempt (c.mergeDefinitions rules policy (some game) (some collection) analysis
      modOrder name) start = (.ok (some descriptor), final)) :
    let s := Setting.of analysis (state.getD .blank) modOrder (Rules.forGame? rules game.key) policy
    let place := fun d : Definition => files.place ready target.exportPath d.file
    ∀ d ∈ (state.getD .blank).custom,
      (match lastAt place (place d) s.exports with
        | none => files.content? final (place d) = files.content? ready (place d)
        | some e => e.kind ≠ .binary → (HasCode (files.content? final (place d)) (s.latestCode d) ↔
            (s.latestCode d).toList <:+: e.code.toList)) ∧
      ((s.exports.map place).Nodup → ∃ first ∈ (s.analysis.custom.inFile d.fileKey).head?,
        first.kind ≠ .binary → place first = place d →
          (HasCode (files.content? final (place d)) (s.latestCode d) ↔
            (s.latestCode d).toList <:+: (s.latestCode first).toList)) := by
  intro s place d hd
  have hleft := leftBy_mergeDefinitions hc hready hrun
  constructor
  · cases hlast : lastAt place (place d) s.exports with
    | none => exact hleft.content?_eq_of_none hlast
    | some e =>
      intro hkind
      rw [hleft.content?_eq hlast hkind, hasCode_text]
  · intro hnodup
    obtain ⟨first, hfirst, hfile⟩ := Setting.exists_first analysis hd
    refine ⟨first, hfirst, fun hkind hplace => ?_⟩
    let exported : Definition := { first with code := s.latestCode first }
    have hcustom : s.customExport? d.fileKey = some exported := by
      rw [Setting.customExport?, hfirst]
      rfl
    have hmem : exported ∈ s.exports :=
      List.mem_append_left _ (List.mem_filterMap.mpr ⟨d.fileKey, hfile, hcustom⟩)
    have hlast : lastAt place (place d) s.exports = some exported :=
      hplace ▸ lastAt_of_nodup hnodup hmem
    rw [hleft.content?_eq hlast hkind, hasCode_text]

end Merges

theorem attempt_keep {m : Type → Type} [Monad m] [LawfulMonad m] {σ α : Type} (E : Execution m σ)
    (act : ExceptT Error m α) (w : Cache × σ) :
    (E.withState Cache).attempt (FileSystem.keep act) w =
      ((E.attempt act w.2).1, (w.1, (E.attempt act w.2).2)) :=
  E.attempt_lift_withState act w.1 w.2

namespace Disk

def fileView : FileView (Cache × Disk) Place where
  content? w := w.2.content?
  place w path file := w.2.newPlace (FileSystem.exportPath path file)

theorem fileView_place (w : Cache × Disk) (path file : String) :
    fileView.place w path file = w.2.newPlace (FileSystem.exportPath path file) := by
  dsimp only [fileView]

theorem fileView_content? (w : Cache × Disk) : fileView.content? w = w.2.content? := by
  dsimp only [fileView]

abbrev mergeActs : Execution DiskActs (Cache × Disk) := acts.withState Cache

theorem replaces_of_exports {c : Collaborators DiskActs}
    (hexport : ∀ path definition game, c.exportDefinitions path [definition] game =
      FileSystem.keep (system.exportDefinitions path [definition]))
    (hpublish : ∀ event, c.publish event = pure ()) : c.Replaces mergeActs fileView := by
  have hreplaced : ∀ {path : String} {definition : Definition} {game : String}
      {w w' : Cache × Disk},
      mergeActs.attempt (c.exportDefinitions path [definition] game) w = (.ok (), w') →
      ∃ content, Replaced (fileView.place w path definition.file) content w.2 w'.2 ∧
        (definition.kind ≠ .binary → content = .text definition.code) := by
    intro path definition game w w' h
    rw [hexport, attempt_keep] at h
    obtain ⟨hok, hleft⟩ := Prod.mk.inj h
    have hdone : acts.attempt (system.exportDefinitions path [definition]) w.2 =
        (.ok (), w'.2) := by
      rw [← hleft, ← hok]
    rw [fileView_place]
    exact replaced_of_exportDefinitions hdone
  -- the places are texts to compute: they are rewritten, never unfolded
  refine ⟨fun {path d game w w'} h => ?_, fun {path d game w w'} h p hp => ?_,
    fun {path d game w w'} h hkind => ?_, fun event w => ?_⟩
  · obtain ⟨content, hreplaced, -⟩ := hreplaced h
    funext path file
    rw [fileView_place, fileView_place, newPlace_congr hreplaced.1]
  · obtain ⟨content, hreplaced, -⟩ := hreplaced h
    rw [fileView_content?, fileView_content?, hreplaced.2 p, if_neg hp]
  · obtain ⟨content, hreplaced, htext⟩ := hreplaced h
    rw [fileView_content?, hreplaced.2, if_pos rfl, htext hkind]
  · rw [hpublish, mergeActs.exec_pure]
    exact ⟨rfl, rfl⟩

theorem replaces_collaborators (configured : List Mod) :
    (system.collaborators configured).Replaces mergeActs fileView :=
  replaces_of_exports (fun _ _ _ => rfl) fun _ => rfl

end Disk

def firstCustom : Definition :=
  { Definition.blank with id := "p", type := "t", file := "t/z", code := "p = 1" }

def secondCustom : Definition := { firstCustom with id := "q", code := "q = 2" }

def stateOfCustoms : PatchState := { PatchState.blank with custom := [firstCustom, secondCustom] }

def worldOfCustoms : Collaborators DiskActs :=
  { Disk.system.collaborators [] with patchState := fun _ _ => return some stateOfCustoms }

def startOfCustoms : Cache × Disk := (.empty, ⟨[], [(["user"], .folder)]⟩)

def gameOfCustoms : Game := ⟨"g", "/user", ["t"]⟩

def collectionOfCustoms : Collection := ⟨"c", ["a"]⟩

def analysisOfCustoms : Analysis := .of (.build [Setting.objectOf "a" "t/a"] false) ["a"] none

abbrev settingOfCustoms : Setting :=
  .of analysisOfCustoms ((some stateOfCustoms).getD .blank) ["a"]
    (Rules.forGame? [] gameOfCustoms.key) .oncePerIdentity

def readyOfCustoms : Except Error (Target × Option PatchState) × Cache × Disk :=
  Disk.mergeActs.attempt (worldOfCustoms.ready gameOfCustoms collectionOfCustoms "c")
    startOfCustoms

def mergeOfCustoms : Except Error (Option Mod) × Cache × Disk :=
  Disk.mergeActs.attempt (worldOfCustoms.mergeDefinitions [] .oncePerIdentity
    (some gameOfCustoms) (some collectionOfCustoms) analysisOfCustoms ["a"] "c") startOfCustoms

abbrev placeOfCustom (d : Definition) : Place :=
  Disk.fileView.place readyOfCustoms.2 "/user/mod/c" d.file

theorem replaces_worldOfCustoms : worldOfCustoms.Replaces Disk.mergeActs Disk.fileView :=
  Disk.replaces_of_exports (fun _ _ _ => rfl) fun _ => rfl

theorem readyOfCustoms_eq_ok : ∃ target : Target, target.exportPath = "/user/mod/c" ∧
    readyOfCustoms = (.ok (target, some stateOfCustoms), readyOfCustoms.2) := by
  have hready : ∃ r ∈ readyOfCustoms.1.toOption, r.1.exportPath = "/user/mod/c" := by
    decide +kernel
  obtain ⟨⟨target, state⟩, hok, hpath⟩ := hready
  have hstate := state_of_ready (fun _ _ => rfl) (eq_ok_of_mem hok)
  exact ⟨target, hpath, hstate ▸ eq_ok_of_mem hok⟩

theorem mergeOfCustoms_eq_ok : ∃ descriptor,
    mergeOfCustoms = (.ok (some descriptor), mergeOfCustoms.2) := by
  have hrun : ∃ r ∈ mergeOfCustoms.1.toOption, r.isSome := by
    decide +kernel
  obtain ⟨result, hok, hsome⟩ := hrun
  obtain ⟨descriptor, rfl⟩ := Option.isSome_iff_exists.mp hsome
  exact ⟨descriptor, eq_ok_of_mem hok⟩

theorem exports_settingOfCustoms :
    (settingOfCustoms.exports.map placeOfCustom).Nodup ∧
      ∃ e ∈ lastAt placeOfCustom (placeOfCustom secondCustom) settingOfCustoms.exports,
        e.kind ≠ .binary ∧ e.code = "p = 1" := by
  decide +kernel

theorem latestCode_settingOfCustoms (d : Definition) : settingOfCustoms.latestCode d = d.code := rfl

theorem mergeOfCustoms_keeps_first :
    HasCode (Disk.fileView.content? mergeOfCustoms.2 (placeOfCustom firstCustom))
      (settingOfCustoms.latestCode firstCustom) := by
  obtain ⟨target, hpath, hready⟩ := readyOfCustoms_eq_ok
  obtain ⟨descriptor, hrun⟩ := mergeOfCustoms_eq_ok
  have hfirst : ∃ first ∈ (settingOfCustoms.analysis.custom.inFile firstCustom.fileKey).head?,
      first.kind ≠ .binary ∧ first.file = firstCustom.file ∧ first.code = firstCustom.code := by
    decide +kernel
  obtain ⟨first, hmem, hkind, hfile, hcode⟩ := hfirst
  have hplace : placeOfCustom first = placeOfCustom firstCustom := by
    rw [placeOfCustom, hfile, placeOfCustom]
  have hkept := (mergeDefinitions_keeps_custom_iff replaces_worldOfCustoms hready hrun firstCustom
    List.mem_cons_self).2
  rw [hpath] at hkept
  obtain ⟨first', hmem', hiff⟩ := hkept exports_settingOfCustoms.1
  obtain rfl : first' = first := Option.mem_unique hmem' hmem
  refine (hiff hkind hplace).mpr ?_
  rewrite [latestCode_settingOfCustoms, latestCode_settingOfCustoms, hcode]
  exact List.infix_rfl

/-- Of two definitions of the user in one file the second is lost, although it has code and an
identity of its own. -/
theorem mergeOfCustoms_loses_second :
    ∃ target descriptor,
      readyOfCustoms = (.ok (target, some stateOfCustoms), readyOfCustoms.2) ∧
      mergeOfCustoms = (.ok (some descriptor), mergeOfCustoms.2) ∧
      (∀ d ∈ stateOfCustoms.custom, d.kind ≠ .binary ∧ settingOfCustoms.latestCode d ≠ "") ∧
      (stateOfCustoms.custom.map Definition.identity).Nodup ∧
      ¬∀ d ∈ stateOfCustoms.custom, HasCode (Disk.fileView.content? mergeOfCustoms.2
        (Disk.fileView.place readyOfCustoms.2 target.exportPath d.file))
          (settingOfCustoms.latestCode d) := by
  obtain ⟨target, hpath, hready⟩ := readyOfCustoms_eq_ok
  obtain ⟨descriptor, hrun⟩ := mergeOfCustoms_eq_ok
  obtain ⟨e, he, hkind, hcode⟩ := exports_settingOfCustoms.2
  have hcustoms : ∀ d ∈ stateOfCustoms.custom,
      d.kind ≠ .binary ∧ settingOfCustoms.latestCode d ≠ "" := by
    simp only [latestCode_settingOfCustoms]
    decide
  have hidentities : (stateOfCustoms.custom.map Definition.identity).Nodup := by
    decide +kernel
  refine ⟨target, descriptor, hready, hrun, hcustoms, hidentities, fun hall => ?_⟩
  have hleft := leftBy_mergeDefinitions replaces_worldOfCustoms hready hrun
  have hkept := hall secondCustom (List.mem_cons_of_mem _ List.mem_cons_self)
  rw [hpath] at hleft hkept
  rw [hleft.content?_eq he hkind, hcode, hasCode_text, latestCode_settingOfCustoms] at hkept
  exact absurd hkept (by decide)

end LoadOrder

import LoadOrder.Proofs.Config
import LoadOrder.Proofs.PatchState
import LoadOrder.Proofs.Files.Scan

namespace LoadOrder

namespace Disk

variable {d d' : Disk} {path : String} {place : Place}

theorem follow_put {start : Place} {pieces : List String} (h : d.follow start pieces = .ok place)
    (hplace : d.entry? place ≠ some .folder) (entry : DiskEntry) :
    (d.put place entry).follow start pieces = .ok place := by
  induction pieces generalizing start with
  | nil => exact h
  | cons piece pieces ih =>
    rw [follow] at h
    split at h
    · cases h
    · cases h
    · next hfolder =>
      have hne : start ≠ place := by
        rintro rfl
        exact hplace hfolder
      have hsame : entry? (d.put place entry) start = some .folder := by
        rw [entry?_put, if_neg fun hput => hne hput.2, hfolder]
      split at h
      · cases h
      · next hshort =>
        rw [follow, hsame]
        dsimp only
        rw [if_neg hshort]
        exact ih h

theorem find_put (h : d.locateFile path = .ok place) (content : Content) :
    (d.put place (.file content)).find path = .ok (place, .file content) := by
  obtain ⟨hfault, hfollow⟩ := locate_eq_ok.mp (locate_of_locateFile h)
  have hfree : d.entry? place ≠ some .folder := (locateFile_eq_ok h).2
  exact find_eq_ok.mpr
    ⟨locate_eq_ok.mpr ⟨hfault, follow_put hfollow hfree _⟩, entry?_put_self hfree _⟩

theorem read_of_write {text : String} (h : d.write path (.text text) = .ok d') :
    d'.read path = .ok text := by
  obtain ⟨place, hplace, hput⟩ := exists_of_bind_eq_ok h
  cases hput
  rw [read, find_put hplace]
  rfl

theorem attempt_loadConfig_eq_ok {c : Config} :
    acts.attempt (system.loadConfig path) d = (.ok c, d') ↔
      ∃ text, d.read path = .ok text ∧ Config.ofText text = .ok c ∧ d' = d := by
  unfold FileSystem.loadConfig
  rw [acts.attempt_bind_eq_ok]
  constructor
  · rintro ⟨text, left, hread, hparse⟩
    obtain ⟨hread, rfl⟩ := attempt_readText_eq_ok.mp hread
    split at hparse
    · next config hconfig =>
      rw [acts.attempt_pure] at hparse
      obtain ⟨hsame, rfl⟩ := Prod.mk.inj hparse
      cases hsame
      exact ⟨text, hread, hconfig, rfl⟩
    · cases hparse
  · rintro ⟨text, hread, hconfig, rfl⟩
    refine ⟨text, d', attempt_readText_eq_ok.mpr ⟨hread, rfl⟩, ?_⟩
    rw [hconfig]
    exact acts.attempt_pure _ _

theorem loadConfig_of_saveConfig {c : Config} (hc : c.fault? = none)
    (h : acts.attempt (system.saveConfig path c) d = (.ok (), d')) :
    acts.attempt (system.loadConfig path) d' = (.ok c, d') := by
  have hwrite : d.write path (.text c.print) = .ok d' :=
    attempt_change_eq_ok.mp (acts.attempt_adapt_eq_ok.mp h)
  exact attempt_loadConfig_eq_ok.mpr
    ⟨c.print, read_of_write hwrite, Config.ofText_print hc, rfl⟩

/-- A configuration without a fault comes back from its text, and from a file that it was saved to.
What is loaded has names for its game, its collection and its mods, and the names of the mods
differ. -/
theorem config_comes_back :
    (∀ c : Config, c.fault? = none →
      Config.ofText c.print = .ok c ∧
        ∀ (d d' : Disk) (path : String),
          acts.attempt (system.saveConfig path c) d = (.ok (), d') →
            acts.attempt (system.loadConfig path) d' = (.ok c, d')) ∧
    (∀ (text : String) (c : Config), Config.ofText text = .ok c → c.Runnable) ∧
    ∀ (d d' : Disk) (path : String) (c : Config),
      acts.attempt (system.loadConfig path) d = (.ok c, d') → c.Runnable := by
  refine ⟨fun c hc => ⟨Config.ofText_print hc, fun d d' path h => loadConfig_of_saveConfig hc h⟩,
    fun text c h => Config.runnable_of_ofText h, fun d d' path c h => ?_⟩
  obtain ⟨text, -, hconfig, -⟩ := attempt_loadConfig_eq_ok.mp h
  exact Config.runnable_of_ofText hconfig

def quotedConfig : Config where
  game := {
    key := "a \"game\""
    userDirectory := "C:\\user\t\n"
    modDirectory := some "é\x01"
    folders := []
    firstFolders := ["common/t", ""]
    lastFolders := []
    taggedFolders := ["/"] }
  collection := { name := "\x7f", mods := [⟨"A", "mod/a", "1.0", ["B", "B"]⟩, ⟨"B", "", "", []⟩] }
  duplicatePolicy := .oncePerFile

theorem config_comes_back_quoted :
    quotedConfig.fault? = none ∧ Config.ofText quotedConfig.print = .ok quotedConfig ∧
      ∃ left, acts.attempt (system.saveConfig "config.json" quotedConfig) (.empty []) =
          (.ok (), left) ∧
        acts.attempt (system.loadConfig "config.json") left = (.ok quotedConfig, left) := by
  have hfault : quotedConfig.fault? = none := by
    decide +kernel
  have hsaved : () ∈ (acts.attempt (system.saveConfig "config.json" quotedConfig)
      (.empty [])).1.toOption := by
    decide +kernel
  obtain ⟨hcomes, -⟩ := config_comes_back
  obtain ⟨htext, hdisk⟩ := hcomes quotedConfig hfault
  exact ⟨hfault, htext, _, eq_ok_of_mem hsaved, hdisk _ _ _ (eq_ok_of_mem hsaved)⟩

theorem isThere_of_read {text : String} (h : d.read path = .ok text) : d.isThere path := by
  obtain ⟨found, hfind, -⟩ := exists_of_bind_eq_ok h
  rw [isThere, hfind]

theorem read_of_writeTo {text : String}
    (h : acts.attempt (system.writeTo path text) d = (.ok (), d')) : d'.read path = .ok text := by
  obtain ⟨⟨⟩, made, -, hwrite⟩ := acts.attempt_bind_eq_ok.mp h
  exact read_of_write (attempt_change_eq_ok.mp (acts.attempt_adapt_eq_ok.mp hwrite))

theorem loadPatchState_of_read {p : PatchState} {text : String} (hread : d.read path = .ok text)
    (hp : PatchState.ofText? text = some p) :
    acts.attempt (system.loadPatchState path) d = (.ok (some p), d) := by
  have hthere : acts.exec (system.isThere path) d = (true, d) := by
    change (d.isThere path, d) = _
    rw [isThere_of_read hread]
  have htext : acts.attempt (system.readText path) d = (.ok text, d) :=
    attempt_readText_eq_ok.mpr ⟨hread, rfl⟩
  unfold FileSystem.loadPatchState
  rw [acts.attempt_bind, acts.attempt_lift, hthere]
  dsimp only
  rw [Bool.not_true, if_neg Bool.false_ne_true, acts.attempt_bind, htext]
  dsimp only
  rw [hp]
  exact acts.attempt_pure _ _

theorem patchState_of_read {root patch text : String} {p : PatchState}
    (hread : d.read (PatchState.file root patch) = .ok text)
    (hp : PatchState.ofText? text = some p) :
    acts.attempt (system.patchState root patch) d = (.ok (some p), d) := by
  have htext : acts.exec (system.read (PatchState.file root patch)).run d = (.ok text, d) := by
    rw [← hread]
    exact attempt_ask _ d
  unfold FileSystem.patchState
  dsimp only
  rw [acts.attempt_bind, acts.attempt_lift, htext]
  dsimp only
  rw [hp]
  exact acts.attempt_pure _ _

/-- Decisions come back from their text, and from a file that they were saved to, with the time of
the saving. -/
theorem decisions_come_back (p : PatchState)
    (hp : ∀ d ∈ p.resolved ++ p.ignored ++ p.history ++ p.custom, d.Storable)
    {now : Timestamp} (hnow : now.Valid) :
    let stamped := { p with updatedAt := some now }
    PatchState.ofText? stamped.print = some stamped ∧
      ∀ (d d' : Disk) (path : String) (saved : PatchState),
        acts.attempt (system.savePatchState path p now) d = (.ok saved, d') →
          saved = stamped ∧
          acts.attempt (system.loadPatchState path) d' = (.ok (some stamped), d') ∧
          ∀ root patch : String, path = PatchState.file root patch →
            acts.attempt (system.patchState root patch) d' = (.ok (some stamped), d') := by
  intro stamped
  simp only [List.mem_append, or_imp, forall_and] at hp
  obtain ⟨⟨⟨hresolved, hignored⟩, hhistory⟩, hcustom⟩ := hp
  have hstorable : stamped.Storable := by
    refine ⟨hresolved, hignored, hhistory, hcustom, fun t ht => ?_⟩
    obtain rfl : now = t := Option.some.inj ht
    exact hnow
  refine ⟨hstorable.ofText?_print, fun d d' path saved hsaved => ?_⟩
  obtain ⟨⟨⟩, left, hwrite, hreturn⟩ := acts.attempt_bind_eq_ok.mp hsaved
  rw [acts.attempt_pure] at hreturn
  obtain ⟨hsame, rfl⟩ := Prod.mk.inj hreturn
  have hread : left.read path = .ok stamped.print := read_of_writeTo hwrite
  refine ⟨(Except.ok.inj hsame).symm, loadPatchState_of_read hread hstorable.ofText?_print, ?_⟩
  rintro root patch rfl
  exact patchState_of_read hread hstorable.ofText?_print

def chosenOfLines : Definition :=
  { Definition.blank with
    id := "x"
    code := "x = \x7b\r\n\t\"@v\"\n\x7d"
    order := 2
    scope := [{ Definition.blank with id := "@v", kind := .variable, code := "@v = 1", order := 1 }]
    dependencies := ["B"] }

theorem storable_chosenOfLines : chosenOfLines.Storable where
  order_lt := by decide
  scope_order_lt := by decide
  scope_flat := by decide

theorem decisions_come_back_ofLines :
    let p := { PatchState.blank with mode := .advanced, resolved := [chosenOfLines] }
    let now : Timestamp := ⟨2024, 2, 29, 23, 59, 60, 123456000⟩
    (∀ d ∈ p.resolved ++ p.ignored ++ p.history ++ p.custom, d.Storable) ∧ now.Valid ∧
      ∃ left, acts.attempt (system.savePatchState "state.json" p now) (.empty ["user"]) =
          (.ok { p with updatedAt := some now }, left) ∧
        acts.attempt (system.loadPatchState "state.json") left =
          (.ok (some { p with updatedAt := some now }), left) := by
  intro p now
  have hp : ∀ d ∈ p.resolved ++ p.ignored ++ p.history ++ p.custom, d.Storable := by
    intro d hd
    obtain rfl : d = chosenOfLines := List.mem_singleton.mp hd
    exact storable_chosenOfLines
  have hnow : now.Valid := by
    constructor <;> decide
  have hsaved : (acts.attempt (system.savePatchState "state.json" p now)
      (.empty ["user"])).1.toOption.isSome := by
    decide +kernel
  obtain ⟨saved, hsome⟩ := Option.isSome_iff_exists.mp hsaved
  obtain ⟨-, hdisk⟩ := decisions_come_back p hp hnow
  obtain ⟨hstamped, hload, -⟩ := hdisk _ _ _ _ (eq_ok_of_mem hsome)
  exact ⟨hp, hnow, _, hstamped ▸ eq_ok_of_mem hsome, hload⟩

end Disk

end LoadOrder

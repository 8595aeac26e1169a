import LoadOrder.Proofs.Files.Export
import LoadOrder.Proofs.Path

namespace LoadOrder

namespace Disk

def stepComponent (place : Place) : Path.Component → Place
  | .root => []
  | .here => place
  | .up => place.dropLast
  | .named name => place ++ [name]

/-- The places that a path leads through: those that its first components lead to. -/
def OnWay (start : Place) (path : String) (p : Place) : Prop :=
  ∃ first, first ≠ [] ∧ first <+: Path.components path ∧ p = first.foldl stepComponent start

theorem foldl_stepComponent (place : Place) (pieces : List (List Char)) :
    (pieces.filterMap Path.laterComponent).foldl stepComponent place =
      (pieces.map String.ofList).foldl step place := by
  induction pieces generalizing place with
  | nil => rfl
  | cons piece pieces ih =>
    rw [List.map_cons, List.foldl_cons, List.filterMap_cons, ← ih]
    by_cases hnone : piece = [] ∨ piece = ['.']
    · have hstep : step place (String.ofList piece) = place := by
        rcases hnone with rfl | rfl <;> rfl
      rw [hstep, Path.laterComponent, if_pos hnone]
    · by_cases hup : piece = ['.', '.']
      · subst hup
        rfl
      · have hempty : String.ofList piece ≠ "" := by simpa using fun h => hnone (.inl h)
        have hpoint : String.ofList piece ≠ "." := fun h =>
          hnone (.inr (by simpa using congrArg String.toList h))
        have hpoints : String.ofList piece ≠ ".." := fun h =>
          hup (by simpa using congrArg String.toList h)
        rw [Path.laterComponent, if_neg hnone, if_neg hup]
        simp [step, hempty, hpoint, hpoints, stepComponent]

theorem origin_eq (d : Disk) (path : String) :
    d.origin path = (Path.lead path).foldl stepComponent d.current := by
  unfold origin Path.lead
  split
  · rfl
  · split <;> rfl

theorem newPlace_eq_foldl (d : Disk) (path : String) :
    d.newPlace path = (Path.components path).foldl stepComponent d.current := by
  rw [newPlace_eq, Path.components_eq, List.foldl_append, ← origin_eq, Path.later,
    foldl_stepComponent, pieces]

theorem onWay_newPlace {path : String} (d : Disk) (h : path ≠ "") :
    OnWay d.current path (d.newPlace path) :=
  ⟨_, Path.components_ne_nil h, List.prefix_rfl, newPlace_eq_foldl d path⟩

theorem OnWay.of_take {start p : Place} {path : String} {n : Nat}
    (h : OnWay start (Path.ofComponents ((Path.components path).take n)) p) :
    OnWay start path p := by
  obtain ⟨first, hne, hfirst, hp⟩ := h
  rw [Path.components_ofComponents_take] at hfirst
  exact ⟨first, hne, hfirst.trans (List.take_prefix n _), hp⟩

/-- Components lead down, and up only as far as they have led down before, from `depth` steps below
a place. -/
def leadsDown : (depth : Nat) → List Path.Component → Bool
  | _, [] => true
  | _, .root :: _ => false
  | depth, .here :: rest => leadsDown depth rest
  | 0, .up :: _ => false
  | depth + 1, .up :: rest => leadsDown depth rest
  | depth, .named _ :: rest => leadsDown (depth + 1) rest

theorem prefix_foldl_stepComponent {base place : Place} {depth : Nat}
    {components : List Path.Component} (hdown : leadsDown depth components) (hbase : base <+: place)
    (hdepth : base.length + depth ≤ place.length) {first : List Path.Component}
    (hfirst : first <+: components) : base <+: first.foldl stepComponent place := by
  induction components generalizing place depth first with
  | nil =>
    rw [List.prefix_nil.mp hfirst]
    exact hbase
  | cons c components ih =>
    cases first with
    | nil => exact hbase
    | cons c' first =>
      obtain ⟨rfl, hrest⟩ := List.cons_prefix_cons.mp hfirst
      rw [List.foldl_cons]
      cases c' with
      | root => cases hdown
      | here => exact ih hdown hbase hdepth hrest
      | up =>
        cases depth with
        | zero => cases hdown
        | succ depth =>
          have hlength : base.length ≤ place.dropLast.length := by
            rw [List.length_dropLast]
            omega
          have hshorter : base <+: place.dropLast :=
            List.prefix_of_prefix_length_le hbase (List.dropLast_prefix place) hlength
          refine ih hdown hshorter ?_ hrest
          rw [List.length_dropLast]
          omega
      | named name =>
        refine ih hdown (hbase.trans (List.prefix_append place [name])) ?_ hrest
        rw [List.length_append, List.length_singleton]
        omega

theorem exists_components_join {path : String} (base : String)
    (h : leadsDown 0 (Path.components path)) :
    ∃ more, Path.components (Path.join base path) = Path.components base ++ more ∧
      leadsDown 0 more := by
  have habsolute : Path.isAbsolute path = false := by
    rw [Bool.eq_false_iff]
    intro habsolute
    rw [Path.components_eq, Path.lead, if_pos habsolute] at h
    cases h
  by_cases hbase : base = ""
  · refine ⟨Path.components path, ?_, h⟩
    rw [Path.join, habsolute, if_neg Bool.false_ne_true, if_pos (.inl hbase), hbase,
      String.empty_append]
    rfl
  · refine ⟨Path.later path, Path.components_join hbase habsolute, ?_⟩
    rw [Path.components_eq] at h
    rcases Path.lead_cases path with hlead | hlead | hlead <;> rw [hlead] at h
    · exact h
    · cases h
    · exact h

/-- A way that leads down from a folder goes the way of the folder, and stays below it. -/
theorem OnWay.of_join {d : Disk} {base path : String} {p : Place}
    (hdown : leadsDown 0 (Path.components path)) (h : OnWay d.current (Path.join base path) p) :
    d.newPlace base <+: p ∨ OnWay d.current base p := by
  obtain ⟨more, hjoin, hmore⟩ := exists_components_join base hdown
  obtain ⟨first, hne, hfirst, rfl⟩ := h
  rw [hjoin] at hfirst
  rcases List.prefix_or_prefix_of_prefix hfirst (List.prefix_append _ more) with
    hway | ⟨beyond, rfl⟩
  · exact .inr ⟨first, hne, hway, rfl⟩
  · rw [List.prefix_append_right_inj] at hfirst
    rw [List.foldl_append, ← newPlace_eq_foldl]
    exact .inl (prefix_foldl_stepComponent hmore List.prefix_rfl (Nat.le_refl _) hfirst)

/-- Nothing has changed but at some places, and nothing is gone: folders are folders still, and
files are files. -/
structure ChangesOnly (S : Place → Prop) (d d' : Disk) : Prop where
  current_eq : d'.current = d.current
  changed : ∀ p, d'.entry? p ≠ d.entry? p → S p
  folders : ∀ p, d.entry? p = some .folder → d'.entry? p = some .folder
  files : ∀ p content, d.entry? p = some (.file content) →
    ∃ content, d'.entry? p = some (.file content)

variable {S T : Place → Prop} {d d' : Disk} {path : String} {start : Place}

theorem changesOnly_refl (S : Place → Prop) (d : Disk) : ChangesOnly S d d :=
  ⟨rfl, fun _ h => absurd rfl h, fun _ h => h, fun _ content h => ⟨content, h⟩⟩

theorem ChangesOnly.trans {d'' : Disk} (h : ChangesOnly S d d') (h' : ChangesOnly S d' d'') :
    ChangesOnly S d d'' where
  current_eq := h'.current_eq.trans h.current_eq
  changed p hp := by
    by_cases hfirst : d'.entry? p = d.entry? p
    · exact h'.changed p (hfirst ▸ hp)
    · exact h.changed p hfirst
  folders p hp := h'.folders p (h.folders p hp)
  files p content hp := by
    obtain ⟨between, hbetween⟩ := h.files p content hp
    exact h'.files p between hbetween

theorem ChangesOnly.mono (hST : ∀ p, S p → T p) (h : ChangesOnly S d d') : ChangesOnly T d d' :=
  { h with changed := fun p hp => hST p (h.changed p hp) }

theorem ChangesOnly.ne_none (h : ChangesOnly S d d') {p : Place} (hp : d.entry? p ≠ none) :
    d'.entry? p ≠ none := by
  cases hentry : d.entry? p with
  | none => exact absurd hentry hp
  | some entry =>
    cases entry with
    | folder => simp [h.folders p hentry]
    | file content =>
      obtain ⟨content', hcontent⟩ := h.files p content hentry
      simp [hcontent]

theorem changesOnly_put {place : Place} {entry : DiskEntry}
    (h : ∀ old, d.entry? place = some old →
      (∃ content, old = .file content) ∧ ∃ content, entry = .file content) :
    ChangesOnly (· = place) d (d.put place entry) := by
  have hentry (p : Place) : entry? (d.put place entry) p = d.entry? p ∨
      p = place ∧ entry? (d.put place entry) p = some entry := by
    rw [entry?_put]
    by_cases hp : p ≠ [] ∧ p = place
    · exact .inr ⟨hp.2, if_pos hp⟩
    · exact .inl (if_neg hp)
  refine ⟨rfl, fun p hp => ?_, fun p hp => ?_, fun p content hp => ?_⟩
  · rcases hentry p with hsame | ⟨hplace, -⟩
    · exact absurd hsame hp
    · exact hplace
  · rcases hentry p with hsame | ⟨rfl, -⟩
    · rwa [hsame]
    · obtain ⟨⟨content, hfile⟩, -⟩ := h _ hp
      cases hfile
  · rcases hentry p with hsame | ⟨rfl, hput⟩
    · exact ⟨content, hsame.trans hp⟩
    · obtain ⟨-, content', rfl⟩ := h _ hp
      exact ⟨content', hput⟩

theorem path_ne_empty_of_locateNew {place : Place} (h : d.locateNew path = .ok place) :
    path ≠ "" := by
  rintro rfl
  cases h

theorem path_ne_empty_of_locateFile {place : Place} (h : d.locateFile path = .ok place) :
    path ≠ "" := by
  rintro rfl
  cases h

theorem changesOnly_of_createFolder (h : d.createFolder path = .ok d') :
    ChangesOnly (OnWay d.current path) d d' := by
  obtain ⟨place, hplace, h⟩ := exists_of_bind_eq_ok h
  split at h
  · cases h
  · next hfree =>
    cases h
    have hput : ChangesOnly (· = place) d (d.put place .folder) :=
      changesOnly_put fun old hold => by rw [hfree] at hold; cases hold
    refine hput.mono fun p hp => ?_
    rw [hp, locateNew_eq_ok hplace]
    exact onWay_newPlace d (path_ne_empty_of_locateNew hplace)

theorem changesOnly_createFolders (d : Disk) (path : String) :
    ChangesOnly (OnWay d.current path) d (d.createFolders path).1 := by
  -- where the paths lead depends on the folder they start in, which stays the same
  refine rel_createLineage (R := fun d₁ d₂ => d₁.current = d.current →
    ChangesOnly (OnWay d.current path) d₁ d₂) (fun d₁ _ => changesOnly_refl _ d₁)
    (fun h h' hstart => (h hstart).trans (h' ((h hstart).current_eq.trans hstart)))
    (fun ancestor hancestor d₁ d₂ hmade hstart => ?_) d rfl
  refine (changesOnly_of_createFolder hmade).mono fun p hp => ?_
  rw [hstart] at hp
  unfold lineage at hancestor
  rcases List.mem_cons.mp hancestor with rfl | hancestor
  · exact hp
  · obtain ⟨n, -, rfl⟩ := List.mem_map.mp hancestor
    exact hp.of_take

theorem changesOnly_of_locateFile {place : Place} (h : d.locateFile path = .ok place)
    (content : Content) : ChangesOnly (OnWay d.current path) d (d.put place (.file content)) := by
  obtain ⟨hplace, hfolder⟩ := locateFile_eq_ok h
  have hput : ChangesOnly (· = place) d (d.put place (.file content)) :=
    changesOnly_put fun old hold => by
      cases old with
      | folder => exact absurd hold hfolder
      | file before => exact ⟨⟨before, rfl⟩, content, rfl⟩
  refine hput.mono fun p hp => ?_
  rw [hp, hplace]
  exact onWay_newPlace d (path_ne_empty_of_locateFile h)

theorem changesOnly_of_write {content : Content} (h : d.write path content = .ok d') :
    ChangesOnly (OnWay d.current path) d d' := by
  obtain ⟨place, hplace, h⟩ := exists_of_bind_eq_ok h
  cases h
  exact changesOnly_of_locateFile hplace _

theorem changesOnly_of_copy {source : String} (h : d.copy source path = .ok d') :
    ChangesOnly (OnWay d.current path) d d' := by
  obtain ⟨⟨found, entry⟩, -, h⟩ := exists_of_bind_eq_ok h
  cases entry with
  | folder => cases h
  | file content =>
    obtain ⟨place, hplace, h⟩ := exists_of_bind_eq_ok h
    cases h
    exact changesOnly_of_locateFile hplace _

/-- An act changes nothing but at some places, whether it succeeds or fails. -/
def Confined {ε α : Type} (start : Place) (S : Place → Prop) (x : ExceptT ε (StateM Disk) α) :
    Prop :=
  ∀ d, d.current = start → ChangesOnly S d (acts.attempt x d).2

section Confined

variable {ε ε' α β : Type} {x : ExceptT ε (StateM Disk) α} {f : α → ExceptT ε (StateM Disk) β}

theorem confined_pure (a : α) : Confined start S (pure a : ExceptT ε (StateM Disk) α) :=
  fun d _ => changesOnly_refl S d

theorem Confined.bind (hx : Confined start S x)
    (hf : ∀ d a d', acts.attempt x d = (.ok a, d') → Confined start S (f a)) :
    Confined start S (x >>= f) := by
  intro d hd
  have hfirst := hx d hd
  rw [acts.attempt_bind]
  rcases hrun : acts.attempt x d with ⟨e | a, d'⟩
  · rw [hrun] at hfirst
    exact hfirst
  · rw [hrun] at hfirst
    exact hfirst.trans (hf d a d' hrun d' (hfirst.current_eq.trans hd))

theorem Confined.mono (hST : ∀ p, S p → T p) (hx : Confined start S x) : Confined start T x :=
  fun d hd => (hx d hd).mono hST

theorem Confined.adapt (g : ε → ε') (hx : Confined start S x) :
    Confined start S (ExceptT.adapt g x) := by
  intro d hd
  rw [acts.attempt_adapt]
  exact hx d hd

theorem confined_change {g : Disk → Except FileError Disk}
    (h : ∀ d d', d.current = start → g d = .ok d' → ChangesOnly S d d') :
    Confined start S (change g) := by
  intro d hd
  cases hg : g d with
  | error e =>
    have hrun : acts.attempt (change g) d = (.error e, d) := by
      have hconst : acts.attempt (change g) d = acts.attempt (change fun _ => g d) d := rfl
      rw [hconst, hg]
      rfl
    rw [hrun]
    exact changesOnly_refl S d
  | ok d' =>
    rw [attempt_change_eq_ok.mpr hg]
    exact h d d' hd hg

theorem confined_changeAlways {g : Disk → Disk × Except FileError Unit}
    (h : ∀ d, d.current = start → ChangesOnly S d (g d).1) :
    Confined start S (changeAlways g) := by
  intro d hd
  rw [attempt_changeAlways]
  exact h d hd

end Confined

theorem confined_ensureParent (start : Place) (path : String) :
    Confined start (OnWay start path) (system.ensureParent path) := by
  unfold FileSystem.ensureParent
  split
  · next parent hparent =>
    refine Confined.adapt _ (confined_changeAlways fun d hd => ?_)
    refine (changesOnly_createFolders d parent).mono fun p hp => ?_
    rw [hd] at hp
    unfold Path.parent? at hparent
    split at hparent
    · cases hparent
    · cases hparent
    · next before _ hreverse =>
      cases hparent
      have hbefore : before.reverse = (Path.components path).take before.length := by
        rw [← List.reverse_reverse (Path.components path), hreverse, List.reverse_cons,
          ← List.length_reverse, List.take_left]
      rw [hbefore] at hp
      exact hp.of_take
  · exact confined_pure ()

theorem confined_writeTo (start : Place) (path text : String) :
    Confined start (OnWay start path) (system.writeTo path text) :=
  (confined_ensureParent start path).bind fun _ _ _ _ =>
    Confined.adapt _ (confined_change fun _ _ hd h => hd ▸ changesOnly_of_write h)

theorem confined_copyTo (start : Place) (source path : String) :
    Confined start (OnWay start path) (system.copyTo source path) :=
  (confined_ensureParent start path).bind fun _ _ _ _ =>
    Confined.adapt _ (confined_change fun _ _ hd h => hd ▸ changesOnly_of_copy h)

end Disk

def Texts.paths (texts : Texts) : List String := texts.map (·.1)

theorem Texts.paths_add (path text : String) (texts : Texts) :
    (∀ p ∈ (texts.add path text).paths, p = path ∨ p ∈ texts.paths) ∧
      (∀ p ∈ texts.paths, p ∈ (texts.add path text).paths) ∧
      ∃ p ∈ (texts.add path text).paths, Path.components p = Path.components path := by
  fun_induction Texts.add path text texts with
  | case1 => simp [paths]
  | case2 p t rest hlt =>
    exact ⟨fun r hr => List.mem_cons.mp hr, fun r hr => List.mem_cons_of_mem _ hr, path,
      List.mem_cons_self, rfl⟩
  | case3 p t rest heq =>
    exact ⟨fun r hr => .inr hr, fun r hr => hr, p, List.mem_cons_self,
      (Std.LawfulEqOrd.eq_of_compare heq).symm⟩
  | case4 p t rest hgt ih =>
    obtain ⟨honly, hkept, q, hq, hcomponents⟩ := ih
    refine ⟨fun r hr => ?_, fun r hr => ?_, q, List.mem_cons_of_mem _ hq, hcomponents⟩
    · rcases List.mem_cons.mp hr with rfl | hr
      · exact .inr List.mem_cons_self
      · exact (honly r hr).imp id (List.mem_cons_of_mem _)
    · rcases List.mem_cons.mp hr with rfl | hr
      · exact List.mem_cons_self
      · exact List.mem_cons_of_mem _ (hkept r hr)

namespace Disk

variable {d d' : Disk} {path : String} {start : Place} {S : Place → Prop}

theorem paths_of_collect {texts texts' : Texts} {definitions : List Definition}
    (h : acts.attempt (system.collect path texts definitions) d = (.ok texts', d')) :
    ∀ p ∈ texts'.paths, p ∈ texts.paths ∨
      ∃ definition ∈ definitions, p = FileSystem.exportPath path definition.file := by
  induction definitions generalizing texts d with
  | nil =>
    obtain ⟨hok, -⟩ := Prod.mk.inj h
    cases hok
    exact fun p hp => .inl hp
  | cons definition definitions ih =>
    have hlater {p : String} (hp : ∃ later ∈ definitions,
        p = FileSystem.exportPath path later.file) :
        ∃ later ∈ definition :: definitions, p = FileSystem.exportPath path later.file := by
      obtain ⟨later, hmem, hp⟩ := hp
      exact ⟨later, List.mem_cons_of_mem _ hmem, hp⟩
    unfold FileSystem.collect at h
    dsimp only at h
    split at h
    · obtain ⟨⟨⟩, between, -, hrest⟩ := acts.attempt_bind_eq_ok.mp h
      exact fun p hp => (ih hrest p hp).imp id hlater
    · intro p hp
      rcases ih h p hp with hp | hp
      · rcases (Texts.paths_add _ _ _).1 p hp with hp | hp
        · exact .inr ⟨definition, List.mem_cons_self, hp⟩
        · exact .inl hp
      · exact .inr (hlater hp)

theorem confined_collect {definitions : List Definition} (texts : Texts)
    (h : ∀ definition ∈ definitions, ∀ p,
      OnWay start (FileSystem.exportPath path definition.file) p → S p) :
    Confined start S (system.collect path texts definitions) := by
  induction definitions generalizing texts with
  | nil => exact confined_pure texts
  | cons definition definitions ih =>
    obtain ⟨hfirst, hrest⟩ := List.forall_mem_cons.mp h
    unfold FileSystem.collect
    dsimp only
    split
    · exact ((confined_copyTo start _ _).mono hfirst).bind fun _ _ _ _ => ih texts hrest
    · exact ih _ hrest

theorem confined_writeAll {texts : Texts}
    (h : ∀ path ∈ texts.paths, ∀ p, OnWay start path p → S p) :
    Confined start S (texts.forM fun (target, text) => system.writeTo target text) := by
  induction texts with
  | nil => exact confined_pure ()
  | cons text texts ih =>
    obtain ⟨hfirst, hrest⟩ := List.forall_mem_cons.mp h
    exact ((confined_writeTo start text.1 text.2).mono hfirst).bind fun _ _ _ _ => ih hrest

theorem confined_exportDefinitions (start : Place) (path : String) (definitions : List Definition) :
    Confined start
      (fun p => ∃ definition ∈ definitions,
        OnWay start (FileSystem.exportPath path definition.file) p)
      (system.exportDefinitions path definitions) := by
  have hcollect := confined_collect (S := fun p => ∃ definition ∈ definitions,
      OnWay start (FileSystem.exportPath path definition.file) p) []
    fun definition hmem p hp => ⟨definition, hmem, hp⟩
  refine hcollect.bind fun d texts d' hrun => confined_writeAll fun target htarget p hp => ?_
  rcases paths_of_collect hrun target htarget with hnil | ⟨definition, hmem, rfl⟩
  · cases hnil
  · exact ⟨definition, hmem, hp⟩

/-- A path leads to a file, and everything on the way is there. -/
def Reached (d : Disk) (path : String) : Prop :=
  (∃ content, d.entry? (d.newPlace path) = some (.file content)) ∧
    ∀ p, OnWay d.current path p → d.entry? p ≠ none

theorem ChangesOnly.reached (h : ChangesOnly S d d') (hreached : d.Reached path) :
    d'.Reached path := by
  obtain ⟨⟨content, hcontent⟩, hway⟩ := hreached
  refine ⟨?_, fun p hp => ?_⟩
  · rw [newPlace_congr h.current_eq]
    exact h.files _ content hcontent
  · rw [h.current_eq] at hp
    exact h.ne_none (hway p hp)

theorem reached_congr {other : String} (h : Path.components path = Path.components other)
    (hreached : d.Reached path) : d.Reached other := by
  unfold Reached OnWay at hreached ⊢
  rwa [newPlace_eq_foldl, ← h, ← newPlace_eq_foldl]

theorem exists_take_filterMap {α β : Type} {f : α → Option β} {l : List α} {first : List β}
    (h : first <+: l.filterMap f) : ∃ n, first = (l.take n).filterMap f := by
  induction l generalizing first with
  | nil => exact ⟨0, List.prefix_nil.mp h⟩
  | cons a l ih =>
    rw [List.filterMap_cons] at h
    split at h
    · next hnone =>
      obtain ⟨n, hn⟩ := ih h
      exact ⟨n + 1, by rw [List.take_succ_cons, List.filterMap_cons, hnone, hn]⟩
    · next b hsome =>
      cases first with
      | nil => exact ⟨0, rfl⟩
      | cons b' first =>
        obtain ⟨rfl, hrest⟩ := List.cons_prefix_cons.mp h
        obtain ⟨n, hn⟩ := ih hrest
        exact ⟨n + 1, by rw [List.take_succ_cons, List.filterMap_cons, hsome, hn]⟩

theorem OnWay.exists_take {p : Place} (h : OnWay d.current path p) :
    ∃ n, p = ((pieces path).take n).foldl step (d.origin path) := by
  obtain ⟨first, hne, hfirst, rfl⟩ := h
  rw [Path.components_eq] at hfirst
  have hlater : ∃ more, first = Path.lead path ++ more ∧ more <+: Path.later path := by
    rcases List.prefix_or_prefix_of_prefix hfirst (List.prefix_append _ (Path.later path)) with
      hlead | ⟨more, rfl⟩
    · refine ⟨[], ?_, List.nil_prefix⟩
      rw [List.append_nil]
      -- the beginning of a path is one component at most
      apply hlead.eq_of_length_le
      have hpos := List.length_pos_iff.mpr hne
      rcases Path.lead_cases path with h | h | h <;> rw [h] <;> simp <;> omega
    · exact ⟨more, rfl, (List.prefix_append_right_inj _).mp hfirst⟩
  obtain ⟨more, rfl, hmore⟩ := hlater
  obtain ⟨n, rfl⟩ := exists_take_filterMap hmore
  refine ⟨n, ?_⟩
  rw [List.foldl_append, ← origin_eq, foldl_stepComponent, pieces, List.map_take]

theorem way_of_locateFile {place p : Place} (h : d.locateFile path = .ok place)
    (hp : OnWay d.current path p) : p = place ∨ d.entry? p = some .folder := by
  obtain ⟨-, hfollow⟩ := locate_eq_ok.mp (locate_of_locateFile h)
  obtain ⟨n, hn⟩ := hp.exists_take
  rw [← List.take_append_drop n (pieces path), follow_append] at hfollow
  obtain ⟨between, hbetween, hrest⟩ := exists_of_bind_eq_ok hfollow
  have hsame : between = p := by rw [hn, follow_eq_ok hbetween]
  subst hsame
  cases hdrop : (pieces path).drop n with
  | nil =>
    rw [hdrop] at hrest
    cases hrest
    exact .inl rfl
  | cons piece rest =>
    rw [hdrop, follow] at hrest
    split at hrest
    · cases hrest
    · cases hrest
    · next hfolder => exact .inr hfolder

theorem reached_put {place : Place} (h : d.locateFile path = .ok place) (content : Content) :
    Reached (d.put place (.file content)) path := by
  have hchanges := changesOnly_of_locateFile h content
  obtain ⟨hplace, hfolder⟩ := locateFile_eq_ok h
  have hfile := entry?_put_self hfolder (.file content)
  refine ⟨⟨content, ?_⟩, fun p hp => ?_⟩
  · rw [newPlace_congr hchanges.current_eq, ← hplace, hfile]
  · rcases way_of_locateFile h hp with rfl | hp
    · simp [hfile]
    · exact hchanges.ne_none (by simp [hp])

theorem reached_of_writeTo {text : String}
    (h : acts.attempt (system.writeTo path text) d = (.ok (), d')) : d'.Reached path := by
  obtain ⟨⟨⟩, made, -, hwrite⟩ := acts.attempt_bind_eq_ok.mp h
  have hchange := attempt_change_eq_ok.mp (acts.attempt_adapt_eq_ok.mp hwrite)
  obtain ⟨place, hplace, hput⟩ := exists_of_bind_eq_ok hchange
  cases hput
  exact reached_put hplace _

theorem reached_of_copyTo {source : String}
    (h : acts.attempt (system.copyTo source path) d = (.ok (), d')) : d'.Reached path := by
  obtain ⟨⟨⟩, made, -, hcopy⟩ := acts.attempt_bind_eq_ok.mp h
  have hchange := attempt_change_eq_ok.mp (acts.attempt_adapt_eq_ok.mp hcopy)
  obtain ⟨⟨found, entry⟩, -, hput⟩ := exists_of_bind_eq_ok hchange
  cases entry with
  | folder => cases hput
  | file content =>
    obtain ⟨place, hplace, hput⟩ := exists_of_bind_eq_ok hput
    cases hput
    exact reached_put hplace _

/-- Whatever an act changes, it leaves the ways of paths that are there. -/
theorem Confined.reached {ε α : Type} {x : ExceptT ε (StateM Disk) α} {result : Except ε α}
    (hx : Confined d.current S x) (h : acts.attempt x d = (result, d'))
    (hreached : d.Reached path) : d'.Reached path := by
  have hchanges := hx d rfl
  rw [h] at hchanges
  exact hchanges.reached hreached

theorem reached_of_collect {texts texts' : Texts} {definitions : List Definition}
    (h : acts.attempt (system.collect path texts definitions) d = (.ok texts', d')) :
    (∀ p ∈ texts.paths, p ∈ texts'.paths) ∧ ∀ definition ∈ definitions,
      d'.Reached (FileSystem.exportPath path definition.file) ∨ ∃ p ∈ texts'.paths,
        Path.components p = Path.components (FileSystem.exportPath path definition.file) := by
  induction definitions generalizing texts d with
  | nil =>
    obtain ⟨hok, -⟩ := Prod.mk.inj h
    cases hok
    exact ⟨fun p hp => hp, fun _ hmem => absurd hmem List.not_mem_nil⟩
  | cons definition definitions ih =>
    unfold FileSystem.collect at h
    dsimp only at h
    split at h
    · obtain ⟨⟨⟩, between, hcopy, hrest⟩ := acts.attempt_bind_eq_ok.mp h
      obtain ⟨hkept, hlater⟩ := ih hrest
      have hreached := (confined_collect texts fun _ _ _ hp => ⟨_, hp⟩ : Confined between.current
        (fun p => ∃ path, OnWay between.current path p) _).reached hrest (reached_of_copyTo hcopy)
      exact ⟨hkept, List.forall_mem_cons.mpr ⟨.inl hreached, hlater⟩⟩
    · obtain ⟨hkept, hlater⟩ := ih h
      obtain ⟨-, hadded, p, hp, hcomponents⟩ := Texts.paths_add
        (Path.join path (Text.forwardSlashes definition.file)) definition.code texts
      exact ⟨fun q hq => hkept q (hadded q hq),
        List.forall_mem_cons.mpr ⟨.inr ⟨p, hkept p hp, hcomponents⟩, hlater⟩⟩

theorem reached_of_writeAll {texts : Texts} (h : acts.attempt
      (texts.forM fun (target, text) => system.writeTo target text) d = (.ok (), d')) :
    (∀ p, d.Reached p → d'.Reached p) ∧ ∀ p ∈ texts.paths, d'.Reached p := by
  have hkept {texts : Texts} {d : Disk} (h : acts.attempt
      (texts.forM fun (target, text) => system.writeTo target text) d = (.ok (), d')) (p : String)
      (hp : d.Reached p) : d'.Reached p :=
    (confined_writeAll fun _ _ _ hp => ⟨_, hp⟩ : Confined d.current
      (fun p => ∃ path, OnWay d.current path p) _).reached h hp
  refine ⟨hkept h, ?_⟩
  induction texts generalizing d with
  | nil => exact fun p hp => absurd hp List.not_mem_nil
  | cons text texts ih =>
    obtain ⟨⟨⟩, between, hwrite, hrest⟩ := acts.attempt_bind_eq_ok.mp h
    exact List.forall_mem_cons.mpr
      ⟨hkept hrest text.1 (reached_of_writeTo hwrite), ih hrest⟩

theorem reached_of_exportDefinitions {definitions : List Definition}
    (h : acts.attempt (system.exportDefinitions path definitions) d = (.ok (), d')) :
    ∀ definition ∈ definitions, d'.Reached (FileSystem.exportPath path definition.file) := by
  obtain ⟨texts, between, hcollect, hwrite⟩ := acts.attempt_bind_eq_ok.mp h
  obtain ⟨hkept, hwritten⟩ := reached_of_writeAll hwrite
  intro definition hmem
  rcases (reached_of_collect hcollect).2 definition hmem with hreached | ⟨p, hp, hcomponents⟩
  · exact hkept _ hreached
  · exact reached_congr hcomponents (hwritten p hp)

/-- An export changes nothing but places on the ways of its definitions, and nothing that is there
goes away. If all files lead down from the folder of the export, what changes is in this folder or
on the way to it. After an export that succeeds every way is there with a file at its end: nothing
was made outside exactly if all that was missing on the ways is inside. -/
theorem exportDefinitions_stays (d : Disk) (path : String) (definitions : List Definition) :
    let run := acts.attempt (system.exportDefinitions path definitions) d
    let way := fun definition : Definition =>
      OnWay d.current (FileSystem.exportPath path definition.file)
    let inside := fun p => d.newPlace path <+: p ∨ OnWay d.current path p
    ChangesOnly (fun p => ∃ definition ∈ definitions, way definition p) d run.2 ∧
      ((∀ definition ∈ definitions,
          leadsDown 0 (Path.components (Text.forwardSlashes definition.file))) →
        ChangesOnly inside d run.2) ∧
      (run.1 = .ok () →
        (∀ definition ∈ definitions,
          run.2.Reached (FileSystem.exportPath path definition.file)) ∧
        ((∀ p, d.entry? p = none → entry? run.2 p ≠ none → inside p) ↔
          ∀ definition ∈ definitions, ∀ p, way definition p → d.entry? p = none → inside p)) := by
  intro run way inside
  have hchanges : ChangesOnly (fun p => ∃ definition ∈ definitions, way definition p) d run.2 :=
    confined_exportDefinitions d.current path definitions d rfl
  refine ⟨hchanges, fun hdown => hchanges.mono ?_, fun hok => ?_⟩
  · rintro p ⟨definition, hmem, hp⟩
    exact hp.of_join (hdown definition hmem)
  · have hreached := reached_of_exportDefinitions (Prod.ext hok rfl : run = (.ok (), run.2))
    refine ⟨hreached, fun hinside definition hmem p hp hfree => ?_, fun hinside p hfree hmade => ?_⟩
    · have hway := (hreached definition hmem).2 p
      rw [hchanges.current_eq] at hway
      exact hinside p hfree (hway hp)
    · obtain ⟨definition, hmem, hp⟩ := hchanges.changed p fun h => hmade (h.trans hfree)
      exact hinside definition hmem p hp hfree

def besideFile : Disk where
  current := []
  entries := [(["out"], .folder), (["other.txt"], .file (.text "old"))]

def definedIn (file : String) : Definition :=
  { Definition.blank with
    id := "x"
    type := "t"
    file := file
    modName := "m"
    code := "x = 1"
    originalCode := "x = 1" }

theorem exportDefinitions_stays_twoFiles :
    let definitions := [definedIn "t\\00.txt", definedIn "./t/../u/01.txt"]
    let run := acts.attempt (system.exportDefinitions "out" definitions) besideFile
    (∀ definition ∈ definitions,
        leadsDown 0 (Path.components (Text.forwardSlashes definition.file))) ∧
      run.1 = .ok () ∧
      ChangesOnly (fun p => besideFile.newPlace "out" <+: p ∨ OnWay [] "out" p) besideFile run.2 ∧
      Reached run.2 "out/./t/../u/01.txt" := by
  intro definitions
  have hdown : ∀ definition ∈ definitions,
      leadsDown 0 (Path.components (Text.forwardSlashes definition.file)) := by
    decide +kernel
  have hpath : FileSystem.exportPath "out" (definedIn "./t/../u/01.txt").file =
      "out/./t/../u/01.txt" := by
    decide +kernel
  have hok : (acts.attempt (system.exportDefinitions "out" definitions) besideFile).1.toOption =
      some () := by
    decide +kernel
  have hstays := exportDefinitions_stays besideFile "out" definitions
  generalize acts.attempt (system.exportDefinitions "out" definitions) besideFile = run at *
  obtain ⟨-, hinside, hreached⟩ := hstays
  obtain ⟨hway, -⟩ := hreached (eq_ok_of_toOption hok)
  exact ⟨hdown, eq_ok_of_toOption hok, hinside hdown, hpath ▸ hway _ (by simp [definitions])⟩

/-- A file that is above the folder of the export is replaced. -/
theorem exportDefinitions_climbing_leaves :
    let left := (acts.attempt (system.exportDefinitions "out" [definedIn "../other.txt"])
      besideFile).2
    ¬∀ p, left.entry? p ≠ besideFile.entry? p →
      besideFile.newPlace "out" <+: p ∨ OnWay besideFile.current "out" p := by
  intro left hinside
  have hchanged : left.entry? ["other.txt"] ≠ besideFile.entry? ["other.txt"] := by
    decide +kernel
  have hfolder : besideFile.newPlace "out" = ["out"] := by
    decide +kernel
  have hcomponents : Path.components "out" = [.named "out"] := by
    decide +kernel
  rcases hinside _ hchanged with hbelow | ⟨first, hne, hfirst, hp⟩
  · rw [hfolder] at hbelow
    exact absurd hbelow (by decide)
  · rw [hcomponents] at hfirst
    obtain ⟨c, rest, rfl⟩ := List.exists_cons_of_ne_nil hne
    obtain ⟨rfl, hrest⟩ := List.cons_prefix_cons.mp hfirst
    rw [List.prefix_nil.mp hrest] at hp
    exact absurd hp (by decide)

end Disk

end LoadOrder

import LoadOrder.Proofs.Merge.Copies

/-!
What a merge asks its collaborators for. Every request is written down, and whether it failed. A
merge definition by definition makes the requests of one list, in order, until one of them fails.
-/

namespace LoadOrder

/-- What a collaborator is asked for. -/
inductive Request
  | listing (game : Game)
  | installed (game : Game)
  | storeListing (game : Game) (mods : List Mod)
  | purge (root path : String)
  | createFolder (root path : String)
  | writeDescriptor (root path : String) (descriptor : Mod)
  | dropListing (game : Game)
  | patchState (root patch : String)
  | listFiles (path : String)
  | exportDefinitions (path : String) (definitions : List Definition) (game : String)
  | exportFile (root file path : String)
  | publish (event : Event)

def Request.canFail : Request → Bool
  | .listing _ => false
  | .storeListing _ _ => false
  | .dropListing _ => false
  | .publish _ => false
  | _ => true

/-- A request that has been made, and its failure. -/
structure Note where
  request : Request
  failure : Option Error

def Note.done (request : Request) : Note := ⟨request, none⟩

def failureOf {ε α : Type} : Except ε α → Option ε
  | .ok _ => none
  | .error e => some e

abbrev Recording (m : Type → Type) := StateT (List Note) m

section Recorded

variable {m : Type → Type} [Monad m] {α : Type}

def noted (request : Request) (act : ExceptT Error m α) : ExceptT Error (Recording m) α :=
  ExceptT.mk do
    let result ← StateT.lift act.run
    modify (· ++ [⟨request, failureOf result⟩])
    return result

def notedSure (request : Request) (act : m α) : Recording m α := do
  let a ← StateT.lift act
  modify (· ++ [.done request])
  return a

def Collaborators.recorded (c : Collaborators m) : Collaborators (Recording m) where
  installed game := noted (.installed game) (c.installed game)
  purge root path := noted (.purge root path) (c.purge root path)
  createFolder root path := noted (.createFolder root path) (c.createFolder root path)
  writeDescriptor root path descriptor :=
    noted (.writeDescriptor root path descriptor) (c.writeDescriptor root path descriptor)
  patchState root patch := noted (.patchState root patch) (c.patchState root patch)
  listFiles path := noted (.listFiles path) (c.listFiles path)
  exportDefinitions path definitions game :=
    noted (.exportDefinitions path definitions game) (c.exportDefinitions path definitions game)
  exportFile root file path := noted (.exportFile root file path) (c.exportFile root file path)
  publish event := notedSure (.publish event) (c.publish event)
  listing game := notedSure (.listing game) (c.listing game)
  storeListing game mods := notedSure (.storeListing game mods) (c.storeListing game mods)
  dropListing game := notedSure (.dropListing game) (c.dropListing game)

end Recorded

/-- What is written down of requests that are made in order: all of them, or those up to one that
fails. -/
inductive Written {α : Type} : List Request → Except Error α → List Note → Prop
  | all (requests : List Request) (a : α) : Written requests (.ok a) (requests.map .done)
  | failed (before : List Request) (request : Request) (after : List Request) (e : Error)
      (h : request.canFail) :
      Written (before ++ request :: after) (.error e) (before.map .done ++ [⟨request, some e⟩])

section Written

variable {α β : Type} {requests later : List Request} {log more : List Note}
  {result : Except Error α}

theorem Written.append {a : β} (h : Written requests (.ok a) log)
    (h' : Written later result more) : Written (requests ++ later) result (log ++ more) := by
  cases h
  cases h' with
  | all later b =>
    rw [← List.map_append]
    exact .all _ b
  | failed before request after e hfail =>
    rw [← List.append_assoc, ← List.append_assoc, ← List.map_append]
    exact .failed _ request after e hfail

theorem Written.stop {e : Error} (h : Written requests (.error e : Except Error β) log)
    (later : List Request) :
    Written (requests ++ later) (.error e : Except Error α) log := by
  cases h with
  | failed before request after e hfail =>
    rw [List.append_assoc, List.cons_append]
    exact .failed before request _ e hfail

theorem map_request_done (requests : List Request) :
    (requests.map Note.done).map Note.request = requests := by
  simp [Note.done, Function.comp_def]

theorem Written.requests_prefix (h : Written requests result log) :
    log.map Note.request <+: requests := by
  cases h with
  | all requests a => rw [map_request_done]
  | failed before request after e hfail =>
    refine ⟨after, ?_⟩
    rw [List.map_append, map_request_done, List.append_assoc]
    rfl

theorem Written.log_eq {a : α} (h : Written requests result log) (ha : result = .ok a) :
    log = requests.map .done := by
  cases h with
  | all requests a => rfl
  | failed before request after e hfail => cases ha

theorem Written.requests_eq {a : α} (h : Written requests result log) (ha : result = .ok a) :
    log.map Note.request = requests := by
  rw [h.log_eq ha, map_request_done]

theorem failure_of_mem_done {note : Note} (h : note ∈ requests.map Note.done) :
    note.failure = none := by
  obtain ⟨request, -, rfl⟩ := List.mem_map.mp h
  rfl

theorem Written.findSome?_failure (h : Written requests result log) :
    log.findSome? Note.failure = failureOf result := by
  have hdone : ∀ requests : List Request,
      (requests.map Note.done).findSome? Note.failure = none := by
    intro requests
    rw [List.findSome?_eq_none_iff]
    exact fun note => failure_of_mem_done
  cases h with
  | all requests a => exact hdone requests
  | failed before request after e hfail =>
    rw [List.findSome?_append, hdone]
    rfl

theorem Written.failure_of_mem_dropLast (h : Written requests result log) :
    ∀ note ∈ log.dropLast, note.failure = none := by
  cases h with
  | all requests a => exact fun note hnote => failure_of_mem_done (List.mem_of_mem_dropLast hnote)
  | failed before request after e hfail =>
    rw [List.dropLast_concat]
    exact fun note => failure_of_mem_done

theorem Written.prefix_of_error {last : Request} {e : Error} (hlast : last.canFail = false)
    (h : Written (requests ++ [last]) (.error e : Except Error α) log) :
    log.map Note.request <+: requests := by
  generalize hall : requests ++ [last] = all at h
  cases h with
  | failed before request after e hfail =>
    rcases List.eq_nil_or_concat after with rfl | ⟨after, later, rfl⟩
    · obtain ⟨-, hlater⟩ := List.append_inj' hall rfl
      cases hlater
      rw [hlast] at hfail
      cases hfail
    · rw [List.concat_eq_append, ← List.cons_append, ← List.append_assoc] at hall
      obtain ⟨rfl, -⟩ := List.append_inj' hall rfl
      refine ⟨after, ?_⟩
      rw [List.map_append, map_request_done, List.append_assoc]
      rfl

theorem done_mem_map {request : Request} : .done request ∈ requests.map Note.done ↔
    request ∈ requests := by
  refine List.mem_map_of_injective fun p q h => ?_
  exact congrArg Note.request h

theorem Written.done_of_mem {request : Request} (h : Written requests result log)
    (hsure : request.canFail = false) (hmem : request ∈ log.map Note.request) :
    .done request ∈ log := by
  cases h with
  | all requests a => exact done_mem_map.mpr (map_request_done requests ▸ hmem)
  | failed before failing after e hfail =>
    rw [List.map_append, map_request_done] at hmem
    rcases List.mem_append.mp hmem with hmem | hmem
    · exact List.mem_append_left _ (done_mem_map.mpr hmem)
    · obtain rfl := List.mem_singleton.mp hmem
      rw [hsure] at hfail
      cases hfail

theorem Written.done_mem_iff {before after : List Request} {p q : Request}
    (h : Written (before ++ p :: q :: after) result log) (hsure : q.canFail = false)
    (hp : p ∉ before) (hq : q ∉ before) : .done q ∈ log ↔ .done p ∈ log := by
  generalize hall : before ++ p :: q :: after = all at h
  cases h with
  | all requests a =>
    rw [done_mem_map, done_mem_map, ← hall]
    simp
  | failed made request left e hfail =>
    have hdone : ∀ r : Request, .done r ∈ made.map Note.done ++ [⟨request, some e⟩] ↔ r ∈ made := by
      intro r
      rw [List.mem_append, done_mem_map, List.mem_singleton]
      exact or_iff_left fun h => nomatch congrArg Note.failure h
    rw [hdone, hdone]
    rcases List.append_eq_append_iff.mp hall with ⟨more, rfl, hrest⟩ | ⟨more, rfl, hrest⟩
    · match more, hrest with
      | [], _ => simp [hp, hq]
      | [_], hrest =>
        cases hrest
        rw [hsure] at hfail
        cases hfail
      | _ :: _ :: more, hrest =>
        cases hrest
        simp
    · have hp' : p ∉ made := fun hmem => hp (List.mem_append_left _ hmem)
      have hq' : q ∉ made := fun hmem => hq (List.mem_append_left _ hmem)
      exact iff_of_false hq' hp'

end Written

section Asked

variable {m : Type → Type} [Monad m] {σ : Type} (E : Execution m σ) {α β : Type}

abbrev recordActs : Execution (Recording m) (List Note × σ) := E.withState _

theorem attempt_noted (request : Request) (act : ExceptT Error m α) (log : List Note) (w : σ) :
    (recordActs E).attempt (noted request act) (log, w) =
      ((E.attempt act w).1, (log ++ [⟨request, failureOf (E.attempt act w).1⟩],
        (E.attempt act w).2)) :=
  E.exec_lift_modify_withState act.run _ log w

theorem exec_notedSure (request : Request) (act : m α) (log : List Note) (w : σ) :
    (recordActs E).exec (notedSure request act) (log, w) =
      ((E.exec act w).1, (log ++ [.done request], (E.exec act w).2)) :=
  E.exec_lift_modify_withState act _ log w

/-- Where `y` is done in `w`, `x` does the same and makes these requests in order, until one of them
fails. -/
def Asks (x : ExceptT Error (Recording m) α) (y : ExceptT Error m α) (w : σ)
    (requests : List Request) : Prop :=
  ∃ more, Written requests (E.attempt y w).1 more ∧ ∀ log,
    (recordActs E).attempt x (log, w) = ((E.attempt y w).1, (log ++ more, (E.attempt y w).2))

theorem asks_pure (a : α) (w : σ) :
    Asks E (pure a : ExceptT Error (Recording m) α) (pure a) w [] := by
  refine ⟨[], ?_, fun log => ?_⟩
  · rw [E.attempt_pure]
    exact .all [] a
  · rw [(recordActs E).attempt_pure, E.attempt_pure, List.append_nil]

theorem asks_noted {request : Request} (hfail : request.canFail) (act : ExceptT Error m α)
    (w : σ) : Asks E (noted request act) act w [request] := by
  refine ⟨_, ?_, fun log => attempt_noted E request act log w⟩
  cases (E.attempt act w).1 with
  | ok a => exact .all [request] a
  | error e => exact .failed [] request [] e hfail

variable {E}

theorem Asks.bind {x : ExceptT Error (Recording m) α} {y : ExceptT Error m α}
    {f : α → ExceptT Error (Recording m) β} {g : α → ExceptT Error m β} {w : σ}
    {requests later : List Request} (h : Asks E x y w requests)
    (hf : ∀ a w', E.attempt y w = (.ok a, w') → Asks E (f a) (g a) w' later) :
    Asks E (x >>= f) (y >>= g) w (requests ++ later) := by
  obtain ⟨more, hwritten, hx⟩ := h
  rcases hy : E.attempt y w with ⟨e | a, w'⟩
  · rw [hy] at hwritten hx
    refine ⟨more, ?_, fun log => ?_⟩
    · rw [E.attempt_bind, hy]
      exact hwritten.stop later
    · rw [(recordActs E).attempt_bind, hx, E.attempt_bind, hy]
  · obtain ⟨rest, hrest, hfx⟩ := hf a w' hy
    rw [hy] at hwritten hx
    refine ⟨more ++ rest, ?_, fun log => ?_⟩
    · rw [E.attempt_bind, hy]
      exact hwritten.append hrest
    · rw [(recordActs E).attempt_bind, hx, E.attempt_bind, hy]
      dsimp only
      rw [hfx, List.append_assoc]

theorem Asks.forM {f : α → ExceptT Error (Recording m) Unit} {g : α → ExceptT Error m Unit}
    {request : α → Request} (h : ∀ a w, Asks E (f a) (g a) w [request a]) (l : List α) (w : σ) :
    Asks E (l.forM f) (l.forM g) w (l.map request) := by
  induction l generalizing w with
  | nil => exact asks_pure E () w
  | cons a l ih => exact (h a w).bind fun _ w' _ => ih w'

theorem Asks.written {x : ExceptT Error (Recording m) α} {y : ExceptT Error m α} {w : σ}
    {requests : List Request} (h : Asks E x y w requests) :
    Written requests ((recordActs E).attempt x ([], w)).1
      ((recordActs E).attempt x ([], w)).2.1 := by
  obtain ⟨more, hwritten, hx⟩ := h
  rw [hx]
  exact hwritten

theorem Asks.eq_of_ok {x : ExceptT Error (Recording m) α} {y : ExceptT Error m α} {a : α}
    {log log' : List Note} {w w' : σ} {requests : List Request} (h : Asks E x y w requests)
    (hx : (recordActs E).attempt x (log, w) = (.ok a, (log', w'))) :
    E.attempt y w = (.ok a, w') ∧ log' = log ++ requests.map .done := by
  obtain ⟨more, hwritten, hrun⟩ := h
  obtain ⟨hok, hstate⟩ := Prod.mk.inj ((hrun log).symm.trans hx)
  obtain ⟨hlog, hleft⟩ := Prod.mk.inj hstate
  exact ⟨Prod.ext hok hleft, by rw [← hlog, hwritten.log_eq hok]⟩

variable [LawfulMonad m]

theorem Asks.mapM {f : α → ExceptT Error (Recording m) β} {g : α → ExceptT Error m β}
    {request : α → Request} (h : ∀ a w, Asks E (f a) (g a) w [request a]) (l : List α) (w : σ) :
    Asks E (l.mapM f) (l.mapM g) w (l.map request) := by
  induction l generalizing w with
  | nil => exact asks_pure E [] w
  | cons a l ih =>
    rw [List.mapM_cons, List.mapM_cons, List.map_cons, ← List.append_nil (l.map request)]
    refine (h a w).bind fun b w' _ => ?_
    exact (ih w').bind fun bs w' _ => asks_pure E (b :: bs) w'

variable (E)

theorem asks_sure {request : Request} (act : m α) (w : σ) :
    Asks E (liftM (notedSure request act)) (liftM act : ExceptT Error m α) w [request] := by
  refine ⟨[.done request], ?_, fun log => ?_⟩
  · rw [E.attempt_lift]
    exact .all [request] _
  · rw [(recordActs E).attempt_lift, E.attempt_lift, exec_notedSure]

end Asked

section Merges

variable {m : Type → Type} [Monad m] {σ : Type} (E : Execution m σ) (c : Collaborators m)

def Collaborators.found (game : Game) (w : σ) : List Mod :=
  (E.attempt (c.installedMods game) w).1.toOption.getD []

def Collaborators.decisions (game : Game) (collection : Collection) (name : String) (w : σ) :
    PatchState :=
  ((E.attempt (c.ready game collection name) w).1.toOption.bind (·.2)).getD .blank

def Collaborators.lookups (game : Game) (w : σ) : List Request :=
  .listing game :: match (E.exec (c.listing game) w).1 with
    | some _ => []
    | none => [.installed game, .storeListing game (c.found E game w)]

def Game.clearing (game : Game) (name : String) : List Request :=
  [.purge game.userDirectory (targetFolder name), .createFolder game.userDirectory modFolder,
    .createFolder game.userDirectory (targetFolder name)]

def Game.announcement (game : Game) (name : String) (installed : List Mod) : Request :=
  let descriptor := (game.target name installed).descriptor
  .writeDescriptor game.userDirectory descriptor.descriptorFile descriptor

def Game.preparation (game : Game) (name : String) (installed : List Mod) : List Request :=
  game.clearing name ++ [game.announcement name installed, .dropListing game]

def Game.stateRequest (game : Game) (collection : Collection) : Request :=
  .patchState game.modsPath (patchName collection.name)

def Action.request (game : Game) (target : Target) : Action → Request
  | .export d => .exportDefinitions target.exportPath [d] game.key
  | .report e => .publish e

/-- What a merge decides by, with the decisions that it finds. -/
def Collaborators.setting (rules : List Rules) (policy : DuplicatePolicy) (game : Game)
    (collection : Collection) (analysis : Analysis) (modOrder : List String) (name : String)
    (w : σ) : Setting :=
  .of analysis (c.decisions E game collection name w) modOrder (Rules.forGame? rules game.key)
    policy

/-- What a merge of some definitions asks for if nothing fails: it looks up what is installed,
prepares its mod, looks up what has been decided, and does its acts. -/
def Collaborators.requests (rules : List Rules) (policy : DuplicatePolicy) (game : Game)
    (collection : Collection) (analysis : Analysis) (modOrder : List String) (name : String)
    (w : σ) : List Request :=
  let installed := c.found E game w
  c.lookups E game w ++ (game.preparation name installed ++ [game.stateRequest collection]) ++
    (c.setting E rules policy game collection analysis modOrder name w).actions.map
      (Action.request game (game.target name installed))

variable {c} {game : Game} {collection : Collection} {name : String}

theorem found_of_ready {target : Target} {state : Option PatchState} {w w' : σ}
    (h : E.attempt (c.ready game collection name) w = (.ok (target, state), w')) :
    target = game.target name (c.found E game w) ∧
      c.decisions E game collection name w = state.getD .blank := by
  constructor
  · obtain ⟨installed, w₁, hinstalled, h⟩ := E.attempt_bind_eq_ok.mp h
    obtain ⟨made, w₂, hmade, h⟩ := E.attempt_bind_eq_ok.mp h
    obtain ⟨stored, w₃, -, h⟩ := E.attempt_bind_eq_ok.mp h
    rw [E.attempt_pure] at h
    cases h
    rw [Collaborators.found, hinstalled]
    exact target_of_prepare hmade
  · rw [Collaborators.decisions, h]
    rfl

variable [LawfulMonad m]

theorem asks_installedMods (w : σ) :
    Asks E (c.recorded.installedMods game) (c.installedMods game) w (c.lookups E game w) := by
  refine (asks_sure E (c.listing game) w).bind fun stored w' hstored => ?_
  rw [E.attempt_lift] at hstored
  obtain ⟨hstored, rfl⟩ := Prod.mk.inj hstored
  cases hstored
  cases hlisting : (E.exec (c.listing game) w).1 with
  | some mods => exact asks_pure E mods _
  | none =>
    refine (asks_noted E rfl (c.installed game) _).bind fun mods w' hmods => ?_
    have hfound : c.found E game w = mods := by
      unfold Collaborators.found Collaborators.installedMods
      rw [E.attempt_bind, E.attempt_lift]
      dsimp only
      rw [hlisting]
      dsimp only
      rw [E.attempt_bind, hmods]
      dsimp only
      rw [E.attempt_bind, E.attempt_lift]
      dsimp only
      rw [E.attempt_pure]
      rfl
    rw [hfound]
    exact (asks_sure E (c.storeListing game mods) w').bind fun _ w' _ => asks_pure E mods w'

theorem asks_prepare (installed : List Mod) (w : σ) :
    Asks E (c.recorded.prepare game name installed) (c.prepare game name installed) w
      (game.preparation name installed) := by
  refine (asks_noted E rfl _ w).bind fun _ w _ => ?_
  refine (asks_noted E rfl _ w).bind fun _ w _ => ?_
  refine (asks_noted E rfl _ w).bind fun _ w _ => ?_
  refine (asks_noted E rfl _ w).bind fun _ w _ => ?_
  exact (asks_sure E (c.dropListing game) w).bind fun _ w _ => asks_pure E _ w

theorem asks_ready (w : σ) :
    Asks E (c.recorded.ready game collection name) (c.ready game collection name) w
      (c.lookups E game w ++ (game.preparation name (c.found E game w) ++
        [game.stateRequest collection])) := by
  refine (asks_installedMods E w).bind fun installed w' hinstalled => ?_
  have hfound : c.found E game w = installed := by
    rw [Collaborators.found, hinstalled]
    rfl
  rw [hfound]
  refine (asks_prepare E installed w').bind fun target w' _ => ?_
  exact (asks_noted E rfl _ w').bind fun state w' _ => asks_pure E (target, state) w'

theorem asks_act (target : Target) (action : Action) (w : σ) :
    Asks E (c.recorded.act game target action) (c.act game target action) w
      [action.request game target] := by
  cases action with
  | «export» d => exact asks_noted E rfl _ w
  | report e => exact asks_sure E (c.publish e) w

theorem asks_mergeDefinitions (c : Collaborators m) (rules : List Rules) (policy : DuplicatePolicy)
    (game : Game) (collection : Collection) {analysis : Analysis}
    (hanalysis : analysis.all.isEmpty = false) (modOrder : List String) (name : String) (w : σ) :
    Asks E
      (c.recorded.mergeDefinitions rules policy (some game) (some collection) analysis modOrder
        name)
      (c.mergeDefinitions rules policy (some game) (some collection) analysis modOrder name) w
      (c.requests E rules policy game collection analysis modOrder name w) := by
  rw [mergeDefinitions_eq hanalysis, mergeDefinitions_eq hanalysis]
  refine (asks_ready E w).bind fun ready w' hready => ?_
  obtain ⟨target, state⟩ := ready
  obtain ⟨rfl, hstate⟩ := found_of_ready E hready
  rw [Collaborators.setting, hstate, ← List.append_nil (List.map _ _)]
  exact (Asks.forM (asks_act E _) _ w').bind fun _ w' _ => asks_pure E _ w'

variable {E} {rules : List Rules} {policy : DuplicatePolicy} {analysis : Analysis}
  {modOrder : List String} {w : σ}

theorem isSome_of_mergeDefinitions (hanalysis : analysis.all.isEmpty = false) {made : Option Mod}
    {w' : σ}
    (h : E.attempt (c.mergeDefinitions rules policy (some game) (some collection) analysis modOrder
      name) w = (.ok made, w')) : made.isSome := by
  rw [mergeDefinitions_eq hanalysis] at h
  obtain ⟨⟨target, state⟩, w₁, -, h⟩ := E.attempt_bind_eq_ok.mp h
  obtain ⟨⟨⟩, w₂, -, h⟩ := E.attempt_bind_eq_ok.mp h
  rw [E.attempt_pure] at h
  cases h
  rfl

variable (E c rules policy analysis modOrder name w)

/-- A merge definition by definition has nothing to do, or it makes its requests. -/
theorem nothing_or_written (game : Option Game) (collection : Option Collection) :
    let run := (recordActs E).attempt
      (c.recorded.mergeDefinitions rules policy game collection analysis modOrder name) ([], w)
    run.1 = .ok none ∧ run.2.1 = [] ∨
      ∃ g ∈ game, ∃ l ∈ collection, run.1 ≠ .ok none ∧
        Written (c.requests E rules policy g l analysis modOrder name w) run.1 run.2.1 := by
  have hnothing : ∀ x : ExceptT Error (Recording m) (Option Mod), x = pure none →
      ((recordActs E).attempt x ([], w)).1 = .ok none ∧
        ((recordActs E).attempt x ([], w)).2.1 = [] := by
    rintro _ rfl
    rw [(recordActs E).attempt_pure]
    exact ⟨rfl, rfl⟩
  match game, collection with
  | none, _ => exact .inl (hnothing _ rfl)
  | some _, none => exact .inl (hnothing _ rfl)
  | some g, some l =>
    cases hempty : analysis.all.isEmpty with
    | true =>
      refine .inl (hnothing _ ?_)
      unfold Collaborators.mergeDefinitions
      simp [hempty]
    | false =>
      refine .inr ⟨g, rfl, l, rfl, fun hnone => ?_, ?_⟩
      · cases isSome_of_mergeDefinitions (E := recordActs E) hempty (Prod.ext hnone rfl)
      · exact (asks_mergeDefinitions E c rules policy g l hempty modOrder name w).written

end Merges

def Collaborators.idle : Collaborators (StateM Unit) where
  installed _ := return []
  purge _ _ := return
  createFolder _ _ := return
  writeDescriptor _ _ _ := return
  patchState _ _ := return none
  listFiles _ := return []
  exportDefinitions _ _ _ := return
  exportFile _ _ _ := return
  publish _ := return
  listing _ := return none
  storeListing _ _ := return
  dropListing _ := return

end LoadOrder

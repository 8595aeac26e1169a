import LoadOrder.Merge.Run

/-!
What a merge does, it does by calls to its collaborators. Two merges whose collaborators do related
things are related themselves, so a relation has to be shown for the calls alone.
-/

namespace LoadOrder

/-- A relation between the acts of two worlds that holds of doing nothing, and of one act after
another. -/
structure ActRelation (m n : Type → Type) [Monad m] [Monad n] where
  rel : {α : Type} → m α → n α → Prop
  rel_pure : ∀ {α : Type} (a : α), rel (pure a) (pure a)
  rel_bind : ∀ {α β : Type} {x : m α} {y : n α} {f : α → m β} {g : α → n β},
    rel x y → (∀ a, rel (f a) (g a)) → rel (x >>= f) (y >>= g)

namespace ActRelation

variable {m n : Type → Type} [Monad m] [Monad n] (R : ActRelation m n) {α β : Type}

def fallible (x : ExceptT Error m α) (y : ExceptT Error n α) : Prop := R.rel x.run y.run

theorem fallible_pure (a : α) : R.fallible (pure a : ExceptT Error m α) (pure a) := R.rel_pure _

theorem fallible_bind {x : ExceptT Error m α} {y : ExceptT Error n α}
    {f : α → ExceptT Error m β} {g : α → ExceptT Error n β} (h : R.fallible x y)
    (hf : ∀ a, R.fallible (f a) (g a)) : R.fallible (x >>= f) (y >>= g) := by
  unfold fallible
  rw [ExceptT.run_bind, ExceptT.run_bind]
  refine R.rel_bind h fun result => ?_
  cases result with
  | ok a => exact hf a
  | error e => exact R.rel_pure _

theorem fallible_forM {f : α → ExceptT Error m Unit} {g : α → ExceptT Error n Unit} (l : List α)
    (h : ∀ a, R.fallible (f a) (g a)) : R.fallible (l.forM f) (l.forM g) := by
  induction l with
  | nil => exact R.fallible_pure ()
  | cons a l ih => exact R.fallible_bind (h a) fun _ => ih

variable [LawfulMonad m] [LawfulMonad n]

theorem rel_map {x : m α} {y : n α} (f : α → β) (h : R.rel x y) : R.rel (f <$> x) (f <$> y) := by
  rw [← bind_pure_comp, ← bind_pure_comp]
  exact R.rel_bind h fun a => R.rel_pure (f a)

theorem fallible_lift {x : m α} {y : n α} (h : R.rel x y) :
    R.fallible (liftM x : ExceptT Error m α) (liftM y) := by
  simpa [fallible] using R.rel_map Except.ok h

theorem fallible_mapM {f : α → ExceptT Error m β} {g : α → ExceptT Error n β} (l : List α)
    (h : ∀ a, R.fallible (f a) (g a)) : R.fallible (l.mapM f) (l.mapM g) := by
  induction l with
  | nil => exact R.fallible_pure []
  | cons a l ih =>
    rw [List.mapM_cons, List.mapM_cons]
    exact R.fallible_bind (h a) fun b => R.fallible_bind ih fun bs => R.fallible_pure (b :: bs)

end ActRelation

/-- The folder below the user directory that a merge purges and makes. -/
def targetFolder (name : String) : String := modFolder ++ "/" ++ safeName name

namespace Collaborators

variable {m n : Type → Type} [Monad m] [Monad n] [LawfulMonad m] [LawfulMonad n]

/-- The calls of two worlds are related, those of a purge for one path. -/
structure Related (R : ActRelation m n) (root path : String) (c : Collaborators m)
    (c' : Collaborators n) : Prop where
  installed : ∀ game, R.fallible (c.installed game) (c'.installed game)
  purge : R.fallible (c.purge root path) (c'.purge root path)
  createFolder : ∀ root path, R.fallible (c.createFolder root path) (c'.createFolder root path)
  writeDescriptor : ∀ root path descriptor,
    R.fallible (c.writeDescriptor root path descriptor) (c'.writeDescriptor root path descriptor)
  patchState : ∀ root patch, R.fallible (c.patchState root patch) (c'.patchState root patch)
  listFiles : ∀ path, R.fallible (c.listFiles path) (c'.listFiles path)
  exportDefinitions : ∀ path definitions game, R.fallible
    (c.exportDefinitions path definitions game) (c'.exportDefinitions path definitions game)
  exportFile : ∀ root file path,
    R.fallible (c.exportFile root file path) (c'.exportFile root file path)
  publish : ∀ event, R.rel (c.publish event) (c'.publish event)
  listing : ∀ game, R.rel (c.listing game) (c'.listing game)
  storeListing : ∀ game mods, R.rel (c.storeListing game mods) (c'.storeListing game mods)
  dropListing : ∀ game, R.rel (c.dropListing game) (c'.dropListing game)

variable {R : ActRelation m n} {c : Collaborators m} {c' : Collaborators n} {game : Game}
  {name : String}

theorem Related.installedMods {root path : String} (h : Related R root path c c') (game : Game) :
    R.fallible (c.installedMods game) (c'.installedMods game) := by
  refine R.fallible_bind (R.fallible_lift (h.listing game)) fun stored => ?_
  cases stored with
  | some mods => exact R.fallible_pure mods
  | none =>
    refine R.fallible_bind (h.installed game) fun mods => ?_
    exact R.fallible_bind (R.fallible_lift (h.storeListing game mods)) fun _ =>
      R.fallible_pure mods

theorem Related.prepare (h : Related R game.userDirectory (targetFolder name) c c')
    (installed : List Mod) :
    R.fallible (c.prepare game name installed) (c'.prepare game name installed) := by
  refine R.fallible_bind h.purge fun _ => ?_
  refine R.fallible_bind (h.createFolder _ _) fun _ => ?_
  refine R.fallible_bind (h.createFolder _ _) fun _ => ?_
  refine R.fallible_bind (h.writeDescriptor _ _ _) fun _ => ?_
  exact R.fallible_bind (R.fallible_lift (h.dropListing game)) fun _ => R.fallible_pure _

theorem Related.act {root path : String} (h : Related R root path c c') (game : Game)
    (target : Target) (action : Action) :
    R.fallible (c.act game target action) (c'.act game target action) := by
  cases action with
  | «export» d => exact h.exportDefinitions _ _ _
  | report e => exact R.fallible_lift (h.publish e)

theorem Related.mergeDefinitions (h : Related R game.userDirectory (targetFolder name) c c')
    (rules : List Rules) (policy : DuplicatePolicy) (collection : Option Collection)
    (analysis : Analysis) (modOrder : List String) :
    R.fallible (c.mergeDefinitions rules policy (some game) collection analysis modOrder name)
      (c'.mergeDefinitions rules policy (some game) collection analysis modOrder name) := by
  cases collection with
  | none => exact R.fallible_pure none
  | some collection =>
    unfold Collaborators.mergeDefinitions
    dsimp only
    split
    · exact R.fallible_pure none
    · refine R.fallible_bind (h.installedMods game) fun installed => ?_
      refine R.fallible_bind (h.prepare installed) fun target => ?_
      refine R.fallible_bind (h.patchState _ _) fun state => ?_
      refine R.fallible_bind (R.fallible_forM _ (h.act game target)) fun _ => ?_
      exact R.fallible_pure _

theorem Related.copyFiles {root path : String} (h : Related R root path c c') (target : Target)
    (source : Mod) (t : Tracker) (files : List String) :
    R.fallible (c.copyFiles target source t files) (c'.copyFiles target source t files) := by
  induction files generalizing t with
  | nil => exact R.fallible_pure t
  | cons file files ih =>
    unfold Collaborators.copyFiles
    refine R.fallible_bind (h.exportFile _ _ _) fun _ => ?_
    dsimp only
    cases (t.advance 1).2 with
    | none => exact ih _
    | some p => exact R.fallible_bind (R.fallible_lift (h.publish _)) fun _ => ih _

theorem Related.copyMods {root path : String} (h : Related R root path c c') (target : Target)
    (t : Tracker) (listed : List (Mod × List String)) :
    R.fallible (c.copyMods target t listed) (c'.copyMods target t listed) := by
  induction listed generalizing t with
  | nil => exact R.fallible_pure ()
  | cons entry listed ih => exact R.fallible_bind (h.copyFiles _ _ _ _) fun t => ih t

theorem Related.mergeFiles (h : Related R game.userDirectory (targetFolder name) c c')
    (collection : Option Collection) :
    R.fallible (c.mergeFiles (some game) collection name)
      (c'.mergeFiles (some game) collection name) := by
  cases collection with
  | none => exact R.fallible_pure none
  | some collection =>
    unfold Collaborators.mergeFiles
    dsimp only
    split
    · exact R.fallible_pure none
    · refine R.fallible_bind (h.installedMods game) fun installed => ?_
      split
      · exact R.fallible_pure none
      · refine R.fallible_bind (h.prepare installed) fun target => ?_
        refine R.fallible_bind (R.fallible_lift (h.publish _)) fun _ => ?_
        refine R.fallible_bind (R.fallible_mapM _ fun source => ?_) fun listed => ?_
        · exact R.fallible_bind (h.listFiles _) fun files => R.fallible_pure _
        · refine R.fallible_bind (R.fallible_lift (h.publish _)) fun _ => ?_
          exact R.fallible_bind (h.copyMods _ _ _) fun _ => R.fallible_pure _

end Collaborators

end LoadOrder

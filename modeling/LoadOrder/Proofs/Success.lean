namespace LoadOrder

theorem exists_of_bind_eq_ok {ε α β : Type} {x : Except ε α} {f : α → Except ε β} {b : β}
    (h : x >>= f = .ok b) : ∃ a, x = .ok a ∧ f a = .ok b := by
  cases x with
  | error e => cases h
  | ok a => exact ⟨a, rfl, h⟩

theorem exists_of_map_eq_ok {ε α β : Type} {x : Except ε α} {f : α → β} {b : β}
    (h : x.map f = .ok b) : ∃ a, x = .ok a ∧ f a = b := by
  cases x with
  | error e => cases h
  | ok a => exact ⟨a, rfl, Except.ok.inj h⟩

theorem eq_error_of_map {ε α β : Type} {x : Except ε α} {f : α → β} {e : ε}
    (h : x.map f = .error e) : x = .error e := by
  cases x with
  | error e' => exact congrArg Except.error (Except.error.inj h)
  | ok a => cases h

theorem error_or_of_bind_eq_error {ε α β : Type} {x : Except ε α} {f : α → Except ε β} {e : ε}
    (h : x >>= f = .error e) : x = .error e ∨ ∃ a, x = .ok a ∧ f a = .error e := by
  cases x with
  | error e' => exact .inl (congrArg Except.error (Except.error.inj h))
  | ok a => exact .inr ⟨a, rfl, h⟩

theorem exists_of_foldlM_eq_error {ε α β : Type} {f : β → α → Except ε β} {l : List α} {b : β}
    {e : ε} (h : l.foldlM f b = .error e) :
    ∃ before a after b', l = before ++ a :: after ∧ before.foldlM f b = .ok b' ∧
      f b' a = .error e := by
  induction l generalizing b with
  | nil => cases h
  | cons a l ih =>
    rw [List.foldlM_cons] at h
    rcases error_or_of_bind_eq_error h with ha | ⟨b', hb', hl⟩
    · exact ⟨[], a, l, b, rfl, rfl, ha⟩
    · obtain ⟨before, a', after, b'', rfl, hbefore, ha'⟩ := ih hl
      refine ⟨a :: before, a', after, b'', rfl, ?_, ha'⟩
      rw [List.foldlM_cons, hb']
      exact hbefore

theorem eq_ok_of_toOption {ε α : Type} {x : Except ε α} {a : α} (h : x.toOption = some a) :
    x = .ok a := by
  cases x with
  | error e => cases h
  | ok b => exact congrArg Except.ok (Option.some.inj h)

theorem eq_ok_of_mem {ε α σ : Type} {x : Except ε α × σ} {a : α} (h : a ∈ x.1.toOption) :
    x = (.ok a, x.2) := Prod.ext (eq_ok_of_toOption h) rfl

/-- A way to execute acts on states, one act after another. -/
structure Execution (m : Type → Type) [Monad m] (σ : Type) where
  exec : {α : Type} → m α → σ → α × σ
  exec_pure : ∀ {α : Type} (a : α) (w : σ), exec (pure a) w = (a, w)
  exec_bind : ∀ {α β : Type} (x : m α) (f : α → m β) (w : σ),
    exec (x >>= f) w = exec (f (exec x w).1) (exec x w).2

namespace Execution

variable {m : Type → Type} [Monad m] {σ τ ε α β : Type} (E : Execution m σ)

def attempt (x : ExceptT ε m α) (w : σ) : Except ε α × σ := E.exec x.run w

theorem attempt_pure (a : α) (w : σ) : E.attempt (pure a : ExceptT ε m α) w = (.ok a, w) :=
  E.exec_pure _ w

theorem attempt_bind (x : ExceptT ε m α) (f : α → ExceptT ε m β) (w : σ) :
    E.attempt (x >>= f) w =
      match E.attempt x w with
      | (.ok a, w') => E.attempt (f a) w'
      | (.error e, w') => (.error e, w') := by
  unfold attempt
  rw [ExceptT.run_bind, E.exec_bind]
  rcases E.exec x.run w with ⟨_ | a, w'⟩
  · exact E.exec_pure _ w'
  · rfl

theorem attempt_bind_eq_ok {x : ExceptT ε m α} {f : α → ExceptT ε m β} {w w'' : σ} {b : β} :
    E.attempt (x >>= f) w = (.ok b, w'') ↔
      ∃ a w', E.attempt x w = (.ok a, w') ∧ E.attempt (f a) w' = (.ok b, w'') := by
  rw [attempt_bind]
  rcases E.attempt x w with ⟨e | a, w'⟩
  · simp
  · constructor
    · exact fun h => ⟨a, w', rfl, h⟩
    · rintro ⟨a', left, ⟨⟩, h⟩
      exact h

variable [LawfulMonad m]

theorem exec_map (f : α → β) (x : m α) (w : σ) :
    E.exec (f <$> x) w = (f (E.exec x w).1, (E.exec x w).2) := by
  rw [← bind_pure_comp, E.exec_bind, E.exec_pure]

theorem attempt_lift (x : m α) (w : σ) :
    E.attempt (liftM x : ExceptT ε m α) w = (.ok (E.exec x w).1, (E.exec x w).2) :=
  E.exec_map Except.ok x w

theorem attempt_adapt {ε' : Type} (f : ε → ε') (x : ExceptT ε m α) (w : σ) :
    E.attempt (ExceptT.adapt f x) w = ((E.attempt x w).1.mapError f, (E.attempt x w).2) :=
  E.exec_map _ _ w

theorem attempt_adapt_eq_ok {ε' : Type} {f : ε → ε'} {x : ExceptT ε m α} {w w' : σ} {a : α} :
    E.attempt (ExceptT.adapt f x) w = (.ok a, w') ↔ E.attempt x w = (.ok a, w') := by
  rw [attempt_adapt]
  rcases E.attempt x w with ⟨e | b, left⟩
  · exact ⟨fun h => (nomatch h), fun h => (nomatch h)⟩
  · constructor
    · rintro ⟨⟩
      rfl
    · rintro ⟨⟩
      rfl

def ofState (σ : Type) : Execution (StateM σ) σ where
  exec x w := x.run w
  exec_pure _ _ := rfl
  exec_bind _ _ _ := rfl

def withState (E : Execution m σ) (τ : Type) : Execution (StateT τ m) (τ × σ) where
  exec x w := ((E.exec (x.run w.1) w.2).1.1, (E.exec (x.run w.1) w.2).1.2,
    (E.exec (x.run w.1) w.2).2)
  exec_pure a w := by
    rw [StateT.run_pure, E.exec_pure]
  exec_bind x f w := by
    rw [StateT.run_bind, E.exec_bind]

omit [LawfulMonad m] in
theorem exec_lift_withState (x : m α) (t : τ) (w : σ) :
    (E.withState τ).exec (StateT.lift x) (t, w) = ((E.exec x w).1, (t, (E.exec x w).2)) := by
  unfold withState
  dsimp only
  rw [StateT.run_lift, E.exec_bind, E.exec_pure]

omit [LawfulMonad m] in
theorem exec_modify_withState (f : τ → τ) (t : τ) (w : σ) :
    (E.withState τ).exec (modify f) (t, w) = (⟨⟩, (f t, w)) := by
  unfold withState
  dsimp only
  rw [StateT.run_modify, E.exec_pure]

omit [LawfulMonad m] in
theorem exec_lift_modify_withState (x : m α) (f : α → τ → τ) (t : τ) (w : σ) :
    (E.withState τ).exec (do let a ← StateT.lift x; modify (f a); return a) (t, w) =
      ((E.exec x w).1, (f (E.exec x w).1 t, (E.exec x w).2)) := by
  rw [(E.withState τ).exec_bind, exec_lift_withState, (E.withState τ).exec_bind,
    exec_modify_withState, (E.withState τ).exec_pure]

omit [LawfulMonad m] in
theorem attempt_lift_withState (x : ExceptT ε m α) (t : τ) (w : σ) :
    (E.withState τ).attempt (ExceptT.mk (StateT.lift x.run)) (t, w) =
      ((E.attempt x w).1, (t, (E.attempt x w).2)) :=
  E.exec_lift_withState x.run t w

end Execution

end LoadOrder

import LoadOrder.Proofs.Definition.History

namespace LoadOrder

/-- The mod, the file and the identity of a definition. -/
def Definition.slot (d : Definition) : String × String × String :=
  (d.modName, d.fileKey, d.identity)

theorem Definition.sameSlot_iff_slot_eq {a b : Definition} : a.sameSlot b ↔ a.slot = b.slot := by
  simp [Definition.sameSlot_iff, Definition.slot]

/-- No definition behind the place of `placed` is in its slot. -/
def standsAt (definitions : List Definition) (placed : Definition × Nat) : Bool :=
  (definitions.drop (placed.2 + 1)).all (·.slot != placed.1.slot)

/-- The definitions that no later one in their slot follows, in order. -/
def standing (definitions : List Definition) : List Definition :=
  (definitions.zipIdx.filter (standsAt definitions)).map (·.1)

theorem standing_cons (d : Definition) (rest : List Definition) :
    standing (d :: rest) =
      if rest.all (·.slot != d.slot) then d :: standing rest else standing rest := by
  have hfirst : standsAt (d :: rest) (d, 0) = rest.all (·.slot != d.slot) := rfl
  -- behind `d` every place is one further, and so is what is dropped before it
  have hrest : ((rest.zipIdx 1).filter (standsAt (d :: rest))).map (·.1) = standing rest := by
    rw [List.zipIdx_succ, List.filter_map, List.map_map]
    rfl
  rw [standing, List.zipIdx_cons, Nat.zero_add, List.filter_cons, hfirst]
  split
  · rw [List.map_cons, hrest]
  · exact hrest

theorem any_sameSlot (rest : List Definition) (d : Definition) :
    rest.any (·.sameSlot d) = !rest.all (·.slot != d.slot) := by
  rw [List.not_all_eq_any_not]
  refine List.any_congr rfl fun e => ?_
  rw [Bool.eq_iff_iff, Definition.sameSlot_iff_slot_eq]
  simp

theorem keepLast_eq_standing (definitions : List Definition) :
    keepLast definitions = standing definitions := by
  induction definitions with
  | nil => rfl
  | cons d rest ih =>
    rw [keepLast, standing_cons, ih, any_sameSlot]
    cases rest.all (·.slot != d.slot) <;> rfl

theorem keepLast_keepLast_append (definitions more : List Definition) :
    keepLast (keepLast definitions ++ more) = keepLast (definitions ++ more) := by
  induction definitions with
  | nil => rfl
  | cons d rest ih =>
    by_cases hany : rest.any (·.sameSlot d)
    · have hwhole : (rest ++ more).any (·.sameSlot d) := by
        rw [List.any_append, hany, Bool.true_or]
      rw [keepLast, if_pos hany, ih, List.cons_append, keepLast, if_pos hwhole]
    · have hkept : (keepLast rest).any (·.sameSlot d) = false := by
        rw [Bool.not_eq_true, List.any_eq_false] at hany
        exact List.any_eq_false.mpr fun e he => hany e ((keepLast_sublist rest).mem he)
      rw [Bool.not_eq_true] at hany
      rw [keepLast, if_neg (by simp [hany]), List.cons_append, keepLast, List.cons_append, keepLast,
        List.any_append, List.any_append, hkept, hany, ih]

namespace Index

theorem add_build (definitions more : List Definition) :
    (build definitions false).add more = build (definitions ++ more) false := by
  have hall : (build definitions false).all = keepLast definitions := rfl
  have hkept : keepLast (keepLast definitions ++ more) = keepLast (definitions ++ more) :=
    keepLast_keepLast_append definitions more
  rw [add, hall]
  simp only [build, hkept, Bool.false_eq_true, if_false]

theorem build_index (history : History) :
    build history.index.all history.index.keepsDuplicates = history.index := by
  cases history with
  | build definitions keepsDuplicates => exact build_all definitions keepsDuplicates
  | empty => exact build_all [] false
  | add before more => exact build_all _ _
  | remove before p => exact build_all _ _

/-- Without duplicates a set that grows is the set of all its definitions, and these are the ones
that no later definition in their slot follows. However a set came about, its sequence makes it
again. -/
theorem build_grows (first second third : List Definition) (history : History) :
    (build first false).add second = build (first ++ second) false ∧
      ((build first false).add second).add third = build (first ++ second ++ third) false ∧
      build history.index.all history.index.keepsDuplicates = history.index ∧
      (build first false).all = standing first := by
  refine ⟨add_build first second, ?_, build_index history, keepLast_eq_standing first⟩
  rw [add_build, add_build]

end Index

end LoadOrder

import LoadOrder.Proofs.Files.Copy
import LoadOrder.Proofs.Merge.Copies

namespace LoadOrder

namespace Disk

/-- A folder has a file, which lies in it or further down. -/
def HasFile (d : Disk) (path file : String) : Prop :=
  LeadDown (namesOf file) ∧ d.content? (d.newPlace path ++ namesOf file) ≠ none

def NoFiles (d : Disk) (path : String) : Prop :=
  ∀ names, d.content? (d.newPlace path ++ names) = none

/-- What the last of some mods that ship a file has in it. -/
def lastOf (d : Disk) (names : Place) (shipped : List (Mod × Place)) : Option Content :=
  ((shipped.reverse.find? (·.2 = names)).map (·.1)).bind fun source =>
    d.content? (d.newPlace source.path ++ names)

/-- A folder has been filled with files that mods ship, and nothing else has changed. -/
structure Filled (start : Disk) (path : String) (shipped : List (Mod × Place)) (d : Disk) :
    Prop where
  current_eq : d.current = start.current
  inside : ∀ names, d.content? (start.newPlace path ++ names) = start.lastOf names shipped
  outside : ∀ p, ¬start.newPlace path <+: p → d.content? p = start.content? p

variable {start d d' : Disk} {path file : String} {source : Mod} {shipped : List (Mod × Place)}

instance (d : Disk) (path file : String) : Decidable (d.HasFile path file) :=
  inferInstanceAs (Decidable (LeadDown (namesOf file) ∧
    d.content? (d.newPlace path ++ namesOf file) ≠ none))

theorem lastOf_concat (names place : Place) :
    start.lastOf names (shipped ++ [(source, place)]) =
      if place = names then start.content? (start.newPlace source.path ++ names)
      else start.lastOf names shipped := by
  unfold lastOf
  rw [List.reverse_concat, List.find?_cons]
  by_cases hplace : place = names
  · simp only [hplace, decide_true, if_true, Option.map_some, Option.bind_some]
  · simp only [hplace, decide_false, if_false]

/-- One more file. Since the folder has been empty, the file is not a copy in it. -/
theorem Filled.copy (h : start.Filled path shipped d) (hempty : start.NoFiles path)
    (hfile : start.HasFile source.path file)
    (hcopy : acts.attempt (system.exportFile source.path file path) d = (.ok (), d')) :
    start.Filled path (shipped ++ [(source, namesOf file)]) d' := by
  obtain ⟨content, hcontent, hcurrent, hreplaced⟩ := copied_of_exportFile hfile.1 hcopy
  rw [newPlace_congr h.current_eq] at hcontent
  rw [newPlace_congr h.current_eq, newPlace_congr h.current_eq] at hreplaced
  have houtside : ¬start.newPlace path <+: start.newPlace source.path ++ namesOf file := by
    rintro ⟨names, hnames⟩
    refine hfile.2 ?_
    rw [← hnames]
    exact hempty names
  have hne : start.newPlace path ≠ start.newPlace source.path := by
    intro heq
    rw [heq] at houtside
    exact houtside (List.prefix_append _ _)
  rw [h.outside _ houtside] at hcontent
  rw [if_neg hne] at hreplaced
  refine ⟨hcurrent.trans h.current_eq, fun names => ?_, fun p hp => ?_⟩
  · rw [hreplaced, lastOf_concat, h.inside]
    by_cases hnames : namesOf file = names
    · rw [if_pos (congrArg (start.newPlace path ++ ·) hnames.symm), if_pos hnames, ← hnames,
        hcontent]
    · rw [if_neg fun heq => hnames (List.append_cancel_left heq).symm, if_neg hnames]
  · have hother : p ≠ start.newPlace path ++ namesOf file := by
      intro heq
      rw [heq] at hp
      exact hp (List.prefix_append _ _)
    rw [hreplaced, if_neg hother, h.outside p hp]

end Disk

section Copies

variable {m : Type → Type} [Monad m] [LawfulMonad m] {σ : Type} {E : Execution m σ}
  {c : Collaborators m} {disk : σ → Disk} {start : Disk} {target : Target} {source : Mod}
  {shipped : List (Mod × Place)} {w w' : σ}

end Copies

section Merges

variable {m : Type → Type} [Monad m] [LawfulMonad m] {σ : Type} {E : Execution m σ}
  {c : Collaborators m} {game : Game} {w w' : σ}

end Merges

end LoadOrder

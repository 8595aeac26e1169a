import LoadOrder.Proofs.Files.Export

namespace LoadOrder

def LeadDown (names : List String) : Prop :=
  ∀ name ∈ names, name ≠ "" ∧ name ≠ "." ∧ name ≠ ".."

instance (names : List String) : Decidable (LeadDown names) :=
  inferInstanceAs (Decidable (∀ name ∈ names, name ≠ "" ∧ name ≠ "." ∧ name ≠ ".."))

def namesOf (file : String) : Place := Disk.pieces (Text.forwardSlashes file)

namespace Disk

variable {d d' : Disk} {path root file : String} {names : List String}

theorem foldl_step (place : Place) (h : LeadDown names) :
    names.foldl step place = place ++ names := by
  induction names generalizing place with
  | nil => rw [List.append_nil, List.foldl_nil]
  | cons name names ih =>
    have ⟨⟨hempty, hhere, hup⟩, hrest⟩ := List.forall_mem_cons.mp h
    have hstep : step place name = place ++ [name] := by
      simp [step, hempty, hhere, hup]
    rw [List.foldl_cons, hstep, ih _ hrest, List.append_assoc, List.singleton_append]

theorem isAbsolute_eq_false (h : LeadDown (pieces path)) : Path.isAbsolute path = false := by
  rw [Bool.eq_false_iff]
  intro habsolute
  obtain ⟨rest, hrest⟩ := List.head?_eq_some_iff.mp (beq_iff_eq.mp habsolute)
  have hempty : "" ∈ pieces path := by
    unfold pieces
    rw [hrest]
    exact List.mem_cons_self
  exact (h "" hempty).1 rfl

theorem newPlace_join (d : Disk) (base : String) (h : LeadDown (pieces path)) :
    d.newPlace (Path.join base path) = d.newPlace base ++ pieces path := by
  rw [newPlace_eq, newPlace_eq, ← foldl_step _ h, ← List.foldl_append]
  unfold Path.join
  rw [isAbsolute_eq_false h, if_neg Bool.false_ne_true]
  by_cases hbase : base = ""
  · have horigin : d.origin path = d.origin "" := by
      unfold origin
      rw [isAbsolute_eq_false h]
      rfl
    rw [if_pos (.inl hbase), hbase, String.empty_append, horigin]
    rfl
  · split
    · next hslash =>
      obtain ⟨before, hbefore⟩ := List.getLast?_eq_some_iff.mp (hslash.resolve_left hbase)
      have hsplit : base = String.ofList before ++ "/" := by
        rw [← String.toList_inj, hbefore, String.toList_append, String.toList_ofList]
        rfl
      have hpieces : pieces base = pieces (String.ofList before) ++ [""] := by
        have hempty := pieces_append_slash (String.ofList before) ""
        rwa [String.append_empty, ← hsplit] at hempty
      have hjoined : pieces (base ++ path) = pieces (String.ofList before) ++ pieces path := by
        rw [hsplit, pieces_append_slash]
      rw [origin_append hbase, hjoined, hpieces, List.append_assoc, List.foldl_append,
        List.foldl_append]
      rfl
    · rw [pieces_append_slash, String.append_assoc, origin_append hbase]

theorem copied_of_exportFile (hfile : LeadDown (namesOf file))
    (h : acts.attempt (system.exportFile root file path) d = (.ok (), d')) :
    ∃ content, d.content? (d.newPlace root ++ namesOf file) = some content ∧
      Replaced (d.newPlace path ++ namesOf file)
        (if d.newPlace path = d.newPlace root then .text "" else content) d d' := by
  obtain ⟨content, hcontent, hreplaced⟩ := copied_of_copyTo h
  rw [newPlace_join d root hfile] at hcontent hreplaced
  rw [newPlace_join d path hfile] at hreplaced
  simp only [List.append_left_inj] at hreplaced
  exact ⟨content, hcontent, hreplaced⟩

end Disk

end LoadOrder

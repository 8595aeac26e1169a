import LoadOrder.Merge.Rename
import LoadOrder.Proofs.Text.Pieces

namespace LoadOrder

/-- The longest stretches of a text that are made of name characters, in order. -/
def names (text : String) : List String :=
  ((Text.split (fun c => !isNameChar c) text.toList).filter (· ≠ [])).map String.ofList

def IsName (s : String) : Prop := ∀ c ∈ s.toList, isNameChar c

instance (s : String) : Decidable (IsName s) :=
  decidable_of_iff (s.toList.all isNameChar) List.all_eq_true

def replaceName {α : Type} [DecidableEq α] (old new name : α) : α :=
  if name = old then new else name

section Pieces

variable {old new piece rest : List Char} {last : Option Char}

theorem isNameEdge_some {c : Char} : isNameEdge (some c) = !isNameChar c := rfl

theorem isNameEdge_getLast? (hne : old ≠ []) (hold : ∀ c ∈ old, isNameChar c) :
    isNameEdge old.getLast? = false := by
  rw [List.getLast?_eq_some_getLast hne]
  simp [isNameEdge_some, hold _ (List.getLast_mem hne)]

theorem split_append_cons {p : Char → Bool} (h : ∀ c ∈ piece, p c = false) {s : Char}
    (hs : p s = true) : Text.split p (piece ++ s :: rest) = piece :: Text.split p rest := by
  rw [Text.split_append hs, Text.split_of_forall_not h, List.singleton_append]

theorem eq_piece_append (text : List Char) :
    ∃ piece rest, text = piece ++ rest ∧ (∀ c ∈ piece, isNameChar c) ∧
      isNameEdge rest.head? := by
  refine ⟨text.takeWhile isNameChar, text.dropWhile isNameChar,
    List.takeWhile_append_dropWhile.symm, List.all_eq_true.mp List.all_takeWhile, ?_⟩
  · cases h : text.dropWhile isNameChar with
    | nil => rfl
    | cons c rest =>
      have := List.head?_dropWhile_not isNameChar text
      rw [h] at this
      simpa [isNameEdge] using this

theorem exists_append_of_isPrefixOf (hold : ∀ c ∈ old, isNameChar c)
    (hedge : isNameEdge rest.head?) (h : old.isPrefixOf (piece ++ rest)) :
    ∃ q, piece = old ++ q := by
  obtain ⟨t, ht⟩ := List.isPrefixOf_iff_prefix.mp h
  rcases List.append_eq_append_iff.mp ht with ⟨q, hq, -⟩ | ⟨q, hq, hrest⟩
  · exact ⟨q, hq⟩
  · cases q with
    | nil => exact ⟨[], by simpa using hq.symm⟩
    | cons c q =>
      have hc : isNameChar c := hold c (by simp [hq])
      rw [hrest, List.cons_append, List.head?_cons, isNameEdge_some, hc] at hedge
      cases hedge

theorem renameFrom_nil : renameFrom old new last [] = [] := by
  rw [renameFrom]

theorem renameFrom_append (hne : old ≠ []) (q : List Char) :
    renameFrom old new last (old ++ q) =
      (if isNameEdge last && isNameEdge q.head? then new else old) ++
        renameFrom old new old.getLast? q := by
  cases old with
  | nil => exact absurd rfl hne
  | cons c tail =>
    -- the search goes on after the whole occurrence, replaced or not
    have hprefix : (c :: tail).isPrefixOf (c :: (tail ++ q)) := by
      simp [List.isPrefixOf_iff_prefix]
    have hdrop : (tail ++ q).drop ((c :: tail).length - 1) = q := by simp
    rw [List.cons_append, renameFrom, if_pos hprefix]
    simp only [hdrop]

theorem renameFrom_cons {c : Char} {tail : List Char} (h : ¬ old.isPrefixOf (c :: tail)) :
    renameFrom old new last (c :: tail) = c :: renameFrom old new (some c) tail := by
  rw [renameFrom, if_neg h]

theorem not_isPrefixOf_of_edge (hne : old ≠ []) (hold : ∀ c ∈ old, isNameChar c)
    (hedge : isNameEdge rest.head?) : ¬ old.isPrefixOf rest := by
  intro h
  have hprefix : old.isPrefixOf ([] ++ rest) := h
  obtain ⟨q, hq⟩ := exists_append_of_isPrefixOf hold hedge hprefix
  exact hne (List.append_eq_nil_iff.mp hq.symm).1

theorem renameFrom_of_edge (hne : old ≠ []) (hold : ∀ c ∈ old, isNameChar c)
    (hedge : isNameEdge rest.head?) (last' : Option Char) :
    renameFrom old new last rest = renameFrom old new last' rest := by
  cases rest with
  | nil => rw [renameFrom_nil, renameFrom_nil]
  | cons s rest =>
    have hnot : ¬ old.isPrefixOf (s :: rest) := not_isPrefixOf_of_edge hne hold hedge
    rw [renameFrom_cons hnot, renameFrom_cons hnot]

theorem renameFrom_inside (hne : old ≠ []) (hold : ∀ c ∈ old, isNameChar c)
    (hedge : isNameEdge rest.head?) (hpiece : ∀ c ∈ piece, isNameChar c)
    (hlast : isNameEdge last = false) :
    renameFrom old new last (piece ++ rest) = piece ++ renameFrom old new none rest := by
  -- on the length of the piece, since the search steps over a whole occurrence at once
  induction hn : piece.length using Nat.strongRecOn generalizing piece last with
  | ind n ih =>
    cases piece with
    | nil => exact renameFrom_of_edge hne hold hedge none
    | cons c tail =>
      by_cases hp : old.isPrefixOf (c :: tail ++ rest)
      · obtain ⟨q, hq⟩ := exists_append_of_isPrefixOf hold hedge hp
        have hlt : q.length < n := by
          have := List.length_pos_iff.mpr hne
          rw [← hn, hq, List.length_append]
          omega
        have hlast' : isNameEdge old.getLast? = false := isNameEdge_getLast? hne hold
        rw [hq] at hpiece ⊢
        rw [List.append_assoc, renameFrom_append hne, hlast, Bool.false_and,
          if_neg Bool.false_ne_true, List.append_assoc,
          ih q.length hlt (fun c hc => hpiece c (List.mem_append_right old hc)) hlast' rfl]
      · have hc : isNameEdge (some c) = false := by
          rw [isNameEdge_some, hpiece c List.mem_cons_self]
          rfl
        rw [List.cons_append] at hp ⊢
        rw [renameFrom_cons hp, List.cons_append,
          ih tail.length (by rw [← hn]; exact Nat.lt_succ_self _)
            (fun c hc => hpiece c (List.mem_cons_of_mem _ hc)) hc rfl]

theorem renameFrom_piece (hne : old ≠ []) (hold : ∀ c ∈ old, isNameChar c)
    (hedge : isNameEdge rest.head?) (hpiece : ∀ c ∈ piece, isNameChar c)
    (hlast : isNameEdge last) :
    renameFrom old new last (piece ++ rest) =
      replaceName old new piece ++ renameFrom old new none rest := by
  by_cases hp : old.isPrefixOf (piece ++ rest)
  · obtain ⟨q, rfl⟩ := exists_append_of_isPrefixOf hold hedge hp
    have hq : ∀ c ∈ q, isNameChar c := fun c hc => hpiece c (List.mem_append_right old hc)
    have hlast' : isNameEdge old.getLast? = false := isNameEdge_getLast? hne hold
    rw [List.append_assoc, renameFrom_append hne, hlast, Bool.true_and]
    cases q with
    | nil =>
      rw [List.nil_append, if_pos hedge, List.append_nil, replaceName, if_pos rfl,
        renameFrom_of_edge hne hold hedge none]
    | cons c q =>
      have hc : isNameEdge (c :: q ++ rest).head? = false := by
        rw [List.cons_append, List.head?_cons, isNameEdge_some, hq c List.mem_cons_self]
        rfl
      have hlong : old ++ c :: q ≠ old := by simp
      rw [hc, if_neg Bool.false_ne_true, replaceName, if_neg hlong, List.append_assoc,
        renameFrom_inside hne hold hedge hq hlast']
  · have hother : piece ≠ old := by
      rintro rfl
      exact hp (by simp [List.isPrefixOf_iff_prefix])
    rw [replaceName, if_neg hother]
    cases piece with
    | nil => exact renameFrom_of_edge hne hold hedge none
    | cons c tail =>
      have hc : isNameEdge (some c) = false := by
        simp [isNameEdge_some, hpiece c List.mem_cons_self]
      rw [List.cons_append] at hp ⊢
      rw [renameFrom_cons hp, List.cons_append,
        renameFrom_inside hne hold hedge
          (fun c hc => hpiece c (List.mem_cons_of_mem _ hc)) hc]

/-- Replacing a name changes the pieces between the other characters and nothing else. -/
theorem split_renameFrom (hne : old ≠ []) (hold : ∀ c ∈ old, isNameChar c)
    (hnew : ∀ c ∈ new, isNameChar c) (text : List Char) (hlast : isNameEdge last) :
    Text.split (fun c => !isNameChar c) (renameFrom old new last text) =
      (Text.split (fun c => !isNameChar c) text).map (replaceName old new) := by
  -- piece by piece, by the length of what is left
  induction hn : text.length using Nat.strongRecOn generalizing text last with
  | ind n ih =>
    obtain ⟨piece, rest, rfl, hpiece, hedge⟩ := eq_piece_append text
    have hpiece' : ∀ c ∈ replaceName old new piece, isNameChar c := by
      unfold replaceName
      split
      · exact hnew
      · exact hpiece
    rw [renameFrom_piece hne hold hedge hpiece hlast]
    cases rest with
    | nil =>
      rw [renameFrom_nil, List.append_nil, List.append_nil,
        Text.split_of_forall_not (by simpa using hpiece'),
        Text.split_of_forall_not (by simpa using hpiece)]
      rfl
    | cons s rest =>
      have hs : isNameEdge (some s) := hedge
      have hshort : rest.length < n := by
        rw [← hn, List.length_append, List.length_cons]
        omega
      rw [renameFrom_cons (not_isPrefixOf_of_edge hne hold hedge),
        split_append_cons (by simpa using hpiece') hs, split_append_cons (by simpa using hpiece) hs,
        List.map_cons, ih rest.length hshort rest hs rfl]

end Pieces

theorem ofList_replaceName (old new : String) (name : List Char) :
    String.ofList (replaceName old.toList new.toList name) =
      replaceName old new (String.ofList name) := by
  by_cases h : name = old.toList
  · rw [h, String.ofList_toList, replaceName, replaceName, if_pos rfl, if_pos rfl,
      String.ofList_toList]
  · have h' : String.ofList name ≠ old := by
      rintro rfl
      exact h String.toList_ofList.symm
    rw [replaceName, replaceName, if_neg h, if_neg h']

theorem ne_empty_of_mem_names {text name : String} (h : name ∈ names text) : name ≠ "" := by
  obtain ⟨piece, hpiece, rfl⟩ := List.mem_map.mp h
  have hne : piece ≠ [] := by simpa using (List.mem_filter.mp hpiece).2
  simpa using hne

theorem map_replaceName_of_notMem {old new : String} {l : List String} (h : old ∉ l) :
    l.map (replaceName old new) = l := by
  have hid : ∀ name ∈ l, replaceName old new name = id name := by
    intro name hname
    rw [replaceName, if_neg (by rintro rfl; exact h hname), id]
  rw [List.map_congr_left hid, List.map_id]

/-- Renaming changes every name of a text on its own. -/
theorem names_rename (text : String) {old new : String} (hold : IsName old) (hnew : IsName new)
    (hne : new ≠ "") : names (rename text old new) = (names text).map (replaceName old new) := by
  by_cases h : old = ""
  · have hnot : old ∉ names text := fun hmem => ne_empty_of_mem_names hmem h
    rw [rename, if_pos h, map_replaceName_of_notMem hnot]
  · have hold' : old.toList ≠ [] := by simpa using h
    have hnew' : new.toList ≠ [] := by simpa using hne
    -- no piece becomes empty, and none that was empty is replaced
    have hkeep : ∀ piece : List Char,
        decide (replaceName old.toList new.toList piece ≠ []) = decide (piece ≠ []) := by
      intro piece
      unfold replaceName
      split
      · next hp => simp [hp, hold', hnew']
      · rfl
    rw [rename, if_neg h, names, String.toList_ofList,
      split_renameFrom hold' hold hnew _ rfl, names, List.filter_map]
    simp only [Function.comp_def, hkeep, List.map_map, ofList_replaceName]

theorem isName_toString (n : Nat) : IsName (toString n) := by
  intro c hc
  have hdigit : c.isDigit :=
    Nat.isDigit_of_mem_toDigits (b := 10) (by decide) (by decide) (by simpa using hc)
  have hlt : c.toNat < 0x80 := by
    exact Nat.lt_of_le_of_lt (Char.isDigit_iff_toNat.mp hdigit).2 (by decide)
  simp [isNameChar, Text.isAlphanumeric_of_lt hlt, Char.isAlphanum, hdigit]

theorem isName_numberedName {id : String} (h : IsName id) (n : Nat) :
    IsName (numberedName id n) := by
  intro c hc
  rw [numberedName, String.toList_append, String.toList_append, List.mem_append,
    List.mem_append] at hc
  rcases hc with (hc | hc) | hc
  · exact h c hc
  · rw [show c = '_' by simpa using hc]
    decide
  · exact isName_toString n c hc

theorem length_lt_numberedName (id : String) (n : Nat) :
    id.length < (numberedName id n).length := by
  simp only [numberedName, String.length_append]
  have : ("_" : String).length = 1 := rfl
  omega

theorem numberedName_ne (id : String) (n : Nat) : numberedName id n ≠ id := by
  intro h
  have := length_lt_numberedName id n
  rw [h] at this
  exact Nat.lt_irrefl _ this

theorem numberedName_ne_empty (id : String) (n : Nat) : numberedName id n ≠ "" := by
  intro h
  have := length_lt_numberedName id n
  rw [h] at this
  exact Nat.not_lt_zero _ this

theorem isName_freeName {id : String} (exported : List Definition) (h : IsName id) :
    IsName (freeName exported id) := isName_numberedName h _

theorem freeName_ne (exported : List Definition) (id : String) : freeName exported id ≠ id :=
  numberedName_ne id _

theorem freeName_ne_empty (exported : List Definition) (id : String) :
    freeName exported id ≠ "" := numberedName_ne_empty id _

end LoadOrder

import Mathlib.Data.List.SplitBy
import LoadOrder.Proofs.Merge.Names

namespace LoadOrder

def alike (c d : Char) : Bool := isNameChar c == isNameChar d

/-- The longest stretches of name characters and of other characters, in order. -/
def stretches (text : String) : List String := (text.toList.splitBy alike).map String.ofList

/-- Pieces of name characters and pieces of other characters, in turns. -/
structure InTurns (pieces : List (List Char)) : Prop where
  ne_nil : ∀ piece ∈ pieces, piece ≠ []
  uniform : ∀ piece ∈ pieces, ∀ c ∈ piece, isNameChar c = piece.all isNameChar
  turns : pieces.IsChain fun piece next => piece.all isNameChar ≠ next.all isNameChar

theorem isChain_alike_iff (piece : List Char) :
    (piece.IsChain fun c d => alike c d) ↔ ∀ c ∈ piece, isNameChar c = piece.all isNameChar := by
  let Alike (c d : Char) : Prop := alike c d
  have htrans : Trans Alike Alike Alike := ⟨fun h h' => by
    simp only [Alike, alike, beq_iff_eq] at *
    exact h.trans h'⟩
  rw [List.isChain_iff_pairwise (R := Alike)]
  constructor
  · intro h
    cases piece with
    | nil => exact fun c hc => absurd hc List.not_mem_nil
    | cons first rest =>
      have hfirst : ∀ c ∈ rest, isNameChar c = isNameChar first :=
        fun c hc => (beq_iff_eq.mp ((List.pairwise_cons.mp h).1 c hc)).symm
      have hall : (first :: rest).all isNameChar = isNameChar first := by
        cases hkind : isNameChar first with
        | true => simpa [hkind] using hfirst
        | false => simp [hkind]
      rw [hall]
      exact List.forall_mem_cons.mpr ⟨rfl, hfirst⟩
  · intro h
    refine List.pairwise_of_forall_mem_list fun c hc d hd => ?_
    simp only [Alike, alike, h c hc, h d hd, BEq.rfl]

theorem splitBy_alike_eq_iff {text : List Char} {pieces : List (List Char)} :
    text.splitBy alike = pieces ↔ text = pieces.flatten ∧ InTurns pieces := by
  have hturn {piece next : List Char} (hpiece : piece ≠ []) (hnext : next ≠ [])
      (h : ∀ c ∈ piece, isNameChar c = piece.all isNameChar)
      (h' : ∀ c ∈ next, isNameChar c = next.all isNameChar) :
      (∃ ha hb, alike (piece.getLast ha) (next.head hb) = false) ↔
        piece.all isNameChar ≠ next.all isNameChar := by
    rw [← h _ (List.getLast_mem hpiece), ← h' _ (List.head_mem hnext)]
    simp [alike, hpiece, hnext]
  rw [List.splitBy_eq_iff]
  refine and_congr_right fun _ => ?_
  constructor
  · rintro ⟨hne, huniform, hturns⟩
    have hne : ∀ piece ∈ pieces, piece ≠ [] := fun piece hpiece => ne_of_mem_of_not_mem hpiece hne
    have huniform := fun piece hpiece => (isChain_alike_iff piece).mp (huniform piece hpiece)
    exact ⟨hne, huniform, hturns.imp_of_mem_imp fun a b ha hb =>
      (hturn (hne a ha) (hne b hb) (huniform a ha) (huniform b hb)).mp⟩
  · rintro ⟨hne, huniform, hturns⟩
    refine ⟨fun hnil => hne [] hnil rfl,
      fun piece hpiece => (isChain_alike_iff piece).mpr (huniform piece hpiece), ?_⟩
    exact hturns.imp_of_mem_imp fun a b ha hb =>
      (hturn (hne a ha) (hne b hb) (huniform a ha) (huniform b hb)).mpr

theorem inTurns_splitBy (text : List Char) : InTurns (text.splitBy alike) :=
  (splitBy_alike_eq_iff.mp rfl).2

theorem join_stretches (text : String) : String.join (stretches text) = text := by
  apply String.toList_injective
  rw [String.toList_join, stretches, List.flatMap_map]
  simp

section Renaming

variable {old new piece rest : List Char} {pieces : List (List Char)} {last : Option Char}

theorem all_replaceName (hold : ∀ c ∈ old, isNameChar c) (hnew : ∀ c ∈ new, isNameChar c)
    (piece : List Char) : (replaceName old new piece).all isNameChar = piece.all isNameChar := by
  unfold replaceName
  split
  · next h => rw [h, List.all_eq_true.mpr hnew, List.all_eq_true.mpr hold]
  · rfl

theorem InTurns.replaced (h : InTurns pieces) (hold : ∀ c ∈ old, isNameChar c)
    (hnew : ∀ c ∈ new, isNameChar c) (hne : new ≠ []) :
    InTurns (pieces.map (replaceName old new)) where
  ne_nil := by
    rw [List.forall_mem_map]
    intro piece hpiece
    unfold replaceName
    split
    · exact hne
    · exact h.ne_nil piece hpiece
  uniform := by
    rw [List.forall_mem_map]
    intro piece hpiece
    rw [all_replaceName hold hnew]
    unfold replaceName
    split
    · next heq =>
      intro c hc
      rw [hnew c hc, heq, List.all_eq_true.mpr hold]
    · exact h.uniform piece hpiece
  turns := by
    rw [List.isChain_map]
    simpa only [all_replaceName hold hnew] using h.turns

theorem renameFrom_congr {last' : Option Char} (h : isNameEdge last = isNameEdge last')
    (text : List Char) : renameFrom old new last text = renameFrom old new last' text := by
  cases text with
  | nil => rw [renameFrom_nil, renameFrom_nil]
  | cons c text => rw [renameFrom, renameFrom, h]

theorem renameFrom_between (hne : old ≠ []) (hold : ∀ c ∈ old, isNameChar c)
    (hpiece : ∀ c ∈ piece, isNameChar c = false) (hlast : isNameEdge last) :
    renameFrom old new last (piece ++ rest) = piece ++ renameFrom old new none rest := by
  induction piece generalizing last with
  | nil => exact renameFrom_congr hlast rest
  | cons c piece ih =>
    obtain ⟨hc, hpiece⟩ := List.forall_mem_cons.mp hpiece
    have hedge : isNameEdge (some c) := by rw [isNameEdge_some, hc]; rfl
    rw [List.cons_append, renameFrom_cons (not_isPrefixOf_of_edge hne hold hedge), ih hpiece hedge]
    rfl

theorem InTurns.isNameEdge_flatten (h : InTurns (piece :: pieces)) (hpiece : piece.all isNameChar) :
    isNameEdge pieces.flatten.head? := by
  cases pieces with
  | nil => rfl
  | cons next more =>
    obtain ⟨c, tail, rfl⟩ :=
      List.exists_cons_of_ne_nil (h.ne_nil next (List.mem_cons_of_mem _ List.mem_cons_self))
    have hc : isNameChar c = (c :: tail).all isNameChar :=
      h.uniform _ (List.mem_cons_of_mem _ List.mem_cons_self) c List.mem_cons_self
    have hturn : piece.all isNameChar ≠ (c :: tail).all isNameChar :=
      (List.isChain_cons_cons.mp h.turns).1
    rw [List.flatten_cons, List.cons_append, List.head?_cons, isNameEdge_some, hc,
      ← Bool.eq_not_of_ne hturn, hpiece]

/-- Stretch by stretch, renaming replaces those that are the old name. -/
theorem renameFrom_flatten (hne : old ≠ []) (hold : ∀ c ∈ old, isNameChar c)
    (h : InTurns pieces) (hlast : isNameEdge last) :
    renameFrom old new last pieces.flatten = (pieces.map (replaceName old new)).flatten := by
  induction pieces generalizing last with
  | nil => exact renameFrom_nil
  | cons piece pieces ih =>
    have htail : InTurns pieces :=
      ⟨fun p hp => h.ne_nil p (List.mem_cons_of_mem _ hp),
        fun p hp => h.uniform p (List.mem_cons_of_mem _ hp), h.turns.tail⟩
    have huniform := h.uniform piece List.mem_cons_self
    have hstart : isNameEdge none := rfl
    rw [List.flatten_cons, List.map_cons, List.flatten_cons, ← ih htail hstart]
    cases hkind : piece.all isNameChar with
    | true =>
      exact renameFrom_piece hne hold (h.isNameEdge_flatten hkind) (List.all_eq_true.mp hkind) hlast
    | false =>
      rw [hkind] at huniform
      have hother : piece ≠ old := by
        rintro rfl
        rw [List.all_eq_true.mpr hold] at hkind
        cases hkind
      rw [replaceName, if_neg hother, renameFrom_between hne hold huniform hlast]

theorem renameFrom_eq_flatten (hne : old ≠ []) (hold : ∀ c ∈ old, isNameChar c)
    (new text : List Char) : renameFrom old new none text =
      ((text.splitBy alike).map (replaceName old new)).flatten := by
  have hstart : isNameEdge none := rfl
  rw [← renameFrom_flatten hne hold (inTurns_splitBy text) hstart, List.flatten_splitBy]

end Renaming

theorem map_replaceName_ofList (old new : String) (pieces : List (List Char)) :
    (pieces.map (replaceName old.toList new.toList)).map String.ofList =
      (pieces.map String.ofList).map (replaceName old new) := by
  simp [← ofList_replaceName, Function.comp_def]

section Names

variable {old new : String} (hold : IsName old) (hne : old ≠ "")
include hold hne

theorem rename_eq_join (text new : String) :
    rename text old new = String.join ((stretches text).map (replaceName old new)) := by
  have hchars : old.toList ≠ [] := by simpa using hne
  apply String.toList_injective
  rw [rename, if_neg hne, String.toList_ofList, renameFrom_eq_flatten hchars hold,
    String.toList_join, stretches, ← map_replaceName_ofList]
  simp [List.flatMap_def, Function.comp_def]

theorem stretches_rename (hnew : IsName new) (hne' : new ≠ "") (text : String) :
    stretches (rename text old new) = (stretches text).map (replaceName old new) := by
  have hchars : old.toList ≠ [] := by simpa using hne
  have hchars' : new.toList ≠ [] := by simpa using hne'
  have hcut : (renameFrom old.toList new.toList none text.toList).splitBy alike =
      (text.toList.splitBy alike).map (replaceName old.toList new.toList) :=
    splitBy_alike_eq_iff.mpr ⟨renameFrom_eq_flatten hchars hold _ _,
      (inTurns_splitBy text.toList).replaced hold hnew hchars'⟩
  rw [rename, if_neg hne, stretches, String.toList_ofList, hcut, stretches, map_replaceName_ofList]

end Names

theorem map_replaceName_back {old new : String} {l : List String} (h : new ∉ l) :
    (l.map (replaceName old new)).map (replaceName new old) = l := by
  have hback : ∀ name ∈ l, (replaceName new old ∘ replaceName old new) name = id name := by
    intro name hname
    have hother : name ≠ new := ne_of_mem_of_not_mem hname h
    by_cases heq : name = old
    · subst heq
      simp [replaceName]
    · simp [replaceName, heq, hother]
  rw [List.map_map, List.map_congr_left hback, List.map_id]

theorem length_join_erased (old : String) (l : List String) :
    (String.join (l.map (replaceName old ""))).length + l.count old * old.length =
      (String.join l).length := by
  induction l with
  | nil => simp
  | cons name l ih =>
    rw [List.map_cons, String.join_cons, String.join_cons, String.length_append,
      String.length_append, ← ih, replaceName]
    split
    · next h =>
      subst h
      rw [List.count_cons_self, Nat.add_mul, String.length_empty]
      omega
    · next h =>
      rw [List.count_cons_of_ne h]
      omega

theorem join_erased_eq_iff {old : String} (hne : old ≠ "") (l : List String) :
    String.join (l.map (replaceName old "")) = String.join l ↔ old ∉ l := by
  constructor
  · intro h
    have hlength := length_join_erased old l
    have hpos : 0 < old.length := Nat.pos_of_ne_zero (by simpa using hne)
    rw [h, Nat.add_eq_left, Nat.mul_eq_zero] at hlength
    exact List.count_eq_zero.mp (hlength.resolve_right hpos.ne')
  · intro h
    rw [map_replaceName_of_notMem h]

/-- Renaming replaces the stretches that are the old name, each as a whole, and leaves all else as
it is. If no stretch is the new name, renaming back gives the text, unless a name was erased. -/
theorem rename_replaces_stretches {old : String} (hold : IsName old) (hne : old ≠ "")
    (text new : String) :
    rename text old new = String.join ((stretches text).map (replaceName old new)) ∧
      (IsName new → new ∉ stretches text →
        (rename (rename text old new) new old = text ↔ (new = "" → old ∉ stretches text))) := by
  refine ⟨rename_eq_join hold hne text new, fun hnew hfresh => ?_⟩
  by_cases hempty : new = ""
  · subst hempty
    have herased : rename text old "" = text ↔ old ∉ stretches text := by
      rw [rename_eq_join hold hne, ← join_erased_eq_iff hne, join_stretches]
    rw [rename, if_pos rfl, herased, imp_iff_right rfl]
  · refine iff_of_true ?_ fun h => absurd h hempty
    rw [rename_eq_join hnew hempty, stretches_rename hold hne hnew hempty,
      map_replaceName_back hfresh, join_stretches]

theorem rename_replaces_stretches_longerNames :
    IsName "aa" ∧ "aa" ≠ "" ∧
      stretches "aa = éaa + aaa\naa.b aa" =
        ["aa", " = ", "éaa", " + ", "aaa", "\n", "aa.b", " ", "aa"] ∧
      rename "aa = éaa + aaa\naa.b aa" "aa" "aa_1" = "aa_1 = éaa + aaa\naa.b aa_1" ∧
      IsName "aa_1" ∧ "aa_1" ∉ stretches "aa = éaa + aaa\naa.b aa" ∧
      rename (rename "aa = éaa + aaa\naa.b aa" "aa" "aa_1") "aa_1" "aa" =
        "aa = éaa + aaa\naa.b aa" := by
  have hold : IsName "aa" := by decide +kernel
  have hnew : IsName "aa_1" := by decide +kernel
  have hstretches : stretches "aa = éaa + aaa\naa.b aa" =
      ["aa", " = ", "éaa", " + ", "aaa", "\n", "aa.b", " ", "aa"] := by
    decide +kernel
  have hfresh : "aa_1" ∉ stretches "aa = éaa + aaa\naa.b aa" := by
    rw [hstretches]
    decide
  obtain ⟨hrename, hback⟩ :=
    rename_replaces_stretches hold (by decide) "aa = éaa + aaa\naa.b aa" "aa_1"
  refine ⟨hold, by decide, hstretches, ?_, hnew, hfresh, ?_⟩
  · rw [hrename, hstretches]
    decide
  · exact (hback hnew hfresh).mpr fun h => absurd h (by decide)

/-- A name that is erased does not come back. -/
theorem not_rename_back :
    ¬∀ text old new : String, IsName old → old ≠ "" →
      rename text old new = String.join ((stretches text).map (replaceName old new)) ∧
        (IsName new → new ∉ stretches text → rename (rename text old new) new old = text) := by
  intro h
  obtain ⟨-, hback⟩ := h "a = x" "x" "" (by decide +kernel) (by decide)
  have herased : rename "a = x" "x" "" = "a = " := by decide +kernel
  have hback := hback (by decide) (by decide +kernel)
  rw [herased, rename, if_pos rfl] at hback
  exact absurd hback (by decide)

end LoadOrder

import LoadOrder.Proofs.Definition.Index

namespace LoadOrder

/-- How a set of definitions came about. -/
inductive History
  | build (definitions : List Definition) (keepsDuplicates : Bool)
  | empty
  | add (before : History) (more : List Definition)
  | remove (before : History) (p : Definition → Bool)

def History.index : History → Index
  | build definitions keepsDuplicates => .build definitions keepsDuplicates
  | empty => .empty
  | add before more => before.index.add more
  | remove before p => before.index.remove p

/-- Everything that can be looked up in a set is found by a scan of its sequence, and no place is
kept that is outside of it. -/
structure Index.Faithful (index : Index) : Prop where
  places_lt : ∀ bucket ∈ index.byFile ++ index.byIdentity, ∀ i ∈ bucket.2, i < index.all.length
  inFile_eq : ∀ file, index.inFile file = index.all.filter (·.fileKey == Text.lowercase file)
  withIdentity_eq : ∀ identity,
    index.withIdentity identity = index.all.filter (·.identity == Text.lowercase identity)
  files_ascending : index.files.Pairwise (· < ·)
  mem_files : ∀ file, file ∈ index.files ↔ ∃ d ∈ index.all, d.fileKey = file
  identities_eq : index.identities = (index.all.map Definition.identity).eraseDups
  distinct : index.keepsDuplicates = false → index.all.Pairwise fun d d' =>
    ¬(d.modName = d'.modName ∧ d.fileKey = d'.fileKey ∧ d.identity = d'.identity)
  rebuilt : Index.build index.all index.keepsDuplicates = index

theorem keepLast_of_pairwise {definitions : List Definition}
    (h : definitions.Pairwise fun d d' => d'.sameSlot d = false) :
    keepLast definitions = definitions := by
  induction h with
  | nil => rfl
  | @cons d rest hd hrest ih =>
    have hnone : ¬rest.any (·.sameSlot d) := by
      rw [Bool.not_eq_true, List.any_eq_false]
      intro d' hd'
      simp [hd d' hd']
    rw [keepLast, if_neg hnone, ih]

namespace Index

variable (definitions : List Definition) (keepsDuplicates : Bool)

theorem build_all : build (build definitions keepsDuplicates).all keepsDuplicates =
    build definitions keepsDuplicates := by
  cases keepsDuplicates with
  | true => rfl
  | false =>
    have hkept : keepLast (keepLast definitions) = keepLast definitions :=
      keepLast_of_pairwise (keepLast_pairwise definitions)
    simp [build, hkept]

theorem pairwise_build : (build definitions false).all.Pairwise fun d d' =>
    ¬(d.modName = d'.modName ∧ d.fileKey = d'.fileKey ∧ d.identity = d'.identity) := by
  apply (keepLast_pairwise definitions).imp
  intro d d' hslot hsame
  rw [Definition.sameSlot_comm, Definition.sameSlot_iff.mpr hsame] at hslot
  cases hslot

theorem faithful_build : (build definitions keepsDuplicates).Faithful where
  places_lt :=
    List.forall_mem_append.mpr ⟨(holds_byFile _).places_lt, (holds_byIdentity _).places_lt⟩
  inFile_eq := inFile_build definitions keepsDuplicates
  withIdentity_eq := withIdentity_build definitions keepsDuplicates
  files_ascending := files_build_ascending
  mem_files _ := mem_files_build
  identities_eq := identities_build definitions keepsDuplicates
  distinct h := by
    cases keepsDuplicates with
    | true => cases h
    | false => exact pairwise_build definitions
  rebuilt := build_all definitions keepsDuplicates

end Index

/-- Whatever is added to a set and removed from it, its look-ups agree with its sequence. -/
theorem History.faithful (history : History) : history.index.Faithful := by
  -- every step indexes a sequence of its own, so what the set was before does not matter
  cases history with
  | build definitions keepsDuplicates => exact Index.faithful_build definitions keepsDuplicates
  | empty => exact Index.faithful_build [] false
  | add before more => exact Index.faithful_build _ _
  | remove before p => exact Index.faithful_build _ _

end LoadOrder

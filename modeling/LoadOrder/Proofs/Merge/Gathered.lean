import Mathlib.Data.List.Forall2
import LoadOrder.Proofs.Merge.FreshNames
import LoadOrder.Proofs.Merge.References

namespace LoadOrder

def Definition.namespaces (d : Definition) : List Definition :=
  d.scope.filter (·.kind == .namespace)

/-- An export set with one more object, after what supports it. -/
def gather (exported : List Definition) (owner : Definition) : List Definition :=
  (foldSupport exported owner).1 ++ [(foldSupport exported owner).2]

def gathered (owners : List Definition) : List Definition := owners.foldl gather []

/-- The names of the variables differ, whatever the case of the letters A to Z, and so does the code
of the namespaces, whatever its spaces and tabs. -/
structure Tidy (exported : List Definition) : Prop where
  names_apart : (exported.filter (·.kind == .variable)).Pairwise fun v v' =>
    Text.sameIgnoringCase v.id v'.id = false
  namespaces_apart : (exported.filter (·.kind == .namespace)).Pairwise fun ns ns' =>
    Line.squeeze ns.code ≠ Line.squeeze ns'.code

theorem tidy_nil : Tidy [] := ⟨.nil, .nil⟩

variable {exported : List Definition} {owner : Definition}

theorem Tidy.snoc (h : Tidy exported) {d : Definition}
    (hvariable : d.kind = .variable →
      ∀ v ∈ exported, v.kind = .variable → Text.sameIgnoringCase v.id d.id = false)
    (hnamespace : d.kind = .namespace →
      ∀ ns ∈ exported, ns.kind = .namespace → Line.squeeze ns.code ≠ Line.squeeze d.code) :
    Tidy (exported ++ [d]) := by
  constructor
  · rw [List.filter_append, List.pairwise_append]
    refine ⟨h.names_apart, (List.pairwise_singleton _ d).filter _, fun v hv d' hd' => ?_⟩
    simp only [List.mem_filter, List.mem_singleton, beq_iff_eq] at hv hd'
    obtain ⟨rfl, hkind⟩ := hd'
    exact hvariable hkind v hv.1 hv.2
  · rw [List.filter_append, List.pairwise_append]
    refine ⟨h.namespaces_apart, (List.pairwise_singleton _ d).filter _, fun ns hns d' hd' => ?_⟩
    simp only [List.mem_filter, List.mem_singleton, beq_iff_eq] at hns hd'
    obtain ⟨rfl, hkind⟩ := hd'
    exact hnamespace hkind ns hns.1 hns.2

theorem declares_iff {ns : Definition} : declares exported ns ↔
    ∃ d ∈ exported, d.kind = .namespace ∧ Line.squeeze d.code = Line.squeeze ns.code := by
  simp [declares]

theorem Tidy.foldNamespaces (h : Tidy exported) (owner : Definition) :
    Tidy (foldNamespaces exported owner) := by
  refine List.foldlRecOn _ _ (motive := Tidy) h fun exported' h' ns hns => ?_
  have hkind : ns.kind = .namespace := beq_iff_eq.mp (List.mem_filter.mp hns).2
  split
  · exact h'
  · next hnew =>
    refine h'.snoc (fun hvariable => ?_) fun _ d hd hdkind hsame => ?_
    · rw [Definition.inBlockOf, hkind] at hvariable
      cases hvariable
    · exact hnew (declares_iff.mpr ⟨d, hd, hdkind, hsame⟩)

theorem Tidy.foldVariable {state : List Definition × Definition} (h : Tidy state.1)
    {v : Definition} (hkind : v.kind = .variable) : Tidy (foldVariable state v).1 := by
  refine h.snoc (fun _ d hd _ => ?_) fun hnamespace => ?_
  · have hfree := isTaken_freeName state.1 v.id
    rw [isTaken, List.any_eq_false] at hfree
    exact Bool.eq_false_iff.mpr (hfree d hd)
  · rw [Definition.inBlockOf, Definition.renamed, hkind] at hnamespace
    cases hnamespace

theorem Tidy.foldSupport (h : Tidy exported) (owner : Definition) :
    Tidy (foldSupport exported owner).1 := by
  refine List.foldlRecOn _ _ (motive := fun state : List Definition × Definition => Tidy state.1)
    (h.foldNamespaces owner) fun state hstate v hv => ?_
  exact hstate.foldVariable (beq_iff_eq.mp (List.mem_filter.mp hv).2)

theorem Tidy.gather (h : Tidy exported) (howner : owner.isSupport = false) :
    Tidy (gather exported owner) := by
  have hobject := (foldSupport_extends exported owner).2.isSupport_eq
  rw [howner] at hobject
  refine (h.foldSupport owner).snoc (fun hkind => ?_) fun hkind => ?_
  · rw [Definition.isSupport, hkind] at hobject
    cases hobject
  · rw [Definition.isSupport, hkind] at hobject
    cases hobject

theorem declares_append {ns : Definition} (h : declares exported ns) (added : List Definition) :
    declares (exported ++ added) ns := by
  rw [declares, List.any_append, Bool.or_eq_true]
  exact .inl h

theorem declares_foldNamespaces {ns : Definition} (h : ns ∈ owner.namespaces) :
    declares (foldNamespaces exported owner) ns := by
  have hkind : ns.kind = .namespace := beq_iff_eq.mp (List.mem_filter.mp h).2
  obtain ⟨before, after, hsplit⟩ := List.append_of_mem h
  rw [Definition.namespaces] at hsplit
  rw [foldNamespaces, hsplit, List.foldl_append, List.foldl_cons]
  refine List.foldlRecOn _ _ (motive := (declares · ns)) ?_ fun exported' h' ns' _ => ?_
  · split
    · assumption
    · exact declares_iff.mpr ⟨_, List.mem_append_right _ List.mem_cons_self, hkind, rfl⟩
  · split
    · exact h'
    · exact declares_append h' _

theorem declares_foldSupport {ns : Definition} (h : ns ∈ owner.namespaces) :
    declares (foldSupport exported owner).1 ns := by
  obtain ⟨⟨added, hadded, -⟩, -⟩ := foldVariables_extends (foldNamespaces exported owner) owner
  rw [foldSupport, hadded]
  exact declares_append (declares_foldNamespaces h) added

theorem exists_gather_eq (exported : List Definition) (owner : Definition) :
    ∃ added, gather exported owner = exported ++ added := by
  obtain ⟨⟨added, hadded, -⟩, -⟩ := foldSupport_extends exported owner
  exact ⟨added ++ [(foldSupport exported owner).2], by rw [gather, hadded, List.append_assoc]⟩

theorem declares_gathered {owners : List Definition} {ns : Definition} (howner : owner ∈ owners)
    (h : ns ∈ owner.namespaces) : declares (gathered owners) ns := by
  obtain ⟨before, after, rfl⟩ := List.append_of_mem howner
  rw [gathered, List.foldl_append, List.foldl_cons]
  refine List.foldlRecOn _ _ (motive := (declares · ns)) ?_ fun exported h' owner' _ => ?_
  · exact declares_append (declares_foldSupport h) _
  · obtain ⟨added, hadded⟩ := exists_gather_eq exported owner'
    rw [hadded]
    exact declares_append h' added

theorem tidy_gathered {owners : List Definition}
    (h : ∀ owner ∈ owners, owner.isSupport = false) : Tidy (gathered owners) :=
  List.foldlRecOn _ _ (motive := Tidy) tidy_nil fun _ hexported owner howner =>
    hexported.gather (h owner howner)

/-- What a fold makes of a tidy export set. -/
structure Folds (exported : List Definition) (owner : Definition) (folded : List Definition) :
    Prop where
  kept : exported <+: folded
  tidy : Tidy folded
  brought : List.Forall₂ (IsBrought owner) owner.variables
    ((folded.drop exported.length).filter (·.kind == .variable))

theorem forall₂_foldedVariables (exported : List Definition) (owner : Definition) :
    List.Forall₂ (IsBrought owner) owner.variables (foldedVariables exported owner) := by
  obtain ⟨pairs, hold, hnew, hall⟩ := exists_brought exported owner
  rwa [← hold, ← hnew, List.forall₂_map_left_iff, List.forall₂_map_right_iff, List.forall₂_same]

theorem folds_foldSupport (h : Tidy exported) (owner : Definition) :
    Folds exported owner (foldSupport exported owner).1 := by
  obtain ⟨⟨added, hadded, -⟩, -⟩ := foldSupport_extends exported owner
  exact ⟨⟨added, hadded.symm⟩, h.foldSupport owner, forall₂_foldedVariables exported owner⟩

/-- In an export set of objects no two variables have the same name, no namespace is declared twice,
and every namespace of an object is declared. Every fold on the way leaves what is there in front
and adds one variable for each one of the object, in order and in the object's block. -/
theorem gathered_tidy {owners : List Definition}
    (hobjects : ∀ owner ∈ owners, owner.isSupport = false) :
    Tidy (gathered owners) ∧
      (∀ owner ∈ owners, ∀ ns ∈ owner.namespaces, ∃ d ∈ gathered owners,
        d.kind = .namespace ∧ Line.squeeze d.code = Line.squeeze ns.code) ∧
      ∀ before owner after, owners = before ++ owner :: after →
        Folds (gathered before) owner (foldSupport (gathered before) owner).1 := by
  refine ⟨tidy_gathered hobjects, fun owner howner ns hns => ?_,
    fun before owner after hsplit => ?_⟩
  · exact declares_iff.mp (declares_gathered howner hns)
  · refine folds_foldSupport (tidy_gathered fun owner' howner' => ?_) owner
    exact hobjects owner' (by rw [hsplit]; exact List.mem_append_left _ howner')

def namespaceOf (code : String) : Definition :=
  { Definition.blank with id := "ev", kind := .namespace, code, originalCode := code }

/-- Objects of one block that bring a variable of the same name, in capitals or not, and the same
namespace, spaced out or not. -/
def twoOwners : List Definition :=
  let owner (id name namespaceCode : String) : Definition := {
    Definition.blank with
    id
    code := id ++ " = " ++ name
    originalCode := id ++ " = " ++ name
    codeTag := "NGame"
    codeSeparator := "\x7b"
    scope := [variableOfOne name, namespaceOf namespaceCode] }
  [owner "START" "x" "namespace = ev", owner "END" "X" "namespace=  ev"]

theorem gathered_tidy_twoOwners :
    (∀ owner ∈ twoOwners, owner.isSupport = false) ∧ Tidy (gathered twoOwners) ∧
      (gathered twoOwners).map (·.id) = ["ev", "x_1", "START", "X_2", "END"] := by
  have hobjects : ∀ owner ∈ twoOwners, owner.isSupport = false := by decide
  exact ⟨hobjects, (gathered_tidy hobjects).1, by decide +kernel⟩

end LoadOrder

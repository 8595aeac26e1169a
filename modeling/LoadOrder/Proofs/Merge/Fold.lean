import LoadOrder.Merge.Fold
import LoadOrder.Proofs.Merge.Names

namespace LoadOrder

/-- The second export set is the first with variables and namespaces after it. -/
def ExtendedBySupport (exported exported' : List Definition) : Prop :=
  ∃ added, exported' = exported ++ added ∧ ∀ d ∈ added, d.isSupport

theorem extendedBySupport_refl (exported : List Definition) :
    ExtendedBySupport exported exported :=
  ⟨[], (List.append_nil exported).symm, fun _ hd => absurd hd List.not_mem_nil⟩

theorem ExtendedBySupport.snoc {exported exported' : List Definition}
    (h : ExtendedBySupport exported exported') {d : Definition} (hd : d.isSupport) :
    ExtendedBySupport exported (exported' ++ [d]) := by
  obtain ⟨added, rfl, hadded⟩ := h
  refine ⟨added ++ [d], List.append_assoc .., fun d' hd' => ?_⟩
  rcases List.mem_append.mp hd' with hd' | hd'
  · exact hadded d' hd'
  · rwa [List.mem_singleton.mp hd']

/-- The second definition is the first up to the names in its code. -/
def SameButCode (d d' : Definition) : Prop :=
  ∃ code originalCode, d' = { d with code := code, originalCode := originalCode }

theorem sameButCode_refl (d : Definition) : SameButCode d d :=
  ⟨d.code, d.originalCode, by cases d; rfl⟩

theorem SameButCode.identity_eq {d d' : Definition} (h : SameButCode d d') :
    d'.identity = d.identity := by
  obtain ⟨code, originalCode, rfl⟩ := h
  rfl

theorem SameButCode.isSupport_eq {d d' : Definition} (h : SameButCode d d') :
    d'.isSupport = d.isSupport := by
  obtain ⟨code, originalCode, rfl⟩ := h
  rfl

theorem foldNamespaces_extends (exported : List Definition) (owner : Definition) :
    ExtendedBySupport exported (foldNamespaces exported owner) := by
  refine List.foldlRecOn _ _ (motive := ExtendedBySupport exported)
    (extendedBySupport_refl exported) fun exported' h ns hns => ?_
  have hkind : ns.kind = .namespace := beq_iff_eq.mp (List.mem_filter.mp hns).2
  split
  · exact h
  · apply h.snoc
    rw [Definition.isSupport, Definition.inBlockOf, hkind]
    rfl

theorem foldVariables_extends (exported : List Definition) (owner : Definition) :
    ExtendedBySupport exported (foldVariables exported owner).1 ∧
      SameButCode owner (foldVariables exported owner).2 := by
  refine List.foldlRecOn _ _
    (motive := fun state : List Definition × Definition =>
      ExtendedBySupport exported state.1 ∧ SameButCode owner state.2)
    ⟨extendedBySupport_refl exported, sameButCode_refl owner⟩ fun state h v hv => ⟨?_, ?_⟩
  · have hkind : v.kind = .variable := beq_iff_eq.mp (List.mem_filter.mp hv).2
    apply h.1.snoc
    simp only [Definition.isSupport, Definition.inBlockOf, Definition.renamed, hkind]
    rfl
  · obtain ⟨-, code, originalCode, howner⟩ := h
    rw [foldVariable, howner]
    exact ⟨_, _, rfl⟩

/-- Folding adds variables and namespaces and changes nothing of the owner but its code. -/
theorem foldSupport_extends (exported : List Definition) (owner : Definition) :
    ExtendedBySupport exported (foldSupport exported owner).1 ∧
      SameButCode owner (foldSupport exported owner).2 := by
  obtain ⟨added, hadded, hsupport⟩ := foldNamespaces_extends exported owner
  obtain ⟨⟨added', hadded', hsupport'⟩, hsame⟩ :=
    foldVariables_extends (foldNamespaces exported owner) owner
  refine ⟨⟨added ++ added', ?_, fun d hd => ?_⟩, hsame⟩
  · rw [foldSupport, hadded', hadded, List.append_assoc]
  · rcases List.mem_append.mp hd with hd | hd
    · exact hsupport d hd
    · exact hsupport' d hd

/-- At any two places the names are equal after if and only if they were before. -/
def KeptApart (before after : List String) : Prop :=
  before.length = after.length ∧
    ∀ i < before.length, ∀ j < before.length, after[i]? = after[j]? ↔ before[i]? = before[j]?

theorem keptApart_map_iff (l : List String) (f : String → String) :
    KeptApart l (l.map f) ↔ ∀ a ∈ l, ∀ b ∈ l, f a = f b → a = b := by
  simp only [KeptApart, List.length_map, true_and, List.getElem?_map]
  constructor
  · intro h a ha b hb hab
    obtain ⟨i, hi, rfl⟩ := List.mem_iff_getElem.mp ha
    obtain ⟨j, hj, rfl⟩ := List.mem_iff_getElem.mp hb
    have hij := (h i hi j hj).mp
    rw [List.getElem?_eq_getElem hi, List.getElem?_eq_getElem hj] at hij
    exact Option.some.inj (hij (congrArg some hab))
  · intro h i hi j hj
    rw [List.getElem?_eq_getElem hi, List.getElem?_eq_getElem hj, Option.map_some,
      Option.map_some, Option.some_inj, Option.some_inj]
    exact ⟨h _ (List.getElem_mem hi) _ (List.getElem_mem hj), fun hab => congrArg f hab⟩

/-- Two changes keep the names apart exactly if each of them does. -/
theorem keptApart_map_map (l : List String) (f g : String → String) :
    KeptApart l ((l.map f).map g) ↔
      KeptApart l (l.map f) ∧ KeptApart (l.map f) ((l.map f).map g) := by
  rw [List.map_map, keptApart_map_iff, keptApart_map_iff, ← List.map_map, keptApart_map_iff]
  simp only [List.forall_mem_map, Function.comp_apply]
  constructor
  · intro h
    exact ⟨fun a ha b hb hab => h a ha b hb (congrArg g hab),
      fun a ha b hb hab => congrArg f (h a ha b hb hab)⟩
  · rintro ⟨hf, hg⟩ a ha b hb hab
    exact hf a ha b hb (hg a ha b hb hab)

theorem keptApart_map_replaceName (l : List String) {old new : String} (hne : new ≠ old) :
    KeptApart l (l.map (replaceName old new)) ↔ (old ∈ l → new ∉ l) := by
  rw [keptApart_map_iff]
  have hold : replaceName old new old = new := if_pos rfl
  have hother : ∀ name, name ≠ old → replaceName old new name = name := fun name h => if_neg h
  constructor
  · intro h holdmem hnewmem
    exact hne (h new hnewmem old holdmem ((hother new hne).trans hold.symm))
  · intro h a ha b hb hab
    by_cases hao : a = old
    · by_cases hbo : b = old
      · rw [hao, hbo]
      · rw [hao, hold, hother b hbo] at hab
        exact absurd (hab ▸ hb) (h (hao ▸ ha))
    · by_cases hbo : b = old
      · rw [hbo, hold, hother a hao] at hab
        exact absurd (hab ▸ ha) (h (hbo ▸ hb))
      · rwa [hother a hao, hother b hbo] at hab

def Renames (text : Definition → String) : Prop :=
  ∀ d old new, text (d.renamed old new) = rename (text d) old new

theorem renames_code : Renames Definition.code := fun _ _ _ => rfl

theorem renames_originalCode : Renames Definition.originalCode := fun _ _ _ => rfl

/-- Every variable that the owner uses gets a name that the owner does not use, when its turn
comes. -/
def FreshInOwner (text : Definition → String) (start : List Definition × Definition)
    (folded : List Definition) : Prop :=
  ∀ before v after, folded = before ++ v :: after →
    let (exported, owner) := before.foldl foldVariable start
    v.id ∈ names (text owner) → freeName exported v.id ∉ names (text owner)

theorem freshInOwner_cons (text : Definition → String) (exported : List Definition)
    (owner v : Definition) (folded : List Definition) :
    FreshInOwner text (exported, owner) (v :: folded) ↔
      (v.id ∈ names (text owner) → freeName exported v.id ∉ names (text owner)) ∧
        FreshInOwner text (foldVariable (exported, owner) v) folded := by
  constructor
  · intro h
    refine ⟨h [] v folded rfl, fun before w after heq => ?_⟩
    exact h (v :: before) w after (congrArg (v :: ·) heq)
  · rintro ⟨hv, hrest⟩ before w after heq
    cases before with
    | nil =>
      obtain ⟨rfl, -⟩ := List.cons.inj heq
      exact hv
    | cons u before =>
      obtain ⟨rfl, hrest'⟩ := List.cons.inj heq
      exact hrest before w after hrest'

theorem names_foldVariable {text : Definition → String} (htext : Renames text)
    (exported : List Definition) (owner : Definition) {v : Definition} (hv : IsName v.id) :
    names (text (foldVariable (exported, owner) v).2) =
      (names (text owner)).map (replaceName v.id (freeName exported v.id)) := by
  rw [foldVariable, htext]
  exact names_rename _ hv (isName_freeName exported hv) (freeName_ne_empty exported v.id)

theorem exists_map_of_foldl_foldVariable {text : Definition → String} (htext : Renames text)
    (folded : List Definition) (hids : ∀ v ∈ folded, IsName v.id)
    (state : List Definition × Definition) :
    ∃ f, names (text (folded.foldl foldVariable state).2) = (names (text state.2)).map f := by
  induction folded generalizing state with
  | nil => exact ⟨id, (List.map_id _).symm⟩
  | cons v folded ih =>
    rw [List.forall_mem_cons] at hids
    obtain ⟨f, hf⟩ := ih hids.2 (foldVariable state v)
    rw [names_foldVariable htext state.1 state.2 hids.1, List.map_map] at hf
    exact ⟨_, hf⟩

theorem keptApart_foldl_foldVariable_iff {text : Definition → String} (htext : Renames text)
    (folded : List Definition) (hids : ∀ v ∈ folded, IsName v.id)
    (exported : List Definition) (owner : Definition) :
    KeptApart (names (text owner))
        (names (text (folded.foldl foldVariable (exported, owner)).2)) ↔
      FreshInOwner text (exported, owner) folded := by
  induction folded generalizing exported owner with
  | nil => simp [KeptApart, FreshInOwner]
  | cons v folded ih =>
    rw [List.forall_mem_cons] at hids
    obtain ⟨f, hf⟩ := exists_map_of_foldl_foldVariable htext folded hids.2
      (foldVariable (exported, owner) v)
    have hstep := names_foldVariable htext exported owner hids.1
    have hrest := ih hids.2 (foldVariable (exported, owner) v).1 (foldVariable (exported, owner) v).2
    rw [hf, hstep] at hrest
    -- the names are kept apart if the first step and the rest of the run keep them apart
    rw [List.foldl_cons, hf, hstep, keptApart_map_map, hrest,
      keptApart_map_replaceName _ (freeName_ne exported v.id), freshInOwner_cons]

/-- The names of an owner are kept apart exactly if no fresh name is one that it uses. -/
theorem foldSupport_keptApart_iff (exported : List Definition) (owner : Definition)
    (hids : ∀ v ∈ owner.scope, v.kind = .variable → IsName v.id)
    {text : Definition → String} (htext : text = Definition.code ∨ text = Definition.originalCode) :
    KeptApart (names (text owner)) (names (text (foldSupport exported owner).2)) ↔
      FreshInOwner text (foldNamespaces exported owner, owner)
        (owner.scope.filter (·.kind == .variable)) := by
  have hrenames : Renames text := by
    rcases htext with rfl | rfl
    · exact renames_code
    · exact renames_originalCode
  apply keptApart_foldl_foldVariable_iff hrenames
  intro v hv
  rw [List.mem_filter, beq_iff_eq] at hv
  exact hids v hv.1 hv.2

def variableOfOne (id : String) : Definition :=
  { Definition.blank with
    id, kind := .variable
    code := id ++ " = 1"
    originalCode := id ++ " = 1" }

def ownerOfTwo : Definition :=
  { Definition.blank with
    id := "A"
    code := "A = \x7b p = x q = x_1 \x7d"
    originalCode := "A = \x7b p = x q = x_1 \x7d"
    scope := [variableOfOne "x", variableOfOne "x_1"] }

theorem isName_ownerOfTwo : ∀ v ∈ ownerOfTwo.scope, IsName v.id := by
  decide +kernel

theorem names_ownerOfTwo : names ownerOfTwo.originalCode = ["A", "p", "x", "q", "x_1"] := by
  decide +kernel

theorem names_foldSupport_ownerOfTwo :
    names (foldSupport [] ownerOfTwo).2.originalCode = ["A", "p", "x_1_2", "q", "x_1_2"] := by
  have hx : IsName (variableOfOne "x").id := isName_ownerOfTwo _ (.head _)
  have hx₁ : IsName (variableOfOne "x_1").id := isName_ownerOfTwo _ (.tail _ (.head _))
  let state := foldVariable ([], ownerOfTwo) (variableOfOne "x")
  have hfirst : freeName [] "x" = "x_1" := by decide +kernel
  have hsecond : freeName state.1 "x_1" = "x_1_2" := by decide +kernel
  calc names (foldSupport [] ownerOfTwo).2.originalCode
      = names (foldVariable (state.1, state.2) (variableOfOne "x_1")).2.originalCode := rfl
    _ = (names state.2.originalCode).map (replaceName "x_1" (freeName state.1 "x_1")) :=
        names_foldVariable renames_originalCode state.1 state.2 hx₁
    _ = ((names ownerOfTwo.originalCode).map (replaceName "x" (freeName [] "x"))).map
          (replaceName "x_1" "x_1_2") := by
        rw [hsecond, names_foldVariable renames_originalCode [] ownerOfTwo hx]
        rfl
    _ = ["A", "p", "x_1_2", "q", "x_1_2"] := by
        rw [names_ownerOfTwo, hfirst]
        decide

/-- References to two variables of one owner end up as the same name. -/
theorem foldSupport_ownerOfTwo_not_keptApart :
    (ownerOfTwo.scope.map (·.id)).Nodup ∧ (∀ v ∈ ownerOfTwo.scope, IsName v.id) ∧
      ¬ KeptApart (names ownerOfTwo.originalCode)
        (names (foldSupport [] ownerOfTwo).2.originalCode) := by
  refine ⟨by decide, isName_ownerOfTwo, fun h => ?_⟩
  rw [names_ownerOfTwo, names_foldSupport_ownerOfTwo] at h
  have hsame := (h.2 2 (by decide) 4 (by decide)).mp rfl
  exact absurd hsame (by decide)

theorem foldSupport_ownerOfTwo_not_fresh :
    (∀ v ∈ ownerOfTwo.scope, v.kind = .variable → IsName v.id) ∧
      ¬ FreshInOwner Definition.originalCode (foldNamespaces [] ownerOfTwo, ownerOfTwo)
        (ownerOfTwo.scope.filter (·.kind == .variable)) := by
  have hids : ∀ v ∈ ownerOfTwo.scope, v.kind = .variable → IsName v.id :=
    fun v hv _ => isName_ownerOfTwo v hv
  refine ⟨hids, fun hfresh => ?_⟩
  have h := (foldSupport_keptApart_iff [] ownerOfTwo hids (.inr rfl)).mpr hfresh
  rw [names_ownerOfTwo, names_foldSupport_ownerOfTwo] at h
  have hsame := (h.2 2 (by decide) 4 (by decide)).mp rfl
  exact absurd hsame (by decide)

end LoadOrder

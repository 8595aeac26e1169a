import Mathlib.Data.List.Nodup
import LoadOrder.Definition.Extract
import LoadOrder.Proofs.Merge.Fold
import LoadOrder.Proofs.Success

namespace LoadOrder

def Definition.variables (d : Definition) : List Definition := d.scope.filter (·.kind == .variable)

def foldedVariables (exported : List Definition) (owner : Definition) : List Definition :=
  ((foldSupport exported owner).1.drop exported.length).filter (·.kind == .variable)

section References

variable (text : Definition → String) (old new : List Definition)

/-- No added variable mentions the old name of a variable, unless it is a new name as well. -/
def Closed : Prop := ∀ c ∈ new, ∀ v ∈ old, v.id ∈ names (text c) → v.id ∈ new.map (·.id)

instance : Decidable (Closed text old new) :=
  inferInstanceAs (Decidable (∀ c ∈ new, ∀ v ∈ old, v.id ∈ names (text c) → v.id ∈ new.map (·.id)))

/-- Where a variable mentions a variable, the added one mentions what has become of that one. -/
def FollowsRenaming : Prop :=
  ∀ p ∈ old.zip new, ∀ q ∈ old.zip new, ∀ i : Nat,
    (names (text p.1))[i]? = some q.1.id → (names (text p.2))[i]? = some q.2.id

/-- No variable mentions another one, apart from those with certain names. -/
def Independent (apart : List String) : Prop :=
  ∀ v ∈ old, ∀ w ∈ old, w.id ∈ names (text v) → w.id = v.id ∨ w.id ∈ apart

end References

/-- A variable under another name, in its own code as well. -/
structure IsRenamed (v copy : Definition) : Prop where
  kind : copy.kind = v.kind
  fresh : ∃ exported, copy.id = freeName exported v.id
  code : copy.code = rename v.code v.id copy.id
  originalCode : copy.originalCode = rename v.originalCode v.id copy.id

/-- A variable as an owner brings it along: under another name, in the owner's block. -/
structure IsBrought (owner v copy : Definition) : Prop extends IsRenamed v copy where
  codeTag : copy.codeTag = owner.codeTag
  codeSeparator : copy.codeSeparator = owner.codeSeparator

theorem isBrought_foldVariable (exported : List Definition) (owner v : Definition) :
    ∃ copy, (foldVariable (exported, owner) v).1 = exported ++ [copy] ∧ IsBrought owner v copy :=
  ⟨_, rfl, ⟨rfl, ⟨exported, rfl⟩, rfl, rfl⟩, rfl, rfl⟩

variable {text : Definition → String} {v copy : Definition}

theorem IsRenamed.id_ne (h : IsRenamed v copy) : copy.id ≠ v.id := by
  obtain ⟨exported, hid⟩ := h.fresh
  rw [hid]
  exact freeName_ne exported v.id

theorem IsRenamed.names_eq (h : IsRenamed v copy) (hv : IsName v.id)
    (htext : text = Definition.code ∨ text = Definition.originalCode) :
    names (text copy) = (names (text v)).map (replaceName v.id copy.id) := by
  obtain ⟨exported, hid⟩ := h.fresh
  have hname : IsName copy.id := hid ▸ isName_freeName exported hv
  have hne : copy.id ≠ "" := hid ▸ freeName_ne_empty exported v.id
  rcases htext with rfl | rfl
  · rw [h.code, names_rename _ hv hname hne]
  · rw [h.originalCode, names_rename _ hv hname hne]

theorem mem_map_replaceName {l : List String} {old new name : String} :
    name ∈ l.map (replaceName old new) ↔ name = new ∧ old ∈ l ∨ name ∈ l ∧ name ≠ old := by
  unfold replaceName
  constructor
  · intro h
    obtain ⟨other, hother, rfl⟩ := List.mem_map.mp h
    split
    · next heq => exact .inl ⟨rfl, heq ▸ hother⟩
    · next hne => exact .inr ⟨hother, hne⟩
  · rintro (⟨rfl, hold⟩ | ⟨hname, hne⟩)
    · exact List.mem_map.mpr ⟨old, hold, if_pos rfl⟩
    · exact List.mem_map.mpr ⟨name, hname, if_neg hne⟩

theorem exists_pairs_of_foldl (folded : List Definition) (state : List Definition × Definition) :
    ∃ pairs : List (Definition × Definition), pairs.map Prod.fst = folded ∧
      (folded.foldl foldVariable state).1 = state.1 ++ pairs.map Prod.snd ∧
      ∀ p ∈ pairs, IsBrought state.2 p.1 p.2 := by
  induction folded generalizing state with
  | nil => exact ⟨[], rfl, (List.append_nil _).symm, by simp⟩
  | cons v folded ih =>
    obtain ⟨copy, hcopy, hbrought⟩ := isBrought_foldVariable state.1 state.2 v
    obtain ⟨pairs, hold, hnew, hall⟩ := ih (foldVariable state v)
    refine ⟨(v, copy) :: pairs, by rw [List.map_cons, hold], ?_, ?_⟩
    · rw [List.foldl_cons, hnew, hcopy, List.append_assoc, List.singleton_append, List.map_cons]
    · rw [List.forall_mem_cons]
      exact ⟨hbrought, fun p hp => ⟨(hall p hp).1, (hall p hp).2, (hall p hp).3⟩⟩

theorem foldNamespaces_adds (exported : List Definition) (owner : Definition) :
    ∃ added, foldNamespaces exported owner = exported ++ added ∧
      ∀ d ∈ added, d.kind = .namespace := by
  refine List.foldlRecOn _ _
    (motive := fun exported' => ∃ added, exported' = exported ++ added ∧
      ∀ d ∈ added, d.kind = .namespace)
    ⟨[], (List.append_nil _).symm, by simp⟩ fun exported' h ns hns => ?_
  obtain ⟨added, rfl, hadded⟩ := h
  have hkind : ns.kind = .namespace := beq_iff_eq.mp (List.mem_filter.mp hns).2
  split
  · exact ⟨added, rfl, hadded⟩
  · refine ⟨added ++ [ns.inBlockOf owner], List.append_assoc .., fun d hd => ?_⟩
    rcases List.mem_append.mp hd with hd | hd
    · exact hadded d hd
    · rw [List.mem_singleton.mp hd]
      exact hkind

/-- Every variable of an owner has one that is added for it, and no others are added. -/
theorem exists_brought (exported : List Definition) (owner : Definition) :
    ∃ pairs : List (Definition × Definition), pairs.map Prod.fst = owner.variables ∧
      pairs.map Prod.snd = foldedVariables exported owner ∧
      ∀ p ∈ pairs, IsBrought owner p.1 p.2 := by
  obtain ⟨added, hadded, hnamespaces⟩ := foldNamespaces_adds exported owner
  obtain ⟨pairs, hold, hnew, hall⟩ :=
    exists_pairs_of_foldl owner.variables (foldNamespaces exported owner, owner)
  have hfolded : (foldSupport exported owner).1 = exported ++ (added ++ pairs.map Prod.snd) := by
    rw [← List.append_assoc, ← hadded]
    exact hnew
  have hnone : added.filter (·.kind == .variable) = [] := by
    rw [List.filter_eq_nil_iff]
    intro d hd
    rw [hnamespaces d hd]
    decide
  have hvariables : (pairs.map Prod.snd).filter (·.kind == .variable) = pairs.map Prod.snd := by
    rw [List.filter_eq_self, List.forall_mem_map]
    intro p hp
    have hmem : p.1 ∈ owner.variables := hold ▸ List.mem_map_of_mem hp
    rw [(hall p hp).kind]
    exact (List.mem_filter.mp hmem).2
  refine ⟨pairs, hold, ?_, hall⟩
  rw [foldedVariables, hfolded, List.drop_left, List.filter_append, hnone, hvariables,
    List.nil_append]

theorem exists_pairs (exported : List Definition) (owner : Definition) :
    ∃ pairs : List (Definition × Definition), pairs.map Prod.fst = owner.variables ∧
      pairs.map Prod.snd = foldedVariables exported owner ∧ ∀ p ∈ pairs, IsRenamed p.1 p.2 := by
  obtain ⟨pairs, hold, hnew, hall⟩ := exists_brought exported owner
  exact ⟨pairs, hold, hnew, fun p hp => (hall p hp).toIsRenamed⟩

section Pairs

variable {pairs : List (Definition × Definition)} {p : Definition × Definition}
  (hall : ∀ p ∈ pairs, IsRenamed p.1 p.2) (hids : ∀ p ∈ pairs, IsName p.1.id)
  (htext : text = Definition.code ∨ text = Definition.originalCode)
include hall hids htext

theorem mem_names_copy_iff (hp : p ∈ pairs) (name : String) :
    name ∈ names (text p.2) ↔
      name = p.2.id ∧ p.1.id ∈ names (text p.1) ∨ name ∈ names (text p.1) ∧ name ≠ p.1.id := by
  rw [(hall p hp).names_eq (hids p hp) htext, mem_map_replaceName]

theorem closed_iff : Closed text (pairs.map Prod.fst) (pairs.map Prod.snd) ↔
    Independent text (pairs.map Prod.fst) ((pairs.map Prod.snd).map (·.id)) := by
  simp only [Closed, Independent, List.forall_mem_map]
  constructor
  · intro h p hp q hq hmem
    by_cases hown : q.1.id = p.1.id
    · exact .inl hown
    · exact .inr (h p hp q hq ((mem_names_copy_iff hall hids htext hp _).mpr (.inr ⟨hmem, hown⟩)))
  · intro h p hp q hq hmem
    rcases (mem_names_copy_iff hall hids htext hp _).mp hmem with ⟨hnew, -⟩ | ⟨hold, hother⟩
    · rw [hnew]
      exact List.mem_map_of_mem (List.mem_map_of_mem hp)
    · exact (h p hp q hq hold).resolve_left hother

theorem followsRenaming_iff (hnodup : ((pairs.map Prod.fst).map (·.id)).Nodup) :
    FollowsRenaming text (pairs.map Prod.fst) (pairs.map Prod.snd) ↔
      Independent text (pairs.map Prod.fst) [] := by
  have hzip : (pairs.map Prod.fst).zip (pairs.map Prod.snd) = pairs :=
    (List.zip_of_prod rfl rfl).symm
  simp only [FollowsRenaming, hzip, Independent, List.forall_mem_map, List.not_mem_nil, or_false]
  constructor
  · intro h p hp q hq hmem
    by_contra hother
    obtain ⟨i, hi⟩ := List.mem_iff_getElem?.mp hmem
    have hcopy := h p hp q hq i hi
    rw [(hall p hp).names_eq (hids p hp) htext, List.getElem?_map, hi, Option.map_some,
      replaceName, if_neg hother] at hcopy
    exact (hall q hq).id_ne (Option.some.inj hcopy).symm
  · intro h p hp q hq i hi
    have hsame : q.1.id = p.1.id := h p hp q hq (List.mem_of_getElem? hi)
    rw [List.map_map] at hnodup
    obtain rfl : q = p := List.inj_on_of_nodup_map hnodup hq hp hsame
    rw [(hall q hp).names_eq (hids q hp) htext, List.getElem?_map, hi, Option.map_some,
      replaceName, if_pos rfl]

end Pairs

/-- No added variable mentions an old name exactly if no variable mentions another one, but for
names that are new ones as well. The references between them follow the renaming exactly if there
are none. -/
theorem foldedVariables_closed_iff (exported : List Definition) (owner : Definition)
    (hids : ∀ v ∈ owner.variables, IsName v.id) (hnodup : (owner.variables.map (·.id)).Nodup)
    {text : Definition → String} (htext : text = Definition.code ∨ text = Definition.originalCode) :
    let new := foldedVariables exported owner
    new.length = owner.variables.length ∧
      (Closed text owner.variables new ↔ Independent text owner.variables (new.map (·.id))) ∧
      (FollowsRenaming text owner.variables new ↔ Independent text owner.variables []) := by
  obtain ⟨pairs, hold, hnew, hall⟩ := exists_pairs exported owner
  rw [← hold, ← hnew]
  rw [← hold] at hids hnodup
  rw [List.forall_mem_map] at hids
  refine ⟨by simp, closed_iff hall hids htext, followsRenaming_iff hall hids htext hnodup⟩

def twoVariables (value : String) : Source where
  file := "common/t/00.txt"
  diskFile := ""
  modName := "m"
  dependencies := []
  lines := ["@a = 1", "@b = " ++ value, "k = \x7b p = @a q = @b \x7d"]
  tagged := false

theorem foldedVariables_closed_twoNumbers :
    ∃ definitions owner, (twoVariables "2").definitions = .ok definitions ∧ owner ∈ definitions ∧
      (∀ v ∈ owner.variables, IsName v.id) ∧ (owner.variables.map (·.id)).Nodup ∧
      owner.variables.length = 2 ∧
      Closed Definition.code owner.variables (foldedVariables [] owner) ∧
      FollowsRenaming Definition.code owner.variables (foldedVariables [] owner) := by
  have hread : (twoVariables "2").definitions.toOption.any fun definitions =>
      definitions.any fun d => decide ((∀ v ∈ d.variables, IsName v.id) ∧
        (d.variables.map (·.id)).Nodup ∧ d.variables.length = 2 ∧
        ∀ v ∈ d.variables, ∀ w ∈ d.variables, w.id ∈ names v.code → w.id = v.id) := by
    decide +kernel
  obtain ⟨definitions, hdefinitions, hany⟩ := (Option.any_eq_true _ _).mp hread
  obtain ⟨owner, howner, hall⟩ := List.any_eq_true.mp hany
  obtain ⟨hids, hnodup, hlength, hown⟩ := of_decide_eq_true hall
  obtain ⟨-, hclosed, hfollows⟩ := foldedVariables_closed_iff [] owner hids hnodup (.inl rfl)
  refine ⟨definitions, owner, eq_ok_of_toOption hdefinitions, howner, hids, hnodup, hlength, ?_, ?_⟩
  · exact hclosed.mpr fun v hv w hw hmem => .inl (hown v hv w hw hmem)
  · exact hfollows.mpr fun v hv w hw hmem => .inl (hown v hv w hw hmem)

/-- A variable that is defined by another one keeps the old name of that one. -/
theorem not_foldedVariables_closed :
    ¬∀ (source : Source) (definitions exported : List Definition),
      source.definitions = .ok definitions → ∀ owner ∈ definitions,
        (owner.variables.map (·.id)).Nodup →
          Closed Definition.code owner.variables (foldedVariables exported owner) := by
  intro h
  have hread : (twoVariables "@a").definitions.toOption.any fun definitions =>
      definitions.any fun d => decide ((d.variables.map (·.id)).Nodup ∧
        ¬Closed Definition.code d.variables (foldedVariables [] d)) := by
    decide +kernel
  obtain ⟨definitions, hdefinitions, hany⟩ := (Option.any_eq_true _ _).mp hread
  obtain ⟨owner, howner, hall⟩ := List.any_eq_true.mp hany
  obtain ⟨hnodup, hopen⟩ := of_decide_eq_true hall
  exact hopen (h _ definitions [] (eq_ok_of_toOption hdefinitions) owner howner hnodup)

end LoadOrder

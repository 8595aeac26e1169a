import LoadOrder.Path
import LoadOrder.Proofs.Text.Pieces

namespace LoadOrder

namespace Text

variable {p : Char → Bool}

theorem eq_false_of_mem_split {s piece : List Char} (h : piece ∈ split p s) :
    ∀ c ∈ piece, p c = false := by
  induction s generalizing piece with
  | nil =>
    rw [split, List.mem_singleton] at h
    rw [h]
    exact fun c hc => absurd hc List.not_mem_nil
  | cons d s ih =>
    rw [split] at h
    split at h
    · rcases List.mem_cons.mp h with rfl | h
      · exact fun c hc => absurd hc List.not_mem_nil
      · exact ih h
    · next hd =>
      obtain ⟨first, later, hs⟩ := List.exists_cons_of_ne_nil (split_ne_nil p s)
      rw [hs] at h ih
      rcases List.mem_cons.mp h with rfl | h
      · exact List.forall_mem_cons.mpr ⟨by simpa using hd, ih List.mem_cons_self⟩
      · exact ih (List.mem_cons_of_mem _ h)

theorem split_intercalate {sep : Char} (hsep : p sep = true) {pieces : List (List Char)}
    (hne : pieces ≠ []) (h : ∀ piece ∈ pieces, ∀ c ∈ piece, p c = false) :
    split p ([sep].intercalate pieces) = pieces := by
  induction pieces with
  | nil => exact absurd rfl hne
  | cons piece pieces ih =>
    obtain ⟨hpiece, hpieces⟩ := List.forall_mem_cons.mp h
    by_cases hlast : pieces = []
    · subst hlast
      rw [List.intercalate_singleton]
      exact split_of_forall_not hpiece
    · rw [List.intercalate_cons_of_ne_nil hlast, List.append_assoc, List.singleton_append,
        split_append hsep, split_of_forall_not hpiece, ih hlast hpieces]
      rfl

end Text

namespace Path

theorem Component.compare_named (a b : String) :
    compare (Component.named a) (Component.named b) = compare a b := by
  change (compare a b).then .eq = compare a b
  cases compare a b <;> rfl

instance : Std.LawfulEqOrd Component where
  compare_self {a} := by
    cases a with
    | named name =>
      rw [Component.compare_named]
      exact Std.ReflOrd.compare_self
    | _ => rfl
  eq_of_compare {a b} h := by
    cases a <;> cases b
    case named.named a b =>
      rw [Component.compare_named] at h
      rw [Std.LawfulEqOrd.eq_of_compare h]
    all_goals first | rfl | cases h

/-- What the beginning of a path adds to its components. -/
def lead (path : String) : List Component :=
  if isAbsolute path then [.root]
  else if (Text.split (· == '/') path.toList).head? = some ['.'] then [.here]
  else []

/-- The components that do not depend on where in a path they stand. -/
def later (path : String) : List Component :=
  (Text.split (· == '/') path.toList).filterMap laterComponent

theorem components_eq (path : String) : components path = lead path ++ later path := by
  unfold components lead later
  dsimp only
  split
  · rfl
  · split
    · next hhere =>
      obtain ⟨rest, hpieces⟩ := List.head?_eq_some_iff.mp hhere
      rw [hpieces]
      rfl
    · rfl

theorem lead_cases (path : String) :
    lead path = [] ∨ lead path = [.root] ∨ lead path = [.here] := by
  unfold lead
  split
  · exact .inr (.inl rfl)
  · split
    · exact .inr (.inr rfl)
    · exact .inl rfl

theorem components_ne_nil {path : String} (h : path ≠ "") : components path ≠ [] := by
  rw [components_eq]
  intro hnil
  obtain ⟨hlead, hlater⟩ := List.append_eq_nil_iff.mp hnil
  unfold lead at hlead
  split at hlead
  · cases hlead
  · next habsolute =>
    split at hlead
    · cases hlead
    · next hhere =>
      have hchars : path.toList ≠ [] := by simpa using h
      obtain ⟨c, rest, hcons⟩ := List.exists_cons_of_ne_nil hchars
      have hslash : c ≠ '/' := by
        rintro rfl
        exact habsolute (by simp [isAbsolute, hcons])
      obtain ⟨first, more, hrest⟩ := List.exists_cons_of_ne_nil (Text.split_ne_nil (· == '/') rest)
      have hpieces : Text.split (· == '/') path.toList = (c :: first) :: more := by
        simp [hcons, Text.split, hslash, hrest, Text.consFirst]
      have hfirst := List.filterMap_eq_nil_iff.mp hlater (c :: first)
        (by rw [hpieces]; exact List.mem_cons_self)
      have hpoint : c :: first ≠ ['.'] := fun heq => hhere (by rw [hpieces, heq]; rfl)
      rw [laterComponent, if_neg (by simp [hpoint])] at hfirst
      split at hfirst <;> cases hfirst

theorem lead_append {base : String} (hbase : base ≠ "") (rest : String) :
    lead (base ++ "/" ++ rest) = lead base := by
  have hslash : ("/" : String).toList = ['/'] := rfl
  have hpieces : Text.split (· == '/') (base ++ "/" ++ rest).toList =
      Text.split (· == '/') base.toList ++ Text.split (· == '/') rest.toList := by
    rw [String.toList_append, String.toList_append, hslash, List.append_assoc,
      List.singleton_append, Text.split_append rfl]
  obtain ⟨first, more, hsplit⟩ :=
    List.exists_cons_of_ne_nil (Text.split_ne_nil (· == '/') base.toList)
  have habsolute : isAbsolute (base ++ "/" ++ rest) = isAbsolute base := by
    have hne : base.toList ≠ [] := by simpa using hbase
    obtain ⟨c, chars, hchars⟩ := List.exists_cons_of_ne_nil hne
    simp [isAbsolute, hchars]
  unfold lead
  rw [habsolute, hpieces, hsplit]
  rfl

theorem later_append (base rest : String) :
    later (base ++ "/" ++ rest) = later base ++ later rest := by
  have hslash : ("/" : String).toList = ['/'] := rfl
  unfold later
  rw [String.toList_append, String.toList_append, hslash, List.append_assoc,
    List.singleton_append, Text.split_append rfl, List.filterMap_append]

theorem components_append {base : String} (hbase : base ≠ "") (rest : String) :
    components (base ++ "/" ++ rest) = components base ++ later rest := by
  rw [components_eq, components_eq, lead_append hbase, later_append, List.append_assoc]

theorem components_join {base path : String} (hbase : base ≠ "") (hpath : isAbsolute path = false) :
    components (join base path) = components base ++ later path := by
  unfold join
  rw [hpath, if_neg Bool.false_ne_true]
  split
  · next hend =>
    obtain ⟨before, hbefore⟩ := List.getLast?_eq_some_iff.mp (hend.resolve_left hbase)
    have hsplit : base = String.ofList before ++ "/" := by
      rw [← String.toList_inj, hbefore, String.toList_append, String.toList_ofList]
      rfl
    by_cases hroot : before = []
    · subst hroot
      have hslash : base = "/" := by rw [hsplit]; rfl
      rw [hslash, components_eq, components_eq]
      have hempty := later_append "" path
      rw [String.empty_append] at hempty
      rw [hempty]
      simp [lead, isAbsolute, later, Text.split, laterComponent]
    · have hne : String.ofList before ≠ "" := by simpa using hroot
      have hempty := components_append hne ""
      rw [String.append_empty, ← hsplit] at hempty
      have hnone : later "" = [] := rfl
      rw [hnone, List.append_nil] at hempty
      rw [hempty, hsplit, components_append hne]
  · exact components_append hbase path

/-- A component is read back from its text wherever it stands. -/
def Component.Inner (c : Component) : Prop :=
  laterComponent c.text.toList = some c ∧ '/' ∉ c.text.toList

theorem inner_of_mem_later {path : String} {c : Component} (h : c ∈ later path) : c.Inner := by
  obtain ⟨piece, hpiece, hc⟩ := List.mem_filterMap.mp h
  have hslash : '/' ∉ piece := fun hmem => by
    simpa using Text.eq_false_of_mem_split hpiece '/' hmem
  have hread := hc
  unfold laterComponent at hc
  split at hc
  · cases hc
  · split at hc
    · cases hc
      exact ⟨rfl, by decide⟩
    · cases hc
      rw [Component.Inner, Component.text, String.toList_ofList]
      exact ⟨hread, hslash⟩

theorem Component.Inner.text_ne {c : Component} (h : c.Inner) :
    c.text.toList ≠ [] ∧ c.text.toList ≠ ['.'] := by
  constructor
  · intro hnil
    have hread := h.1
    rw [hnil] at hread
    cases hread
  · intro hpoint
    have hread := h.1
    rw [hpoint] at hread
    cases hread

theorem filterMap_inner {inner : List Component} (h : ∀ c ∈ inner, c.Inner) :
    (inner.map fun c => c.text.toList).filterMap laterComponent = inner := by
  induction inner with
  | nil => rfl
  | cons c inner ih =>
    obtain ⟨hc, hinner⟩ := List.forall_mem_cons.mp h
    rw [List.map_cons, List.filterMap_cons, hc.1, ih hinner]

theorem toList_ofComponents {components : List Component} (h : components ≠ [.root]) :
    (ofComponents components).toList =
      ['/'].intercalate (components.map fun c => c.text.toList) := by
  have hslash : ("/" : String).toList = ['/'] := rfl
  rw [ofComponents, Text.join, String.toList_intercalate, hslash, List.map_map]
  · rfl
  · exact h

section ReadBack

variable {first inner : List Component}

theorem slash_notMem_text (hfirst : first = [] ∨ first = [.root] ∨ first = [.here])
    (hinner : ∀ c ∈ inner, c.Inner) {c : Component} (h : c ∈ first ++ inner) :
    '/' ∉ c.text.toList := by
  rcases List.mem_append.mp h with h | h
  · rcases hfirst with rfl | rfl | rfl
    · cases h
    · rw [List.mem_singleton.mp h]
      decide
    · rw [List.mem_singleton.mp h]
      decide
  · exact (hinner c h).2

theorem split_ofComponents {components : List Component} (hnil : components ≠ [])
    (hroot : components ≠ [.root]) (hslash : ∀ c ∈ components, '/' ∉ c.text.toList) :
    Text.split (· == '/') (ofComponents components).toList =
      components.map fun c => c.text.toList := by
  rw [toList_ofComponents hroot]
  refine Text.split_intercalate rfl (by simpa using hnil) fun piece hpiece c hc => ?_
  obtain ⟨component, hmem, rfl⟩ := List.mem_map.mp hpiece
  apply beq_false_of_ne
  rintro rfl
  exact hslash component hmem hc

theorem head?_ofComponents {c : Component} {rest : List Component} (hroot : c :: rest ≠ [.root]) :
    (ofComponents (c :: rest)).toList.head? =
      (c.text.toList ++ if rest = [] then [] else ['/']).head? := by
  rw [toList_ofComponents hroot, List.map_cons]
  cases hrest : rest with
  | nil => simp
  | cons d rest =>
    rw [List.intercalate_cons_of_ne_nil (by simp), if_neg (by simp), List.append_assoc]
    cases c.text.toList <;> rfl

theorem lead_ofComponents (hfirst : first = [] ∨ first = [.root] ∨ first = [.here])
    (hinner : ∀ c ∈ inner, c.Inner) (hnil : first ++ inner ≠ [])
    (hroot : first ++ inner ≠ [.root])
    (hpieces : Text.split (· == '/') (ofComponents (first ++ inner)).toList =
      (first ++ inner).map fun c => c.text.toList) :
    lead (ofComponents (first ++ inner)) = first := by
  unfold lead isAbsolute
  rw [hpieces]
  rcases hfirst with rfl | rfl | rfl
  · obtain ⟨c, rest, rfl⟩ := List.exists_cons_of_ne_nil hnil
    obtain ⟨hc, -⟩ := List.forall_mem_cons.mp hinner
    obtain ⟨d, chars, htext⟩ := List.exists_cons_of_ne_nil hc.text_ne.1
    have hd : d ≠ '/' := by
      rintro rfl
      exact hc.2 (by rw [htext]; exact List.mem_cons_self)
    rw [List.nil_append, head?_ofComponents hroot, htext, List.cons_append, List.head?_cons,
      if_neg (by simp [hd]), List.map_cons, List.head?_cons, if_neg (by simp [hc.text_ne.2])]
  · have hinner : inner ≠ [] := fun hinner => hroot (by rw [hinner]; rfl)
    rw [List.singleton_append] at hroot ⊢
    rw [head?_ofComponents hroot, if_neg hinner]
    rfl
  · rw [List.singleton_append] at hroot ⊢
    rw [head?_ofComponents hroot]
    rfl

/-- Components that a path begins with and components that can stand anywhere, put together, are
read back. -/
theorem components_ofComponents (hfirst : first = [] ∨ first = [.root] ∨ first = [.here])
    (hinner : ∀ c ∈ inner, c.Inner) :
    components (ofComponents (first ++ inner)) = first ++ inner := by
  by_cases hroot : first ++ inner = [.root]
  · rw [hroot]
    rfl
  by_cases hnil : first ++ inner = []
  · rw [hnil]
    rfl
  have hpieces := split_ofComponents hnil hroot fun _ => slash_notMem_text hfirst hinner
  have hlater : later (ofComponents (first ++ inner)) = inner := by
    unfold later
    rw [hpieces, List.map_append, List.filterMap_append, filterMap_inner hinner]
    rcases hfirst with rfl | rfl | rfl <;> rfl
  rw [components_eq, lead_ofComponents hfirst hinner hnil hroot hpieces, hlater]

end ReadBack

theorem components_ofComponents_take (path : String) (n : Nat) :
    components (ofComponents ((components path).take n)) = (components path).take n := by
  rw [components_eq path, List.take_append]
  apply components_ofComponents
  · rcases lead_cases path with h | h | h <;> rw [h] <;> cases n <;> simp
  · exact fun c hc => inner_of_mem_later (List.mem_of_mem_take hc)

end Path

end LoadOrder

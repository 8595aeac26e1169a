import LoadOrder.Proofs.Definition.History
import LoadOrder.Proofs.Definition.Listing

namespace LoadOrder

open Script

theorem keepLast_of_sameSlot {definitions : List Definition}
    (h : ∀ a ∈ definitions, ∀ b ∈ definitions, a.sameSlot b) :
    keepLast definitions = definitions.getLast?.toList := by
  induction definitions with
  | nil => rfl
  | cons d rest ih =>
    cases rest with
    | nil => rfl
    | cons e rest =>
      have hany : (e :: rest).any (·.sameSlot d) :=
        List.any_eq_true.mpr ⟨e, List.mem_cons_self, h e (by simp) d (by simp)⟩
      rw [keepLast, if_pos hany, List.getLast?_cons_cons]
      exact ih fun a ha b hb => h a (List.mem_cons_of_mem d ha) b (List.mem_cons_of_mem d hb)

theorem withIdentity_made (source : Source) (statements : List Statement) (d : Definition) :
    (Index.build (source.made statements) false).withIdentity d.identity =
      ((source.made statements).filter (·.identity == d.identity)).getLast?.toList := by
  have hslot {a b : Definition} (h : a.sameSlot b) :
      (a.identity == d.identity) = (b.identity == d.identity) := by
    rw [(Definition.sameSlot_iff.mp h).2.2]
  have hall : (Index.build (source.made statements) false).all =
      keepLast (source.made statements) := rfl
  rw [Index.withIdentity_build, lowercase_identity, hall, filter_keepLast hslot]
  refine keepLast_of_sameSlot fun a ha b hb => ?_
  obtain ⟨hamem, hak⟩ := List.mem_filter.mp ha
  obtain ⟨hbmem, hbk⟩ := List.mem_filter.mp hb
  rw [beq_iff_eq] at hak hbk
  obtain ⟨_, _, ha⟩ := exists_of_mem_made hamem
  obtain ⟨_, _, hb⟩ := exists_of_mem_made hbmem
  refine Definition.sameSlot_iff.mpr ⟨?_, ?_, hak.trans hbk.symm⟩
  · rw [ha, hb]
    rfl
  · rw [ha, hb]
    rfl

theorem object_or_isSupport (s : Statement) (tag : Option String) :
    s.kind tag = .object ∨ (s.kind tag).isSupport := by
  unfold Statement.kind
  split
  · split
    · exact .inr rfl
    · split
      · exact .inr rfl
      · exact .inl rfl
  · exact .inl rfl

theorem object_or_isSupport_of_mem_made {source : Source} {statements : List Statement}
    (hobject : ∃ d ∈ source.made statements, d.kind = .object) {d : Definition}
    (h : d ∈ source.made statements) : d.kind = .object ∨ d.isSupport := by
  obtain ⟨o, ho, hkind⟩ := hobject
  have hsome : ∃ d ∈ source.made statements, d.kind ≠ .emptyFile := ⟨o, ho, by simp [hkind]⟩
  obtain ⟨s, -, hentry⟩ := entry_mem_of_mem_made hsome h
  rw [entries_eq_map] at hentry
  obtain ⟨⟨tag, t⟩, -, ht⟩ := List.mem_map.mp hentry
  have hk : d.kind = t.kind tag := (congrArg Entry.kind ht).symm.trans (kind_ofListed tag t)
  rw [Definition.isSupport, hk]
  exact object_or_isSupport t tag

/-- An object of an identity at its place in a sequence, with no other one behind it. -/
structure IsLastObject (k : String) (definitions before : List Definition) (d : Definition)
    (after : List Definition) : Prop where
  split : definitions = before ++ d :: after
  object : d.kind = .object
  identity : d.identity = k
  last : ∀ e ∈ after, e.kind = .object → e.identity ≠ k

theorem exists_isLastObject {k : String} {definitions : List Definition}
    (h : ∃ d ∈ definitions, d.kind = .object ∧ d.identity = k) :
    ∃ before d after, IsLastObject k definitions before d after := by
  induction definitions with
  | nil => simp at h
  | cons e rest ih =>
    by_cases hrest : ∃ d ∈ rest, d.kind = .object ∧ d.identity = k
    · obtain ⟨before, d, after, hd⟩ := ih hrest
      exact ⟨e :: before, d, after, by rw [hd.split]; rfl, hd.object, hd.identity, hd.last⟩
    · obtain ⟨d, hd, hkind, hk⟩ := h
      rcases List.mem_cons.mp hd with rfl | hd
      · exact ⟨[], d, rest, rfl, hkind, hk, fun e he hobject he' => hrest ⟨e, he, hobject, he'⟩⟩
      · exact absurd ⟨d, hd, hkind, hk⟩ hrest

theorem exists_kept {source : Source} {statements : List Statement} {k : String}
    {before after : List Definition} {d : Definition}
    (h : IsLastObject k (source.made statements) before d after) :
    ∃ kept, (Index.build (source.made statements) false).withIdentity k = [kept] ∧
      (kept.kind = .object ↔ ∀ e ∈ after, e.isSupport → e.identity ≠ k) ∧
      (kept.kind = .object → kept = d) := by
  have hd : d ∈ source.made statements := by simp [h.split]
  have hcons : ((source.made statements).filter (·.identity == k)).getLast? =
      (d :: after.filter (·.identity == k)).getLast? := by
    rw [h.split, List.filter_append, List.filter_cons_of_pos (by simpa using h.identity),
      List.getLast?_append_cons]
  rw [← h.identity, withIdentity_made, h.identity, hcons]
  by_cases hafter : after.filter (·.identity == k) = []
  · rw [List.filter_eq_nil_iff] at hafter
    rw [List.filter_eq_nil_iff.mpr hafter]
    refine ⟨d, rfl, ⟨fun _ e he _ => by simpa using hafter e he, fun _ => h.object⟩, fun _ => rfl⟩
  · obtain ⟨kept, hkept⟩ := Option.ne_none_iff_exists'.mp (mt List.getLast?_eq_none_iff.mp hafter)
    obtain ⟨hmem, hidentity⟩ := List.mem_filter.mp (List.mem_of_getLast? hkept)
    rw [beq_iff_eq] at hidentity
    have hobject : kept.kind ≠ .object := fun hobject => h.last kept hmem hobject hidentity
    have hsupport : kept.isSupport :=
      (object_or_isSupport_of_mem_made ⟨d, hd, h.object⟩ (by simp [h.split, hmem])).resolve_left
        hobject
    refine ⟨kept, ?_, iff_of_false hobject fun hnone => ?_, fun h => absurd h hobject⟩
    · rw [List.getLast?_cons, hkept]
      rfl
    · exact hnone kept hmem hsupport hidentity

/-- A set keeps one definition of an identity that a file has objects of: the last object, unless a
variable or a namespace with the identity follows it. -/
theorem build_keeps_object_iff {source : Source} {statements : List Statement}
    (hparse : parse (Text.join "\n" source.lines) = .ok statements) :
    ∃ definitions, source.definitions = .ok definitions ∧
      ∀ k, (∃ d ∈ definitions, d.kind = .object ∧ d.identity = k) →
        ∃ before d after kept, IsLastObject k definitions before d after ∧
          (Index.build definitions false).withIdentity k = [kept] ∧
          (kept.kind = .object ↔ ∀ e ∈ after, e.isSupport → e.identity ≠ k) ∧
          (kept.kind = .object → kept = d) := by
  refine ⟨source.made statements, Source.definitions_eq_ok_iff.mpr ⟨statements, hparse, rfl⟩,
    fun k hobject => ?_⟩
  obtain ⟨before, d, after, hlast⟩ := exists_isLastObject hobject
  obtain ⟨kept, hkept⟩ := exists_kept hlast
  exact ⟨before, d, after, kept, hlast, hkept⟩

def fileOfLines (first second : String) : Source where
  file := "common/t/00.txt"
  diskFile := ""
  modName := "m"
  dependencies := []
  lines := [first, second]
  tagged := false

theorem build_keeps_object_behind_namespace :
    ∃ statements definitions,
      parse (Text.join "\n" (fileOfLines "namespace = ev" "ev = 1").lines) = .ok statements ∧
      (fileOfLines "namespace = ev" "ev = 1").definitions = .ok definitions ∧
      (∃ d ∈ definitions, d.kind = .object ∧ d.identity = "common/t-ev") ∧
      ∃ before d after kept, IsLastObject "common/t-ev" definitions before d after ∧
        (Index.build definitions false).withIdentity "common/t-ev" = [kept] ∧
        (kept.kind = .object ↔ ∀ e ∈ after, e.isSupport → e.identity ≠ "common/t-ev") ∧
        (kept.kind = .object → kept = d) := by
  have hsome : (parse (Text.join "\n"
      (fileOfLines "namespace = ev" "ev = 1").lines)).toOption.isSome := by
    decide +kernel
  obtain ⟨statements, hstatements⟩ := Option.isSome_iff_exists.mp hsome
  have hparse := eq_ok_of_toOption hstatements
  obtain ⟨definitions, hdefinitions, hkept⟩ := build_keeps_object_iff hparse
  have hobject : (fileOfLines "namespace = ev" "ev = 1").definitions.toOption.any (·.any fun d =>
      d.kind == .object && d.identity == "common/t-ev") := by
    decide +kernel
  rw [hdefinitions] at hobject
  obtain ⟨d, hd, hd'⟩ := List.any_eq_true.mp hobject
  have hd' : d.kind = .object ∧ d.identity = "common/t-ev" := by simpa using hd'
  exact ⟨statements, definitions, hparse, hdefinitions, ⟨d, hd, hd'⟩,
    hkept "common/t-ev" ⟨d, hd, hd'⟩⟩

/-- A namespace behind the object with its name takes the place of the object. -/
theorem not_build_keeps_object :
    ¬∀ (source : Source) (definitions : List Definition), source.definitions = .ok definitions →
      ∀ k, (∃ d ∈ definitions, d.kind = .object ∧ d.identity = k) →
        ∃ d ∈ (Index.build definitions false).all, d.kind = .object ∧ d.identity = k := by
  intro h
  have hread : (fileOfLines "foo = 1" "namespace = foo").definitions.toOption.any fun ds =>
      (ds.any fun d => d.kind == .object && d.identity == "common/t-foo") &&
        (Index.build ds false).all.all (·.kind != .object) := by
    decide +kernel
  obtain ⟨definitions, hdefinitions, hlost⟩ := (Option.any_eq_true _ _).mp hread
  rw [Bool.and_eq_true] at hlost
  obtain ⟨d, hd, hd'⟩ := List.any_eq_true.mp hlost.1
  have hd' : d.kind = .object ∧ d.identity = "common/t-foo" := by simpa using hd'
  obtain ⟨kept, hkept, hobject, -⟩ :=
    h _ definitions (eq_ok_of_toOption hdefinitions) "common/t-foo" ⟨d, hd, hd'⟩
  have hnone := List.all_eq_true.mp hlost.2 kept hkept
  rw [hobject] at hnone
  cases hnone

end LoadOrder

import Mathlib.Data.List.TakeWhile
import LoadOrder.Proofs.Merge.Blocks
import LoadOrder.Proofs.Script.Joined

namespace LoadOrder

open Script

theorem Buckets.sorted_of_forall_eq {key : Definition → String} {k : String}
    {definitions : List Definition} (hne : definitions ≠ []) (h : ∀ d ∈ definitions, key d = k) :
    Buckets.sorted key definitions = [(k, definitions)] := by
  have hfold : ∀ (more done : List Definition), (∀ d ∈ more, key d = k) →
      more.foldl (fun buckets d => Buckets.insert (key d) d buckets) [(k, done)] =
        [(k, done ++ more)] := by
    intro more
    induction more with
    | nil => simp
    | cons d more ih =>
      intro done hmore
      rw [List.forall_mem_cons] at hmore
      rw [List.foldl_cons, hmore.1, Buckets.insert, if_pos rfl, ih _ hmore.2, List.append_assoc]
      rfl
  obtain ⟨first, rest, rfl⟩ := List.exists_cons_of_ne_nil hne
  rw [List.forall_mem_cons] at h
  rw [Buckets.sorted, List.foldl_cons, h.1]
  exact hfold rest [first] h.2

theorem trimmed_of_isBlankText {text : String} (h : Text.isBlankText text) :
    Text.trimmed text = "" := by
  have hstart : Text.trimStart text.toList = [] := by
    rw [Text.trimStart, List.dropWhile_eq_nil_iff]
    simpa [Text.isBlankText] using h
  rw [Text.trimmed, Text.trim, hstart]
  rfl

/-- The members of a composition in the order of its text. -/
def composed (definitions : List Definition) : List Definition :=
  supportOf definitions ++ definitions.filter (!·.isSupport)

theorem exists_compose_of_untagged {definitions : List Definition} (hne : definitions ≠ [])
    (htag : ∀ d ∈ definitions, Text.isBlankText d.codeTag) :
    ∃ m, compose? definitions = some m ∧
      m.code = String.join ((composed definitions).map fun d => d.originalCode ++ "\n") := by
  have hkey : ∀ d ∈ definitions, d.blockKey = "" := by
    intro d hd
    rw [Definition.blockKey, trimmed_of_isBlankText (htag d hd)]
    exact Text.lowercase_empty
  have hbuckets := Buckets.sorted_of_forall_eq hne hkey
  obtain ⟨first, rest, rfl⟩ := List.exists_cons_of_ne_nil hne
  refine ⟨_, rfl, ?_⟩
  have hfirst := trimmed_of_isBlankText (htag first List.mem_cons_self)
  dsimp only
  rw [hbuckets, List.map_singleton, groupText, if_pos hfirst]
  simp [composed, supportOf]

/-- A composition without tags says what its members say, namespaces and variables first. -/
theorem parse_compose_of_untagged {definitions : List Definition}
    {read : Definition → List Statement} (hne : definitions ≠ [])
    (htag : ∀ d ∈ definitions, Text.isBlankText d.codeTag)
    (hread : ∀ d ∈ definitions, parse d.originalCode = .ok (read d)) :
    ∃ m statements, compose? definitions = some m ∧ parse m.code = .ok statements ∧
      trees statements =
        (definitions.filter (·.kind == .namespace)).flatMap (fun d => trees (read d)) ++
          (definitions.filter (·.kind == .variable)).flatMap (fun d => trees (read d)) ++
            (definitions.filter (!·.isSupport)).flatMap fun d => trees (read d) := by
  obtain ⟨m, hm, hcode⟩ := exists_compose_of_untagged hne htag
  have hmembers : ∀ d ∈ composed definitions, Says d.originalCode (trees (read d)) := by
    intro d hd
    have hmem := (perm_supportOf_append definitions).mem_iff.mp hd
    exact ⟨read d, hread d hmem, rfl⟩
  obtain ⟨statements, hparse, htrees⟩ := says_join_ended hmembers
  refine ⟨m, statements, hm, by rw [hcode, hparse], ?_⟩
  rw [htrees, composed, supportOf, List.flatMap_append, List.flatMap_append]

/-- A member of a kind with some code, and nothing else. -/
def memberOf (kind : Kind) (code : String) : Definition :=
  { Definition.blank with kind := kind, originalCode := code }

def looseEnds : List Definition :=
  [memberOf .object "a = \x7b b != c! \x7d # end", memberOf .variable "@v = \"x\ny\"",
    memberOf .object "", memberOf .namespace "namespace = ev!", memberOf .object "\"k\" == d"]

theorem parse_compose_of_untagged_looseEnds :
    ∃ m statements, compose? looseEnds = some m ∧ parse m.code = .ok statements ∧
      spelling (trees statements) =
        [.atom (.word "namespace"), .operator .equal, .atom (.word "ev!"), .atom (.word "@v"),
          .operator .equal, .atom (.quoted "x\ny"), .atom (.word "a"), .operator .equal, .opening,
          .atom (.word "b"), .operator .notEqual, .atom (.word "c!"), .closing,
          .atom (.quoted "k"), .operator .equalEqual, .atom (.word "d")] := by
  let read (d : Definition) : List Statement := (parse d.originalCode).toOption.getD []
  have hread : ∀ d ∈ looseEnds, parse d.originalCode = .ok (read d) := by
    have hsome : looseEnds.all fun d => (parse d.originalCode).toOption.isSome := by
      decide +kernel
    intro d hd
    obtain ⟨statements, hstatements⟩ := Option.isSome_iff_exists.mp (List.all_eq_true.mp hsome d hd)
    rw [eq_ok_of_toOption hstatements]
    simp [read, hstatements]
  obtain ⟨m, statements, hm, hparse, htrees⟩ :=
    parse_compose_of_untagged (by decide) (by decide) hread
  refine ⟨m, statements, hm, hparse, ?_⟩
  rw [htrees]
  decide +kernel

end LoadOrder

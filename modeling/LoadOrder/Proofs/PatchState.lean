import LoadOrder.PatchState
import LoadOrder.Proofs.Json.RoundTrip
import LoadOrder.Proofs.Json.Typed
import LoadOrder.Proofs.Timestamp

namespace LoadOrder

namespace Definition

/-- A definition as extraction makes them: what is in scope has nothing in scope. Places in a file
fit in 64 bits. -/
structure Storable (d : Definition) : Prop where
  order_lt : d.order < Nat.pow 2 64
  scope_order_lt : ∀ v ∈ d.scope, v.order < Nat.pow 2 64
  scope_flat : ∀ v ∈ d.scope, v.scope = []

theorem listToJson_eq (definitions : List Definition) :
    listToJson definitions = definitions.map toJson := by
  induction definitions with
  | nil => rfl
  | cons d definitions ih => rw [listToJson, ih, List.map_cons]

theorem ofJson?_toJson_of_scope {room : Nat} {d : Definition} (horder : d.order < Nat.pow 2 64)
    (hscope : ∀ v ∈ d.scope, ofJson? room v.toJson = some v) (hroom : 0 < room) :
    ofJson? (room + 2) d.toJson = some d := by
  obtain ⟨id, type, kind, file, diskFile, modName, code, originalCode, codeTag, codeSeparator,
    order, scope, dependencies⟩ := d
  have hkind : Json.constant? (room + 1) Kind.name Kind.all (.text kind.name) = some kind :=
    Json.constant?_name (by cases kind <;> decide)
  have hlist : Json.list? (room + 1) (ofJson? room) (.array (scope.map toJson)) = some scope :=
    Json.list?_array (by omega) hscope
  have htexts := Json.texts?_ofTexts (show 1 < room + 1 by omega) dependencies
  have hnumber : Json.word64? (.natural order) = some order := if_pos horder
  rw [toJson, ofJson?, Json.fields?_object (by omega), listToJson_eq]
  · change ((Json.constant? (room + 1) Kind.name Kind.all (.text kind.name)).bind fun kind =>
      (Json.word64? (.natural order)).bind fun order =>
        (Json.list? (room + 1) (ofJson? room) (.array (scope.map toJson))).bind fun scope =>
          (Json.texts? (room + 1) (Json.ofTexts dependencies)).bind fun dependencies =>
            some (⟨id, type, kind, file, diskFile, modName, code, originalCode, codeTag,
              codeSeparator, order, scope, dependencies⟩ : Definition)) = _
    rw [hkind, hnumber, hlist, htexts]
    rfl
  · rfl
  · decide

theorem Storable.ofJson?_toJson {d : Definition} (h : d.Storable) {room : Nat} (hroom : 0 < room) :
    ofJson? (room + 4) d.toJson = some d := by
  refine ofJson?_toJson_of_scope h.order_lt (fun v hv => ?_) (by omega)
  refine ofJson?_toJson_of_scope (h.scope_order_lt v hv) (fun w hw => ?_) hroom
  rw [h.scope_flat v hv] at hw
  cases hw

theorem plain_toJson_of_scope {d : Definition} (horder : d.order < Nat.pow 2 64)
    (hscope : ∀ v ∈ d.scope, Json.Plain v.toJson) : Json.Plain d.toJson := by
  cases d
  rw [toJson, listToJson_eq]
  refine .object ?_
  simp only [List.forall_mem_cons]
  exact ⟨.text _, .text _, .text _, .text _, .text _, .text _, .text _, .text _, .text _, .text _,
    .natural horder, Json.plain_map hscope, Json.plain_ofTexts _, List.forall_mem_nil _⟩

theorem Storable.plain_toJson {d : Definition} (h : d.Storable) : Json.Plain d.toJson := by
  refine plain_toJson_of_scope h.order_lt fun v hv => ?_
  refine plain_toJson_of_scope (h.scope_order_lt v hv) fun w hw => ?_
  rw [h.scope_flat v hv] at hw
  cases hw

end Definition

namespace PatchState

/-- Decisions whose definitions can all be stored, and whose time there is. -/
structure Storable (p : PatchState) : Prop where
  resolved : ∀ d ∈ p.resolved, d.Storable
  ignored : ∀ d ∈ p.ignored, d.Storable
  history : ∀ d ∈ p.history, d.Storable
  custom : ∀ d ∈ p.custom, d.Storable
  updatedAt : ∀ t ∈ p.updatedAt, t.Valid

variable {p : PatchState}

theorem Storable.ofJson?_toJson (h : p.Storable) {room : Nat} (hroom : 0 < room) :
    ofJson? (room + 6) p.toJson = some p := by
  have hlist {definitions : List Definition} (hall : ∀ d ∈ definitions, d.Storable) :
      Json.list? (room + 5) (Definition.ofJson? (room + 4))
        (.array (definitions.map Definition.toJson)) = some definitions :=
    Json.list?_array (by omega) fun d hd => (hall d hd).ofJson?_toJson hroom
  have hmode : Json.constant? (room + 5) PatchMode.name PatchMode.all (.text p.mode.name) =
      some p.mode :=
    Json.constant?_name (by cases p.mode <;> decide)
  have htime : Json.option? (fun j => j.text?.bind Timestamp.parse?)
      (p.updatedAt.elim .null fun t => .text t.text) = some p.updatedAt := by
    refine Json.option?_elim (fun t ht => ?_) (by simp)
    rw [Json.text?, Option.bind_some, Timestamp.parse?_text (h.updatedAt t ht)]
  rw [toJson, ofJson?, Json.fields?_object (by omega)]
  · simp only [Definition.listToJson_eq, List.map_cons, List.map_nil, Json.fieldOr?,
      Nat.add_one_sub_one, Nat.reduceSubDiff, hmode, hlist h.resolved, hlist h.ignored,
      hlist h.history, hlist h.custom, htime, Option.bind_eq_bind, Option.bind_some,
      Option.pure_def]
  · rfl
  · decide

theorem Storable.plain_toJson (h : p.Storable) : Json.Plain p.toJson := by
  have hlist {definitions : List Definition} (hall : ∀ d ∈ definitions, d.Storable) :
      Json.Plain (.array (definitions.map Definition.toJson)) :=
    Json.plain_map fun d hd => (hall d hd).plain_toJson
  refine .object ?_
  simp only [List.forall_mem_cons, Definition.listToJson_eq]
  exact ⟨.text _, hlist h.resolved, hlist h.ignored, hlist h.history, hlist h.custom,
    Json.plain_elim (fun _ => .text _) _, List.forall_mem_nil _⟩

theorem Storable.ofText?_print (h : p.Storable) : ofText? p.print = some p := by
  rw [ofText?, print, Json.parse?_print h.plain_toJson]
  exact h.ofJson?_toJson (show 0 < 122 by decide)

end PatchState

end LoadOrder

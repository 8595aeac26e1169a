import LoadOrder.Config
import LoadOrder.Proofs.Json.RoundTrip
import LoadOrder.Proofs.Json.Typed

namespace LoadOrder.Config

variable {room : Nat}

theorem GameSection.ofJson?_toJson (hroom : 2 < room) (g : GameSection) :
    ofJson? room g.toJson = some g := by
  have htexts := Json.texts?_ofTexts (show 1 < room - 1 by omega)
  have hfolder : Json.option? Json.text? (g.modDirectory.elim .null .text) = some g.modDirectory :=
    Json.option?_elim (fun _ _ => rfl) (by simp)
  rw [toJson, ofJson?, Json.fields?_object (by omega)]
  · simp only [List.map_cons, List.map_nil, Json.fieldOr?, Json.text?, htexts, hfolder,
      Option.bind_eq_bind, Option.bind_some, Option.pure_def]
  · rfl
  · decide

theorem ModSection.ofJson?_toJson (hroom : 2 < room) (m : ModSection) :
    ofJson? room m.toJson = some m := by
  have htexts := Json.texts?_ofTexts (show 1 < room - 1 by omega)
  rw [toJson, ofJson?, Json.fields?_object (by omega)]
  · simp only [List.map_cons, List.map_nil, Json.fieldOr?, Json.text?, htexts,
      Option.bind_eq_bind, Option.bind_some, Option.pure_def]
  · rfl
  · decide

theorem CollectionSection.ofJson?_toJson (hroom : 4 < room) (c : CollectionSection) :
    ofJson? room c.toJson = some c := by
  have hmods : Json.list? (room - 1) (ModSection.ofJson? (room - 2))
      (.array (c.mods.map ModSection.toJson)) = some c.mods :=
    Json.list?_array (by omega) fun m _ => m.ofJson?_toJson (by omega)
  rw [toJson, ofJson?, Json.fields?_object (by omega)]
  · simp only [List.map_cons, List.map_nil, Json.fieldOr?, Json.text?, hmods,
      Option.bind_eq_bind, Option.bind_some, Option.pure_def]
  · rfl
  · decide

theorem ofJson?_toJson (hroom : 5 < room) (c : Config) : ofJson? room c.toJson = some c := by
  have hpolicy : Json.constant? (room - 1) DuplicatePolicy.name DuplicatePolicy.all
      (.text c.duplicatePolicy.name) = some c.duplicatePolicy :=
    Json.constant?_name (by cases c.duplicatePolicy <;> decide)
  have hgame := c.game.ofJson?_toJson (show 2 < room - 1 by omega)
  have hcollection := c.collection.ofJson?_toJson (show 4 < room - 1 by omega)
  rw [toJson, ofJson?, Json.fields?_object (by omega)]
  · simp only [List.map_cons, List.map_nil, Json.fieldOr?, hpolicy, hgame, hcollection,
      Option.bind_eq_bind, Option.bind_some, Option.pure_def]
  · rfl
  · decide

theorem GameSection.plain_toJson (g : GameSection) : Json.Plain g.toJson := by
  refine .object ?_
  simp only [List.forall_mem_cons]
  exact ⟨.text _, .text _, Json.plain_elim .text _, Json.plain_ofTexts _, Json.plain_ofTexts _,
    Json.plain_ofTexts _, Json.plain_ofTexts _, List.forall_mem_nil _⟩

theorem ModSection.plain_toJson (m : ModSection) : Json.Plain m.toJson := by
  refine .object ?_
  simp only [List.forall_mem_cons]
  exact ⟨.text _, .text _, .text _, Json.plain_ofTexts _, List.forall_mem_nil _⟩

theorem CollectionSection.plain_toJson (c : CollectionSection) : Json.Plain c.toJson := by
  refine .object ?_
  simp only [List.forall_mem_cons]
  exact ⟨.text _, Json.plain_map fun m _ => m.plain_toJson, List.forall_mem_nil _⟩

theorem plain_toJson (c : Config) : Json.Plain c.toJson := by
  refine .object ?_
  simp only [List.forall_mem_cons]
  exact ⟨c.game.plain_toJson, c.collection.plain_toJson, .text _, List.forall_mem_nil _⟩

structure Runnable (c : Config) : Prop where
  key_named : ¬Text.isBlankText c.game.key
  collection_named : ¬Text.isBlankText c.collection.name
  mods_named : ∀ m ∈ c.collection.mods, ¬Text.isBlankText m.name
  mods_distinct : (c.collection.mods.map (·.name)).Nodup

theorem modsFault?_eq_none_iff {before : List String} {i : Nat} {mods : List ModSection} :
    modsFault? before i mods = none ↔
      (∀ m ∈ mods, ¬Text.isBlankText m.name ∧ m.name ∉ before) ∧ (mods.map (·.name)).Nodup := by
  induction mods generalizing before i with
  | nil => simp [modsFault?]
  | cons m mods ih =>
    rw [modsFault?]
    split
    · next hblank => simp [hblank]
    · next hnamed =>
      split
      · next hbefore => simp [List.contains_iff_mem.mp hbefore]
      · next hfresh =>
        rw [ih, List.forall_mem_cons, List.map_cons, List.nodup_cons]
        have hfirst : ¬Text.isBlankText m.name ∧ m.name ∉ before := ⟨hnamed, by simpa using hfresh⟩
        constructor
        · rintro ⟨hrest, hdistinct⟩
          refine ⟨⟨hfirst, fun other hmem => ?_⟩, fun hmem => ?_, hdistinct⟩
          · exact ⟨(hrest other hmem).1, List.not_mem_of_not_mem_cons (hrest other hmem).2⟩
          · obtain ⟨other, hother, hname⟩ := List.mem_map.mp hmem
            exact (hrest other hother).2 (hname ▸ List.mem_cons_self)
        · rintro ⟨⟨-, hrest⟩, hnew, hdistinct⟩
          refine ⟨fun other hmem => ⟨(hrest other hmem).1, ?_⟩, hdistinct⟩
          rw [List.mem_cons, not_or]
          exact ⟨fun hname => hnew (hname ▸ List.mem_map_of_mem hmem), (hrest other hmem).2⟩

theorem fault?_eq_none_iff {c : Config} : c.fault? = none ↔ c.Runnable := by
  unfold fault?
  split
  · next hkey => exact ⟨fun h => absurd h (Option.some_ne_none _), fun h => absurd hkey h.key_named⟩
  · next hkey =>
    split
    · next hname => exact ⟨fun h => absurd h (Option.some_ne_none _),
        fun h => absurd hname h.collection_named⟩
    · next hname =>
      rw [modsFault?_eq_none_iff]
      constructor
      · rintro ⟨hmods, hdistinct⟩
        exact ⟨hkey, hname, fun m hm => (hmods m hm).1, hdistinct⟩
      · rintro ⟨-, -, hmods, hdistinct⟩
        exact ⟨fun m hm => ⟨hmods m hm, List.not_mem_nil⟩, hdistinct⟩

theorem parse?_print (c : Config) : (Json.parse? c.print).bind (ofJson? Json.maxRoom) = some c := by
  rw [print, Json.parse?_print c.plain_toJson]
  exact ofJson?_toJson (by decide) c

theorem ofText_print {c : Config} (h : c.fault? = none) : ofText c.print = .ok c := by
  rw [ofText, parse?_print c]
  dsimp only
  rw [h]

theorem runnable_of_ofText {text : String} {c : Config} (h : ofText text = .ok c) : c.Runnable := by
  unfold ofText at h
  split at h
  · cases h
  · split at h
    · cases h
    · next hfault =>
      cases h
      exact fault?_eq_none_iff.mp hfault

end LoadOrder.Config

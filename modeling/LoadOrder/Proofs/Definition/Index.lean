import LoadOrder.Definition.Index
import LoadOrder.Proofs.Text.LowerCase

/-!
What look-ups find. Both are views of the sequence of definitions: under a key stand the definitions
of the sequence that have it, in the order of the sequence.
-/

namespace LoadOrder

namespace Buckets

variable {α : Type}

def keys (buckets : Buckets α) : List String := buckets.map (·.1)

/-- The buckets are the values by their keys. -/
structure Holds (key : α → String) (definitions : List α) (buckets : Buckets α) : Prop where
  nodup : buckets.keys.Nodup
  mem_keys : ∀ k, k ∈ buckets.keys ↔ ∃ d ∈ definitions, key d = k
  find_eq : ∀ k, buckets.find k = definitions.filter (key · == k)

variable {key : α → String} {buckets : Buckets α} {definitions : List α}

theorem keys_cons (k : String) (members : List α) (rest : Buckets α) :
    keys ((k, members) :: rest) = k :: keys rest := rfl

theorem find_of_notMem {k : String} (h : k ∉ buckets.keys) : buckets.find k = [] := by
  induction buckets with
  | nil => rfl
  | cons bucket rest ih =>
    rw [keys_cons, List.mem_cons, not_or] at h
    rw [find, if_neg (Ne.symm h.1)]
    exact ih h.2

theorem find_of_mem (hn : buckets.keys.Nodup) {k : String} {members : List α}
    (h : (k, members) ∈ buckets) : buckets.find k = members := by
  induction buckets with
  | nil => cases h
  | cons bucket rest ih =>
    rw [keys_cons, List.nodup_cons] at hn
    rcases List.mem_cons.mp h with rfl | h
    · rw [find, if_pos rfl]
    · have hk : k ∈ keys rest := List.mem_map_of_mem h
      have hne : bucket.1 ≠ k := by
        rintro rfl
        exact hn.1 hk
      rw [find, if_neg hne, ih hn.2 h]

theorem Holds.mem_iff (h : buckets.Holds key definitions) {k : String}
    {members : List α} :
    (k, members) ∈ buckets ↔ members = definitions.filter (key · == k) ∧ members ≠ [] := by
  constructor
  · intro hmem
    have heq : members = definitions.filter (key · == k) := by
      rw [← h.find_eq k, find_of_mem h.nodup hmem]
    obtain ⟨d, hd, hk⟩ := (h.mem_keys k).mp (List.mem_map_of_mem hmem)
    have hd' : d ∈ members := by
      rw [heq, List.mem_filter]
      exact ⟨hd, beq_iff_eq.mpr hk⟩
    exact ⟨heq, List.ne_nil_of_mem hd'⟩
  · rintro ⟨heq, hne⟩
    obtain ⟨d, hd⟩ := List.exists_mem_of_ne_nil members hne
    rw [heq, List.mem_filter, beq_iff_eq] at hd
    have hkey : k ∈ buckets.keys := (h.mem_keys k).mpr ⟨d, hd⟩
    obtain ⟨⟨k', members'⟩, hmem, rfl⟩ := List.mem_map.mp hkey
    have hfind : members = members' := by
      rw [heq, ← h.find_eq k', find_of_mem h.nodup hmem]
    rwa [hfind]

theorem Holds.snoc {buckets' : Buckets α} (h : buckets.Holds key definitions) (d : α)
    (hn : buckets'.keys.Nodup) (hk : ∀ k, k ∈ buckets'.keys ↔ k ∈ buckets.keys ∨ k = key d)
    (hf : ∀ k, buckets'.find k = buckets.find k ++ if key d = k then [d] else []) :
    buckets'.Holds key (definitions ++ [d]) := by
  refine ⟨hn, fun k => ?_, fun k => ?_⟩
  · rw [hk, h.mem_keys]
    simp only [List.mem_append, List.mem_singleton, or_and_right, exists_or, exists_eq_left,
      eq_comm (a := k)]
  · rw [hf, h.find_eq, List.filter_append]
    by_cases hd : key d = k <;> simp [hd]

theorem find_append (k : String) (d : α) (buckets : Buckets α) (q : String) :
    (append k d buckets).find q = buckets.find q ++ if k = q then [d] else [] := by
  induction buckets with
  | nil =>
    rw [append, find, find]
    split <;> rfl
  | cons bucket rest ih =>
    rw [append]
    split
    · next heq =>
      rw [find, find, heq]
      split
      · rfl
      · rw [List.append_nil]
    · next hne =>
      rw [find, find, ih]
      split
      · next heq => rw [if_neg (by rintro rfl; exact hne heq), List.append_nil]
      · rfl

theorem keys_append (k : String) (d : α) (buckets : Buckets α) :
    (append k d buckets).keys = if k ∈ buckets.keys then buckets.keys else buckets.keys ++ [k] := by
  induction buckets with
  | nil => rfl
  | cons bucket rest ih =>
    by_cases hk : bucket.1 = k
    · have hmem : k ∈ keys (bucket :: rest) := hk ▸ List.mem_cons_self
      rw [append, if_pos hk, if_pos hmem]
      rfl
    · have hmem : k ∈ keys (bucket :: rest) ↔ k ∈ keys rest := by
        rw [keys_cons, List.mem_cons, or_iff_right (Ne.symm hk)]
      rw [append, if_neg hk, keys_cons, ih]
      simp only [hmem]
      split <;> rfl

theorem Holds.append (h : buckets.Holds key definitions) (d : α) :
    (append (key d) d buckets).Holds key (definitions ++ [d]) := by
  have hkeys := keys_append (key d) d buckets
  refine h.snoc d ?_ (fun k => ?_) (find_append (key d) d buckets)
  · rw [hkeys]
    split
    · exact h.nodup
    · next hnew =>
      rw [List.nodup_append]
      refine ⟨h.nodup, List.pairwise_singleton _ _, fun a ha b hb => ?_⟩
      rw [List.mem_singleton.mp hb]
      rintro rfl
      exact hnew ha
  · rw [hkeys]
    split
    · next hold => rw [or_iff_left_of_imp (by rintro rfl; exact hold)]
    · rw [List.mem_append, List.mem_singleton]

theorem holds_group (key : α → String) (definitions : List α) :
    (group key definitions).Holds key definitions := by
  -- what is still to come is added to buckets that hold what has been added
  have hfold : ∀ (more done : List α) (buckets : Buckets α), buckets.Holds key done →
      (more.foldl (fun buckets d => Buckets.append (key d) d buckets) buckets).Holds key
        (done ++ more) := by
    intro more
    induction more with
    | nil =>
      intro done buckets h
      rwa [List.append_nil]
    | cons d more ih =>
      intro done buckets h
      rw [List.foldl_cons, List.append_cons]
      exact ih _ _ (h.append d)
  exact hfold definitions [] [] ⟨List.nodup_nil, by simp [keys], fun _ => rfl⟩

def Ascending (buckets : Buckets α) : Prop := buckets.keys.Pairwise (· < ·)

theorem Ascending.nodup (h : buckets.Ascending) : buckets.keys.Nodup :=
  h.imp fun hlt => String.ne_of_lt hlt

theorem mem_keys_insert (k : String) (d : α) (buckets : Buckets α) (q : String) :
    q ∈ (insert k d buckets).keys ↔ q ∈ buckets.keys ∨ q = k := by
  induction buckets with
  | nil => simp [insert, keys]
  | cons bucket rest ih =>
    rw [insert]
    split
    · next heq =>
      rw [keys_cons, keys_cons, List.mem_cons, ← heq]
      exact (or_iff_left_of_imp .inl).symm
    · split
      · rw [keys_cons, List.mem_cons, or_comm]
      · rw [keys_cons, keys_cons, List.mem_cons, List.mem_cons, ih, or_assoc]

theorem Ascending.insert (h : buckets.Ascending) (k : String) (d : α) :
    (insert k d buckets).Ascending := by
  induction buckets with
  | nil => exact List.pairwise_singleton _ _
  | cons bucket rest ih =>
    have ⟨hfirst, hrest⟩ := List.pairwise_cons.mp h
    rw [Buckets.insert]
    split
    · exact h
    · next hne =>
      split
      · next hlt =>
        refine List.pairwise_cons.mpr ⟨fun q hq => ?_, h⟩
        rcases List.mem_cons.mp hq with rfl | hq
        · exact hlt
        · exact String.lt_trans hlt (hfirst q hq)
      · next hge =>
        refine List.pairwise_cons.mpr ⟨fun q hq => ?_, ih hrest⟩
        rcases (mem_keys_insert k d rest q).mp hq with hq | rfl
        · exact hfirst q hq
        · exact Std.lt_of_le_of_ne (String.not_lt.mp hge) hne

theorem find_insert (h : buckets.Ascending) (k : String) (d : α) (q : String) :
    (insert k d buckets).find q = buckets.find q ++ if k = q then [d] else [] := by
  induction buckets with
  | nil =>
    rw [insert, find, find]
    split <;> rfl
  | cons bucket rest ih =>
    have ⟨hfirst, hrest⟩ := List.pairwise_cons.mp h
    rw [insert]
    split
    · next heq =>
      rw [find, find, heq]
      split
      · rfl
      · rw [List.append_nil]
    · next hne =>
      split
      · next hlt =>
        -- the key is new: all others are greater
        have hnew : k ∉ keys (bucket :: rest) := by
          rw [keys_cons, List.mem_cons, not_or]
          refine ⟨Ne.symm hne, fun hmem => ?_⟩
          exact String.lt_asymm hlt (hfirst k hmem)
        rw [find]
        split
        · next heq =>
          subst heq
          rw [find_of_notMem hnew, List.nil_append]
        · rw [List.append_nil]
      · rw [find, find, ih hrest]
        split
        · next heq => rw [if_neg (by rintro rfl; exact hne heq), List.append_nil]
        · rfl

theorem Holds.insert (h : buckets.Holds key definitions) (hasc : buckets.Ascending)
    (d : α) : (insert (key d) d buckets).Holds key (definitions ++ [d]) :=
  h.snoc d (hasc.insert (key d) d).nodup (mem_keys_insert (key d) d buckets)
    (find_insert hasc (key d) d)

theorem holds_sorted (key : α → String) (definitions : List α) :
    (sorted key definitions).Holds key definitions ∧ (sorted key definitions).Ascending := by
  have hfold : ∀ (more done : List α) (buckets : Buckets α),
      buckets.Holds key done → buckets.Ascending →
      let buckets' := more.foldl (fun buckets d => Buckets.insert (key d) d buckets) buckets
      buckets'.Holds key (done ++ more) ∧ buckets'.Ascending := by
    intro more
    induction more with
    | nil =>
      intro done buckets h hasc
      rw [List.append_nil]
      exact ⟨h, hasc⟩
    | cons d more ih =>
      intro done buckets h hasc
      rw [List.foldl_cons, List.append_cons]
      exact ih _ _ (h.insert hasc d) (hasc.insert (key d) d)
  exact hfold definitions [] [] ⟨List.nodup_nil, by simp [keys], fun _ => rfl⟩ .nil

theorem perm_flatMap_insert (k : String) (d : α) (buckets : Buckets α) :
    ((insert k d buckets).flatMap (·.2)).Perm (d :: buckets.flatMap (·.2)) := by
  induction buckets with
  | nil => exact .refl _
  | cons bucket rest ih =>
    rw [insert]
    split
    · simp
    · split
      · exact .refl _
      · exact (ih.append_left bucket.2).trans List.perm_middle

theorem perm_flatMap_sorted (key : α → String) (definitions : List α) :
    ((sorted key definitions).flatMap (·.2)).Perm definitions := by
  have hfold : ∀ (more : List α) (buckets : Buckets α),
      ((more.foldl (fun buckets d => Buckets.insert (key d) d buckets) buckets).flatMap (·.2)).Perm
        (buckets.flatMap (·.2) ++ more) := by
    intro more
    induction more with
    | nil => simp
    | cons d more ih =>
      intro buckets
      rw [List.foldl_cons]
      have hinsert := (perm_flatMap_insert (key d) d buckets).append_right more
      exact ((ih _).trans hinsert).trans List.perm_middle.symm
  exact hfold definitions []

theorem filter_flatMap (hn : buckets.keys.Nodup)
    (hkey : ∀ bucket ∈ buckets, ∀ d ∈ bucket.2, key d = bucket.1)
    (pick : List α → List α) (hnil : pick [] = [])
    (hpick : ∀ members, ∀ d ∈ pick members, d ∈ members) (k : String) :
    (buckets.flatMap fun bucket => pick bucket.2).filter (key · == k) = pick (buckets.find k) := by
  induction buckets with
  | nil => exact hnil.symm
  | cons bucket rest ih =>
    rw [keys_cons, List.nodup_cons] at hn
    rw [List.forall_mem_cons] at hkey
    rw [List.flatMap_cons, List.filter_append, ih hn.2 hkey.2, find]
    split
    · next heq =>
      have hall : ∀ d ∈ pick bucket.2, (key d == k) = true := fun d hd =>
        beq_iff_eq.mpr ((hkey.1 d (hpick _ d hd)).trans heq)
      rw [List.filter_eq_self.mpr hall, find_of_notMem (heq ▸ hn.1), hnil, List.append_nil]
    · next hne =>
      have hnone : ∀ d ∈ pick bucket.2, ¬ (key d == k) = true := fun d hd h =>
        hne ((hkey.1 d (hpick _ d hd)).symm.trans (beq_iff_eq.mp h))
      rw [List.filter_eq_nil_iff.mpr hnone, List.nil_append]

theorem Holds.filter_flatMap (h : buckets.Holds key definitions)
    (pick : List α → List α) (hnil : pick [] = [])
    (hpick : ∀ members, ∀ d ∈ pick members, d ∈ members) (k : String) :
    (buckets.flatMap fun bucket => pick bucket.2).filter (key · == k) =
      pick (definitions.filter (key · == k)) := by
  have hkey : ∀ bucket ∈ buckets, ∀ d ∈ bucket.2, key d = bucket.1 := by
    intro bucket hb d hd
    rw [(h.mem_iff.mp hb).1, List.mem_filter, beq_iff_eq] at hd
    exact hd.2
  rw [Buckets.filter_flatMap h.nodup hkey pick hnil hpick, h.find_eq]

theorem find_map (f : String → List α) (names : List String) (k : String) :
    find (names.map fun name => (name, f name)) k = if k ∈ names then f k else [] := by
  induction names with
  | nil => rfl
  | cons name names ih =>
    rw [List.map_cons, find, ih]
    by_cases hk : name = k
    · simp [hk]
    · simp [hk, Ne.symm hk]

theorem hasKey_iff {k : String} : buckets.hasKey k ↔ k ∈ buckets.keys := by
  simp [hasKey, keys]

theorem keys_places (buckets : Buckets (α × Nat)) : buckets.places.keys = buckets.keys := by
  simp [places, keys]

theorem find_places (buckets : Buckets (α × Nat)) (k : String) :
    buckets.places.find k = (buckets.find k).map (·.2) := by
  induction buckets with
  | nil => rfl
  | cons bucket rest ih =>
    rw [find]
    split
    · next heq => exact if_pos heq
    · next hne => exact (if_neg hne).trans ih

theorem filterMap_places {all : List α} {members : List (α × Nat)}
    (h : ∀ x ∈ members, x ∈ all.zipIdx) :
    (members.map (·.2)).filterMap (all[·]?) = members.map (·.1) := by
  induction members with
  | nil => rfl
  | cons x members ih =>
    rw [List.forall_mem_cons, List.mem_zipIdx_iff_getElem?] at h
    rw [List.map_cons, List.filterMap_cons_some h.1, ih h.2, List.map_cons]

section Places

variable {all : List α} {placed : Buckets (α × Nat)}

/-- What is looked up by places is what a scan finds. -/
theorem Holds.atPlaces (h : placed.Holds (fun x => key x.1) all.zipIdx) (k : String) :
    (placed.places.find k).filterMap (all[·]?) = all.filter (key · == k) := by
  have hmembers : ∀ x ∈ all.zipIdx.filter fun x => key x.1 == k, x ∈ all.zipIdx := fun x hx =>
    (List.mem_filter.mp hx).1
  calc (placed.places.find k).filterMap (all[·]?)
    _ = (all.zipIdx.filter fun x => key x.1 == k).map (·.1) := by
      rw [find_places, h.find_eq, filterMap_places hmembers]
    _ = (all.zipIdx.map (·.1)).filter (key · == k) := by
      rw [List.filter_map]
      rfl
    _ = all.filter (key · == k) := by rw [List.zipIdx_map_fst]

theorem Holds.mem_keys_places (h : placed.Holds (fun x => key x.1) all.zipIdx) (k : String) :
    k ∈ placed.places.keys ↔ ∃ d ∈ all, key d = k := by
  rw [keys_places, h.mem_keys]
  constructor
  · rintro ⟨⟨d, i⟩, hd, hk⟩
    exact ⟨d, List.mem_of_getElem? (List.mk_mem_zipIdx_iff_getElem?.mp hd), hk⟩
  · rintro ⟨d, hd, hk⟩
    obtain ⟨i, hi⟩ := List.mem_iff_getElem?.mp hd
    exact ⟨(d, i), List.mk_mem_zipIdx_iff_getElem?.mpr hi, hk⟩

theorem Holds.places_lt (h : placed.Holds (fun x => key x.1) all.zipIdx) :
    ∀ bucket ∈ placed.places, ∀ i ∈ bucket.2, i < all.length := by
  intro bucket hbucket i hi
  obtain ⟨⟨k, members⟩, hmem, rfl⟩ := List.mem_map.mp hbucket
  obtain ⟨⟨d, i'⟩, hd, rfl⟩ := List.mem_map.mp hi
  rw [(h.mem_iff.mp hmem).1, List.mem_filter, List.mk_mem_zipIdx_iff_getElem?] at hd
  exact (List.getElem?_eq_some_iff.mp hd.1).1

end Places

end Buckets

theorem lowercase_fileKey (d : Definition) : Text.lowercase d.fileKey = d.fileKey :=
  Text.lowercase_lowercase d.file

theorem lowercase_identity (d : Definition) : Text.lowercase d.identity = d.identity :=
  Text.lowercase_lowercase _

theorem nodup_eraseDups : (names : List String) → names.eraseDups.Nodup
  | [] => by simp
  | name :: names => by
    have hrest := nodup_eraseDups (names.filter fun other => !other == name)
    rw [List.eraseDups_cons, List.nodup_cons]
    exact ⟨by simp, hrest⟩
termination_by names => names.length
decreasing_by
  rw [List.length_cons]
  exact Nat.lt_succ_of_le (List.length_filter_le _ names)

theorem keepLast_sublist (definitions : List Definition) :
    (keepLast definitions).Sublist definitions := by
  induction definitions with
  | nil => exact .slnil
  | cons d rest ih =>
    rw [keepLast]
    split
    · exact ih.cons d
    · exact ih.cons_cons d

theorem keepLast_pairwise (definitions : List Definition) :
    (keepLast definitions).Pairwise fun d d' => d'.sameSlot d = false := by
  induction definitions with
  | nil => exact .nil
  | cons d rest ih =>
    rw [keepLast]
    split
    · exact ih
    · next hnone =>
      refine .cons (fun d' hd' => ?_) ih
      have hmem := (keepLast_sublist rest).mem hd'
      rw [Bool.not_eq_true, List.any_eq_false] at hnone
      simpa using hnone d' hmem

theorem Definition.sameSlot_iff {a b : Definition} :
    a.sameSlot b ↔ a.modName = b.modName ∧ a.fileKey = b.fileKey ∧ a.identity = b.identity := by
  simp [Definition.sameSlot, and_assoc]

theorem Definition.sameSlot_comm (a b : Definition) : a.sameSlot b = b.sameSlot a := by
  simp only [Definition.sameSlot, Bool.beq_comm]

theorem Definition.sameSlot_trans {a b c : Definition} (hab : a.sameSlot b) (hbc : b.sameSlot c) :
    a.sameSlot c := by
  rw [Definition.sameSlot_iff] at hab hbc ⊢
  exact ⟨hab.1.trans hbc.1, hab.2.1.trans hbc.2.1, hab.2.2.trans hbc.2.2⟩

theorem exists_mem_keepLast {definitions : List Definition} {d : Definition}
    (hd : d ∈ definitions) : ∃ kept ∈ keepLast definitions, kept.sameSlot d := by
  induction definitions generalizing d with
  | nil => cases hd
  | cons e rest ih =>
    have hrest : ∀ kept ∈ keepLast rest, kept ∈ keepLast (e :: rest) := by
      intro kept hkept
      rw [keepLast]
      split
      · exact hkept
      · exact List.mem_cons_of_mem e hkept
    rcases List.mem_cons.mp hd with rfl | hd
    · by_cases hany : rest.any (·.sameSlot d)
      · obtain ⟨later, hlater, hslot⟩ := List.any_eq_true.mp hany
        obtain ⟨kept, hkept, hsame⟩ := ih hlater
        exact ⟨kept, hrest kept hkept, Definition.sameSlot_trans hsame hslot⟩
      · refine ⟨d, ?_, Definition.sameSlot_iff.mpr ⟨rfl, rfl, rfl⟩⟩
        rw [keepLast, if_neg hany]
        exact List.mem_cons_self
    · obtain ⟨kept, hkept, hsame⟩ := ih hd
      exact ⟨kept, hrest kept hkept, hsame⟩

theorem eq_of_sameSlot {definitions : List Definition} {a b : Definition}
    (ha : a ∈ keepLast definitions) (hb : b ∈ keepLast definitions) (h : a.sameSlot b) :
    a = b := by
  -- of two different places the earlier one would have been dropped
  have hslots := List.pairwise_iff_getElem.mp (keepLast_pairwise definitions)
  obtain ⟨i, hi, rfl⟩ := List.mem_iff_getElem.mp ha
  obtain ⟨j, hj, rfl⟩ := List.mem_iff_getElem.mp hb
  rcases Nat.lt_trichotomy i j with hij | rfl | hij
  · have hother := hslots i j hi hj hij
    rw [Definition.sameSlot_comm, h] at hother
    cases hother
  · rfl
  · have hother := hslots j i hj hi hij
    rw [h] at hother
    cases hother

/-- What is kept of a part of the definitions does not depend on the others, if every slot is
inside or outside of the part. -/
theorem filter_keepLast {p : Definition → Bool} (hp : ∀ {a b}, a.sameSlot b → p a = p b)
    (definitions : List Definition) :
    (keepLast definitions).filter p = keepLast (definitions.filter p) := by
  induction definitions with
  | nil => rfl
  | cons d rest ih =>
    cases hd : p d with
    | true =>
      have hany : (rest.filter p).any (·.sameSlot d) = rest.any (·.sameSlot d) := by
        rw [List.any_filter]
        refine List.any_congr rfl fun e => ?_
        rw [Bool.and_eq_right_iff_imp]
        exact fun hslot => (hp hslot).trans hd
      rw [List.filter_cons_of_pos hd, keepLast, keepLast, hany]
      split
      · exact ih
      · rw [List.filter_cons_of_pos hd, ih]
    | false =>
      rw [List.filter_cons_of_neg (by simp [hd]), keepLast]
      split
      · exact ih
      · rw [List.filter_cons_of_neg (by simp [hd]), ih]

namespace Index

variable {definitions : List Definition} {keepsDuplicates : Bool}

theorem build_all_of_keepsDuplicates (definitions : List Definition) :
    (build definitions true).all = definitions := rfl

theorem holds_byFile (all : List Definition) :
    (Buckets.sorted (fun (x : Definition × Nat) => x.1.fileKey) all.zipIdx).Holds
      (fun x => Definition.fileKey x.1) all.zipIdx :=
  (Buckets.holds_sorted _ _).1

theorem holds_byIdentity (all : List Definition) :
    (Buckets.group (fun (x : Definition × Nat) => x.1.identity) all.zipIdx).Holds
      (fun x => Definition.identity x.1) all.zipIdx :=
  Buckets.holds_group _ _

theorem inFile_build (definitions : List Definition) (keepsDuplicates : Bool) (file : String) :
    (build definitions keepsDuplicates).inFile file =
      (build definitions keepsDuplicates).all.filter (·.fileKey == Text.lowercase file) :=
  (holds_byFile _).atPlaces _

theorem withIdentity_build (definitions : List Definition) (keepsDuplicates : Bool)
    (identity : String) :
    (build definitions keepsDuplicates).withIdentity identity =
      (build definitions keepsDuplicates).all.filter (·.identity == Text.lowercase identity) :=
  (holds_byIdentity _).atPlaces _

theorem mem_files_build {file : String} :
    file ∈ (build definitions keepsDuplicates).files ↔
      ∃ d ∈ (build definitions keepsDuplicates).all, d.fileKey = file :=
  (holds_byFile _).mem_keys_places _

theorem files_build_ascending : (build definitions keepsDuplicates).files.Pairwise (· < ·) := by
  have hfiles : (build definitions keepsDuplicates).files =
      (Buckets.sorted (fun (x : Definition × Nat) => x.1.fileKey)
        (build definitions keepsDuplicates).all.zipIdx).keys :=
    Buckets.keys_places _
  rw [hfiles]
  exact (Buckets.holds_sorted _ _).2

theorem identities_build (definitions : List Definition) (keepsDuplicates : Bool) :
    (build definitions keepsDuplicates).identities =
      ((build definitions keepsDuplicates).all.map Definition.identity).eraseDups := by
  have hkeys : ∀ k ∈ (build definitions keepsDuplicates).all.map Definition.identity,
      (build definitions keepsDuplicates).byIdentity.hasKey k := by
    intro k hk
    obtain ⟨d, hd, rfl⟩ := List.mem_map.mp hk
    rw [Buckets.hasKey_iff]
    exact ((holds_byIdentity _).mem_keys_places _).mpr ⟨d, hd, rfl⟩
  rw [identities, List.filter_eq_self.mpr hkeys]

theorem mem_identities_build {k : String} :
    k ∈ (build definitions keepsDuplicates).identities ↔
      ∃ d ∈ (build definitions keepsDuplicates).all, d.identity = k := by
  rw [identities_build, List.mem_eraseDups, List.mem_map]

def identityBuckets (index : Index) : Buckets Definition :=
  index.identities.map fun k => (k, index.withIdentity k)

theorem holds_identityBuckets (definitions : List Definition) (keepsDuplicates : Bool) :
    (build definitions keepsDuplicates).identityBuckets.Holds Definition.identity
      (build definitions keepsDuplicates).all := by
  have hkeys : (build definitions keepsDuplicates).identityBuckets.keys =
      (build definitions keepsDuplicates).identities := by
    simp [identityBuckets, Buckets.keys, Function.comp_def]
  refine ⟨?_, fun k => ?_, fun k => ?_⟩
  · rw [hkeys, identities_build]
    exact nodup_eraseDups _
  · rw [hkeys, mem_identities_build]
  · rw [identityBuckets, Buckets.find_map]
    split
    · next hk =>
      obtain ⟨d, -, rfl⟩ := mem_identities_build.mp hk
      rw [withIdentity_build, lowercase_identity]
    · next hk =>
      symm
      rw [List.filter_eq_nil_iff]
      intro d hd heq
      exact hk (mem_identities_build.mpr ⟨d, hd, eq_of_beq heq⟩)

end Index

end LoadOrder

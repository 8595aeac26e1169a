import LoadOrder.Disk
import LoadOrder.Proofs.Text.Pieces

namespace LoadOrder

theorem lookup_filter {α β : Type} [BEq α] [LawfulBEq α] (keep : α → Bool) (a : α)
    (entries : List (α × β)) :
    (entries.filter fun entry => keep entry.1).lookup a =
      if keep a then entries.lookup a else none := by
  induction entries with
  | nil => simp
  | cons entry entries ih =>
    obtain ⟨b, value⟩ := entry
    by_cases hb : a = b
    · subst hb
      cases hkeep : keep a <;> simp [hkeep, ih]
    · have hne : (a == b) = false := beq_false_of_ne hb
      cases hkeep : keep b <;> simp [hkeep, ih, List.lookup_cons, hne]

theorem Path.isAbsolute_append {base : String} (hbase : base ≠ "") (rest : String) :
    Path.isAbsolute (base ++ rest) = Path.isAbsolute base := by
  have hne : base.toList ≠ [] := by simpa using hbase
  unfold Path.isAbsolute
  rw [String.toList_append]
  cases hchars : base.toList with
  | nil => exact absurd hchars hne
  | cons c chars => rfl

theorem Path.join_append {rel : String} (hrel : rel ≠ "") (habsolute : isAbsolute rel = false)
    (root rest : String) : join root (rel ++ rest) = join root rel ++ rest := by
  have hlonger : isAbsolute (rel ++ rest) = false := by rwa [isAbsolute_append hrel]
  unfold join
  rw [habsolute, hlonger]
  split
  · contradiction
  · split
    · rw [String.append_assoc]
    · simp only [String.append_assoc]

theorem Path.join_ne_empty {rel : String} (hrel : rel ≠ "") (root : String) :
    join root rel ≠ "" := by
  unfold join
  split
  · exact hrel
  · split <;> simp [hrel]

namespace Disk

theorem entry?_of_ne_nil {d : Disk} {p : Place} (hp : p ≠ []) :
    d.entry? p = d.entries.lookup p := if_neg hp

theorem entry?_prune (d : Disk) (place p : Place) :
    entry? (d.prune place) p = if p ≠ [] ∧ place <+: p then none else d.entry? p := by
  by_cases hp : p = []
  · simp [hp, Disk.entry?]
  · have hlookup := lookup_filter (fun q => !place.isPrefixOf q) p d.entries
    rw [entry?_of_ne_nil hp, entry?_of_ne_nil hp, prune, hlookup]
    by_cases hplace : place.isPrefixOf p
    · have hprefix := List.isPrefixOf_iff_prefix.mp hplace
      simp [hplace, hprefix, hp]
    · have hprefix : ¬ place <+: p := fun h => hplace (List.isPrefixOf_iff_prefix.mpr h)
      simp [hplace, hprefix]

theorem entry?_put (d : Disk) (place p : Place) (entry : DiskEntry) :
    entry? (d.put place entry) p = if p ≠ [] ∧ p = place then some entry else d.entry? p := by
  by_cases hp : p = []
  · simp [hp, Disk.entry?]
  · have hlookup := lookup_filter (fun q => q != place) p d.entries
    rw [entry?_of_ne_nil hp, entry?_of_ne_nil hp, put, List.lookup_cons, hlookup]
    by_cases hplace : p = place
    · subst hplace
      simp [hp]
    · have hne : (p == place) = false := beq_false_of_ne hplace
      simp [hne, hplace]

theorem find_eq_ok {d : Disk} {path : String} {place : Place} {entry : DiskEntry} :
    d.find path = .ok (place, entry) ↔
      d.locate path = .ok place ∧ d.entry? place = some entry := by
  unfold find
  cases d.locate path with
  | error e => simp [bind, Except.bind]
  | ok place' =>
    cases hentry : d.entry? place' with
    | none =>
      simp [bind, Except.bind, hentry, throw, throwThe, MonadExceptOf.throw]
      rintro rfl
      simp [hentry]
    | some entry' =>
      simp [bind, Except.bind, pure, Except.pure, hentry]
      rintro rfl
      simp [hentry]

/-- A folder is removed with all below it, or is left empty. Nothing happens if there is none. -/
theorem removeFolder_cases (d : Disk) (path : String) :
    (d.removeFolder path).1 = d ∧ (∀ place, d.find path ≠ .ok (place, .folder)) ∨
      ∃ place, d.find path = .ok (place, .folder) ∧
        ((d.removeFolder path).1 = d.prune place ∨
          (d.removeFolder path).1 = (d.prune place).put place .folder) := by
  unfold removeFolder
  split
  · next h => exact .inl ⟨rfl, by simp [h]⟩
  · next h => exact .inl ⟨rfl, by simp [h]⟩
  · next place h =>
    refine .inr ⟨place, h, ?_⟩
    dsimp only
    split
    · exact .inr rfl
    · exact .inr rfl
    · exact .inr rfl
    · exact .inl rfl

/-- The removal of a folder changes nothing but what is at and below its place, and that it removes.
-/
theorem entry?_removeFolder {d : Disk} {path : String} {p : Place}
    (h : entry? (d.removeFolder path).1 p ≠ d.entry? p) :
    entry? (d.removeFolder path).1 p = none ∧
      ∃ place, d.locate path = .ok place ∧ place <+: p := by
  rcases removeFolder_cases d path with ⟨heq, -⟩ | ⟨place, hfind, heq⟩
  · rw [heq] at h
    exact absurd rfl h
  · obtain ⟨hlocate, hentry⟩ := find_eq_ok.mp hfind
    rcases heq with heq | heq
    · rw [heq, entry?_prune] at h ⊢
      by_cases hbelow : p ≠ [] ∧ place <+: p
      · exact ⟨if_pos hbelow, place, hlocate, hbelow.2⟩
      · rw [if_neg hbelow] at h
        exact absurd rfl h
    · rw [heq, entry?_put, entry?_prune] at h ⊢
      by_cases hplace : p ≠ [] ∧ p = place
      · rw [if_pos hplace, hplace.2, hentry] at h
        exact absurd rfl h
      · rw [if_neg hplace] at h ⊢
        by_cases hbelow : p ≠ [] ∧ place <+: p
        · exact ⟨if_pos hbelow, place, hlocate, hbelow.2⟩
        · rw [if_neg hbelow] at h
          exact absurd rfl h

theorem entry?_removeFolder_below {d : Disk} {path : String} {place p : Place}
    (hfind : d.find path = .ok (place, .folder)) (hbelow : place <+: p) (hne : p ≠ place) :
    entry? (d.removeFolder path).1 p = none := by
  have hp : p ≠ [] := by
    rintro rfl
    exact hne (List.prefix_nil.mp hbelow).symm
  rcases removeFolder_cases d path with ⟨-, hnone⟩ | ⟨place', hfind', heq⟩
  · exact absurd hfind (hnone place)
  · rw [hfind] at hfind'
    cases hfind'
    rcases heq with heq | heq
    · rw [heq, entry?_prune, if_pos ⟨hp, hbelow⟩]
    · rw [heq, entry?_put, entry?_prune, if_neg (fun h => hne h.2), if_pos ⟨hp, hbelow⟩]

theorem follow_append (d : Disk) (place : Place) (before after : List String) :
    d.follow place (before ++ after) = (d.follow place before).bind (d.follow · after) := by
  induction before generalizing place with
  | nil => rfl
  | cons piece before ih =>
    simp only [List.cons_append, follow]
    cases d.entry? place with
    | none => rfl
    | some entry =>
      cases entry with
      | file content => rfl
      | folder =>
        dsimp only
        by_cases hlong : maxName < piece.utf8ByteSize
        · simp [hlong, Except.bind]
        · rw [if_neg hlong, if_neg hlong, ih]

theorem follow_singleton {d : Disk} {parent place : Place} {name : String}
    (h : d.follow parent [name] = .ok place) : place = step parent name := by
  simp only [follow] at h
  split at h
  · cases h
  · cases h
  · split at h
    · cases h
    · cases h
      rfl

theorem locate_eq_ok {d : Disk} {path : String} {place : Place} :
    d.locate path = .ok place ↔
      pathFault? path = none ∧ d.follow (d.origin path) (pieces path) = .ok place := by
  unfold locate followPath
  cases pathFault? path <;> simp

theorem pathFault?_of_append {base rest : String} (hbase : base ≠ "")
    (h : pathFault? (base ++ rest) = none) : pathFault? base = none := by
  unfold pathFault? at h ⊢
  split at h
  · cases h
  · next hnul =>
    split at h
    · cases h
    · split at h
      · cases h
      · next hlength =>
        rw [if_neg, if_neg hbase, if_neg]
        · rw [String.utf8ByteSize_append] at hlength
          omega
        · unfold Path.hasNul at hnul ⊢
          simp at hnul ⊢
          exact hnul.1

theorem pieces_append_slash (before after : String) :
    pieces (before ++ "/" ++ after) = pieces before ++ pieces after := by
  have hslash : ("/" : String).toList = ['/'] := rfl
  unfold pieces
  rw [String.toList_append, String.toList_append, hslash, List.append_assoc,
    List.singleton_append, Text.split_append (by rfl), List.map_append]

theorem origin_append {d : Disk} {base : String} (hbase : base ≠ "") (rest : String) :
    d.origin (base ++ rest) = d.origin base := by
  unfold origin
  rw [Path.isAbsolute_append hbase]

/-- What a path in a folder leads to is one step from where the folder's path leads. -/
theorem locate_child {d : Disk} {base name : String} {place : Place} (hbase : base ≠ "")
    (hname : '/' ∉ name.toList) (h : d.locate (base ++ "/" ++ name) = .ok place) :
    ∃ parent, d.locate base = .ok parent ∧ place = step parent name := by
  have hpieces : pieces (base ++ "/" ++ name) = pieces base ++ [name] := by
    have hlast : Text.split (· == '/') name.toList = [name.toList] := by
      apply Text.split_of_forall_not
      intro c hc
      apply beq_false_of_ne
      rintro rfl
      exact hname hc
    rw [pieces_append_slash]
    unfold pieces
    simp [hlast]
  have horigin : d.origin (base ++ "/" ++ name) = d.origin base := by
    rw [String.append_assoc, origin_append hbase]
  obtain ⟨hfault, hfollow⟩ := locate_eq_ok.mp h
  rw [horigin, hpieces, follow_append] at hfollow
  rw [String.append_assoc] at hfault
  cases hparent : d.follow (d.origin base) (pieces base) with
  | error e =>
    rw [hparent] at hfollow
    cases hfollow
  | ok parent =>
    rw [hparent] at hfollow
    exact ⟨parent, locate_eq_ok.mpr ⟨pathFault?_of_append hbase hfault, hparent⟩,
      follow_singleton hfollow⟩

end Disk

end LoadOrder

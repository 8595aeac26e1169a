import LoadOrder.Json.Basic

namespace LoadOrder.Json

theorem mapM_eq_some {α β : Type} {f : α → Option β} {g : α → β} {l : List α}
    (h : ∀ a ∈ l, f a = some (g a)) : l.mapM f = some (l.map g) := by
  induction l with
  | nil => rfl
  | cons a l ih =>
    obtain ⟨hfirst, hrest⟩ := List.forall_mem_cons.mp h
    rw [List.mapM_cons, hfirst, ih hrest]
    rfl

variable {α : Type} {room : Nat}

theorem list?_array {read : Json → Option α} {write : α → Json} {l : List α} (hroom : 1 < room)
    (h : ∀ a ∈ l, read (write a) = some a) : list? room read (array (l.map write)) = some l := by
  have hread : ∀ a ∈ l, (read ∘ write) a = some (id a) := h
  rw [list?, if_pos hroom, List.mapM_map, mapM_eq_some hread, List.map_id]

theorem texts?_ofTexts (hroom : 1 < room) (texts : List String) :
    texts? room (ofTexts texts) = some texts := list?_array hroom fun _ _ => rfl

theorem option?_elim {read : Json → Option α} {write : α → Json} {a : Option α}
    (h : ∀ b ∈ a, read (write b) = some b) (hnull : ∀ a, write a ≠ null) :
    option? read (a.elim null write) = some a := by
  cases a with
  | none => rfl
  | some a =>
    unfold option?
    split
    · next heq => exact absurd heq (hnull a)
    · exact congrArg (Option.map some) (h a rfl)

theorem constant?_name {name : α → String} {all : List α} {a : α}
    (h : all.find? (name · == name a) = some a) :
    constant? room name all (text (name a)) = some a := h

theorem filter_key {members : List (String × Json)} (hn : (members.map (·.1)).Nodup)
    {member : String × Json} (hmem : member ∈ members) :
    members.filter (·.1 == member.1) = [member] := by
  induction members with
  | nil => cases hmem
  | cons first rest ih =>
    rw [List.map_cons, List.nodup_cons, List.mem_map, not_exists] at hn
    obtain ⟨hfirst, hrest⟩ := hn
    rw [List.filter_cons]
    rcases List.mem_cons.mp hmem with rfl | hmem
    · have hnone : rest.filter (·.1 == member.1) = [] := by
        rw [List.filter_eq_nil_iff]
        exact fun other hother heq => hfirst other ⟨hother, eq_of_beq heq⟩
      rw [if_pos (beq_self_eq_true _), hnone]
    · have hne : ¬(first.1 == member.1) := fun heq =>
        hfirst member ⟨hmem, (eq_of_beq heq).symm⟩
      rw [if_neg hne, ih hrest hmem]

theorem member?_of_nodup {members : List (String × Json)} (hn : (members.map (·.1)).Nodup)
    {member : String × Json} (hmem : member ∈ members) :
    member? members member.1 = some (some member.2) := by
  rw [member?, filter_key hn hmem]

theorem fields?_object {names : List String} {members : List (String × Json)} (hroom : 1 < room)
    (hnames : members.map (·.1) = names) (hn : names.Nodup) :
    fields? room names (object members) = some (members.map fun member => some member.2) := by
  subst hnames
  rw [fields?, if_pos hroom, List.mapM_map]
  exact mapM_eq_some fun member hmem => member?_of_nodup hn hmem

end LoadOrder.Json

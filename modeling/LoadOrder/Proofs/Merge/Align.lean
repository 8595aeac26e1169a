import LoadOrder.Proofs.Definition.Growth
import LoadOrder.Proofs.Merge.Once
import LoadOrder.Proofs.Sorting
import Mathlib.Data.List.Induction

namespace LoadOrder

/-- How many entries come from a mod. -/
def share (exported : List Definition) (name : String) : Nat :=
  exported.countP (·.modName == name)

/-- The mod with most entries, and of several the one whose first entry comes first. -/
structure Leads (exported : List Definition) (dominant : String) : Prop where
  most : ∀ name, share exported name ≤ share exported dominant
  first : ∃ before d after, exported = before ++ d :: after ∧ d.modName = dominant ∧
    ∀ e ∈ before, share exported e.modName < share exported dominant

variable {exported : List Definition} {dominant name : String}

theorem modNames_concat (exported : List Definition) (d : Definition) :
    modNames (exported ++ [d]) =
      if (modNames exported).contains d.modName then modNames exported
      else modNames exported ++ [d.modName] := by
  simp [modNames]

theorem mem_modNames : name ∈ modNames exported ↔ ∃ d ∈ exported, d.modName = name := by
  induction exported using List.reverseRecOn generalizing name with
  | nil => simp [modNames]
  | append_singleton exported d ih =>
    have hmem : name ∈ modNames (exported ++ [d]) ↔
        name ∈ modNames exported ∨ name = d.modName := by
      rw [modNames_concat]
      split
      · next hold => exact (or_iff_left_of_imp (by rintro rfl; simpa using hold)).symm
      · rw [List.mem_append, List.mem_singleton]
    rw [hmem, ih]
    simp [or_and_right, exists_or, eq_comm]

theorem exists_of_modNames_eq {before after : List String}
    (h : modNames exported = before ++ name :: after) :
    ∃ early d late, exported = early ++ d :: late ∧ d.modName = name ∧
      ∀ e ∈ early, e.modName ∈ before := by
  induction exported using List.reverseRecOn generalizing after with
  | nil => simp [modNames] at h
  | append_singleton exported d ih =>
    rw [modNames_concat] at h
    split at h
    · obtain ⟨early, e, late, rfl, he, hearly⟩ := ih h
      exact ⟨early, e, late ++ [d], by simp, he, hearly⟩
    · rcases List.eq_nil_or_concat' after with rfl | ⟨after, last, rfl⟩
      · obtain ⟨rfl, hname⟩ := List.append_inj' h rfl
        obtain ⟨rfl, -⟩ := List.cons.inj hname
        exact ⟨exported, d, [], rfl, rfl, fun e he => mem_modNames.mpr ⟨e, he, rfl⟩⟩
      · rw [← List.cons_append, ← List.append_assoc] at h
        obtain ⟨early, e, late, rfl, he, hearly⟩ := ih (List.append_inj' h rfl).1
        exact ⟨early, e, late ++ [d], by simp, he, hearly⟩

theorem exists_dominantMod? (h : exported ≠ []) :
    ∃ dominant, dominantMod? exported = some dominant ∧ Leads exported dominant := by
  have hnames : modNames exported ≠ [] := by
    obtain ⟨d, hd⟩ := List.exists_mem_of_ne_nil exported h
    exact List.ne_nil_of_mem (mem_modNames.mpr ⟨d, hd, rfl⟩)
  obtain ⟨name, rest, hcons⟩ := List.exists_cons_of_ne_nil hnames
  obtain ⟨before, dominant, after, hlist, hfold, hbefore, hafter⟩ :=
    exists_of_foldl_takes (fun best name => share exported best < share exported name)
      (fun _ _ _ => Nat.lt_trans) (fun a b c h => by omega) name rest
  refine ⟨dominant, ?_, ?_, ?_⟩
  · unfold dominantMod?
    rw [hcons]
    exact congrArg some hfold
  · intro other
    by_cases hother : other ∈ modNames exported
    · rw [hcons, hlist, List.mem_append, List.mem_cons] at hother
      rcases hother with hother | rfl | hother
      · exact Nat.le_of_lt (hbefore other hother)
      · exact Nat.le_refl _
      · exact Nat.not_lt.mp (hafter other hother)
    · have hnone : share exported other = 0 := by
        rw [share, List.countP_eq_zero]
        intro d hd hmod
        exact hother (mem_modNames.mpr ⟨d, hd, by simpa using hmod⟩)
      exact hnone ▸ Nat.zero_le _
  · obtain ⟨early, d, late, hexported, hd, hearly⟩ := exists_of_modNames_eq (hcons.trans hlist)
    exact ⟨early, d, late, hexported, hd, fun e he => hbefore _ (hearly e he)⟩

/-- The copy among those of the dominant mod that gives an entry its order: the only one, else the
first in the entry's own file, else the first whose file sorts first or the last whose file sorts
last. -/
inductive Gives (rules : Option Rules) (d : Definition) : List Definition → Definition → Prop
  | only (copy) : Gives rules d [copy] copy
  | sameFile {before copy after} (hbefore : ∀ e ∈ before, e.fileKey ≠ d.fileKey)
      (hfile : copy.fileKey = d.fileKey) : Gives rules d (before ++ copy :: after) copy
  | leastFile {before copy after}
      (hfiles : ∀ e ∈ before ++ copy :: after, e.fileKey ≠ d.fileKey)
      (hrules : ∃ r ∈ rules, r.orderFor d = some .first)
      (hbefore : ∀ e ∈ before, copy.file < e.file) (hafter : ∀ e ∈ after, copy.file ≤ e.file) :
      Gives rules d (before ++ copy :: after) copy
  | greatestFile {before copy after}
      (hfiles : ∀ e ∈ before ++ copy :: after, e.fileKey ≠ d.fileKey)
      (hrules : ¬∃ r ∈ rules, r.orderFor d = some .first)
      (hbefore : ∀ e ∈ before, e.file ≤ copy.file) (hafter : ∀ e ∈ after, e.file < copy.file) :
      Gives rules d (before ++ copy :: after) copy

theorem firstByFile?_eq_some {copies : List Definition} {copy : Definition}
    (h : firstByFile? copies = some copy) :
    ∃ before after, copies = before ++ copy :: after ∧ (∀ e ∈ before, copy.file < e.file) ∧
      ∀ e ∈ after, copy.file ≤ e.file := by
  cases copies with
  | nil => cases h
  | cons e rest =>
    obtain ⟨before, best, after, hlist, hfold, hbefore, hafter⟩ :=
      exists_of_foldl_takes (fun best e : Definition => e.file < best.file)
        (fun _ _ _ hab hbc => String.lt_trans hbc hab)
        (fun a b c hac => by
          by_cases hab : b.file < a.file
          · exact .inl hab
          · exact .inr (String.not_le.mp fun hbc =>
              String.not_le.mpr hac (String.le_trans (String.not_lt.mp hab) hbc)))
        e rest
    obtain rfl : best = copy := hfold.symm.trans (Option.some.inj h)
    exact ⟨before, after, hlist, hbefore, fun e he => String.not_lt.mp (hafter e he)⟩

theorem lastByFile?_eq_some {copies : List Definition} {copy : Definition}
    (h : lastByFile? copies = some copy) :
    ∃ before after, copies = before ++ copy :: after ∧ (∀ e ∈ before, e.file ≤ copy.file) ∧
      ∀ e ∈ after, e.file < copy.file := by
  cases copies with
  | nil => cases h
  | cons e rest =>
    obtain ⟨before, best, after, hlist, hfold, hbefore, hafter⟩ :=
      exists_of_foldl_takes (fun best e : Definition => ¬e.file < best.file)
        (fun _ _ _ hab hbc =>
          String.not_lt.mpr (String.le_trans (String.not_lt.mp hab) (String.not_lt.mp hbc)))
        (fun a b c hac => by
          by_cases hab : b.file < a.file
          · exact .inr fun hbc => hac (String.lt_trans hbc hab)
          · exact .inl hab)
        e rest
    have hlast : lastByFile? (e :: rest) = some best := by
      rw [← hfold]
      simp only [lastByFile?, ite_not]
    obtain rfl : best = copy := Option.some.inj (hlast.symm.trans h)
    exact ⟨before, after, hlist, fun e he => String.not_lt.mp (hbefore e he),
      fun e he => Decidable.not_not.mp (hafter e he)⟩

theorem orderModel?_cons_cons (first second : Definition) (rest : List Definition)
    (rules : Option Rules) (d : Definition) :
    orderModel? (first :: second :: rest) rules d =
      ((first :: second :: rest).find? (·.fileKey == d.fileKey)).or
        (if rules.any (·.orderFor d == some .first) then firstByFile? (first :: second :: rest)
          else lastByFile? (first :: second :: rest)) := by
  unfold orderModel?
  dsimp only
  cases (first :: second :: rest).find? (·.fileKey == d.fileKey) <;> rfl

theorem exists_orderModel?_cons_cons (first second : Definition) (rest : List Definition)
    (rules : Option Rules) (d : Definition) :
    ∃ copy, orderModel? (first :: second :: rest) rules d = some copy ∧
      Gives rules d (first :: second :: rest) copy := by
  have hrules : rules.any (·.orderFor d == some .first) ↔
      ∃ r ∈ rules, r.orderFor d = some .first := by
    cases rules <;> simp
  have hleast : ∃ copy, firstByFile? (first :: second :: rest) = some copy := ⟨_, rfl⟩
  have hgreatest : ∃ copy, lastByFile? (first :: second :: rest) = some copy := ⟨_, rfl⟩
  rw [orderModel?_cons_cons]
  generalize first :: second :: rest = copies at hleast hgreatest
  cases hfind : copies.find? (·.fileKey == d.fileKey) with
  | some copy =>
    obtain ⟨hfile, before, after, rfl, hbefore⟩ := List.find?_eq_some_iff_append.mp hfind
    exact ⟨copy, rfl, .sameFile (fun e he => by simpa using hbefore e he) (by simpa using hfile)⟩
  | none =>
    have hfiles : ∀ e ∈ copies, e.fileKey ≠ d.fileKey := by
      simpa using List.find?_eq_none.mp hfind
    rw [Option.none_or]
    by_cases hfirst : rules.any (·.orderFor d == some .first)
    · obtain ⟨copy, hcopy⟩ := hleast
      obtain ⟨before, after, rfl, hbefore, hafter⟩ := firstByFile?_eq_some hcopy
      exact ⟨copy, (if_pos hfirst).trans hcopy,
        .leastFile hfiles (hrules.mp hfirst) hbefore hafter⟩
    · obtain ⟨copy, hcopy⟩ := hgreatest
      obtain ⟨before, after, rfl, hbefore, hafter⟩ := lastByFile?_eq_some hcopy
      exact ⟨copy, (if_neg hfirst).trans hcopy,
        .greatestFile hfiles (mt hrules.mpr hfirst) hbefore hafter⟩

theorem exists_orderModel? {copies : List Definition} (h : copies ≠ []) (rules : Option Rules)
    (d : Definition) :
    ∃ copy, orderModel? copies rules d = some copy ∧ Gives rules d copies copy := by
  cases copies with
  | nil => exact absurd rfl h
  | cons first rest =>
    cases rest with
    | nil => exact ⟨first, rfl, .only first⟩
    | cons second rest => exact exists_orderModel?_cons_cons first second rest rules d

/-- The copies that a mod has of a definition in a set. -/
def copiesOf (all : Index) (dominant : String) (d : Definition) : List Definition :=
  all.all.filter fun e => e.identity == d.identity && e.modName == dominant

/-- What alignment makes of an entry. -/
inductive Aligns (all : Index) (rules : Option Rules) (dominant : String) (d : Definition) :
    Definition → Prop
  | own (hmod : d.modName = dominant) : Aligns all rules dominant d d
  | alone (hmod : d.modName ≠ dominant) (hcopies : copiesOf all dominant d = []) :
      Aligns all rules dominant d d
  | given {copy} (hmod : d.modName ≠ dominant)
      (hcopy : Gives rules d (copiesOf all dominant d) copy) :
      Aligns all rules dominant d (d.withOrder copy.order)

def foundCopies (all : Index) (dominant : String) (d : Definition) : List Definition :=
  (all.withIdentity d.identity).filter (·.modName == dominant)

def alignEntry (all : Index) (rules : Option Rules) (dominant : String) (d : Definition) :
    Definition :=
  if d.modName = dominant then d
  else
    match orderModel? (foundCopies all dominant d) rules d with
    | some copy => d.withOrder copy.order
    | none => d

variable {all : Index} {rules : Option Rules} {d : Definition}

theorem alignEntry_of_own (h : d.modName = dominant) : alignEntry all rules dominant d = d :=
  if_pos h

theorem alignEntry_of_none (hmod : d.modName ≠ dominant)
    (h : orderModel? (foundCopies all dominant d) rules d = none) :
    alignEntry all rules dominant d = d := by
  rw [alignEntry, if_neg hmod, h]

theorem alignEntry_of_some {copy : Definition} (hmod : d.modName ≠ dominant)
    (h : orderModel? (foundCopies all dominant d) rules d = some copy) :
    alignEntry all rules dominant d = d.withOrder copy.order := by
  rw [alignEntry, if_neg hmod, h]

/-- With a single mod there are no entries of others, so it makes no difference that alignment
stops before it looks for the dominant one. -/
theorem alignOrder_eq_map (h : dominantMod? exported = some dominant) :
    alignOrder exported all rules = exported.map (alignEntry all rules dominant) := by
  unfold alignOrder
  split
  · next hfew =>
    have hmods : modNames exported = [dominant] := by
      cases hnames : modNames exported with
      | nil => simp [dominantMod?, hnames] at h
      | cons name rest =>
        rw [hnames, List.length_cons] at hfew
        obtain rfl : rest = [] := List.length_eq_zero_iff.mp (by omega)
        have hsingle : dominantMod? exported = some name := by
          unfold dominantMod?
          rw [hnames]
          rfl
        rw [Option.some.inj (hsingle.symm.trans h)]
    have hown : ∀ d ∈ exported, alignEntry all rules dominant d = id d := fun d hd => by
      refine alignEntry_of_own ?_
      have hmem : d.modName ∈ modNames exported := mem_modNames.mpr ⟨d, hd, rfl⟩
      simpa [hmods] using hmem
    rw [List.map_congr_left hown, List.map_id]
  · rw [h]
    rfl

theorem foundCopies_eq (history : History) (dominant : String) (d : Definition) :
    foundCopies history.index dominant d = copiesOf history.index dominant d := by
  rw [← Index.build_index history, foundCopies, Index.withIdentity_build, lowercase_identity,
    copiesOf, List.filter_filter]
  exact List.filter_congr fun e _ => Bool.and_comm _ _

theorem aligns_alignEntry (history : History) (rules : Option Rules) (dominant : String)
    (d : Definition) :
    Aligns history.index rules dominant d (alignEntry history.index rules dominant d) := by
  by_cases hmod : d.modName = dominant
  · rw [alignEntry_of_own hmod]
    exact .own hmod
  by_cases hcopies : copiesOf history.index dominant d = []
  · rw [alignEntry_of_none hmod (by rw [foundCopies_eq, hcopies]; rfl)]
    exact .alone hmod hcopies
  · obtain ⟨copy, hcopy, hgives⟩ := exists_orderModel? hcopies rules d
    rw [alignEntry_of_some hmod (by rw [foundCopies_eq, hcopy])]
    exact .given hmod hgives

/-- What the rules say of a definition does not depend on its place in its file. -/
def Rules.IgnoresOrder (r : Rules) : Prop :=
  ∀ (d : Definition) (n : Nat), r.orderFor (d.withOrder n) = r.orderFor d

theorem FolderRules.rules_ignoresOrder (r : FolderRules) : r.rules.IgnoresOrder := fun _ _ => rfl

theorem orderModel?_withOrder (h : ∀ r ∈ rules, r.IgnoresOrder) (copies : List Definition)
    (d : Definition) (n : Nat) :
    orderModel? copies rules (d.withOrder n) = orderModel? copies rules d := by
  have hrules : rules.any (·.orderFor (d.withOrder n) == some .first) =
      rules.any (·.orderFor d == some .first) := by
    cases rules with
    | none => rfl
    | some r => rw [Option.any_some, Option.any_some, h r rfl d n]
  unfold orderModel?
  rw [hrules]
  rfl

theorem alignEntry_alignEntry (h : ∀ r ∈ rules, r.IgnoresOrder) (d : Definition) :
    alignEntry all rules dominant (alignEntry all rules dominant d) =
      alignEntry all rules dominant d := by
  by_cases hmod : d.modName = dominant
  · rw [alignEntry_of_own hmod, alignEntry_of_own hmod]
  cases hcopy : orderModel? (foundCopies all dominant d) rules d with
  | none => rw [alignEntry_of_none hmod hcopy, alignEntry_of_none hmod hcopy]
  | some copy =>
    have hagain := (orderModel?_withOrder h _ d copy.order).trans hcopy
    rw [alignEntry_of_some hmod hcopy]
    exact alignEntry_of_some hmod hagain

theorem modName_alignEntry (d : Definition) :
    (alignEntry all rules dominant d).modName = d.modName := by
  unfold alignEntry
  split
  · rfl
  · split <;> rfl

theorem dominantMod?_map {f : Definition → Definition} (h : ∀ d, (f d).modName = d.modName)
    (exported : List Definition) : dominantMod? (exported.map f) = dominantMod? exported := by
  have hnames : modNames (exported.map f) = modNames exported := by
    simp only [modNames, List.foldl_map, h]
  unfold dominantMod?
  simp only [hnames, List.countP_map, Function.comp_def, h]

/-- An entry of the dominant mod stays, one that it has no copy of too, and every other one takes
the order of the copy that gives it. With entries of one mod nothing changes, nor does it when the
entries are aligned again by rules that do not read the order. -/
theorem alignOrder_follows_dominant (exported : List Definition) (history : History)
    (rules : Option Rules) :
    ((∃ name, ∀ d ∈ exported, d.modName = name) →
        alignOrder exported history.index rules = exported) ∧
      (exported ≠ [] → ∃ dominant, Leads exported dominant ∧
        List.Forall₂ (Aligns history.index rules dominant) exported
          (alignOrder exported history.index rules)) ∧
      ((∀ r ∈ rules, r.IgnoresOrder) →
        alignOrder (alignOrder exported history.index rules) history.index rules =
          alignOrder exported history.index rules) := by
  by_cases hne : exported = []
  · subst hne
    exact ⟨fun _ => rfl, fun h => absurd rfl h, fun _ => rfl⟩
  obtain ⟨dominant, hdominant, hleads⟩ := exists_dominantMod? hne
  have halign : alignOrder exported history.index rules =
      exported.map (alignEntry history.index rules dominant) := alignOrder_eq_map hdominant
  rw [halign]
  refine ⟨fun ⟨name, hname⟩ => ?_, fun _ => ⟨dominant, hleads, ?_⟩, fun hrules => ?_⟩
  · have hown : ∀ d ∈ exported, alignEntry history.index rules dominant d = id d := fun d hd => by
      obtain ⟨before, e, after, rfl, he, -⟩ := hleads.first
      refine alignEntry_of_own ((hname d hd).trans ?_)
      exact (hname e (by simp)).symm.trans he
    rw [List.map_congr_left hown, List.map_id]
  · rw [List.forall₂_map_right_iff]
    exact List.forall₂_same.mpr fun d _ => aligns_alignEntry history rules dominant d
  · rw [alignOrder_eq_map ((dominantMod?_map modName_alignEntry exported).trans hdominant),
      List.map_map]
    exact List.map_congr_left fun d _ => alignEntry_alignEntry hrules d

def entryIn (file id modName : String) (n : Nat) : Definition :=
  { Definition.blank with type := "common/t", file, id, modName, order := n }

/-- The entry of `b` that the dominant mod `a` has in two other files. -/
def minorityEntry : Definition := entryIn "common/t/02.txt" "x" "b" 7

def mixedFile : List Definition :=
  [minorityEntry, entryIn "common/t/02.txt" "y" "a" 2, entryIn "common/t/02.txt" "z" "a" 3]

def copiesElsewhere : History :=
  .build ([entryIn "common/t/00.txt" "x" "a" 1, entryIn "common/t/05.txt" "x" "a" 9] ++ mixedFile)
    true

theorem alignOrder_two_copies :
    let all := copiesElsewhere.index
    let first := (FolderRules.mk "g" ["common"] [] []).rules
    alignOrder [minorityEntry] all (some first) = [minorityEntry] ∧
      (∃ dominant, Leads mixedFile dominant ∧
        List.Forall₂ (Aligns all (some first) dominant) mixedFile
          (alignOrder mixedFile all (some first))) ∧
      alignOrder (alignOrder mixedFile all (some first)) all (some first) =
        alignOrder mixedFile all (some first) ∧
      (alignOrder mixedFile all (some first)).map (·.order) = [1, 2, 3] ∧
      (alignOrder mixedFile all none).map (·.order) = [9, 2, 3] := by
  intro all first
  have hrules : ∀ r ∈ some first, r.IgnoresOrder := fun r hr =>
    Option.some.inj hr ▸ FolderRules.rules_ignoresOrder _
  refine ⟨?_, ?_, ?_, ?_, ?_⟩
  · exact (alignOrder_follows_dominant _ copiesElsewhere (some first)).1
      ⟨"b", fun d hd => List.mem_singleton.mp hd ▸ rfl⟩
  · exact (alignOrder_follows_dominant mixedFile copiesElsewhere (some first)).2.1
      (List.cons_ne_nil _ _)
  · exact (alignOrder_follows_dominant mixedFile copiesElsewhere (some first)).2.2 hrules
  · decide +kernel
  · decide +kernel

/-- Rules that go by the place of a definition in its file. -/
def Rules.firstAt (n : Nat) : Rules where
  covers _ := true
  orderFor d := if d.order = n then some .first else none
  isTagged _ := false

/-- The place that alignment gives to an entry is one for which the rules choose the other copy. -/
theorem alignOrder_not_idempotent :
    let all := copiesElsewhere.index
    let rules := some (Rules.firstAt 7)
    let once := alignOrder mixedFile all rules
    once.map (·.order) = [1, 2, 3] ∧ (alignOrder once all rules).map (·.order) = [9, 2, 3] ∧
      alignOrder once all rules ≠ once := by
  intro all rules once
  have honce : once.map (·.order) = [1, 2, 3] := by decide +kernel
  have htwice : (alignOrder once all rules).map (·.order) = [9, 2, 3] := by decide +kernel
  refine ⟨honce, htwice, fun hsame => ?_⟩
  rw [hsame, honce] at htwice
  exact absurd htwice (by decide)

end LoadOrder

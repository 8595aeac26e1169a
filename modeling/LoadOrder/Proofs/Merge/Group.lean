import LoadOrder.Merge.Plan
import LoadOrder.Proofs.Conflict
import LoadOrder.Proofs.Merge.Fold

namespace LoadOrder

namespace Setting

/-- A merge without stored decisions, by the load order and the rules of the analysis. -/
def unpatched (definitions : List Definition) (modOrder : List String) (rules : Option Rules)
    (policy : DuplicatePolicy) : Setting :=
  .of (.of (.build definitions false) modOrder rules) .blank modOrder rules policy

def shipped (s : Setting) (k : String) : List Definition :=
  s.analysis.all.all.filter (·.identity == k)

def InOneFilePerMod (s : Setting) (k : String) : Prop :=
  ∀ a ∈ s.shipped k, ∀ b ∈ s.shipped k, a.modName = b.modName → a.fileKey = b.fileKey

/-- The policy wants an identity in every file of a mod that has it in several. -/
def repeats (s : Setting) (k : String) : Bool :=
  let conflicting := s.analysis.conflicts.withIdentity k
  s.policy == .oncePerFile && conflicting.any fun d => inSeveralFiles conflicting d.modName

section Unpatched

variable {definitions : List Definition} {modOrder : List String} {rules : Option Rules}
  {policy : DuplicatePolicy} {k : String} {d : Definition}

theorem mem_shipped {s : Setting} : d ∈ s.shipped k ↔ d ∈ s.analysis.all.all ∧ d.identity = k := by
  rw [shipped, List.mem_filter, beq_iff_eq]

theorem eraseDups_length_le_one {l : List String} (h : ∀ a ∈ l, ∀ b ∈ l, a = b) :
    l.eraseDups.length ≤ 1 := by
  cases l with
  | nil => exact Nat.zero_le 1
  | cons a rest =>
    have hrest : rest.filter (fun b => !b == a) = [] := by
      rw [List.filter_eq_nil_iff]
      intro b hb
      simp [h b (List.mem_cons_of_mem a hb) a List.mem_cons_self]
    rw [List.eraseDups_cons, hrest]
    exact Nat.le_refl 1

theorem candidates_of_inOneFilePerMod {conflicting : List Definition}
    (h : ∀ a ∈ conflicting, ∀ b ∈ conflicting, a.modName = b.modName → a.fileKey = b.fileKey)
    (file : String) : candidates conflicting file = conflicting := by
  rw [candidates, List.filter_eq_self]
  intro d hd
  have hfiles : (filesOf conflicting d.modName).length ≤ 1 := by
    apply eraseDups_length_le_one
    simp only [List.forall_mem_map, List.mem_filter, beq_iff_eq]
    intro a ha b hb
    exact h a ha.1 b hb.1 (ha.2.trans hb.2.symm)
  have hnot : inSeveralFiles conflicting d.modName = false := by
    simpa [inSeveralFiles] using hfiles
  rw [hnot]
  rfl

theorem classes_unpatched (k : String) (hk : Text.lowercase k = k) :
    let s := unpatched definitions modOrder rules policy
    s.analysis.conflicts.withIdentity k = (classify modOrder rules (s.shipped k)).1 ∧
      s.analysis.overwritten.withIdentity k = (classify modOrder rules (s.shipped k)).2 := by
  constructor
  · refine (Analysis.conflicts_withIdentity k).trans ?_
    rw [hk]
    rfl
  · refine (Analysis.overwritten_withIdentity k).trans ?_
    rw [hk]
    rfl

/-- Without stored decisions a group is lost, has been overwritten, or has a winner. -/
theorem harvestGroup_unpatched (file : String) (h : Harvest) (first : Definition)
    (rest : List Definition) :
    let s := unpatched definitions modOrder rules policy
    s.harvestGroup file h (first :: rest) =
      if isLost s.analysis.orphans (first :: rest) then h
      else if !(s.analysis.overwritten.withIdentity first.identity).isEmpty then
        (s.analysis.overwritten.withIdentity first.identity).foldl harvestOverwritten h
      else s.harvestWinner file h first := rfl

/-- A group is lost, or brings `d` for the identity `k`, once or again. -/
def Brings (s : Setting) (file : String) (group : List Definition) (k : String) (d : Definition) :
    Prop :=
  ∀ h : Harvest, s.harvestGroup file h group =
    if isLost s.analysis.orphans group then h
    else if s.repeats k || !h.done.contains k then h.push d else h

theorem harvestWinner_eq {s : Setting} {file : String} {first : Definition}
    (hwinner : (if (s.analysis.conflicts.withIdentity first.identity).isEmpty then some first
      else (winner? (sortByMods s.modOrder
        (candidates (s.analysis.conflicts.withIdentity first.identity) file)) s.rules).map (·.1)) =
      some d)
    (hd : d.identity = first.identity) (h : Harvest) :
    s.harvestWinner file h first =
      if s.repeats first.identity || !h.done.contains first.identity then h.push d else h := by
  unfold harvestWinner
  simp only [hwinner, hd]
  rfl

theorem repeats_of_conflicts_nil {s : Setting} (h : s.analysis.conflicts.withIdentity k = []) :
    s.repeats k = false := by
  rw [repeats, h, List.any_nil, Bool.and_false]

theorem eq_of_eraseDups_length_le_one {l : List String} (h : l.eraseDups.length ≤ 1) {a b : String}
    (ha : a ∈ l) (hb : b ∈ l) : a = b := by
  rw [← List.mem_eraseDups] at ha hb
  match hl : l.eraseDups, h with
  | [], _ => simp [hl] at ha
  | [c], _ => simp_all

theorem fileKey_eq_of_not_inSeveralFiles {conflicting : List Definition} {a b : Definition}
    (ha : a ∈ conflicting) (hb : b ∈ conflicting) (hmod : a.modName = b.modName)
    (h : inSeveralFiles conflicting a.modName = false) : a.fileKey = b.fileKey := by
  have hlength : (filesOf conflicting a.modName).length ≤ 1 := by
    simpa [inSeveralFiles] using h
  have hfile : ∀ d ∈ conflicting, d.modName = a.modName →
      d.fileKey ∈ (conflicting.filter (·.modName == a.modName)).map (·.fileKey) := by
    intro d hd hdmod
    apply List.mem_map_of_mem
    rw [List.mem_filter, beq_iff_eq]
    exact ⟨hd, hdmod⟩
  exact eq_of_eraseDups_length_le_one hlength (hfile a ha rfl) (hfile b hb hmod.symm)

/-- The objects of an identity that compete for a file, in load order. -/
def competitors (s : Setting) (k file : String) : List Definition :=
  sortByMods s.modOrder (candidates (objectsOf s.modOrder (s.shipped k)) file)

theorem mem_competitors {s : Setting} {file : String} :
    d ∈ s.competitors k file ↔ d ∈ candidates (objectsOf s.modOrder (s.shipped k)) file :=
  mem_sortByMods

theorem competitors_of_inOneFilePerMod {s : Setting} (h : s.InOneFilePerMod k) (file : String) :
    s.competitors k file = objectsOf s.modOrder (s.shipped k) := by
  have hslots : ∀ a ∈ objectsOf s.modOrder (s.shipped k),
      ∀ b ∈ objectsOf s.modOrder (s.shipped k), a.modName = b.modName → a.fileKey = b.fileKey :=
    fun a ha b hb => h a (mem_objectsOf.mp ha).1 b (mem_objectsOf.mp hb).1
  rw [competitors, candidates_of_inOneFilePerMod hslots, sortByMods_objectsOf]

theorem exists_brings_winner {first : Definition} (rest : List Definition)
    (hfirst : first ∈ (unpatched definitions modOrder rules policy).analysis.all.all)
    (hobject : first.isSupport = false) :
    let s := unpatched definitions modOrder rules policy
    ∃ d ∈ objectsOf modOrder (s.shipped first.identity),
      s.Brings first.fileKey (first :: rest) first.identity d ∧
      ∃ why, winner? (s.competitors first.identity first.fileKey) rules = some (d, why) := by
  intro s
  let objects := objectsOf modOrder (s.shipped first.identity)
  have hmem : first ∈ objects := mem_objectsOf.mpr ⟨mem_shipped.mpr ⟨hfirst, rfl⟩, hobject⟩
  have hidentity : ∀ d ∈ objects, d.identity = first.identity := fun d hd =>
    (mem_shipped.mp (mem_objectsOf.mp hd).1).2
  have hcompetes : first ∈ s.competitors first.identity first.fileKey := by
    rw [mem_competitors, candidates, List.mem_filter, lowercase_fileKey, beq_self_eq_true,
      Bool.or_true]
    exact ⟨hmem, rfl⟩
  have hobjects : ∀ d ∈ s.competitors first.identity first.fileKey, d ∈ objects := fun d hd =>
    (List.mem_filter.mp (mem_competitors.mp hd)).1
  obtain ⟨hconflicts, hoverwritten⟩ := @classes_unpatched definitions modOrder rules policy
    first.identity (lowercase_identity first)
  rcases classify_cases modOrder rules (s.shipped first.identity) with
    ⟨hmods, hc⟩ | ⟨hone, d, hd, why, hwhy, hc⟩ | ⟨hne, hc⟩ <;> rw [hc] at hconflicts hoverwritten
  · -- a single mod has the identity, so only the object in this file competes
    obtain ⟨d, hd, why, hwhy⟩ := exists_winner? (List.ne_nil_of_mem hcompetes) rules
    have hmod : first.modName = d.modName :=
      modName_eq_of_not_severalMods hmods hmem (hobjects d hd)
    have hfile : first.fileKey = d.fileKey := by
      have hcandidate := (List.mem_filter.mp (mem_competitors.mp hd)).2
      rw [Bool.or_eq_true, Bool.not_eq_true', beq_iff_eq, lowercase_fileKey] at hcandidate
      rcases hcandidate with hcandidate | hcandidate
      · exact (fileKey_eq_of_not_inSeveralFiles (hobjects d hd) hmem hmod.symm hcandidate).symm
      · exact hcandidate.symm
    have heq : first = d := by
      refine eq_of_sameSlot hfirst (mem_shipped.mp (mem_objectsOf.mp (hobjects d hd)).1).1 ?_
      rw [Definition.sameSlot_iff]
      exact ⟨hmod, hfile, (hidentity d (hobjects d hd)).symm⟩
    rw [← heq] at hwhy
    refine ⟨first, hmem, fun h => ?_, why, hwhy⟩
    rw [harvestGroup_unpatched, hoverwritten, harvestWinner_eq (by rw [hconflicts]; rfl) rfl]
    rfl
  · have hfiles : ∀ a ∈ objects, ∀ b ∈ objects, a.modName = b.modName → a.fileKey = b.fileKey :=
      fun a ha b hb _ => fileKey_eq_of_inOneFile hone ha hb
    have hall : s.competitors first.identity first.fileKey = objects := by
      change sortByMods modOrder (candidates objects first.fileKey) = objects
      rw [candidates_of_inOneFilePerMod hfiles, sortByMods_objectsOf]
    refine ⟨d, hd, fun h => ?_, why, by rwa [hall]⟩
    rw [harvestGroup_unpatched, hoverwritten, repeats_of_conflicts_nil hconflicts,
      List.foldl_cons, List.foldl_nil, harvestOverwritten, hidentity d hd]
    cases h.done.contains first.identity <;> rfl
  · obtain ⟨d, hd, why, hwhy⟩ := exists_winner? (List.ne_nil_of_mem hcompetes) rules
    refine ⟨d, hobjects d hd, fun h => ?_, why, hwhy⟩
    rw [harvestGroup_unpatched, hoverwritten, harvestWinner_eq ?_ (hidentity d (hobjects d hd))]
    · rfl
    · rw [hconflicts, if_neg (by simpa using hne)]
      exact congrArg (Option.map (·.1)) hwhy

/-- If no mod has the identity in two files, the group brings the winner among all of its objects. -/
theorem exists_brings {first : Definition} (rest : List Definition)
    (hfirst : first ∈ (unpatched definitions modOrder rules policy).analysis.all.all)
    (hobject : first.isSupport = false) :
    let s := unpatched definitions modOrder rules policy
    let objects := objectsOf modOrder (s.shipped first.identity)
    ∃ d ∈ objects, s.Brings first.fileKey (first :: rest) first.identity d ∧
      (s.InOneFilePerMod first.identity → ∃ why, winner? objects rules = some (d, why)) := by
  intro s objects
  obtain ⟨d, hd, hbrings, why, hwhy⟩ :=
    @exists_brings_winner definitions modOrder rules policy first rest hfirst hobject
  refine ⟨d, hd, hbrings, fun hfiles => ⟨why, ?_⟩⟩
  rwa [competitors_of_inOneFilePerMod hfiles] at hwhy

theorem isLost_iff {first : Definition} {rest : List Definition}
    (hgroup : ∀ d ∈ first :: rest, d ∈
      (unpatched definitions modOrder rules policy).shipped first.identity) :
    isLost (unpatched definitions modOrder rules policy).analysis.orphans (first :: rest) ↔
      ∀ d ∈ first :: rest, d ∈
        (unpatched definitions modOrder rules policy).analysis.orphans.all := by
  let orphans := (unpatched definitions modOrder rules policy).analysis.orphans
  have horphans : orphans.withIdentity first.identity =
      orphans.all.filter (·.identity == first.identity) :=
    Analysis.orphans_withIdentity rules (lowercase_identity first)
  change isLost orphans (first :: rest) ↔ ∀ d ∈ first :: rest, d ∈ orphans.all
  rw [isLost, horphans]
  simp only [List.all_eq_true, List.any_eq_true, List.mem_filter, Bool.and_eq_true, beq_iff_eq]
  constructor
  · intro h d hd
    obtain ⟨o, ⟨ho, hidentity⟩, hmod, hfile⟩ := h d hd
    obtain ⟨hdmem, hdidentity⟩ := mem_shipped.mp (hgroup d hd)
    have heq : o = d := by
      refine eq_of_sameSlot (Analysis.mem_of_mem_orphans rules ho) hdmem ?_
      rw [Definition.sameSlot_iff]
      exact ⟨hmod, hfile, hidentity.trans hdidentity.symm⟩
    exact heq ▸ ho
  · intro h d hd
    exact ⟨d, ⟨h d hd, (mem_shipped.mp (hgroup d hd)).2⟩, rfl, rfl⟩

/-- An object and what else a file has of its identity, marks of empty files apart. -/
structure IsObjectGroup (s : Setting) (file : String) (first : Definition)
    (rest : List Definition) : Prop where
  object : first.isSupport = false
  mem_iff : ∀ d, d ∈ first :: rest ↔
    d ∈ s.shipped first.identity ∧ d.fileKey = file ∧ d.kind ≠ .emptyFile

/-- What a file has of an identity, marks of empty files apart. -/
def groupOf (s : Setting) (file k : String) : List Definition :=
  ((s.analysis.all.inFile file).filter (·.kind != .emptyFile)).filter (·.identity == k)

theorem mem_groups_iff {s : Setting} {file : String} {group : List Definition} :
    group ∈ s.groups file ↔ group ≠ [] ∧ ∃ k, group = s.groupOf file k := by
  have hbuckets := Buckets.holds_group Definition.identity
    ((s.analysis.all.inFile file).filter (·.kind != .emptyFile))
  constructor
  · intro h
    obtain ⟨⟨k, members⟩, hmem, rfl⟩ := List.mem_map.mp h
    obtain ⟨heq, hne⟩ := hbuckets.mem_iff.mp hmem
    exact ⟨hne, k, heq⟩
  · rintro ⟨hne, k, heq⟩
    exact List.mem_map.mpr ⟨(k, group), hbuckets.mem_iff.mpr ⟨heq, hne⟩, rfl⟩

theorem mem_groupOf {file : String} (hfile : Text.lowercase file = file) :
    d ∈ (unpatched definitions modOrder rules policy).groupOf file k ↔
      d ∈ (unpatched definitions modOrder rules policy).shipped k ∧ d.fileKey = file ∧
        d.kind ≠ .emptyFile := by
  have hinFile : (unpatched definitions modOrder rules policy).analysis.all.inFile file =
      (Index.build definitions false).all.filter (·.fileKey == file) := by
    have := Index.inFile_build definitions false file
    rwa [hfile] at this
  rw [groupOf, hinFile]
  simp only [List.mem_filter, mem_shipped, beq_iff_eq, bne_iff_ne]
  exact ⟨fun ⟨⟨⟨ha, hf⟩, hkind⟩, hid⟩ => ⟨⟨ha, hid⟩, hf, hkind⟩,
    fun ⟨⟨ha, hid⟩, hf, hkind⟩ => ⟨⟨⟨ha, hf⟩, hkind⟩, hid⟩⟩

theorem exists_of_mem_objectGroups {file : String} (hfile : Text.lowercase file = file)
    {group : List Definition}
    (h : group ∈ (unpatched definitions modOrder rules policy).objectGroups file) :
    ∃ first rest, group = first :: rest ∧
      (unpatched definitions modOrder rules policy).IsObjectGroup file first rest := by
  obtain ⟨hgroup, hobject⟩ := List.mem_filter.mp h
  obtain ⟨hne, k, heq⟩ := mem_groups_iff.mp hgroup
  cases group with
  | nil => exact absurd rfl hne
  | cons first rest =>
    have hfirst := mem_groupOf hfile |>.mp (heq ▸ List.mem_cons_self)
    obtain rfl : first.identity = k := (mem_shipped.mp hfirst.1).2
    refine ⟨first, rest, rfl, by simpa using hobject, fun d => ?_⟩
    rw [heq]
    exact mem_groupOf hfile

theorem isObjectGroup_of_mem {file : String} (hfile : Text.lowercase file = file)
    {first : Definition} {rest : List Definition}
    (h : first :: rest ∈ (unpatched definitions modOrder rules policy).objectGroups file) :
    (unpatched definitions modOrder rules policy).IsObjectGroup file first rest := by
  obtain ⟨first', rest', heq, hg⟩ := exists_of_mem_objectGroups hfile h
  obtain ⟨rfl, rfl⟩ := List.cons.inj heq
  exact hg

theorem isSupport_eq_false (h : d.kind = .object ∨ d.kind = .binary) : d.isSupport = false := by
  rcases h with h | h <;> rw [Definition.isSupport, h] <;> rfl

theorem exists_objectGroup (hd : d ∈ (unpatched definitions modOrder rules policy).shipped k)
    (hkinds : ∀ a ∈ (unpatched definitions modOrder rules policy).shipped k,
      a.kind = .object ∨ a.kind = .binary) :
    ∃ first rest,
      first :: rest ∈ (unpatched definitions modOrder rules policy).objectGroups d.fileKey ∧
        first.identity = k ∧ d ∈ first :: rest := by
  have hmem : d ∈ (unpatched definitions modOrder rules policy).groupOf d.fileKey k := by
    rw [mem_groupOf (lowercase_fileKey d)]
    refine ⟨hd, rfl, fun hkind => ?_⟩
    rcases hkinds d hd with h | h <;> rw [hkind] at h <;> cases h
  cases hgroup : (unpatched definitions modOrder rules policy).groupOf d.fileKey k with
  | nil => simp [hgroup] at hmem
  | cons first rest =>
    rw [hgroup] at hmem
    have hfirst := (mem_groupOf (lowercase_fileKey d)).mp (hgroup ▸ List.mem_cons_self)
    refine ⟨first, rest, List.mem_filter.mpr ⟨mem_groups_iff.mpr ⟨by simp, k, hgroup.symm⟩, ?_⟩,
      (mem_shipped.mp hfirst.1).2, hmem⟩
    simp [isSupport_eq_false (hkinds first hfirst.1)]

end Unpatched

end Setting

end LoadOrder

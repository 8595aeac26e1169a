import LoadOrder.Proofs.Merge.Group

namespace LoadOrder

/-- What a set of definitions has of an identity, variables and namespaces apart. -/
def entriesOf (k : String) (definitions : List Definition) : List Definition :=
  definitions.filter fun d => !d.isSupport && d.identity == k

theorem entriesOf_append (k : String) (l l' : List Definition) :
    entriesOf k (l ++ l') = entriesOf k l ++ entriesOf k l' := List.filter_append ..

theorem entriesOf_of_support {k : String} {l : List Definition} (h : ∀ d ∈ l, d.isSupport) :
    entriesOf k l = [] := by
  rw [entriesOf, List.filter_eq_nil_iff]
  intro d hd
  simp [h d hd]

theorem entriesOf_singleton {k : String} {d : Definition} (h : d.isSupport = false) :
    entriesOf k [d] = if d.identity = k then [d] else [] := by
  by_cases hk : d.identity = k <;> simp [entriesOf, h, hk]

def Definition.withOrder (d : Definition) (n : Nat) : Definition := { d with order := n }

theorem Definition.withOrder_order (d : Definition) : d.withOrder d.order = d := by
  cases d
  rfl

theorem exists_alignOrder_eq_map (exported : List Definition) (all : Index)
    (rules : Option Rules) :
    ∃ order : Definition → Nat,
      alignOrder exported all rules = exported.map fun d => d.withOrder (order d) := by
  have hsame : exported = exported.map fun d => d.withOrder d.order := by
    simp only [Definition.withOrder_order, List.map_id']
  unfold alignOrder
  split
  · exact ⟨_, hsame⟩
  · split
    · exact ⟨_, hsame⟩
    · next dominant _ =>
      let model := fun d : Definition =>
        orderModel? ((all.withIdentity d.identity).filter (·.modName == dominant)) rules d
      refine ⟨fun d => if d.modName = dominant then d.order
        else ((model d).map (·.order)).getD d.order, List.map_congr_left fun d _ => ?_⟩
      dsimp only
      by_cases hmod : d.modName = dominant
      · rw [if_pos hmod, if_pos hmod, Definition.withOrder_order]
      · rw [if_neg hmod, if_neg hmod]
        have hmodel : orderModel? ((all.withIdentity d.identity).filter
            (·.modName == dominant)) rules d = model d := rfl
        rw [hmodel]
        cases model d with
        | none => exact d.withOrder_order.symm
        | some copy => rfl

namespace Harvest

variable {k : String}

theorem exported_push (h : Harvest) (d : Definition) :
    (h.push d).exported = (foldSupport h.exported d).1 ++ [(foldSupport h.exported d).2] := rfl

theorem mem_done_push {h : Harvest} {d : Definition} :
    k ∈ (h.push d).done ↔ k = d.identity ∨ k ∈ h.done := by
  have hidentity := (foldSupport_extends h.exported d).2.identity_eq
  have hdone : (h.push d).done = (h.mark d.identity).done := by
    rw [← hidentity]
    rfl
  rw [hdone, mark]
  split
  · next hmem => exact (or_iff_right_of_imp (by rintro rfl; simpa using hmem)).symm
  · exact List.mem_cons

theorem entriesOf_push (h : Harvest) {d : Definition} (hd : d.isSupport = false) :
    entriesOf k (h.push d).exported =
      entriesOf k h.exported ++ if d.identity = k then [(foldSupport h.exported d).2] else [] := by
  obtain ⟨⟨added, hadded, hsupport⟩, hsame⟩ := foldSupport_extends h.exported d
  rw [exported_push, entriesOf_append, hadded, entriesOf_append, entriesOf_of_support hsupport,
    List.append_nil, entriesOf_singleton (hsame.isSupport_eq.trans hd), hsame.identity_eq]

theorem exported_le_push (h : Harvest) (d : Definition) : h.exported <+: (h.push d).exported := by
  obtain ⟨⟨added, hadded, -⟩, -⟩ := foldSupport_extends h.exported d
  rw [exported_push, hadded, List.append_assoc]
  exact List.prefix_append ..

/-- Nothing happens to an identity: it has the same entries, and it is marked if it was. -/
structure Keeps (k : String) (h h' : Harvest) : Prop where
  entries : entriesOf k h'.exported = entriesOf k h.exported
  done : k ∈ h'.done ↔ k ∈ h.done
  grows : h.exported <+: h'.exported

theorem keeps_refl (h : Harvest) : Keeps k h h := ⟨rfl, Iff.rfl, List.prefix_rfl⟩

theorem Keeps.trans {h₁ h₂ h₃ : Harvest} (h : Keeps k h₁ h₂) (h' : Keeps k h₂ h₃) :
    Keeps k h₁ h₃ :=
  ⟨h'.entries.trans h.entries, h'.done.trans h.done, h.grows.trans h'.grows⟩

theorem keeps_push (h : Harvest) {d : Definition} (hd : d.isSupport = false)
    (hk : d.identity ≠ k) : Keeps k h (h.push d) := by
  refine ⟨?_, ?_, exported_le_push h d⟩
  · rw [entriesOf_push h hd, if_neg hk, List.append_nil]
  · rw [mem_done_push, or_iff_right (Ne.symm hk)]

end Harvest

namespace Setting

abbrev once (definitions : List Definition) (modOrder : List String) (rules : Option Rules) :
    Setting := unpatched definitions modOrder rules .oncePerIdentity

section Once

variable {definitions : List Definition} {modOrder : List String} {rules : Option Rules}
  {k file : String} {first : Definition} {rest : List Definition}

theorem repeats_once : (once definitions modOrder rules).repeats k = false := rfl

/-- `d` stands for an identity: it is the winner if no mod has the identity in two files. -/
def StandsFor (s : Setting) (k : String) (d : Definition) : Prop :=
  s.InOneFilePerMod k →
    ∃ why, winner? (objectsOf s.modOrder (s.shipped k)) s.rules = some (d, why)

theorem exists_push (hg : (once definitions modOrder rules).IsObjectGroup file first rest) :
    let s := once definitions modOrder rules
    ∃ d, d.isSupport = false ∧ d.identity = first.identity ∧ s.StandsFor first.identity d ∧
      ∀ h : Harvest, s.harvestGroup file h (first :: rest) =
        if isLost s.analysis.orphans (first :: rest) ∨ first.identity ∈ h.done then h
        else h.push d := by
  obtain ⟨hshipped, rfl, -⟩ := (hg.mem_iff first).mp List.mem_cons_self
  obtain ⟨d, hd, hbrings, hwinner⟩ := exists_brings rest (mem_shipped.mp hshipped).1 hg.object
  obtain ⟨hdshipped, hdobject⟩ := mem_objectsOf.mp hd
  refine ⟨d, hdobject, (mem_shipped.mp hdshipped).2, hwinner, fun h => ?_⟩
  rw [hbrings h, repeats_once, Bool.false_or]
  by_cases hlost : isLost (once definitions modOrder rules).analysis.orphans (first :: rest)
  · rw [if_pos hlost, if_pos (.inl hlost)]
  · by_cases hdone : first.identity ∈ h.done
    · rw [if_neg hlost, if_neg (by simpa using hdone), if_pos (.inr hdone)]
    · rw [if_neg hlost, if_pos (by simpa using hdone), if_neg (not_or.mpr ⟨hlost, hdone⟩)]

def IsNew (s : Setting) (k : String) (done : List String) (group : List Definition) : Prop :=
  k ∉ done ∧ ¬ isLost s.analysis.orphans group ∧ ∃ first rest, group = first :: rest ∧ first.identity = k

theorem keeps_harvestGroup (hg : (once definitions modOrder rules).IsObjectGroup file first rest)
    {h : Harvest} (hnew : ¬ (once definitions modOrder rules).IsNew k h.done (first :: rest)) :
    Harvest.Keeps k h ((once definitions modOrder rules).harvestGroup file h (first :: rest)) := by
  obtain ⟨d, hobject, hidentity, -, hstep⟩ := exists_push hg
  rw [hstep]
  split
  · exact Harvest.keeps_refl h
  · next hpush =>
    rw [not_or] at hpush
    refine Harvest.keeps_push h hobject fun hk => hnew ?_
    rw [hidentity] at hk
    exact ⟨hk ▸ hpush.2, hpush.1, first, rest, rfl, hk⟩

theorem keeps_foldl {groups : List (List Definition)}
    (hgroups : ∀ group ∈ groups, ∃ first rest, group = first :: rest ∧
      (once definitions modOrder rules).IsObjectGroup file first rest)
    {h : Harvest}
    (hnew : ∀ group ∈ groups, ¬ (once definitions modOrder rules).IsNew k h.done group) :
    Harvest.Keeps k h
      (groups.foldl ((once definitions modOrder rules).harvestGroup file) h) := by
  induction groups generalizing h with
  | nil => exact Harvest.keeps_refl h
  | cons group groups ih =>
    rw [List.forall_mem_cons] at hgroups hnew
    obtain ⟨⟨first, rest, rfl, hg⟩, hgroups⟩ := hgroups
    have hstep := keeps_harvestGroup hg hnew.1
    -- the step has not marked the identity, so nothing becomes new or old by it
    refine hstep.trans (ih hgroups fun group hgroup hnew' => ?_)
    exact hnew.2 group hgroup ⟨fun hk => hnew'.1 (hstep.done.mpr hk), hnew'.2⟩

/-- A set of exported definitions has one entry of an identity after some others, brought in with
its variables and namespaces. -/
def HasEntry (s : Setting) (k : String) (earlier exported : List Definition) (e : Definition) :
    Prop :=
  entriesOf k exported = earlier ++ [e] ∧ ∃ before d later, s.StandsFor k d ∧
    exported = (foldSupport before d).1 ++ e :: later ∧ e = (foldSupport before d).2

theorem HasEntry.of_keeps {s : Setting} {earlier : List Definition} {e : Definition}
    {h h' : Harvest} (hentry : s.HasEntry k earlier h.exported e) (hkeeps : Harvest.Keeps k h h') :
    s.HasEntry k earlier h'.exported e := by
  obtain ⟨hentries, before, d, later, hstands, hexported, he⟩ := hentry
  obtain ⟨more, hmore⟩ := hkeeps.grows
  refine ⟨hkeeps.entries.trans hentries, before, d, later ++ more, hstands, ?_, he⟩
  rw [← hmore, hexported, List.append_assoc, List.cons_append]

theorem exists_entry_foldl {groups : List (List Definition)}
    (hgroups : ∀ group ∈ groups, ∃ first rest, group = first :: rest ∧
      (once definitions modOrder rules).IsObjectGroup file first rest)
    {h : Harvest}
    (hnew : ∃ group ∈ groups, (once definitions modOrder rules).IsNew k h.done group) :
    let h' := groups.foldl ((once definitions modOrder rules).harvestGroup file) h
    k ∈ h'.done ∧
      ∃ e, (once definitions modOrder rules).HasEntry k (entriesOf k h.exported) h'.exported e := by
  induction groups generalizing h with
  | nil =>
    obtain ⟨group, hgroup, -⟩ := hnew
    cases hgroup
  | cons group groups ih =>
    rw [List.forall_mem_cons] at hgroups
    obtain ⟨⟨first, rest, rfl, hg⟩, hgroups⟩ := hgroups
    rw [List.foldl_cons]
    by_cases hfirst : (once definitions modOrder rules).IsNew k h.done (first :: rest)
    · obtain ⟨hdone, hlost, first', rest', heq, hk⟩ := hfirst
      obtain ⟨rfl, rfl⟩ := List.cons.inj heq
      obtain ⟨d, hobject, hidentity, hstands, hstep⟩ := exists_push hg
      rw [hk] at hidentity hstands
      have hmarked : k ∈ (h.push d).done := Harvest.mem_done_push.mpr (.inl hidentity.symm)
      have hentry : (once definitions modOrder rules).HasEntry k (entriesOf k h.exported)
          (h.push d).exported (foldSupport h.exported d).2 := by
        refine ⟨?_, h.exported, d, [], hstands, Harvest.exported_push h d, rfl⟩
        rw [Harvest.entriesOf_push h hobject, if_pos hidentity]
      have hlater := keeps_foldl hgroups fun _ _ hnew' => hnew'.1 hmarked
      rw [hstep, if_neg (not_or.mpr ⟨hlost, hk ▸ hdone⟩)]
      exact ⟨hlater.done.mpr hmarked, _, hentry.of_keeps hlater⟩
    · have hstep := keeps_harvestGroup hg hfirst
      rw [← hstep.entries]
      apply ih hgroups
      obtain ⟨group, hgroup, hnew⟩ := hnew
      rcases List.mem_cons.mp hgroup with rfl | hgroup
      · exact absurd hnew hfirst
      · exact ⟨group, hgroup, fun hk => hnew.1 (hstep.done.mp hk), hnew.2⟩

/-- A file has a definition of an identity that is not lost with it. -/
def Holds (s : Setting) (k file : String) : Prop :=
  ∃ d ∈ s.shipped k, d ∉ s.analysis.orphans.all ∧ d.fileKey = file

theorem entriesOf_planFile (s : Setting) (done : List String) :
    entriesOf k (s.planFile done file).2.exported =
      entriesOf k ((s.objectGroups file).foldl (s.harvestGroup file) ⟨done, []⟩).exported := by
  unfold planFile
  dsimp only
  split
  · next honly => exact (entriesOf_of_support (List.all_eq_true.mp honly)).symm
  · rfl

theorem not_isNew_of_not_holds (hfile : Text.lowercase file = file)
    (hnot : ¬ (once definitions modOrder rules).Holds k file) {done : List String}
    {group : List Definition} (hg : group ∈ (once definitions modOrder rules).objectGroups file) :
    ¬ (once definitions modOrder rules).IsNew k done group := by
  rintro ⟨-, hlost, first, rest, rfl, rfl⟩
  have hgroup := isObjectGroup_of_mem hfile hg
  apply hlost
  rw [isLost_iff fun d hd => ((hgroup.mem_iff d).mp hd).1]
  intro d hd
  obtain ⟨hshipped, hdfile, -⟩ := (hgroup.mem_iff d).mp hd
  exact Classical.byContradiction fun hd' => hnot ⟨d, hshipped, hd', hdfile⟩

theorem exists_isNew_of_holds
    (hkinds : ∀ d ∈ (once definitions modOrder rules).shipped k,
      d.kind = .object ∨ d.kind = .binary)
    (hholds : (once definitions modOrder rules).Holds k file) {done : List String}
    (hdone : k ∉ done) :
    ∃ group ∈ (once definitions modOrder rules).objectGroups file,
      (once definitions modOrder rules).IsNew k done group := by
  obtain ⟨d, hd, hkept, rfl⟩ := hholds
  obtain ⟨first, rest, hgroup, rfl, hmem⟩ := exists_objectGroup hd hkinds
  refine ⟨first :: rest, hgroup, hdone, fun hlost => hkept ?_, first, rest, rfl, rfl⟩
  have hg := isObjectGroup_of_mem (lowercase_fileKey d) hgroup
  rw [isLost_iff fun d hd => ((hg.mem_iff d).mp hd).1] at hlost
  exact hlost d hmem

theorem planFile_of_not_holds (hfile : Text.lowercase file = file) (done : List String)
    (h : k ∈ done ∨ ¬ (once definitions modOrder rules).Holds k file) :
    entriesOf k ((once definitions modOrder rules).planFile done file).2.exported = [] ∧
      (k ∈ ((once definitions modOrder rules).planFile done file).1 ↔ k ∈ done) := by
  let s := once definitions modOrder rules
  have hkeeps : Harvest.Keeps k ⟨done, []⟩
      ((s.objectGroups file).foldl (s.harvestGroup file) ⟨done, []⟩) := by
    refine keeps_foldl (fun _ => exists_of_mem_objectGroups hfile) fun group hgroup hnew => ?_
    rcases h with hdone | hnot
    · exact hnew.1 hdone
    · exact not_isNew_of_not_holds hfile hnot hgroup hnew
  rw [entriesOf_planFile]
  exact ⟨hkeeps.entries, hkeeps.done⟩

/-- The first file that has something of an identity exports one definition of it. -/
theorem planFile_of_holds (hfile : Text.lowercase file = file)
    (hkinds : ∀ d ∈ (once definitions modOrder rules).shipped k,
      d.kind = .object ∨ d.kind = .binary)
    {done : List String} (hdone : k ∉ done)
    (hholds : (once definitions modOrder rules).Holds k file) :
    k ∈ ((once definitions modOrder rules).planFile done file).1 ∧
      ∃ e, (once definitions modOrder rules).HasEntry k []
        ((once definitions modOrder rules).planFile done file).2.exported e := by
  let s := once definitions modOrder rules
  obtain ⟨hmarked, e, hentry⟩ := exists_entry_foldl (h := ⟨done, []⟩)
    (fun _ => exists_of_mem_objectGroups hfile) (exists_isNew_of_holds hkinds hholds hdone)
  refine ⟨hmarked, e, ?_⟩
  -- the set has the entry, so it is no set of variables and namespaces alone
  have hobjects : onlySupport
      ((s.objectGroups file).foldl (s.harvestGroup file) ⟨done, []⟩).exported = false := by
    rw [← Bool.not_eq_true]
    intro honly
    have hnone := entriesOf_of_support (k := k) (List.all_eq_true.mp honly)
    rw [hentry.1] at hnone
    cases hnone
  unfold planFile
  dsimp only
  rwa [hobjects]

theorem planFiles_cons (s : Setting) (done : List String) (file : String) (files : List String) :
    s.planFiles done (file :: files) =
      (s.planFile done file).2 :: s.planFiles (s.planFile done file).1 files := rfl

theorem planFiles_map_file (s : Setting) (done files : List String) :
    (s.planFiles done files).map (·.file) = files := by
  induction files generalizing done with
  | nil => rfl
  | cons file files ih =>
    rw [planFiles_cons, List.map_cons, ih]
    rfl

theorem planFiles_of_not_holds {files : List String} (hfiles : ∀ file ∈ files,
      Text.lowercase file = file) {done : List String}
    (h : k ∈ done ∨ ∀ file ∈ files, ¬ (once definitions modOrder rules).Holds k file) :
    ∀ p ∈ (once definitions modOrder rules).planFiles done files, entriesOf k p.exported = [] := by
  induction files generalizing done with
  | nil => exact fun p hp => absurd hp List.not_mem_nil
  | cons file files ih =>
    rw [List.forall_mem_cons] at hfiles h
    obtain ⟨hentries, hdone⟩ := planFile_of_not_holds hfiles.1 done (h.imp_right And.left)
    rw [planFiles_cons, List.forall_mem_cons]
    exact ⟨hentries, ih hfiles.2 (h.imp hdone.mpr And.right)⟩

/-- An identity of objects is exported by the first file that has something of it. -/
theorem exists_plan_of_holds {files : List String}
    (hfiles : ∀ file ∈ files, Text.lowercase file = file)
    (hkinds : ∀ d ∈ (once definitions modOrder rules).shipped k,
      d.kind = .object ∨ d.kind = .binary)
    {done : List String} (hdone : k ∉ done)
    (hholds : ∃ file ∈ files, (once definitions modOrder rules).Holds k file) :
    ∃ before p after e,
      (once definitions modOrder rules).planFiles done files = before ++ p :: after ∧
        (once definitions modOrder rules).Holds k p.file ∧
        (∀ q ∈ before, ¬ (once definitions modOrder rules).Holds k q.file) ∧
        (∀ q ∈ before ++ after, entriesOf k q.exported = []) ∧
        (once definitions modOrder rules).HasEntry k [] p.exported e := by
  induction files generalizing done with
  | nil =>
    obtain ⟨file, hfile, -⟩ := hholds
    cases hfile
  | cons file files ih =>
    rw [List.forall_mem_cons] at hfiles
    rw [planFiles_cons]
    by_cases hfirst : (once definitions modOrder rules).Holds k file
    · obtain ⟨hmarked, e, hentry⟩ := planFile_of_holds hfiles.1 hkinds hdone hfirst
      refine ⟨[], _, _, e, rfl, hfirst, fun q hq => absurd hq List.not_mem_nil, ?_, hentry⟩
      exact planFiles_of_not_holds hfiles.2 (.inl hmarked)
    · obtain ⟨hentries, hkept⟩ := planFile_of_not_holds hfiles.1 done (.inr hfirst)
      have hlater : ∃ file ∈ files, (once definitions modOrder rules).Holds k file := by
        obtain ⟨file', hmem, hfile'⟩ := hholds
        rcases List.mem_cons.mp hmem with rfl | hmem
        · exact absurd hfile' hfirst
        · exact ⟨file', hmem, hfile'⟩
      obtain ⟨before, p, after, e, heq, hp, hbefore, hothers, hentry⟩ :=
        ih hfiles.2 (fun hk => hdone (hkept.mp hk)) hlater
      refine ⟨_ :: before, p, after, e, by rw [heq, List.cons_append], hp, ?_, ?_, hentry⟩
      · exact List.forall_mem_cons.mpr ⟨hfirst, hbefore⟩
      · exact List.forall_mem_cons.mpr ⟨hentries, hothers⟩

def aligned (s : Setting) (p : FilePlan) : List Definition :=
  alignOrder p.exported s.analysis.all s.rules

theorem entriesOf_aligned (s : Setting) (p : FilePlan) :
    ∃ order : Definition → Nat, entriesOf k (s.aligned p) =
      (entriesOf k p.exported).map fun d => d.withOrder (order d) := by
  obtain ⟨order, horder⟩ := exists_alignOrder_eq_map p.exported s.analysis.all s.rules
  refine ⟨order, ?_⟩
  rw [aligned, horder, entriesOf, List.filter_map]
  rfl

theorem lowercase_of_mem_files (hfile : file ∈ (once definitions modOrder rules).analysis.all.files) :
    Text.lowercase file = file := by
  obtain ⟨d, -, rfl⟩ := Index.mem_files_build.mp hfile
  exact lowercase_fileKey d

theorem file_le_of_notMem {s : Setting} {before after : List FilePlan} {p : FilePlan}
    (hasc : s.analysis.all.files.Pairwise (· < ·)) (hplan : s.plan = before ++ p :: after)
    (hfile : file ∈ s.analysis.all.files) (hnot : ∀ q ∈ before, q.file ≠ file) :
    p.file ≤ file := by
  have hmap : s.plan.map (·.file) = s.analysis.all.files := planFiles_map_file s [] _
  rw [← hmap, hplan, List.map_append, List.map_cons] at hasc hfile
  rcases List.mem_append.mp hfile with hin | hin
  · obtain ⟨q, hq, rfl⟩ := List.mem_map.mp hin
    exact absurd rfl (hnot q hq)
  · rcases List.mem_cons.mp hin with rfl | hin
    · exact String.le_refl _
    · have hlater := List.pairwise_cons.mp (List.pairwise_append.mp hasc).2.1
      exact Std.le_of_lt (hlater.1 file hin)

theorem objectsOf_shipped {s : Setting}
    (hkinds : ∀ d ∈ s.shipped k, d.kind = .object ∨ d.kind = .binary) :
    objectsOf modOrder (s.shipped k) = sortByMods modOrder (s.shipped k) := by
  rw [objectsOf, List.filter_eq_self.mpr]
  intro d hd
  rw [isSupport_eq_false (hkinds d hd)]
  rfl

theorem entriesOf_aligned_nil {s : Setting} {p : FilePlan} (h : entriesOf k p.exported = []) :
    entriesOf k (s.aligned p) = [] := by
  obtain ⟨order, horder⟩ := entriesOf_aligned s p
  rw [horder, h, List.map_nil]

/-- Every identity of objects is exported once if it is not lost altogether: by the first file that
has a definition of it which is not lost. This is so in the sets as they are collected, and in the
aligned ones that are composed. If no mod has the identity in two files, what is exported is the
winner of all its definitions, with its variables renamed. -/
theorem plan_exports_once (definitions : List Definition) (modOrder : List String)
    (rules : Option Rules) {k : String}
    (hkinds : ∀ d ∈ (once definitions modOrder rules).shipped k,
      d.kind = .object ∨ d.kind = .binary) :
    let s := once definitions modOrder rules
    ((∀ d ∈ s.shipped k, d ∈ s.analysis.orphans.all) →
      ∀ p ∈ s.plan, entriesOf k p.exported = [] ∧ entriesOf k (s.aligned p) = []) ∧
    ((∃ d ∈ s.shipped k, d ∉ s.analysis.orphans.all) →
      ∃ before p after e, s.plan = before ++ p :: after ∧
        (∀ q ∈ before ++ after, entriesOf k q.exported = [] ∧ entriesOf k (s.aligned q) = []) ∧
        entriesOf k p.exported = [e] ∧
        (∃ n, entriesOf k (s.aligned p) = [e.withOrder n]) ∧
        s.Holds k p.file ∧ (∀ file, s.Holds k file → p.file ≤ file) ∧
        (s.InOneFilePerMod k → ∃ d why exported later,
          winner? (sortByMods modOrder (s.shipped k)) rules = some (d, why) ∧
          p.exported = (foldSupport exported d).1 ++ e :: later ∧
          e = (foldSupport exported d).2)) := by
  intro s
  have hfiles : ∀ file ∈ s.analysis.all.files, Text.lowercase file = file :=
    fun file => lowercase_of_mem_files
  constructor
  · intro hlost p hp
    have hnot : ∀ file ∈ s.analysis.all.files, ¬ s.Holds k file := by
      rintro file - ⟨d, hd, hkept, -⟩
      exact hkept (hlost d hd)
    have hnone := planFiles_of_not_holds hfiles (.inr hnot) p hp
    exact ⟨hnone, entriesOf_aligned_nil hnone⟩
  · rintro ⟨d, hd, hkept⟩
    have hmem : ∀ file, s.Holds k file → file ∈ s.analysis.all.files := by
      rintro file ⟨d, hd, -, rfl⟩
      exact Index.mem_files_build.mpr ⟨d, (mem_shipped.mp hd).1, rfl⟩
    have hholds : s.Holds k d.fileKey := ⟨d, hd, hkept, rfl⟩
    have hstart : k ∉ ([] : List String) := List.not_mem_nil
    obtain ⟨before, p, after, e, hplan, hp, hbefore, hothers, hentry⟩ :=
      exists_plan_of_holds hfiles hkinds hstart ⟨d.fileKey, hmem _ hholds, hholds⟩
    have hnone : ∀ q ∈ before ++ after,
        entriesOf k q.exported = [] ∧ entriesOf k (s.aligned q) = [] :=
      fun q hq => ⟨hothers q hq, entriesOf_aligned_nil (hothers q hq)⟩
    refine ⟨before, p, after, e, hplan, hnone, hentry.1, ?_, hp, fun file hfile => ?_,
      fun hslots => ?_⟩
    · obtain ⟨order, horder⟩ := entriesOf_aligned s p
      exact ⟨order e, by rw [horder, hentry.1]; rfl⟩
    · apply file_le_of_notMem Index.files_build_ascending hplan (hmem file hfile)
      rintro q hq rfl
      exact hbefore q hq hfile
    · obtain ⟨-, exported, d, later, hstands, hexported, he⟩ := hentry
      obtain ⟨why, hwhy⟩ := hstands hslots
      rw [objectsOf_shipped hkinds] at hwhy
      exact ⟨d, why, exported, later, hwhy, hexported, he⟩

/-- The object `x` of a mod, in one of its files. -/
def objectOf (modName file : String) : Definition :=
  { Definition.blank with id := "x", type := "t", modName, file }

def twoMods : List Definition := [objectOf "A" "t/b", objectOf "B" "t/a"]

theorem plan_exports_once_twoMods :
    (∀ d ∈ (once twoMods ["A", "B"] none).shipped "t-x", d.kind = .object ∨ d.kind = .binary) ∧
      ∃ before p after e, (once twoMods ["A", "B"] none).plan = before ++ p :: after ∧
        (∀ q ∈ before ++ after, entriesOf "t-x" q.exported = []) ∧
        entriesOf "t-x" p.exported = [e] ∧ p.file ≤ "t/a" := by
  have hkinds : ∀ d ∈ (once twoMods ["A", "B"] none).shipped "t-x",
      d.kind = .object ∨ d.kind = .binary := by
    decide +kernel
  have hshipped : ∃ d ∈ (once twoMods ["A", "B"] none).shipped "t-x", d.fileKey = "t/a" := by
    decide +kernel
  have hnone : (once twoMods ["A", "B"] none).analysis.orphans.all.isEmpty := by
    decide +kernel
  obtain ⟨d, hd, hfile⟩ := hshipped
  have hkept : d ∉ (once twoMods ["A", "B"] none).analysis.orphans.all := by
    rw [List.isEmpty_iff.mp hnone]
    exact List.not_mem_nil
  obtain ⟨before, p, after, e, hplan, hothers, hentry, -, -, hfirst, -⟩ :=
    (plan_exports_once twoMods ["A", "B"] none hkinds).2 ⟨d, hd, hkept⟩
  exact ⟨hkinds, before, p, after, e, hplan, fun q hq => (hothers q hq).1, hentry,
    hfirst _ ⟨d, hd, hkept, hfile⟩⟩

end Once

end Setting

end LoadOrder

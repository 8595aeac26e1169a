import LoadOrder.Proofs.Merge.Once

namespace LoadOrder

def identitiesOf (definitions : List Definition) : List String :=
  (definitions.filter (!·.isSupport)).map Definition.identity

theorem identitiesOf_append (l l' : List Definition) :
    identitiesOf (l ++ l') = identitiesOf l ++ identitiesOf l' := by
  rw [identitiesOf, List.filter_append, List.map_append]
  rfl

theorem identitiesOf_of_support {l : List Definition} (h : ∀ d ∈ l, d.isSupport) :
    identitiesOf l = [] := by
  rw [identitiesOf, List.map_eq_nil_iff, List.filter_eq_nil_iff]
  intro d hd
  simp [h d hd]

theorem identitiesOf_singleton (d : Definition) :
    identitiesOf [d] = if d.isSupport then [] else [d.identity] := by
  cases h : d.isSupport <;> simp [identitiesOf, h]

theorem identitiesOf_alignOrder (exported : List Definition) (all : Index) (rules : Option Rules) :
    identitiesOf (alignOrder exported all rules) = identitiesOf exported := by
  obtain ⟨order, horder⟩ := exists_alignOrder_eq_map exported all rules
  rw [horder, identitiesOf, List.filter_map, List.map_map]
  rfl

section Runs

variable {σ α : Type} {step : σ → α → σ} {p : σ → α → Prop}

/-- Something holds at each step of a run, of the state that the steps before it leave. -/
def AtEachStep (step : σ → α → σ) (p : σ → α → Prop) : σ → List α → Prop
  | _, [] => True
  | s, a :: l => p s a ∧ AtEachStep step p (step s a) l

theorem AtEachStep.of_inv (inv : σ → Prop) {l : List α}
    (hstep : ∀ a ∈ l, ∀ s, inv s → inv (step s a) ∧ p s a)
    {s : σ} (hs : inv s) : AtEachStep step p s l := by
  induction l generalizing s with
  | nil => trivial
  | cons a l ih =>
    rw [List.forall_mem_cons] at hstep
    obtain ⟨hnext, hp⟩ := hstep.1 s hs
    exact ⟨hp, ih hstep.2 hnext⟩

/-- If each step keeps an invariant, and keeps names apart exactly if `p`, then a run keeps the
invariant, and keeps the names apart exactly if `p` at each step. -/
theorem nodup_foldl_iff (inv : σ → Prop) (names : σ → List String) {l : List α}
    (hstep : ∀ a ∈ l, ∀ s, inv s →
      inv (step s a) ∧ ((names (step s a)).Nodup ↔ (names s).Nodup ∧ p s a))
    {s : σ} (hs : inv s) :
    inv (l.foldl step s) ∧
      ((names (l.foldl step s)).Nodup ↔ (names s).Nodup ∧ AtEachStep step p s l) := by
  induction l generalizing s with
  | nil => exact ⟨hs, (and_iff_left trivial).symm⟩
  | cons a l ih =>
    rw [List.forall_mem_cons] at hstep
    obtain ⟨hnext, hnames⟩ := hstep.1 s hs
    obtain ⟨hinv, hrest⟩ := ih hstep.2 hnext
    refine ⟨hinv, ?_⟩
    rw [List.foldl_cons, hrest, hnames, and_assoc]
    rfl

end Runs

namespace Harvest

variable {earlier : List String} {h : Harvest} {d : Definition}

def names (earlier : List String) (h : Harvest) : List String :=
  earlier ++ identitiesOf h.exported

def Marks (earlier : List String) (h : Harvest) : Prop := ∀ k ∈ h.names earlier, k ∈ h.done

theorem names_push (earlier : List String) (h : Harvest) (d : Definition) :
    (h.push d).names earlier = h.names earlier ++ identitiesOf [d] := by
  obtain ⟨⟨added, hadded, hsupport⟩, hsame⟩ := foldSupport_extends h.exported d
  have hlast : identitiesOf [(foldSupport h.exported d).2] = identitiesOf [d] := by
    rw [identitiesOf_singleton, identitiesOf_singleton, hsame.isSupport_eq, hsame.identity_eq]
  rw [names, exported_push, identitiesOf_append, hlast, hadded, identitiesOf_append,
    identitiesOf_of_support hsupport, List.append_nil, ← List.append_assoc]
  rfl

theorem mem_identitiesOf_singleton {k : String} (hk : k ∈ identitiesOf [d]) : k = d.identity := by
  rw [identitiesOf_singleton] at hk
  split at hk
  · cases hk
  · exact List.mem_singleton.mp hk

theorem Marks.push (hmarks : h.Marks earlier) (d : Definition) : (h.push d).Marks earlier := by
  intro k hk
  rw [names_push] at hk
  rw [mem_done_push]
  rcases List.mem_append.mp hk with hk | hk
  · exact .inr (hmarks k hk)
  · exact .inl (mem_identitiesOf_singleton hk)

theorem names_foldl_push (earlier : List String) (h : Harvest) (l : List Definition) :
    (l.foldl push h).names earlier = h.names earlier ++ identitiesOf l := by
  induction l generalizing h with
  | nil => exact (List.append_nil _).symm
  | cons d l ih =>
    rw [List.foldl_cons, ih, names_push, List.append_assoc, ← identitiesOf_append]
    rfl

theorem Marks.foldl_push (hmarks : h.Marks earlier) (l : List Definition) :
    (l.foldl Harvest.push h).Marks earlier := by
  induction l generalizing h with
  | nil => exact hmarks
  | cons d l ih => exact ih (hmarks.push d)

theorem nodup_append_identitiesOf (hmarks : h.Marks earlier) (hd : d.identity ∉ h.done) :
    (h.names earlier ++ identitiesOf [d]).Nodup ↔ (h.names earlier).Nodup := by
  have hnew : ∀ a ∈ h.names earlier, ∀ b ∈ identitiesOf [d], a ≠ b := by
    rintro a ha b hb rfl
    rw [mem_identitiesOf_singleton hb] at ha
    exact hd (hmarks _ ha)
  have hone : (identitiesOf [d]).Nodup := by
    rw [identitiesOf_singleton]
    split <;> simp
  rw [List.nodup_append]
  exact ⟨fun h => h.1, fun h => ⟨h, hone, hnew⟩⟩

/-- What is exported afterwards is marked, and different if it was different before. -/
def StaysApart (earlier : List String) (h h' : Harvest) : Prop :=
  h'.Marks earlier ∧ ((h'.names earlier).Nodup ↔ (h.names earlier).Nodup)

theorem staysApart_refl (hmarks : h.Marks earlier) : StaysApart earlier h h := ⟨hmarks, Iff.rfl⟩

theorem staysApart_push (hmarks : h.Marks earlier) (hd : d.identity ∉ h.done) :
    StaysApart earlier h (h.push d) := by
  refine ⟨hmarks.push d, ?_⟩
  rw [names_push]
  exact nodup_append_identitiesOf hmarks hd

end Harvest

namespace Setting

variable {s : Setting} {earlier : List String} {h : Harvest}

/-- The objects in the code of a chosen definition have different identities, and none of them is
exported yet. Nothing is asked if the definition is exported already, or is no script. -/
def BringsFresh (s : Setting) (earlier : List String) (h : Harvest) (d : Definition) : Prop :=
  d.identity ∉ h.done → d.kind ≠ .binary →
    (identitiesOf (reread s.rules d (s.latestCode d))).Nodup ∧
      ∀ k ∈ identitiesOf (reread s.rules d (s.latestCode d)), k ∉ h.names earlier

def chosenFor (s : Setting) : List Definition → List Definition
  | [] => []
  | first :: _ => s.analysis.resolved.withIdentity first.identity

def GroupBringsFresh (s : Setting) (earlier : List String) (h : Harvest)
    (group : List Definition) : Prop :=
  AtEachStep s.harvestChosen (s.BringsFresh earlier) h (s.chosenFor group)

def FileBringsFresh (s : Setting) (earlier done : List String) (file : String) : Prop :=
  AtEachStep (s.harvestGroup file) (s.GroupBringsFresh earlier) ⟨done, []⟩ (s.objectGroups file)

def afterFile (s : Setting) (state : List String × List String) (file : String) :
    List String × List String :=
  ((s.planFile state.1 file).1, state.2 ++ identitiesOf (s.planFile state.1 file).2.exported)

/-- Every identity that files have exported is marked. -/
def MarksAll (state : List String × List String) : Prop := ∀ k ∈ state.2, k ∈ state.1

theorem marksAll_nil : MarksAll ([], []) := fun _ hk => hk

theorem MarksAll.start {state : List String × List String} (hstate : MarksAll state) :
    Harvest.Marks state.2 ⟨state.1, []⟩ := by
  have hnone : Harvest.names state.2 ⟨state.1, []⟩ = state.2 := List.append_nil _
  rw [Harvest.Marks, hnone]
  exact hstate

/-- Whenever the turn of a chosen definition comes, it brings fresh identities. -/
def ChosenBringFresh (s : Setting) : Prop :=
  AtEachStep s.afterFile (fun (done, earlier) file => s.FileBringsFresh earlier done file) ([], [])
    s.analysis.all.files

theorem harvestChosen_step (s : Setting) (hmarks : h.Marks earlier) (d : Definition) :
    (s.harvestChosen h d).Marks earlier ∧ (((s.harvestChosen h d).names earlier).Nodup ↔
      (h.names earlier).Nodup ∧ s.BringsFresh earlier h d) := by
  unfold harvestChosen
  by_cases hdone : d.identity ∈ h.done
  · rw [if_pos (by simpa using hdone)]
    exact ⟨hmarks, (and_iff_left fun hnot => absurd hdone hnot).symm⟩
  · rw [if_neg (by simpa using hdone)]
    split
    · next hbinary =>
      have hnames : ({ h.mark d.identity with exported := h.exported ++ [d] } : Harvest).names
          earlier = h.names earlier ++ identitiesOf [d] := by
        rw [Harvest.names, identitiesOf_append, ← List.append_assoc]
        rfl
      have hmark : ∀ k, k = d.identity ∨ k ∈ h.done → k ∈ (h.mark d.identity).done := by
        rintro k hk
        rw [Harvest.mark, if_neg (by simpa using hdone)]
        exact List.mem_cons.mpr hk
      refine ⟨fun k hk => hmark k ?_, ?_⟩
      · rw [hnames] at hk
        rcases List.mem_append.mp hk with hk | hk
        · exact .inr (hmarks k hk)
        · exact .inl (Harvest.mem_identitiesOf_singleton hk)
      · rw [hnames, Harvest.nodup_append_identitiesOf hmarks hdone]
        exact (and_iff_left fun _ hkind => absurd hbinary hkind).symm
    · next hscript =>
      refine ⟨hmarks.foldl_push _, ?_⟩
      rw [Harvest.names_foldl_push, List.nodup_append, BringsFresh]
      simp only [hdone, hscript, not_false_eq_true, forall_const, ne_eq]
      apply and_congr_right'
      apply and_congr_right'
      exact ⟨fun hne k hk hmem => hne k hmem k hk rfl,
        fun hnot a ha b hb heq => hnot b hb (heq ▸ ha)⟩

theorem harvestOverwritten_step (hmarks : h.Marks earlier) (d : Definition) :
    Harvest.StaysApart earlier h (harvestOverwritten h d) := by
  unfold harvestOverwritten
  split
  · exact Harvest.staysApart_refl hmarks
  · next hdone => exact Harvest.staysApart_push hmarks (by simpa using hdone)

theorem foldl_harvestOverwritten (hmarks : h.Marks earlier) (overwritten : List Definition) :
    Harvest.StaysApart earlier h (overwritten.foldl harvestOverwritten h) := by
  induction overwritten generalizing h with
  | nil => exact Harvest.staysApart_refl hmarks
  | cons d overwritten ih =>
    obtain ⟨hmarked, hnames⟩ := harvestOverwritten_step hmarks d
    obtain ⟨hrest, hnames'⟩ := ih hmarked
    exact ⟨hrest, hnames'.trans hnames⟩

theorem harvestWinner_step (hpolicy : s.policy = .oncePerIdentity) (hmarks : h.Marks earlier)
    (file : String) (first : Definition) :
    Harvest.StaysApart earlier h (s.harvestWinner file h first) := by
  have hagain : (s.policy == .oncePerFile) = false := by
    rw [hpolicy]
    rfl
  unfold harvestWinner
  simp only [hagain, Bool.false_and, Bool.false_or]
  split
  · exact Harvest.staysApart_refl hmarks
  · split
    · next hdone => exact Harvest.staysApart_push hmarks (by simpa using hdone)
    · exact Harvest.staysApart_refl hmarks

theorem harvestGroup_step (hpolicy : s.policy = .oncePerIdentity) (hmarks : h.Marks earlier)
    (file : String) (group : List Definition) :
    (s.harvestGroup file h group).Marks earlier ∧
      (((s.harvestGroup file h group).names earlier).Nodup ↔
        (h.names earlier).Nodup ∧ s.GroupBringsFresh earlier h group) := by
  have hunchosen : s.chosenFor group = [] → ∀ {h'}, Harvest.StaysApart earlier h h' →
      h'.Marks earlier ∧ ((h'.names earlier).Nodup ↔
        (h.names earlier).Nodup ∧ s.GroupBringsFresh earlier h group) := by
    intro hnone h' happart
    rw [GroupBringsFresh, hnone, happart.2]
    exact ⟨happart.1, (and_iff_left trivial).symm⟩
  cases group with
  | nil => exact hunchosen rfl (Harvest.staysApart_refl hmarks)
  | cons first rest =>
    unfold harvestGroup
    dsimp only
    split
    · exact nodup_foldl_iff (Harvest.Marks earlier) (Harvest.names earlier)
        (fun d _ h hmarks => harvestChosen_step s hmarks d) hmarks
    · next hempty =>
      have hnone : s.chosenFor (first :: rest) = [] := by simpa [chosenFor] using hempty
      apply hunchosen hnone
      split
      · exact Harvest.staysApart_refl hmarks
      · split
        · exact foldl_harvestOverwritten hmarks _
        · exact harvestWinner_step hpolicy hmarks file first

theorem identitiesOf_planFile (s : Setting) (done : List String) (file : String) :
    identitiesOf (s.planFile done file).2.exported =
      identitiesOf ((s.objectGroups file).foldl (s.harvestGroup file) ⟨done, []⟩).exported := by
  unfold planFile
  dsimp only
  split
  · next honly => exact (identitiesOf_of_support (List.all_eq_true.mp honly)).symm
  · rfl

theorem planFile_step (hpolicy : s.policy = .oncePerIdentity) (file : String)
    {state : List String × List String} (hstate : MarksAll state) :
    MarksAll (s.afterFile state file) ∧
      ((s.afterFile state file).2.Nodup ↔
        state.2.Nodup ∧ s.FileBringsFresh state.2 state.1 file) := by
  have hnone : Harvest.names state.2 ⟨state.1, []⟩ = state.2 := List.append_nil _
  have hrun := nodup_foldl_iff (Harvest.Marks state.2) (Harvest.names state.2)
    (fun group (_ : group ∈ s.objectGroups file) h hmarks =>
      harvestGroup_step hpolicy hmarks file group) hstate.start
  rw [hnone] at hrun
  rw [afterFile, identitiesOf_planFile]
  exact hrun

theorem planFiles_identities (s : Setting) (files : List String)
    (state : List String × List String) :
    state.2 ++ (s.planFiles state.1 files).flatMap (fun plan => identitiesOf plan.exported) =
      (files.foldl s.afterFile state).2 := by
  induction files generalizing state with
  | nil => exact List.append_nil _
  | cons file files ih =>
    rw [planFiles_cons, List.flatMap_cons, ← List.append_assoc, List.foldl_cons, ← ih]
    rfl

/-- If every chosen definition has nothing in its code but an object of its own identity, all bring
fresh identities. -/
theorem chosenBringFresh_of_own (hpolicy : s.policy = .oncePerIdentity)
    (hown : ∀ group, ∀ d ∈ s.chosenFor group,
      (identitiesOf (reread s.rules d (s.latestCode d))).Sublist [d.identity]) :
    s.ChosenBringFresh := by
  have hdefinition : ∀ (earlier : List String) (h : Harvest) (group : List Definition),
      ∀ d ∈ s.chosenFor group, h.Marks earlier → s.BringsFresh earlier h d := by
    intro earlier h group d hd hmarks hdone _
    have hone : [d.identity].Nodup := by simp
    refine ⟨(hown group d hd).nodup hone, fun k hk hmem => hdone ?_⟩
    rw [← List.mem_singleton.mp ((hown group d hd).mem hk)]
    exact hmarks k hmem
  have hgroup : ∀ (earlier : List String) (h : Harvest) (group : List Definition),
      h.Marks earlier → s.GroupBringsFresh earlier h group := by
    intro earlier h group hmarks
    refine AtEachStep.of_inv (Harvest.Marks earlier) (fun d hd h hmarks => ?_) hmarks
    exact ⟨(harvestChosen_step s hmarks d).1, hdefinition earlier h group d hd hmarks⟩
  have hfile : ∀ (state : List String × List String) (file : String),
      MarksAll state → s.FileBringsFresh state.2 state.1 file := by
    intro state file hstate
    have hmarks : Harvest.Marks state.2 ⟨state.1, []⟩ := hstate.start
    refine AtEachStep.of_inv (Harvest.Marks state.2) (fun group _ h hmarks => ?_) hmarks
    exact ⟨(harvestGroup_step hpolicy hmarks file group).1, hgroup state.2 h group hmarks⟩
  refine AtEachStep.of_inv MarksAll (fun file _ state hstate => ?_) marksAll_nil
  exact ⟨(planFile_step hpolicy file hstate).1, hfile state file hstate⟩

/-- With whatever stored decisions, a merge exports no identity twice, be it in one file or in two,
exactly if each chosen definition brings fresh identities when its turn comes. It is enough that the
code of each has nothing but an object of its own identity. This is so in the sets as they are
collected, and in the aligned ones that are composed. -/
theorem plan_identities_nodup_iff (analysis : Analysis) (state : PatchState)
    (modOrder : List String) (rules : Option Rules) :
    let s := Setting.of analysis state modOrder rules .oncePerIdentity
    let exported := s.plan.flatMap fun p => identitiesOf p.exported
    (exported.Nodup ↔ s.ChosenBringFresh) ∧
    ((∀ d ∈ state.resolved,
        (identitiesOf (reread rules d (s.latestCode d))).Sublist [d.identity]) →
      exported.Nodup) ∧
    (s.plan.flatMap fun p => identitiesOf (s.aligned p)) = exported := by
  intro s exported
  have hpolicy : s.policy = .oncePerIdentity := rfl
  have hexported : exported = (s.analysis.all.files.foldl s.afterFile ([], [])).2 :=
    planFiles_identities s s.analysis.all.files ([], [])
  have hiff : exported.Nodup ↔ s.ChosenBringFresh := by
    rw [hexported, (nodup_foldl_iff MarksAll Prod.snd
      (fun file _ _ hstate => planFile_step hpolicy file hstate) marksAll_nil).2]
    exact and_iff_right List.nodup_nil
  refine ⟨hiff, fun hown => ?_, ?_⟩
  · refine hiff.mpr (chosenBringFresh_of_own hpolicy fun group d hd => hown d ?_)
    cases group with
    | nil => cases hd
    | cons first rest =>
      have hresolved : d ∈ (Index.build state.resolved true).withIdentity first.identity := hd
      rw [Index.withIdentity_build] at hresolved
      exact (List.mem_filter.mp hresolved).1
  · simp only [aligned, identitiesOf_alignOrder]
    rfl

def chosenAlone : Definition := { objectOf "A" "t/a.txt" with id := "y", code := "y = 1" }

def chosenWithAnother : Definition := { objectOf "A" "t/b.txt" with code := "x = 1\ny = 2" }

def mergeOfChosen : Setting :=
  let definitions := [chosenAlone, chosenWithAnother]
  .of (.of (.build definitions false) ["A"] none) { PatchState.blank with resolved := definitions }
    ["A"] none .oncePerIdentity

/-- The code that is chosen for `x` has `y`, too, so the second file exports `y` again. -/
theorem plan_mergeOfChosen_exports_twice :
    ¬(mergeOfChosen.plan.flatMap fun p => identitiesOf p.exported).Nodup := by
  decide +kernel

end Setting

end LoadOrder

import LoadOrder.Priority

namespace LoadOrder

namespace SourceOrder

def Before : SourceOrder → (file file' : String) → Prop
  | .first, file, file' => file < file'
  | .last, file, file' => file' < file

instance (order : SourceOrder) : DecidableRel order.Before := fun file file' =>
  match order with
  | .first => inferInstanceAs (Decidable (file < file'))
  | .last => inferInstanceAs (Decidable (file' < file))

variable {order : SourceOrder} {file file' file'' : String}

theorem Before.asymm (h : order.Before file file') : ¬order.Before file' file := by
  cases order with
  | first => exact String.lt_asymm h
  | last => exact String.lt_asymm h

theorem not_before_trans (h : ¬order.Before file file') (h' : ¬order.Before file' file'') :
    ¬order.Before file file'' := by
  cases order with
  | first => exact String.not_lt.mpr (String.le_trans (String.not_lt.mp h') (String.not_lt.mp h))
  | last => exact String.not_lt.mpr (String.le_trans (String.not_lt.mp h) (String.not_lt.mp h'))

/-- The better of two files, the first if neither comes before the other. -/
def better (order : SourceOrder) (best file : String) : String :=
  if order.Before file best then file else best

theorem choose?_cons (order : SourceOrder) (first : String) (rest : List String) :
    order.choose? (first :: rest) = some (rest.foldl order.better first) := by
  cases order <;> rfl

theorem better_eq_or (order : SourceOrder) (best file : String) :
    order.better best file = best ∨ order.better best file = file := by
  unfold better
  split
  · exact .inr rfl
  · exact .inl rfl

theorem not_before_better (order : SourceOrder) (best file : String) :
    ¬order.Before best (order.better best file) ∧ ¬order.Before file (order.better best file) := by
  unfold better
  split
  · next h => exact ⟨h.asymm, fun hself => hself.asymm hself⟩
  · next h => exact ⟨fun hself => hself.asymm hself, h⟩

/-- The best of some files is one of them, and none of them comes before it. -/
theorem foldl_better (order : SourceOrder) (first : String) (rest : List String) :
    rest.foldl order.better first ∈ first :: rest ∧
      ∀ file ∈ first :: rest, ¬order.Before file (rest.foldl order.better first) := by
  induction rest generalizing first with
  | nil =>
    refine ⟨List.mem_cons_self, fun file hfile hbefore => ?_⟩
    rw [List.mem_singleton.mp hfile] at hbefore
    exact hbefore.asymm hbefore
  | cons second rest ih =>
    obtain ⟨hmem, hbest⟩ := ih (order.better first second)
    obtain ⟨hfirst, hsecond⟩ := not_before_better order first second
    rw [List.forall_mem_cons] at hbest
    rw [List.foldl_cons, List.forall_mem_cons, List.forall_mem_cons]
    refine ⟨?_, not_before_trans hfirst hbest.1, not_before_trans hsecond hbest.1, hbest.2⟩
    rcases List.mem_cons.mp hmem with heq | hmem
    · rw [heq]
      rcases better_eq_or order first second with h | h <;> simp [h]
    · exact List.mem_cons_of_mem _ (List.mem_cons_of_mem _ hmem)

theorem exists_choose?_of_ne_nil (order : SourceOrder) {files : List String} (h : files ≠ []) :
    ∃ file ∈ files, order.choose? files = some file ∧ ∀ f ∈ files, ¬order.Before f file := by
  obtain ⟨first, rest, rfl⟩ := List.exists_cons_of_ne_nil h
  obtain ⟨hmem, hbest⟩ := foldl_better order first rest
  exact ⟨_, hmem, choose?_cons order first rest, hbest⟩

end SourceOrder

def ruleFor (rules : Option Rules) (candidates : List Definition) : Option SourceOrder :=
  candidates.getLast?.bind fun last => rules.bind (·.orderFor last)

theorem winner?_cases {candidates : List Definition} (h : candidates ≠ [])
    (rules : Option Rules) :
    ∃ before d after why, candidates = before ++ d :: after ∧
      winner? candidates rules = some (d, why) ∧
      (after = [] ∧ (inOneFile candidates ∨ ruleFor rules candidates = none) ∨
        ∃ order, ruleFor rules candidates = some order ∧ (∀ e ∈ after, e.file ≠ d.file) ∧
          ∀ e ∈ candidates, ¬order.Before e.file d.file) := by
  have hlast := List.dropLast_concat_getLast h
  unfold winner? ruleFor
  rw [List.getLast?_eq_some_getLast h]
  simp only [Option.bind_eq_bind, Option.bind_some]
  split
  · next hone =>
    obtain ⟨d, rfl⟩ := List.length_eq_one_iff.mp hone
    exact ⟨[], d, [], _, rfl, rfl, .inl ⟨rfl, .inl rfl⟩⟩
  split
  · next hone => exact ⟨_, _, [], _, hlast.symm, rfl, .inl ⟨rfl, .inl hone⟩⟩
  split
  · next hrule => exact ⟨_, _, [], _, hlast.symm, rfl, .inl ⟨rfl, .inr hrule⟩⟩
  · next order hrule =>
    have hfiles : candidates.map (·.file) ≠ [] := by simpa using h
    obtain ⟨file, hfile, hchoose, hbest⟩ := order.exists_choose?_of_ne_nil hfiles
    obtain ⟨e, he, rfl⟩ := List.mem_map.mp hfile
    have hfind : (candidates.reverse.find? (·.file == e.file)).isSome := by
      rw [List.find?_isSome]
      exact ⟨e, List.mem_reverse.mpr he, beq_self_eq_true e.file⟩
    obtain ⟨d, hd⟩ := Option.isSome_iff_exists.mp hfind
    obtain ⟨hsame, later, earlier, hsplit, hlater⟩ := List.find?_eq_some_iff_append.mp hd
    rw [beq_iff_eq] at hsame
    rw [List.forall_mem_map] at hbest
    refine ⟨earlier.reverse, d, later.reverse, order.decision, ?_, ?_, .inr ⟨order, hrule, ?_, ?_⟩⟩
    · rw [← List.reverse_reverse candidates, hsplit]
      simp
    · rw [hchoose, Option.bind_some, hd]
      rfl
    · intro e' he'
      rw [hsame]
      simpa using hlater e' (List.mem_reverse.mp he')
    · rwa [hsame]

theorem exists_winner? {candidates : List Definition} (h : candidates ≠ [])
    (rules : Option Rules) :
    ∃ d ∈ candidates, ∃ why, winner? candidates rules = some (d, why) := by
  obtain ⟨before, d, after, why, rfl, hwinner, -⟩ := winner?_cases h rules
  exact ⟨d, List.mem_append_right _ List.mem_cons_self, why, hwinner⟩

end LoadOrder

import LoadOrder.Text.Pieces
import LoadOrder.Proofs.Script.Spacing

namespace LoadOrder.Script

theorem lexes_join_print (statements : List Statement)
    (hw : ∀ t ∈ spelling (trees statements), t.WellFormed) :
    Lexes (Text.join "\n" (statements.map Statement.print)).toList
      (spelling (trees statements)) := by
  simp only [Text.join, String.toList_intercalate, List.map_map]
  induction statements with
  | nil => exact .nil
  | cons s more ih =>
    rw [trees, spelling, List.forall_mem_append] at hw
    rw [trees, spelling, List.map_cons]
    by_cases hmore : more = []
    · subst hmore
      simpa [Statement.print, trees, spelling] using
        Lexes.nil.layout s 0 hw.1 parted_nil
    · rw [List.intercalate_cons_of_ne_nil (by simpa using hmore)]
      have hrest := (ih hw.2).gap (c := '\n') (by decide)
      simpa [Statement.print] using hrest.layout s 0 hw.1 (parted_cons (by decide) _)

theorem spelling_wellFormed {text : String} {statements : List Statement}
    (h : parse text = .ok statements) : ∀ t ∈ spelling (trees statements), t.WellFormed := by
  obtain ⟨ts, hts, hread⟩ := exists_tokens_of_parse h
  rw [(spelling_of_ofTokens hread).1, List.forall_mem_map]
  exact tokensFrom_wellFormed hts

/-- What is read and written out one to a line is read as the same statements, up to their places. -/
theorem parse_join_print {text : String} {statements : List Statement}
    (h : parse text = .ok statements) :
    ∃ again, parse (Text.join "\n" (statements.map Statement.print)) = .ok again ∧
      trees again = trees statements := by
  obtain ⟨_, _, hread⟩ := exists_tokens_of_parse h
  obtain ⟨ts, hts, hmap⟩ := lexes_join_print statements (spelling_wellFormed h) .start
  rw [parse_eq_ofTokens hts]
  exact ofTokens_of_spelling hmap.symm (spelling_of_ofTokens hread).2

theorem parse_join_print_escaped :
    ∃ statements, parse "\"k\"=\x7ba! = \"#\\\"\" \x7b\x7d\x7d b" = .ok statements ∧
      Text.join "\n" (statements.map Statement.print) =
        "\"k\" = \x7b\n\ta! = \"#\\\"\"\n\t\x7b \x7d\n\x7d\nb" ∧
      ∃ again, parse (Text.join "\n" (statements.map Statement.print)) = .ok again ∧
        trees again = trees statements := by
  have h : (parse "\"k\"=\x7ba! = \"#\\\"\" \x7b\x7d\x7d b").toOption.map
      (fun statements => Text.join "\n" (statements.map Statement.print)) =
        some "\"k\" = \x7b\n\ta! = \"#\\\"\"\n\t\x7b \x7d\n\x7d\nb" := by
    decide +kernel
  obtain ⟨statements, hs, hprint⟩ := Option.map_eq_some_iff.mp h
  have hok := eq_ok_of_toOption hs
  exact ⟨statements, hok, hprint, parse_join_print hok⟩

end LoadOrder.Script

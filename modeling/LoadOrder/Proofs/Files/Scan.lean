import Mathlib.Data.List.Forall2
import LoadOrder.Proofs.Definition.Reread
import LoadOrder.Proofs.Files.Export

namespace LoadOrder

theorem Execution.forall₂_of_mapM {m : Type → Type} [Monad m] [LawfulMonad m] {σ ε α β : Type}
    (E : Execution m σ) {f : α → ExceptT ε m β} {P : α → β → Prop} {w : σ}
    (hf : ∀ a b w', E.attempt (f a) w = (.ok b, w') → w' = w ∧ P a b) {l : List α} {bs : List β}
    {w' : σ} (h : E.attempt (l.mapM f) w = (.ok bs, w')) : w' = w ∧ List.Forall₂ P l bs := by
  induction l generalizing bs w' with
  | nil =>
    rw [List.mapM_nil, E.attempt_pure] at h
    cases h
    exact ⟨rfl, .nil⟩
  | cons a l ih =>
    rw [List.mapM_cons] at h
    obtain ⟨b, next, hb, hmore⟩ := E.attempt_bind_eq_ok.mp h
    obtain ⟨rfl, hP⟩ := hf a b next hb
    obtain ⟨later, last, hlater, hdone⟩ := E.attempt_bind_eq_ok.mp hmore
    obtain ⟨rfl, hall⟩ := ih hlater
    rw [E.attempt_pure] at hdone
    cases hdone
    exact ⟨rfl, .cons hP hall⟩

theorem Source.definitions_spec {source : Source} {definitions : List Definition}
    (h : source.definitions = .ok definitions) :
    definitions ≠ [] ∧ ∀ d ∈ definitions, d.file = source.file ∧ d.modName = source.modName := by
  obtain ⟨statements, -, rfl⟩ := Source.definitions_eq_ok_iff.mp h
  constructor
  · intro hnil
    have hmarked := map_entry_made source statements
    rw [hnil, Source.marked] at hmarked
    split at hmarked
    · cases hmarked
    · next hne => exact hne (by rw [← hmarked]; rfl)
  · intro d hd
    obtain ⟨order, scope, hmade⟩ := exists_of_mem_made hd
    rw [hmade]
    exact ⟨rfl, rfl⟩

theorem Source.parse_of_definitions_error {source : Source} {e : Script.SyntaxError}
    (h : source.definitions = .error e) :
    Script.parse (Text.join "\n" source.lines) = .error e := by
  unfold Source.definitions Script.File.ofLines at h
  cases hparse : Script.parse (Text.join "\n" source.lines) with
  | error e' =>
    rw [hparse] at h
    exact congrArg Except.error (Except.error.inj h)
  | ok statements =>
    rw [hparse] at h
    cases h

namespace Disk

/-- What a scan makes of a file of a mod: definitions in this file, or nothing of a script with a
fault. -/
inductive Finds (d : Disk) (source : Mod) (file : String) : List Definition → Prop
  | definitions {found : List Definition} (hne : found ≠ [])
    (hfile : ∀ e ∈ found, e.file = file ∧ e.modName = source.name) : Finds d source file found
  | fault {text : String} {e : Script.SyntaxError} (hscript : isScript file)
    (hread : d.read (Path.join source.path file) = .ok text)
    (hfault : Script.parse (Text.join "\n" (Text.linesOf text)) = .error e) : Finds d source file []

theorem attempt_ask {ε α : Type} (f : Disk → Except ε α) (d : Disk) :
    acts.attempt (ask f) d = (f d, d) := by
  have hask : acts.attempt (ask f) d = acts.attempt (ask fun _ => f d) d := rfl
  rw [hask]
  cases f d <;> rfl

theorem attempt_readText_eq_ok {d d' : Disk} {path text : String} :
    acts.attempt (system.readText path) d = (.ok text, d') ↔
      d.read path = .ok text ∧ d' = d := by
  unfold FileSystem.readText
  rw [acts.attempt_adapt_eq_ok]
  change acts.attempt (ask (·.read path)) d = _ ↔ _
  rw [attempt_ask, Prod.mk.injEq, eq_comm (a := d)]

theorem attempt_modFiles {d d' : Disk} {path : String} {files : List String}
    (h : acts.attempt (system.modFiles path) d = (.ok files, d')) : d' = d := by
  unfold FileSystem.modFiles at h
  obtain ⟨names, next, hnames, hdone⟩ := acts.attempt_bind_eq_ok.mp h
  rw [acts.attempt_adapt_eq_ok] at hnames
  change acts.attempt (ask (·.filesBelow path)) d = _ at hnames
  rw [attempt_ask] at hnames
  rw [acts.attempt_pure] at hdone
  rw [← (Prod.mk.inj hdone).2, (Prod.mk.inj hnames).2]

section Scan

variable {d d' : Disk} {source : Mod} {rules : Option Rules} {file : String}

theorem finds_of_scanFile {found : List Definition}
    (h : acts.attempt (system.scanFile source rules file) d = (.ok found, d')) :
    d' = d ∧ d.Finds source file found := by
  unfold FileSystem.scanFile at h
  dsimp only at h
  split at h
  · rw [acts.attempt_pure] at h
    cases h
    exact ⟨rfl, .definitions (List.cons_ne_nil _ _) (by simp [Definition.ofFile])⟩
  · next hscript =>
    obtain ⟨text, next, hread, hfound⟩ := acts.attempt_bind_eq_ok.mp h
    obtain ⟨htext, rfl⟩ := attempt_readText_eq_ok.mp hread
    split at hfound
    · next hdefinitions =>
      rw [acts.attempt_pure] at hfound
      cases hfound
      obtain ⟨hne, hfile⟩ := Source.definitions_spec hdefinitions
      exact ⟨rfl, .definitions hne hfile⟩
    · next hfault =>
      rw [acts.attempt_pure] at hfound
      cases hfound
      have hparse := Source.parse_of_definitions_error hfault
      dsimp only at hparse
      have hfile : isScript file := by simpa using hscript
      exact ⟨rfl, .fault hfile htext hparse⟩

/-- A scan goes through the files that count, and has the definitions that it finds in each. -/
theorem finds_of_scanMod {game : Game} {definitions : List Definition}
    (h : acts.attempt (system.scanMod game source rules) d = (.ok definitions, d')) :
    ∃ files found, acts.attempt (system.modFiles source.path) d = (.ok files, d) ∧
      List.Forall₂ (d.Finds source) (files.filter (FileSystem.considers game)) found ∧
      definitions = found.flatten := by
  obtain ⟨files, next, hfiles, hmore⟩ := acts.attempt_bind_eq_ok.mp h
  obtain rfl := attempt_modFiles hfiles
  obtain ⟨found, last, hfound, hdone⟩ := acts.attempt_bind_eq_ok.mp hmore
  obtain ⟨rfl, hall⟩ := acts.forall₂_of_mapM (fun _ _ _ => finds_of_scanFile) hfound
  rw [acts.attempt_pure] at hdone
  cases hdone
  exact ⟨files, found, hfiles, hall, rfl⟩

end Scan

end Disk

end LoadOrder

import LoadOrder.Proofs.Line.NormalForms
import LoadOrder.Proofs.Script.Lexing
import Mathlib.Data.List.TakeWhile

namespace LoadOrder.Line

open Script (Atom)

variable {k v s : List Char} {c : Char}

/-- A text that is not empty and has no blanks in it. -/
def Solid (s : List Char) : Prop := s ≠ [] ∧ ∀ c ∈ s, Text.isBlank c = false

/-- Spaces and tabs around the two sides of a pair. -/
structure Margins where
  before : List Char
  left : List Char
  right : List Char
  after : List Char
  spaced : ∀ c ∈ before ++ (left ++ (right ++ after)), c = ' ' ∨ c = '\t'

def Margins.around (g : Margins) (key value : List Char) : List Char :=
  g.before ++ (key ++ g.left ++ '=' :: (g.right ++ value)) ++ g.after

theorem Solid.trimmed (h : Solid s) : Text.Trimmed s :=
  ⟨fun c hc => h.2 c (List.mem_of_mem_head? hc), fun c hc => h.2 c (List.mem_of_getLast? hc)⟩

theorem Solid.untab_eq (h : Solid s) : untab s = s :=
  untab_eq_self fun htab => absurd (h.2 _ htab) (by decide)

theorem Solid.space_notMem (h : Solid s) : ' ' ∉ s := fun hspace =>
  absurd (h.2 _ hspace) (by decide)

theorem untab_append (s s' : List Char) : untab (s ++ s') = untab s ++ untab s' :=
  List.map_append

theorem untab_equal_cons (s : List Char) : untab ('=' :: s) = '=' :: untab s := rfl

section Gaps

variable {gap : List Char}

theorem isBlank_of_mem_spacing (h : ∀ c ∈ gap, c = ' ' ∨ c = '\t') :
    ∀ c ∈ gap, Text.isBlank c := by
  intro c hc
  rcases h c hc with rfl | rfl <;> rfl

theorem eq_space_of_mem_untab (h : ∀ c ∈ gap, c = ' ' ∨ c = '\t') : ∀ c ∈ untab gap, c = ' ' := by
  intro c hc
  obtain ⟨d, hd, rfl⟩ := List.mem_map.mp hc
  rcases h d hd with rfl | rfl <;> rfl

theorem parts_spaces_append (h : ∀ c ∈ gap, c = ' ') (s : List Char) :
    parts (gap ++ s) = parts s := by
  induction gap with
  | nil => rfl
  | cons c gap ih =>
    rw [List.forall_mem_cons] at h
    rw [h.1, List.cons_append, parts_space_cons, ih h.2]

theorem parts_append_spaces (h : ∀ c ∈ gap, c = ' ') (s : List Char) :
    parts (s ++ gap) = parts s := by
  cases gap with
  | nil => rw [List.append_nil]
  | cons c gap =>
    rw [List.forall_mem_cons] at h
    rw [h.1, parts_append_space, ← List.append_nil gap, parts_spaces_append h.2]
    exact List.append_nil _

end Gaps

theorem close_parts_of_space_notMem (h : ' ' ∉ s) : close (parts s) = s := by
  have hchain : s.IsChain fun a b => ¬Spare marks marks a b := by
    refine (List.pairwise_of_forall_mem_list fun a ha b hb => ?_).isChain
    have ha' : a ≠ ' ' := ne_of_mem_of_not_mem ha h
    have hb' : b ≠ ' ' := ne_of_mem_of_not_mem hb h
    simp [Spare, ha', hb']
  rw [close_parts hchain fun hlast => h (List.mem_of_getLast? hlast)]
  exact dropWhile_space_eq_self fun hfirst => h (List.mem_of_mem_head? hfirst)

theorem tightenChars_around (hk : Solid k) (hv : Solid v) (g : Margins) :
    tightenChars (g.around k v) = k ++ '=' :: v := by
  have hspaced := g.spaced
  rw [List.forall_mem_append, List.forall_mem_append, List.forall_mem_append] at hspaced
  obtain ⟨hbefore, hleft, hright, hafter⟩ := hspaced
  have hends : Text.Trimmed (k ++ g.left ++ '=' :: (g.right ++ v)) := by
    refine ⟨fun c hc => ?_, fun c hc => ?_⟩
    · rw [List.append_assoc, List.head?_append_of_ne_nil _ hk.1] at hc
      exact hk.trimmed.first c hc
    · rw [List.getLast?_append_of_ne_nil _ (List.cons_ne_nil _ _), ← List.cons_append,
        List.getLast?_append_of_ne_nil _ hv.1] at hc
      exact hv.trimmed.last c hc
  have hequal : '=' ∈ marks := by decide
  have hparts : partsOf (g.around k v) = parts (k ++ '=' :: v) := by
    rw [partsOf, Margins.around, hends.trim_append (by simp) (isBlank_of_mem_spacing hbefore)
      (isBlank_of_mem_spacing hafter), untab_append, untab_append, untab_equal_cons, untab_append,
      hk.untab_eq, hv.untab_eq, parts_append_mark hequal, parts_append_mark hequal,
      parts_append_spaces (eq_space_of_mem_untab hleft),
      parts_spaces_append (eq_space_of_mem_untab hright)]
  have hspace : ' ' ∉ k ++ '=' :: v := by
    simp [hk.space_notMem, hv.space_notMem]
  rw [tightenChars_eq_close, hparts, close_parts_of_space_notMem hspace]

theorem eq_equal_of_toLower (h : c.toLower = '=') : c = '=' := by
  unfold Char.toLower at h
  split at h
  · next hc =>
    have hval : c.val + ('a'.val - 'A'.val) = '='.val := congrArg Char.val h
    rw [← UInt32.eq_sub_iff_add_eq] at hval
    rw [hval] at hc
    exact absurd hc.1 (by decide)
  · exact h

theorem startsWith_equal_iff : startsWith ['='] (c :: s) ↔ c = '=' := by
  refine ⟨fun h => eq_equal_of_toLower ?_, fun h => ?_⟩
  · simpa [startsWith] using h
  · simp [startsWith, h]

theorem findToken?_equal {guard : Option Char → Bool} {last : Option Char} (hk : '=' ∉ k)
    (hguard : guard (k.getLast?.or last)) (v : List Char) :
    findToken? ['='] guard last 0 (k ++ '=' :: v) = some (k, '=' :: v) := by
  induction k generalizing last with
  | nil =>
    have hlast : guard last := by simpa using hguard
    rw [List.nil_append, findToken?, if_pos ⟨rfl, startsWith_equal_iff.mpr rfl⟩, if_pos hlast]
  | cons c k ih =>
    rw [List.mem_cons, not_or] at hk
    have hnot : ¬(0 = 0 ∧ startsWith ['='] (c :: (k ++ '=' :: v))) := fun h =>
      hk.1 (startsWith_equal_iff.mp h.2).symm
    have hrest : guard (k.getLast?.or (some c)) := by
      rw [List.getLast?_cons] at hguard
      cases hlast : k.getLast? <;> simpa [hlast] using hguard
    rw [List.cons_append, findToken?, if_neg hnot, ih hk.2 hrest]
    rfl

theorem beforeToken_equal (s : List Char) : beforeToken ['='] s = s.takeWhile (· != '=') := by
  induction s with
  | nil => rfl
  | cons c s ih =>
    by_cases hc : c = '='
    · rw [beforeToken, if_pos (startsWith_equal_iff.mpr hc),
        List.takeWhile_cons_of_neg (by simp [hc])]
    · rw [beforeToken, if_neg (mt startsWith_equal_iff.mp hc), ih,
        List.takeWhile_cons_of_pos (by simpa using hc)]

theorem dropTokens_equal (h : s.head? ≠ some '=') : dropTokens ['='] ('=' :: s) = s := by
  have hrest : dropTokens ['='] s = s := by
    rw [dropTokens, dif_neg]
    rintro ⟨-, hne, hstart⟩
    obtain ⟨c, s, rfl⟩ := List.exists_cons_of_ne_nil hne
    exact h (congrArg some (startsWith_equal_iff.mp hstart))
  rw [dropTokens, dif_pos ⟨by simp, by simp, startsWith_equal_iff.mpr rfl⟩]
  exact hrest

theorem plain_of_quote_notMem (h : Solid s) (hquote : '"' ∉ s)
    (hbrace : ∀ c ∈ s, isBrace c = false) : plain s = s := by
  have hfirst : s.head? ≠ some '"' := fun hfirst => hquote (List.mem_of_mem_head? hfirst)
  have hquotes : s.filter (· != '"') = s :=
    List.filter_eq_self.mpr fun c hc => bne_iff_ne.mpr (ne_of_mem_of_not_mem hc hquote)
  simp only [plain, h.trimmed.trim_eq, if_neg hfirst, hquotes]
  rw [leadingChars, List.takeWhile_eq_self_iff]
  intro c hc
  simp [h.2 c hc, hbrace c hc]

theorem plain_of_quote (h : Solid ('"' :: s)) :
    plain ('"' :: s) = (quotedSpan? ('"' :: s)).getD [] := by
  simp [plain, h.trimmed.trim_eq]

theorem quotedSpan?_of_quote_notMem (h : '"' ∉ s) : quotedSpan? s = none := by
  induction s with
  | nil => rfl
  | cons c s ih =>
    rw [List.mem_cons, not_or] at h
    rw [quotedSpan?, if_neg (Ne.symm h.1), ih h.2]

/-- What stands between quotes is the plain text, and a quote that stays open leaves nothing. -/
theorem plain_quote_cons (h : ∀ c ∈ s, c ≠ '"' ∧ Text.isBlank c = false) :
    plain ('"' :: (s ++ ['"'])) = s ∧ plain ('"' :: s) = [] := by
  have hopen : Solid ('"' :: s) :=
    ⟨List.cons_ne_nil _ _, List.forall_mem_cons.mpr ⟨rfl, fun c hc => (h c hc).2⟩⟩
  have hclosed : Solid ('"' :: (s ++ ['"'])) := by
    refine ⟨List.cons_ne_nil _ _, fun c hc => ?_⟩
    rcases List.mem_append.mp (List.cons_append ▸ hc) with hc | hc
    · exact hopen.2 c hc
    · rw [List.mem_singleton.mp hc]
      rfl
  have hquote : '"' ∉ s := fun hquote => (h _ hquote).1 rfl
  have hbody : ∀ c ∈ s, (c != '"' && c != '\n') = true := by
    intro c hc
    have hnewline : c ≠ '\n' := by
      rintro rfl
      exact absurd (h _ hc).2 (by decide)
    simp [(h c hc).1, hnewline]
  constructor
  · rw [plain_of_quote hclosed, quotedSpan?, if_pos rfl, List.takeWhile_append_of_pos hbody]
    simp
  · rw [plain_of_quote hopen, quotedSpan?, if_pos rfl, List.takeWhile_eq_self_iff.mpr hbody]
    simp [quotedSpan?_of_quote_notMem hquote]

/-- What can stand on one side of a pair: a word, or a text between quotes without quotes and blanks
in it. -/
def IsSide : Atom → Prop
  | .word w => (Atom.word w).WellFormed
  | .quoted text => ∀ c ∈ text.toList, c ≠ '"' ∧ Text.isBlank c = false

def Margins.line (g : Margins) (key : String) (value : Atom) : String :=
  String.ofList (g.around key.toList value.source.toList)

theorem of_isWordChar (h : Script.isWordChar c) :
    Text.isBlank c = false ∧ c ≠ '=' ∧ c ≠ '"' ∧ isBrace c = false := by
  simp only [Script.isWordChar, Script.isGap, Bool.and_eq_true, bne_iff_ne, Bool.not_eq_true',
    Bool.or_eq_false_iff] at h
  simp [isBrace, h]

theorem plain_of_word {w : String} (h : (Atom.word w).WellFormed) :
    Solid w.toList ∧ '=' ∉ w.toList ∧ plain w.toList = w.toList := by
  have hsolid : Solid w.toList := ⟨h.1, fun c hc => (of_isWordChar (h.2 c hc)).1⟩
  refine ⟨hsolid, fun hequal => (of_isWordChar (h.2 _ hequal)).2.1 rfl, ?_⟩
  exact plain_of_quote_notMem hsolid (fun hquote => (of_isWordChar (h.2 _ hquote)).2.2.1 rfl)
    fun c hc => (of_isWordChar (h.2 c hc)).2.2.2

theorem toList_source_quoted (text : String) :
    (Atom.quoted text).source.toList = '"' :: (text.toList ++ ['"']) := by
  simp [Atom.source]

theorem IsSide.solid {a : Atom} (h : IsSide a) : Solid a.source.toList := by
  cases a with
  | word w => exact (plain_of_word h).1
  | quoted text =>
    rw [toList_source_quoted]
    refine ⟨List.cons_ne_nil _ _, ?_⟩
    simp only [List.forall_mem_cons, List.forall_mem_append]
    exact ⟨rfl, fun c hc => (h c hc).2, rfl, List.forall_mem_nil _⟩

/-- The plain text of a side up to its first equals sign: all of it, or nothing if there is one. -/
theorem plain_takeWhile_source {a : Atom} (h : IsSide a) :
    plain (a.source.toList.takeWhile (· != '=')) =
      if '=' ∈ a.text.toList then [] else a.text.toList := by
  have hall {s : List Char} (hs : '=' ∉ s) : s.takeWhile (· != '=') = s :=
    List.takeWhile_eq_self_iff.mpr fun c hc => bne_iff_ne.mpr (ne_of_mem_of_not_mem hc hs)
  cases a with
  | word w =>
    obtain ⟨-, hequal, hplain⟩ := plain_of_word h
    rw [Atom.source, Atom.text, hall hequal, hplain, if_neg hequal]
  | quoted text =>
    rw [toList_source_quoted, Atom.text]
    split
    · next hequal =>
      have hcut : (text.toList.takeWhile (· != '=')).length ≠ text.toList.length := fun hlength =>
        have hself := (List.takeWhile_prefix _).eq_of_length hlength
        absurd (List.takeWhile_eq_self_iff.mp hself _ hequal) (by decide)
      rw [List.takeWhile_cons_of_pos (by decide), List.takeWhile_append, if_neg hcut]
      exact (plain_quote_cons fun c hc => h c ((List.takeWhile_prefix _).subset hc)).2
    · next hequal =>
      rw [hall (by simpa using hequal)]
      exact (plain_quote_cons h).1

section Read

variable {k : String} {a : Atom}

theorem tightenChars_line (hk : (Atom.word k).WellFormed) (ha : IsSide a) (g : Margins) :
    tightenChars (g.line k a).toList = k.toList ++ '=' :: a.source.toList := by
  rw [Margins.line, String.toList_ofList, tightenChars_around (plain_of_word hk).1 ha.solid]

theorem key_line (hk : (Atom.word k).WellFormed) (ha : IsSide a) (g : Margins) :
    key (g.line k a) "=" = k := by
  obtain ⟨hsolid, hequal, hplain⟩ := plain_of_word hk
  have hguard : !(k.toList.getLast?.or none).any Text.isBlank := by
    rw [Option.or_none]
    cases hlast : k.toList.getLast? with
    | none => rfl
    | some c => simp [hsolid.2 c (List.mem_of_getLast? hlast)]
  have hfind : findToken? ['='] (fun c => !c.any Text.isBlank) none 0
      (k.toList ++ '=' :: a.source.toList) = some (k.toList, '=' :: a.source.toList) :=
    findToken?_equal hequal hguard _
  have htoken : ("=" : String).toList = ['='] := rfl
  unfold key
  dsimp only
  rw [if_neg (by decide), tightenChars_line hk ha, htoken, hfind]
  dsimp only
  rw [hplain, String.ofList_toList]

theorem value_line (hk : (Atom.word k).WellFormed) (ha : IsSide a) (g : Margins) :
    value (g.line k a) "=" = if '=' ∈ a.text.toList then "" else a.text := by
  have hfirst : a.source.toList.head? ≠ some '=' := by
    cases a with
    | word w => exact fun hfirst => (plain_of_word ha).2.1 (List.mem_of_mem_head? hfirst)
    | quoted text => simp [toList_source_quoted]
  let guard : Option Char → Bool := fun c =>
    !isNameToken ['='] || c.all fun c => Text.isBlank c || isBrace c
  have hfind : findToken? ['='] guard none 0 (k.toList ++ '=' :: a.source.toList) =
      some (k.toList, '=' :: a.source.toList) :=
    findToken?_equal (plain_of_word hk).2.1 (by rw [show guard = fun _ => true from rfl]) _
  have htoken : ("=" : String).toList = ['='] := rfl
  unfold value
  dsimp only
  rw [if_neg (by decide), tightenChars_line hk ha, htoken, hfind]
  dsimp only
  rw [dropTokens_equal hfirst, beforeToken_equal, plain_takeWhile_source ha]
  split
  · rfl
  · exact String.ofList_toList

/-- The key of a pair is read back from its line. So is the value, exactly if no equals sign stands
in it; otherwise nothing is read. -/
theorem key_value_of_pair (hk : (Atom.word k).WellFormed) (ha : IsSide a) (g : Margins) :
    key (g.line k a) "=" = k ∧ (value (g.line k a) "=" = a.text ↔ '=' ∉ a.text.toList) ∧
      ('=' ∈ a.text.toList → value (g.line k a) "=" = "") := by
  rw [value_line hk ha]
  refine ⟨key_line hk ha g, ?_, fun hequal => if_pos hequal⟩
  by_cases hequal : '=' ∈ a.text.toList
  · have hne : a.text ≠ "" := by
      intro hempty
      rw [hempty] at hequal
      exact absurd hequal (by decide)
    rw [if_pos hequal]
    exact iff_of_false hne.symm (not_not.mpr hequal)
  · rw [if_neg hequal]
    exact iff_of_true rfl hequal

end Read

theorem isSide_quoted {text : String}
    (h : text.toList.all fun c => c != '"' && !Text.isBlank c) : IsSide (.quoted text) := by
  simpa [IsSide] using h

def wideMargins : Margins := ⟨['\t'], [' ', '\t'], ['\t', '\t'], [' '], by simp⟩

theorem key_value_of_pair_wide :
    (Atom.word "war!").WellFormed ∧ IsSide (.quoted "\x7b#b\x7d") ∧
      wideMargins.line "war!" (.quoted "\x7b#b\x7d") = "\twar! \t=\t\t\"\x7b#b\x7d\" " ∧
      key (wideMargins.line "war!" (.quoted "\x7b#b\x7d")) "=" = "war!" ∧
      value (wideMargins.line "war!" (.quoted "\x7b#b\x7d")) "=" = "\x7b#b\x7d" := by
  have hk : (Atom.word "war!").WellFormed := ⟨by decide, List.all_eq_true.mp (by decide)⟩
  have ha : IsSide (.quoted "\x7b#b\x7d") := isSide_quoted (by decide)
  obtain ⟨hkey, hvalue, -⟩ := key_value_of_pair hk ha wideMargins
  exact ⟨hk, ha, by decide, hkey, hvalue.mpr (by decide)⟩

/-- An equals sign between quotes cuts the value. -/
theorem not_value_of_pair :
    ¬∀ (k : String) (a : Atom) (g : Margins), (Atom.word k).WellFormed → IsSide a →
      key (g.line k a) "=" = k ∧ value (g.line k a) "=" = a.text := by
  intro h
  have hk : (Atom.word "k").WellFormed := ⟨by decide, List.all_eq_true.mp (by decide)⟩
  have ha : IsSide (.quoted "a=b") := isSide_quoted (by decide)
  have hvalue := (h "k" (.quoted "a=b") wideMargins hk ha).2
  rw [value_line hk ha] at hvalue
  exact absurd hvalue (by decide)

end LoadOrder.Line

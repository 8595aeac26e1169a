import LoadOrder.Json.Parse
import LoadOrder.Json.Print
import LoadOrder.Proofs.Text.Digits

namespace LoadOrder.Json

theorem unitPiece?_hexDigit {n : Nat} (h : n < 0x20) :
    unitPiece? '0' '0' (hexDigit (n / 16)) (hexDigit (n % 16)) = some (.char (Char.ofNat n)) := by
  have hall : ∀ n < 0x20, unitPiece? '0' '0' (hexDigit (n / 16)) (hexDigit (n % 16)) =
      some (.char (Char.ofNat n)) := by
    decide +kernel
  exact hall n h

theorem pieces?_escape (c : Char) (s : List Char) :
    pieces? (escape c ++ s) = (pieces? s).map fun read => (.char c :: read.1, read.2) := by
  have hmap (piece : Piece) : ((pieces? s).bind fun x => some (piece :: x.1, x.2)) =
      (pieces? s).map fun read => (piece :: read.1, read.2) := by
    cases pieces? s <;> rfl
  unfold escape
  iterate 7
    split
    · next h => subst h; exact hmap _
  split
  · next hcontrol =>
    have hunit := unitPiece?_hexDigit hcontrol
    rw [Char.ofNat_toNat] at hunit
    simp only [List.cons_append, List.nil_append, pieces?, hunit]
    exact hmap _
  · next hquote hbackslash _ _ _ _ _ hcontrol =>
    rw [List.singleton_append, pieces?.eq_5, if_neg hcontrol]
    · exact hmap _
    · exact hquote
    · exact fun _ _ _ _ _ h => absurd h hbackslash
    · exact fun _ _ h => absurd h hbackslash

theorem pieces?_flatMap_escape (chars s : List Char) :
    pieces? (chars.flatMap escape ++ '"' :: s) = some (chars.map .char, s) := by
  induction chars with
  | nil => rfl
  | cons c chars ih => rw [List.flatMap_cons, List.append_assoc, pieces?_escape, ih]; rfl

theorem chars?_map (chars : List Char) : chars? (chars.map .char) = some chars := by
  induction chars with
  | nil => rfl
  | cons c chars ih => rw [List.map_cons, chars?, ih]; rfl

theorem string?_escaped (text : String) (s : List Char) :
    string? (text.toList.flatMap escape ++ '"' :: s) = some (some text, s) := by
  rw [string?, pieces?_flatMap_escape]
  simp [chars?_map]

theorem quote_append (text : String) (s : List Char) :
    quote text ++ s = '"' :: (text.toList.flatMap escape ++ '"' :: s) := by
  simp [quote]

/-- What follows a number: the reader does not take it for a part of the number. -/
def Stops (s : List Char) : Prop :=
  ∀ c, s.head? = some c → c.isDigit = false ∧ c ≠ '.' ∧ c ≠ 'e' ∧ c ≠ 'E'

theorem Stops.noDigit {s : List Char} (hs : Stops s) : Text.NoDigit s := fun c hc => (hs c hc).1

theorem digits?_append {digits s : List Char} (hne : digits ≠ []) (h : ∀ c ∈ digits, c.isDigit)
    (hs : Stops s) : digits? (digits ++ s) = some (digits, s) := by
  rw [digits?, Text.takeWhile_isDigit h hs.noDigit]
  cases digits with
  | nil => exact absurd rfl hne
  | cons c digits => simp only [List.drop_left]

theorem fraction?_of_stops {s : List Char} (hs : Stops s) : fraction? s = some ([], s) := by
  unfold fraction?
  split
  · next rest => exact absurd rfl (hs '.' rfl).2.1
  · rfl

theorem exponent?_of_stops {s : List Char} (hs : Stops s) : exponent? s = some ([], s) := by
  cases s with
  | nil => rfl
  | cons c s =>
    have hc : ¬(c = 'e' ∨ c = 'E') := not_or.mpr (hs c rfl).2.2
    exact if_neg hc

theorem number?_toString {n : Nat} (h : n < Nat.pow 2 64) {s : List Char} (hs : Stops s) :
    number? ((toString n).toList ++ s) = some (natural n, s) := by
  rw [Text.toList_toString]
  have hdigit : ∀ c ∈ Nat.toDigits 10 n, c.isDigit := fun c hc => Text.isDigit_toDigits hc
  have hne : Nat.toDigits 10 n ≠ [] := Nat.toDigits_ne_nil
  have hread := digits?_append hne hdigit hs
  have hzero : ¬((Nat.toDigits 10 n).head? = some '0' ∧ (Nat.toDigits 10 n).length ≠ 1) := by
    rintro ⟨hhead, hlength⟩
    cases n with
    | zero => exact hlength rfl
    | succ n => exact Text.head?_toDigits (Nat.succ_pos n) hhead
  have hpositive : ((Nat.toDigits 10 n ++ s).head? == some '-') = false := by
    cases hdigits : Nat.toDigits 10 n with
    | nil => exact absurd hdigits hne
    | cons c digits =>
      have hc := hdigit c (hdigits ▸ List.mem_cons_self)
      rw [List.cons_append, List.head?_cons, beq_eq_false_iff_ne, Ne, Option.some.injEq]
      rintro rfl
      cases hc
  rw [number?, hpositive]
  simp only [Bool.false_eq_true, if_false, hread, Option.bind_eq_bind, Option.bind_some, hzero,
    fraction?_of_stops hs, exponent?_of_stops hs, and_self, if_true]
  have hnatural : naturalOf (Nat.toDigits 10 n) = n := Text.foldl_toDigits n
  have hwhole : wholeNumber false (Nat.toDigits 10 n) = natural n := by
    simp only [wholeNumber, hnatural, Bool.false_eq_true, if_false, if_pos h]
  rw [hwhole]
  rfl

theorem skipSpace_space (s : List Char) : skipSpace (' ' :: s) = skipSpace s := rfl

theorem skipSpace_newline (indent : Nat) (s : List Char) :
    skipSpace (newline indent ++ s) = skipSpace s := by
  have hspaces : ∀ n, skipSpace (List.replicate n ' ' ++ s) = skipSpace s := by
    intro n
    induction n with
    | zero => rfl
    | succ n ih => exact ih
  exact hspaces (2 * indent)

theorem skipSpace_skipSpace (s : List Char) : skipSpace (skipSpace s) = skipSpace s := by
  induction s with
  | nil => rfl
  | cons c s ih =>
    unfold skipSpace at ih ⊢
    rw [List.dropWhile_cons]
    split
    · exact ih
    · next hc => exact List.dropWhile_cons_of_neg hc

theorem value?_congr {s s' : List Char} (h : skipSpace s = skipSpace s') (fuel : Nat) :
    value? fuel s = value? fuel s' := by
  cases fuel with
  | zero => rw [value?, value?]
  | succ fuel => rw [value?, value?, h]

theorem items?_congr {s s' : List Char} (h : skipSpace s = skipSpace s') (fuel : Nat) :
    items? fuel s = items? fuel s' := by
  cases fuel with
  | zero => rw [items?, items?]
  | succ fuel => rw [items?, items?, value?_congr h]

theorem members?_congr {s s' : List Char} (h : skipSpace s = skipSpace s') (fuel : Nat) :
    members? fuel s = members? fuel s' := by
  cases fuel with
  | zero => rw [members?, members?]
  | succ fuel => rw [members?, members?, h]

theorem items?_of_bracket {s rest : List Char} (h : skipSpace s = ']' :: rest) (fuel : Nat) :
    items? fuel s = none := by
  cases fuel with
  | zero => rw [items?]
  | succ fuel =>
    cases fuel with
    | zero => rw [items?, value?]; rfl
    | succ fuel => rw [items?, value?, h]; rfl

theorem value?_array {fuel : Nat} {s rest : List Char} {items : List Json}
    (h : items? fuel s = some (items, rest)) :
    value? (fuel + 1) ('[' :: s) = some (array items, rest) := by
  have hskip : skipSpace ('[' :: s) = '[' :: s := rfl
  simp only [value?, hskip]
  split
  · next hend =>
    rw [items?_of_bracket hend] at h
    cases h
  · rw [items?_congr (skipSpace_skipSpace s), h]
    rfl

theorem value?_object {fuel : Nat} {s rest : List Char} {members : List (Option String × Json)}
    (h : members? fuel s = some (members, rest)) :
    value? (fuel + 1) ('\x7b' :: s) = some (ofMembers members, rest) := by
  have hskip : skipSpace ('\x7b' :: s) = '\x7b' :: s := rfl
  simp only [value?, hskip]
  split
  · next hend =>
    cases fuel with
    | zero => rw [members?] at h; cases h
    | succ fuel => rw [members?, hend] at h; cases h
  · rw [members?_congr (skipSpace_skipSpace s), h]
    rfl

theorem stops_newline (indent : Nat) (s : List Char) : Stops (newline indent ++ s) := by
  intro c hc
  obtain rfl : '\n' = c := Option.some.inj hc
  decide

theorem stops_comma (s : List Char) : Stops (',' :: s) := by
  intro c hc
  obtain rfl : ',' = c := Option.some.inj hc
  decide

/-- A document is read off the front of whatever follows its layout. -/
def IsRead (j : Json) : Prop :=
  ∀ indent fuel s, (layout indent j).length < fuel → Stops s →
    value? fuel (layout indent j ++ s) = some (j, s)

theorem items?_layout {j : Json} {items : List Json} (hfirst : IsRead j)
    (hrest : ∀ item ∈ items, IsRead item) {indent fuel : Nat}
    (hfuel : (layout indent j).length + (itemsLayout indent items).length + 1 < fuel)
    (outer : Nat) (s : List Char) :
    items? fuel (layout indent j ++ (itemsLayout indent items ++ (newline outer ++ ']' :: s))) =
      some (j :: items, s) := by
  obtain ⟨fuel, rfl⟩ : ∃ f, fuel = f + 1 := ⟨fuel - 1, by omega⟩
  have hcomma (s : List Char) : skipSpace (',' :: s) = ',' :: s := rfl
  induction items generalizing j fuel with
  | nil =>
    rw [itemsLayout, List.nil_append, items?,
      hfirst indent fuel _ (by omega) (stops_newline outer _)]
    simp only [Option.bind_eq_bind, Option.bind_some, skipSpace_newline]
    rfl
  | cons next items ih =>
    have hlength : (itemsLayout indent (next :: items)).length = 2 + 2 * indent +
        (layout indent next).length + (itemsLayout indent items).length := by
      simp [itemsLayout, newline]
      omega
    obtain ⟨fuel, rfl⟩ : ∃ f, fuel = f + 1 := ⟨fuel - 1, by omega⟩
    obtain ⟨hnext, hlater⟩ := List.forall_mem_cons.mp hrest
    have hmore := ih hnext hlater fuel (by omega)
    rw [← items?_congr (skipSpace_newline indent _)] at hmore
    simp only [itemsLayout, List.cons_append, List.append_assoc]
    rw [items?, hfirst indent _ _ (by omega) (stops_comma _)]
    simp only [Option.bind_eq_bind, Option.bind_some, hcomma, hmore]
    rfl

theorem members?_layout (key : String) {j : Json} {members : List (String × Json)}
    (hfirst : IsRead j) (hrest : ∀ member ∈ members, IsRead member.2) {indent fuel : Nat}
    (hfuel : (layout indent j).length + (membersLayout indent members).length + 1 < fuel)
    (outer : Nat) (s : List Char) :
    members? fuel (quote key ++ ':' :: ' ' :: (layout indent j ++
        (membersLayout indent members ++ (newline outer ++ '\x7d' :: s)))) =
      some (((key, j) :: members).map fun member => (some member.1, member.2), s) := by
  obtain ⟨fuel, rfl⟩ : ∃ f, fuel = f + 1 := ⟨fuel - 1, by omega⟩
  have hskip (s : List Char) : skipSpace ('"' :: s) = '"' :: s := rfl
  have hcomma (s : List Char) : skipSpace (',' :: s) = ',' :: s := rfl
  have hcolon (s : List Char) : skipSpace (':' :: s) = ':' :: s := rfl
  induction members generalizing key j fuel with
  | nil =>
    rw [membersLayout, List.nil_append, quote_append, members?, hskip]
    simp only [string?_escaped, Option.bind_eq_bind, Option.bind_some, hcolon,
      value?_congr (skipSpace_space _),
      hfirst indent fuel _ (by omega) (stops_newline outer _), skipSpace_newline]
    rfl
  | cons next members ih =>
    have hlength : (membersLayout indent (next :: members)).length = 4 + 2 * indent +
        (quote next.1).length + (layout indent next.2).length +
          (membersLayout indent members).length := by
      simp [membersLayout, newline]
      omega
    obtain ⟨fuel, rfl⟩ : ∃ f, fuel = f + 1 := ⟨fuel - 1, by omega⟩
    obtain ⟨hnext, hlater⟩ := List.forall_mem_cons.mp hrest
    have hmore := ih next.1 hnext hlater fuel (by omega)
    rw [← members?_congr (skipSpace_newline indent _)] at hmore
    simp only [membersLayout, List.cons_append, List.append_assoc]
    rw [quote_append, members?, hskip]
    simp only [string?_escaped, Option.bind_eq_bind, Option.bind_some, hcolon,
      value?_congr (skipSpace_space _),
      hfirst indent (fuel + 1) _ (by omega) (stops_comma _), hcomma, hmore]
    rfl

theorem ofMembers_map (members : List (String × Json)) :
    ofMembers (members.map fun member => (some member.1, member.2)) = object members := by
  have hall : (members.map fun member => (some member.1, member.2)).mapM
      (fun member => member.1.map (·, member.2)) = some members := by
    induction members with
    | nil => rfl
    | cons member members ih => rw [List.map_cons, List.mapM_cons, ih]; rfl
  simp only [ofMembers, hall]

/-- Documents whose numbers all fit in 64 bits and are written with digits only. -/
inductive Plain : Json → Prop
  | null : Plain null
  | bool (b : Bool) : Plain (bool b)
  | natural {n : Nat} (h : n < Nat.pow 2 64) : Plain (natural n)
  | text (s : String) : Plain (text s)
  | array {items : List Json} (h : ∀ j ∈ items, Plain j) : Plain (array items)
  | object {members : List (String × Json)} (h : ∀ member ∈ members, Plain member.2) :
    Plain (object members)

theorem plain_map {α : Type} {write : α → Json} {l : List α} (h : ∀ a ∈ l, Plain (write a)) :
    Plain (.array (l.map write)) := by
  refine .array fun j hj => ?_
  obtain ⟨a, ha, rfl⟩ := List.mem_map.mp hj
  exact h a ha

theorem plain_elim {α : Type} {write : α → Json} (h : ∀ a, Plain (write a)) (a : Option α) :
    Plain (a.elim Json.null write) := by
  cases a with
  | none => exact .null
  | some a => exact h a

theorem plain_ofTexts (texts : List String) : Plain (ofTexts texts) := plain_map fun _ _ => .text _

theorem value?_text (text : String) (fuel : Nat) (s : List Char) :
    value? (fuel + 1) (quote text ++ s) = some (.text text, s) := by
  have hvalue (s : List Char) : value? (fuel + 1) ('"' :: s) =
      (string? s).map fun string => (string.1.elim broken .text, string.2) := by
    rw [value?]
    rfl
  rw [quote_append, hvalue, string?_escaped]
  rfl

theorem value?_natural {n : Nat} (h : n < Nat.pow 2 64) (fuel : Nat) {s : List Char}
    (hs : Stops s) : value? (fuel + 1) ((toString n).toList ++ s) = some (natural n, s) := by
  rw [← number?_toString h hs, Text.toList_toString]
  cases hdigits : Nat.toDigits 10 n with
  | nil => exact absurd hdigits Nat.toDigits_ne_nil
  | cons c digits =>
    have hc : c.isDigit := Text.isDigit_toDigits (hdigits ▸ List.mem_cons_self)
    have hne (d : Char) (hd : d.isDigit = false) : c ≠ d := by
      rintro rfl
      rw [hc] at hd
      cases hd
    have hskip : skipSpace (c :: (digits ++ s)) = c :: (digits ++ s) :=
      List.dropWhile_cons_of_neg
        (by simp [hne ' ' rfl, hne '\n' rfl, hne '\t' rfl, hne '\x0d' rfl])
    rw [List.cons_append, value?, hskip]
    split
    iterate 6
      · next heq => exact absurd (List.cons.inj heq).1 (hne _ rfl)
    · rfl

theorem isRead_array {items : List Json} (h : ∀ j ∈ items, IsRead j) : IsRead (array items) := by
  intro indent fuel s hfuel _
  obtain ⟨fuel, rfl⟩ : ∃ f, fuel = f + 1 := ⟨fuel - 1, by omega⟩
  cases items with
  | nil =>
    rw [layout, value?]
    rfl
  | cons j items =>
    obtain ⟨hfirst, hrest⟩ := List.forall_mem_cons.mp h
    simp only [layout, List.cons_append, List.append_assoc, List.length_cons,
      List.length_append] at hfuel ⊢
    refine value?_array ?_
    rw [items?_congr (skipSpace_newline _ _), List.nil_append]
    exact items?_layout hfirst hrest (by simp [newline] at hfuel; omega) indent s

theorem isRead_object {members : List (String × Json)} (h : ∀ member ∈ members, IsRead member.2) :
    IsRead (object members) := by
  intro indent fuel s hfuel _
  obtain ⟨fuel, rfl⟩ : ∃ f, fuel = f + 1 := ⟨fuel - 1, by omega⟩
  cases members with
  | nil =>
    rw [layout, value?]
    rfl
  | cons member members =>
    obtain ⟨hfirst, hrest⟩ := List.forall_mem_cons.mp h
    simp only [layout, List.cons_append, List.append_assoc, List.length_cons,
      List.length_append] at hfuel ⊢
    rw [← ofMembers_map]
    refine value?_object ?_
    rw [members?_congr (skipSpace_newline _ _), List.nil_append]
    exact members?_layout member.1 hfirst hrest (by simp [newline] at hfuel; omega) indent s

theorem isRead_of_plain {j : Json} (h : Plain j) : IsRead j := by
  induction h with
  | null =>
    intro indent fuel s hfuel _
    obtain ⟨fuel, rfl⟩ : ∃ f, fuel = f + 1 := ⟨fuel - 1, by omega⟩
    rw [layout, value?]
    rfl
  | bool b =>
    intro indent fuel s hfuel _
    obtain ⟨fuel, rfl⟩ : ∃ f, fuel = f + 1 := ⟨fuel - 1, by omega⟩
    rw [layout, value?]
    cases b <;> rfl
  | natural h =>
    intro indent fuel s hfuel hs
    obtain ⟨fuel, rfl⟩ : ∃ f, fuel = f + 1 := ⟨fuel - 1, by omega⟩
    rw [layout]
    exact value?_natural h fuel hs
  | text text =>
    intro indent fuel s hfuel _
    obtain ⟨fuel, rfl⟩ : ∃ f, fuel = f + 1 := ⟨fuel - 1, by omega⟩
    rw [layout]
    exact value?_text text fuel s
  | array _ ih => exact isRead_array ih
  | object _ ih => exact isRead_object ih

theorem parse?_print {j : Json} (h : Plain j) : parse? (print j) = some j := by
  have hread := isRead_of_plain h 0 (2 * (layout 0 j).length + 2) [] (by omega)
    (fun c hc => by cases hc)
  rw [List.append_nil] at hread
  rw [parse?, print, String.toList_ofList, hread]
  rfl

end LoadOrder.Json

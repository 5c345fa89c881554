import Pseudocode.Export.Json
import Pseudocode.Proofs.JsonReading
import Pseudocode.Proofs.NumberValue

/-!
# Written JSON

Integers, numbers, texts and lists are written as the grammar has them, and what is written
stands for what it was written from. A number is written with the fewest digits that the
nearest number is this one, so it is the number that its numeral stands for.
-/
namespace Pseudocode

/-- Digits of a positive number begin with no zero. -/
theorem head?_toDigits {n : Nat} (hn : 0 < n) : (Nat.toDigits 10 n).head? ≠ some '0' := by
  induction n using Nat.strong_induction_on with
  | _ n ih =>
      by_cases hlt : n < 10
      · rw [Nat.toDigits_of_lt_base hlt, List.head?_cons]
        intro hzero
        have hcode := congrArg Char.toNat (Option.some.inj hzero)
        rw [Nat.toNat_digitChar_of_lt_ten hlt] at hcode
        have : '0'.toNat = 48 := rfl
        omega
      · rw [Nat.toDigits_of_base_le (by decide) (by omega), List.head?_append]
        have hhead := ih (n / 10) (by omega) (by omega)
        cases hd : (Nat.toDigits 10 (n / 10)).head? with
        | none => exact absurd (List.head?_eq_none_iff.1 hd) Nat.toDigits_ne_nil
        | some c =>
            rw [hd] at hhead
            exact hhead

/-- Digits up to a point are found in one way. -/
theorem append_point_inj {a b c d : List Char} (ha : ∀ x ∈ a, x.isDigit = true)
    (hc : ∀ x ∈ c, x.isDigit = true) (h : a ++ '.' :: b = c ++ '.' :: d) : a = c ∧ b = d := by
  have hspan {front back : List Char} (hfront : ∀ x ∈ front, x.isDigit = true) :
      (front ++ '.' :: back).takeWhile Char.isDigit = front := by
    rw [List.takeWhile_append_of_pos hfront, List.takeWhile_cons_of_neg (by decide),
      List.append_nil]
  have hac : a = c := by rw [← hspan ha, h, hspan hc]
  subst hac
  exact ⟨rfl, (List.cons.inj (List.append_cancel_left h)).2⟩

/-- Around a point zeros do not lead, and something follows. -/
theorem Decimal.Notation.positional_parts {f : Notation} (hf : f.keepPoint = true) {n : Nat}
    (hn : 0 < n) {whole : Int} {front back : List Char} (hfront : ∀ c ∈ front, c.isDigit = true)
    (h : f.positional (Nat.toDigits 10 n) whole = front ++ '.' :: back) :
    (front.head? = some '0' → front = ['0']) ∧ back ≠ [] := by
  have hdigits : ∀ c ∈ Nat.toDigits 10 n, c.isDigit = true :=
    fun c hc => Nat.isDigit_of_mem_toDigits (by decide) (by decide) hc
  have hhead := head?_toDigits hn
  have hne := Nat.toDigits_ne_nil (b := 10) (n := n)
  simp only [Notation.positional, hf, if_true] at h
  generalize Nat.toDigits 10 n = digits at h hdigits hhead hne
  split at h
  · have hzero : ∀ c ∈ ['0'], c.isDigit = true := List.forall_mem_singleton.2 rfl
    obtain ⟨rfl, rfl⟩ := append_point_inj hzero hfront h
    exact ⟨fun _ => rfl, List.append_ne_nil_of_right_ne_nil _ hne⟩
  · split at h
    · have hzeros : ∀ c ∈ digits ++ List.replicate (whole.toNat - digits.length) '0',
          c.isDigit = true := by
        intro c hc
        rcases List.mem_append.1 hc with hc | hc
        · exact hdigits c hc
        · exact isDigit_of_mem_replicate hc
      obtain ⟨rfl, rfl⟩ := append_point_inj hzeros hfront h
      obtain ⟨c, cs, rfl⟩ := List.exists_cons_of_ne_nil hne
      exact ⟨fun hzero => absurd hzero hhead, List.cons_ne_nil _ _⟩
    · rename_i hpos hlt
      obtain ⟨rfl, rfl⟩ := append_point_inj (fun c hc => hdigits c (List.mem_of_mem_take hc))
        hfront h
      rw [List.head?_take, if_neg (by omega), ne_eq, List.drop_eq_nil_iff]
      exact ⟨fun hzero => absurd hzero hhead, by omega⟩

namespace Json

def Digits.ofNat (n : Nat) : Digits where
  chars := Nat.toDigits 10 n
  ne_nil := Nat.toDigits_ne_nil
  decimal _ hc := Nat.isDigit_of_mem_toDigits (by decide) (by decide) hc

theorem Digits.value_ofNat (n : Nat) : (Digits.ofNat n).value = n := Nat.ofDigitChars_ten_toDigits

theorem Digits.plain_ofNat (n : Nat) (h : (Digits.ofNat n).chars.head? = some '0') :
    (Digits.ofNat n).chars = ['0'] := by
  rcases Nat.eq_zero_or_pos n with rfl | hn
  · exact Nat.toDigits_zero 10
  · exact absurd h (head?_toDigits hn)

/-- An integer in full digits. -/
theorem spells_integer (n : Int) : Spells (toString n).toList (.integer n) := by
  have hspells (negative : Bool) (k : Nat) :=
    Spells.number ⟨negative, Digits.ofNat k, Digits.plain_ofNat k, none, none⟩
  have hchars (k : Nat) : (Digits.ofNat k).chars ++ ([] ++ []) = (toString k).toList := by
    rw [Nat.toString_eq_ofList_toDigits, String.toList_ofList]
    exact List.append_nil _
  cases n with
  | ofNat k =>
      have hk : Spells ((Digits.ofNat k).chars ++ ([] ++ [])) (.integer (Digits.ofNat k).value) :=
        hspells false k
      rw [hchars, Digits.value_ofNat] at hk
      exact hk
  | negSucc k =>
      have hk : Spells ('-' :: ((Digits.ofNat (k + 1)).chars ++ ([] ++ [])))
          (.integer (-(Digits.ofNat (k + 1)).value)) := hspells true (k + 1)
      rw [hchars, Digits.value_ofNat] at hk
      show Spells ("-" ++ toString (k + 1)).toList _
      rw [String.toList_append]
      exact hk

/-- The digits of a natural number behind enough zeros. -/
def Digits.padded (width n : Nat) : Digits where
  chars := Decimal.padded width n
  ne_nil := List.append_ne_nil_of_right_ne_nil _ Nat.toDigits_ne_nil
  decimal c hc := by
    rcases List.mem_append.1 hc with hc | hc
    · exact Decimal.isDigit_of_mem_replicate hc
    · exact Nat.isDigit_of_mem_toDigits (by decide) (by decide) hc

theorem Digits.value_padded (width n : Nat) : (Digits.padded width n).value = n := by
  show Nat.ofDigitChars 10 (List.replicate _ '0' ++ Nat.toDigits 10 n) 0 = n
  rw [Nat.ofDigitChars_append, Nat.ofDigitChars_replicate_zero]
  exact Nat.ofDigitChars_ten_toDigits

/-- A signed exponent of at least so many digits. -/
def Exponent.ofInt (width : Nat) (k : Int) : Exponent :=
  ⟨false, some (decide (k < 0)), .padded width k.natAbs⟩

theorem Exponent.value_ofInt (width : Nat) (k : Int) : (Exponent.ofInt width k).value = k := by
  simp only [Exponent.value, Exponent.ofInt, Digits.value_padded, Option.some_inj,
    decide_eq_true_iff]
  split <;> omega

theorem Exponent.chars_ofInt (width : Nat) (k : Int) : (Exponent.ofInt width k).chars =
    'e' :: (if k < 0 then '-' else '+') :: Decimal.padded width k.natAbs := by
  simp only [Exponent.chars, Exponent.ofInt, sign, decide_eq_true_iff]
  rfl

/-- Digits around a point. -/
theorem exists_positional (negative : Bool) {d : Decimal.Scientific} (hd : 0 < d.digits) :
    ∃ n : Numeral, n.negative = negative ∧ n.isInteger = false ∧
      n.magnitude.value = d.value ∧
      n.unsigned = Number.exactNotation.positional (Nat.toDigits 10 d.digits)
        (d.exponent + (Nat.toDigits 10 d.digits).length) := by
  obtain ⟨front, back, heq, hne, hfront, hback, hvalue⟩ :=
    Decimal.Notation.positional_spec (f := Number.exactNotation) rfl d.digits
      (d.exponent + (Nat.toDigits 10 d.digits).length)
  obtain ⟨hplain, hdecimals⟩ := Decimal.Notation.positional_parts rfl hd hfront heq
  refine ⟨⟨negative, ⟨front, hne, hfront⟩, hplain, some ⟨back, hdecimals, hback⟩, none⟩,
    rfl, rfl, ?_, ?_⟩
  · rw [add_sub_cancel_right] at hvalue
    rw [← hvalue]
    show Decimal.Scientific.value ⟨_, 0 - _⟩ = _
    rw [zero_sub]
    rfl
  · rw [heq]
    show front ++ ('.' :: back ++ []) = _
    rw [List.append_nil]

/-- Digits with an exponent. -/
theorem exists_scientific (negative : Bool) (d : Decimal.Scientific) :
    ∃ n : Numeral, n.negative = negative ∧ n.isInteger = false ∧ n.magnitude = d ∧
      n.unsigned = Number.exactNotation.scientific (Nat.toDigits 10 d.digits)
        (d.exponent + (Nat.toDigits 10 d.digits).length - 1) := by
  have hdigits : ∀ c ∈ Nat.toDigits 10 d.digits, c.isDigit = true :=
    fun c hc => Nat.isDigit_of_mem_toDigits (by decide) (by decide) hc
  have hvalue := Nat.ofDigitChars_ten_toDigits (n := d.digits)
  obtain ⟨c, cs, hcs⟩ := List.exists_cons_of_ne_nil (Nat.toDigits_ne_nil (b := 10) (n := d.digits))
  rw [hcs] at hdigits hvalue ⊢
  obtain ⟨hc, hrest⟩ := List.forall_mem_cons.1 hdigits
  let exponent := Exponent.ofInt Number.exactNotation.exponentWidth
    (d.exponent + (c :: cs).length - 1)
  have hfirst : ∀ a ∈ [c], a.isDigit = true := List.forall_mem_singleton.2 hc
  have hplain : [c].head? = some '0' → [c] = ['0'] := by
    intro h
    rw [Option.some.inj h]
  have hmagnitude : (⟨Nat.ofDigitChars 10 (c :: cs) 0, exponent.value - cs.length⟩ :
      Decimal.Scientific) = d := by
    rw [hvalue, Exponent.value_ofInt, List.length_cons]
    congr 1
    omega
  cases cs with
  | nil =>
      refine ⟨⟨negative, ⟨[c], List.cons_ne_nil _ _, hfirst⟩, hplain, none, some exponent⟩,
        rfl, rfl, hmagnitude, ?_⟩
      simp only [Numeral.unsigned, fractionChars, exponentChars, Decimal.Notation.scientific,
        exponent, Exponent.chars_ofInt, List.nil_append]
  | cons first rest =>
      refine ⟨⟨negative, ⟨[c], List.cons_ne_nil _ _, hfirst⟩, hplain,
        some ⟨first :: rest, List.cons_ne_nil _ _, hrest⟩, some exponent⟩,
        rfl, rfl, hmagnitude, ?_⟩
      simp only [Numeral.unsigned, fractionChars, exponentChars, Decimal.Notation.scientific,
        exponent, Exponent.chars_ofInt, List.cons_append, List.nil_append]

/-- A decimal in either form. -/
theorem exists_layout (negative : Bool) {d : Decimal.Scientific} (hd : 0 < d.digits) :
    ∃ n : Numeral, n.negative = negative ∧ n.isInteger = false ∧ n.magnitude.value = d.value ∧
      n.unsigned = Number.exactNotation.layout d := by
  generalize hlayout : Number.exactNotation.layout d = chars
  simp only [Decimal.Notation.layout, sub_add_cancel] at hlayout
  split at hlayout
  · subst hlayout
    exact exists_positional negative hd
  · subst hlayout
    obtain ⟨n, hnegative, hinteger, hmagnitude, hunsigned⟩ := exists_scientific negative d
    exact ⟨n, hnegative, hinteger, congrArg _ hmagnitude, hunsigned⟩

section
open Float.Model.UnpackedFloat
variable {x : Float} {sign : Sign} {m : Nat} {e : Int} {hm : 0 < m}

theorem toList_exactText (hx : x.toModel.unpack = .finite sign m e hm) :
    (Number.exactText x).toList = if Number.isNegative x then
      '-' :: Number.exactNotation.layout (Decimal.Binary.ofBits x.toBits).shortest
    else Number.exactNotation.layout (Decimal.Binary.ofBits x.toBits).shortest := by
  obtain ⟨hnan, hinf⟩ := Bool.or_eq_false_iff.1 (Number.not_isNaN_or_isInf hx)
  obtain ⟨-, hmantissa, -⟩ := Decimal.Binary.ofBits_of_unpack hx
  have hminus : "-".toList = ['-'] := rfl
  simp only [Number.exactText, Decimal.Notation.write, hnan, hinf, hmantissa, if_neg hm.ne',
    Bool.false_eq_true, if_false, String.toList_append, String.toList_ofList, Number.isNegative,
    decide_eq_true_iff]
  split
  · rw [hminus, List.singleton_append]
  · rw [String.toList_empty, List.nil_append]

/-- The text of a number that always reads back stands for that number. -/
theorem spells_real (hx : x.toModel.unpack = .finite sign m e hm) :
    Spells (Number.exactText x).toList (.real x) := by
  have hround := Decimal.Binary.roundsTo_shortest_ofBits hx
  obtain ⟨n, hnegative, hinteger, hvalue, hunsigned⟩ := exists_layout (Number.isNegative x)
    (Decimal.Scientific.digits_pos (Number.canonical_of_unpack hx) hround)
  rw [← hvalue] at hround
  have hchars : n.chars = (Number.exactText x).toList := by
    rw [toList_exactText hx, Numeral.chars, hnegative, hunsigned]
  have hitem : n.item = .real x := by
    rw [Numeral.item, hinteger, if_neg Bool.false_ne_true, hnegative]
    congr 1
    have hsign := Number.isNegative_iff hx
    cases sign with
    | positive =>
        rw [if_neg fun h => Sign.noConfusion (hsign.1 h)]
        exact Decimal.Scientific.toFloat_eq hx hround
    | negative =>
        obtain ⟨y, hy, rfl⟩ := Number.exists_neg hx
        rw [if_pos (hsign.2 rfl), Decimal.Scientific.toFloat_eq hy hround]
  rw [← hchars, ← hitem]
  exact .number n

end

theorem unit?_hexadecimal : ∀ n < 0x20,
    Text.hexadecimal 4 n = ['0', '0', (n / 16).digitChar, (n % 16).digitChar] ∧
      unit? '0' '0' (n / 16).digitChar (n % 16).digitChar = some n := by
  decide +kernel

/-- A character is written in one of the three ways. -/
theorem letters_escape (c : Char) {cs : List Char} {units : List Nat} (h : Letters cs units) :
    Letters (escape c ++ cs) (c.toNat :: units) := by
  have hshort (mark : Char) (hmark : shortEscapes.lookup mark = some c) :
      Letters (['\\', mark] ++ cs) (c.toNat :: units) := .short hmark h
  unfold escape
  split
  · subst c
    exact hshort '"' rfl
  split
  · subst c
    exact hshort '\\' rfl
  split
  · subst c
    exact hshort 'n' rfl
  split
  · subst c
    exact hshort 'r' rfl
  split
  · subst c
    exact hshort 't' rfl
  split
  · subst c
    exact hshort 'b' rfl
  split
  · subst c
    exact hshort 'f' rfl
  rename_i hquote hbackslash _ _ _ _ _
  split
  · rename_i hcontrol
    obtain ⟨hdigits, hunit⟩ := unit?_hexadecimal c.toNat hcontrol
    rw [hdigits]
    exact .unicode hunit h
  · rename_i hcontrol
    refine .plain ?_ h
    simp only [isPlain, Bool.and_eq_true, decide_eq_true_iff]
    exact ⟨⟨not_lt.1 hcontrol, hquote⟩, hbackslash⟩

theorem letters_flatMap_escape (cs : List Char) :
    Letters (cs.flatMap escape) (cs.map Char.toNat) := by
  induction cs with
  | nil => exact .nil
  | cons c cs ih =>
      rw [List.flatMap_cons]
      exact letters_escape c ih

theorem ofUnits?_map_toNat (cs : List Char) : ofUnits? (cs.map Char.toNat) = some cs := by
  induction cs with
  | nil => rfl
  | cons c cs ih =>
      have hvalid : c.toNat.isValidChar := c.valid
      rw [List.map_cons]
      unfold ofUnits?
      rw [if_pos hvalid, ih, Char.ofNat_toNat]
      rfl

theorem quoted_quote (content : String) : Quoted (quote content.toList) content := by
  have hquoted := Quoted.intro (letters_flatMap_escape content.toList)
    (ofUnits?_map_toNat content.toList)
  rw [String.ofList_toList] at hquoted
  exact hquoted

mutual

def Item.ofDatum : Datum → Item
  | .boolean value => .boolean value
  | .text content => .text content
  | .integer value => .integer value
  | .real value => .real value
  | .list items => .array (ofData items)

def Item.ofData : List Datum → List Item
  | [] => []
  | d :: ds => ofDatum d :: ofData ds

end

theorem Item.ofData_eq_map (ds : List Datum) : ofData ds = ds.map ofDatum := by
  induction ds with
  | nil => rfl
  | cons d ds ih => rw [ofData, ih, List.map_cons]

def Gap.none : Gap := ⟨[], List.forall_mem_nil _⟩

theorem Spells.document {cs : List Char} {i : Item} (h : Spells cs i) : Document cs i := by
  have hdocument := Document.intro ⟨.none, cs, .none, i⟩ h
  rw [Part.chars, Gap.none, List.nil_append, List.append_nil] at hdocument
  exact hdocument

theorem exists_gap_lineBreak (style : Style) (level : Nat) :
    ∃ gap : Gap, gap.chars = style.lineBreak level := by
  cases style with
  | compact => exact ⟨.none, rfl⟩
  | indented width =>
      refine ⟨⟨_, fun c hc => ?_⟩, rfl⟩
      rcases List.mem_cons.1 hc with rfl | hc
      · rfl
      · rw [List.eq_of_mem_replicate hc]
        rfl

theorem exists_gap_separator (style : Style) (level : Nat) :
    ∃ gap : Gap, ',' :: gap.chars = style.separator level := by
  cases style with
  | compact => exact ⟨⟨[' '], List.forall_mem_singleton.2 rfl⟩, rfl⟩
  | indented width =>
      obtain ⟨gap, hgap⟩ := exists_gap_lineBreak (.indented width) level
      exact ⟨gap, congrArg _ hgap⟩

/-- The items of a list, laid out between two gaps, are a series. -/
theorem exists_parts {style : Style} {level : Nat} {d : Datum} {ds : List Datum}
    (h : ∀ a ∈ d :: ds, Spells (write style level a) (.ofDatum a)) (before after : Gap) :
    ∃ parts : List Part, parts ≠ [] ∧ (∀ p ∈ parts, Spells p.written p.item) ∧
      parts.map Part.item = (d :: ds).map Item.ofDatum ∧
      series (parts.map Part.chars) =
        before.chars ++ write style level d ++ writeRest style level ds ++ after.chars := by
  obtain ⟨hd, hds⟩ := List.forall_mem_cons.1 h
  induction ds generalizing d before with
  | nil =>
      refine ⟨[⟨before, write style level d, after, .ofDatum d⟩], List.cons_ne_nil _ _,
        List.forall_mem_singleton.2 hd, rfl, ?_⟩
      rw [writeRest, List.append_nil]
      exact List.intercalate_singleton
  | cons next ds ih =>
      obtain ⟨gap, hgap⟩ := exists_gap_separator style level
      obtain ⟨parts, hne, hparts, hitems, hchars⟩ := ih hds gap (hds next (List.mem_cons_self ..))
        fun a ha => hds a (List.mem_cons_of_mem _ ha)
      refine ⟨⟨before, write style level d, .none, .ofDatum d⟩ :: parts, List.cons_ne_nil _ _,
        List.forall_mem_cons.2 ⟨hd, hparts⟩, ?_, ?_⟩
      · rw [List.map_cons, hitems]
        rfl
      · rw [List.map_cons, series_cons (by simpa using hne), hchars, writeRest, ← hgap]
        simp [Part.chars, Gap.none]

theorem spells_list {style : Style} {level : Nat} {ds : List Datum}
    (h : ∀ d ∈ ds, Spells (write style (level + 1) d) (.ofDatum d)) :
    Spells (write style level (.list ds)) (.ofDatum (.list ds)) := by
  rw [Item.ofDatum, Item.ofData_eq_map]
  cases ds with
  | nil =>
      rw [write]
      exact .emptyArray .none
  | cons d ds =>
      obtain ⟨before, hbefore⟩ := exists_gap_lineBreak style (level + 1)
      obtain ⟨after, hafter⟩ := exists_gap_lineBreak style level
      obtain ⟨parts, hne, hparts, hitems, hchars⟩ := exists_parts h before after
      have harray := Spells.array hne hparts
      rw [hitems, hchars, hbefore, hafter] at harray
      rw [write]
      exact harray

end Json

end Pseudocode

import Pseudocode.Proofs.Shortest
import Pseudocode.Proofs.Composition

/-!
# Numerals

Digits with a point among them are one word, and it is read as the decimal that they write.
So a number survives being written and read when its text has this form. It does not when the
text has an exponent with a sign, which ends the word, or is no numeral at all.
-/
namespace Pseudocode

namespace Decimal

theorem digit_spec {c : Char} (h : c.isDigit = true) :
    Text.digitValue? c = some (c.toNat - 48) ∧ Text.isDigit c = true ∧
      Lexeme.startsWord c = true := by
  have hall : (List.range 10).all (fun n =>
      Text.digitValue? (Nat.digitChar n) = some ((Nat.digitChar n).toNat - 48) ∧
        Text.isDigit (Nat.digitChar n) = true ∧
        Lexeme.startsWord (Nat.digitChar n) = true) = true := by
    decide +kernel
  obtain ⟨hlow, hhigh⟩ : 48 ≤ c.toNat ∧ c.toNat ≤ 57 := by
    simpa [Char.isDigit, UInt32.le_iff_toNat_le] using h
  have hc : Nat.digitChar (c.toNat - 48) = c := by
    apply Char.toNat_inj.1
    rw [Nat.toNat_digitChar_of_lt_ten (by omega)]
    omega
  have hdigit := List.all_eq_true.1 hall (c.toNat - 48) (List.mem_range.2 (by omega))
  rwa [hc, decide_eq_true_eq] at hdigit

theorem takeDigits_append {ds : List Char} (hds : ∀ c ∈ ds, c.isDigit = true) {rest : List Char}
    (hrest : ∀ c ∈ rest.head?, Text.digitValue? c = none) :
    takeDigits (ds ++ rest) = (ds.map (·.toNat - 48), rest) := by
  induction ds with
  | nil =>
      cases rest with
      | nil => rfl
      | cons c cs => rw [List.nil_append, takeDigits, hrest c rfl]; rfl
  | cons c ds ih =>
      obtain ⟨hc, hds⟩ := List.forall_mem_cons.1 hds
      rw [List.cons_append, takeDigits, (digit_spec hc).1, ih hds]
      rfl

theorem ofDigits_map (ds : List Char) :
    ofDigits (ds.map (·.toNat - 48)) = Nat.ofDigitChars 10 ds 0 := by
  rw [ofDigits, List.foldl_map]
  rfl

theorem takeDigits_all {ds : List Char} (hds : ∀ c ∈ ds, c.isDigit = true) :
    takeDigits ds = (ds.map (·.toNat - 48), []) := by
  have htake := takeDigits_append hds (by simp : ∀ c ∈ ([] : List Char).head?, _)
  rwa [List.append_nil] at htake

/-- A numeral without a point. -/
theorem readNumeral?_whole {ds : List Char} (hne : ds ≠ []) (hds : ∀ c ∈ ds, c.isDigit = true) :
    readNumeral? ds = some ⟨Nat.ofDigitChars 10 ds 0, 0⟩ := by
  rw [readNumeral?, takeDigits_all hds]
  simp [hne, readExponent?, ofDigits_map]

/-- A numeral with a point. -/
theorem readNumeral?_point {whole fraction : List Char} (hne : whole ≠ [])
    (hwhole : ∀ c ∈ whole, c.isDigit = true) (hfraction : ∀ c ∈ fraction, c.isDigit = true) :
    readNumeral? (whole ++ '.' :: fraction) =
      some ⟨Nat.ofDigitChars 10 (whole ++ fraction) 0, -fraction.length⟩ := by
  have hpoint : Text.digitValue? '.' = none := by decide +kernel
  have htake : takeDigits (whole ++ '.' :: fraction) =
      (whole.map (·.toNat - 48), '.' :: fraction) := takeDigits_append hwhole (by simp [hpoint])
  rw [readNumeral?, htake]
  simp only [takeDigits_all hfraction]
  simp [hne, readExponent?, ← List.map_append, ofDigits_map]

theorem isDigit_of_mem_replicate {k : Nat} {c : Char} (h : c ∈ List.replicate k '0') :
    c.isDigit = true := by
  rw [List.eq_of_mem_replicate h]
  rfl

/-- Digits around a point write the decimal that they were made from. -/
theorem Notation.positional_spec {f : Notation} (hf : f.keepPoint = true) (n : Nat) (whole : Int) :
    ∃ front back : List Char,
      f.positional (Nat.toDigits 10 n) whole = front ++ '.' :: back ∧ front ≠ [] ∧
      (∀ c ∈ front, c.isDigit = true) ∧ (∀ c ∈ back, c.isDigit = true) ∧
      Scientific.value ⟨Nat.ofDigitChars 10 (front ++ back) 0, -back.length⟩ =
        Scientific.value ⟨n, whole - (Nat.toDigits 10 n).length⟩ := by
  have hdigits : ∀ c ∈ Nat.toDigits 10 n, c.isDigit = true :=
    fun c hc => Nat.isDigit_of_mem_toDigits (by decide) (by decide) hc
  have hlength := Nat.length_toDigits_pos (b := 10) (n := n)
  have hn := Nat.ofDigitChars_ten_toDigits (n := n)
  -- the point stands before the digits, after them or among them
  unfold Notation.positional
  generalize Nat.toDigits 10 n = digits at hdigits hlength hn
  split
  · rename_i hle
    refine ⟨['0'], List.replicate (-whole).toNat '0' ++ digits, rfl, by simp, ?_, ?_, ?_⟩
    · intro c hc
      rw [List.mem_singleton.1 hc]
      rfl
    · intro c hc
      rcases List.mem_append.1 hc with hc | hc
      · exact isDigit_of_mem_replicate hc
      · exact hdigits c hc
    · have hvalue : Nat.ofDigitChars 10 (['0'] ++ (List.replicate (-whole).toNat '0' ++ digits)) 0 =
          n := by
        rw [Nat.ofDigitChars_append, Nat.ofDigitChars_append, Nat.ofDigitChars_replicate_zero]
        exact hn
      rw [hvalue, List.length_append, List.length_replicate]
      congr 2
      omega
  · rename_i hpos
    split
    · rename_i hle
      refine ⟨digits ++ List.replicate (whole.toNat - digits.length) '0', ['0'], ?_, ?_, ?_, ?_, ?_⟩
      · rfl
      · exact List.append_ne_nil_of_left_ne_nil (List.length_pos_iff.1 hlength) _
      · intro c hc
        rcases List.mem_append.1 hc with hc | hc
        · exact hdigits c hc
        · exact isDigit_of_mem_replicate hc
      · intro c hc
        rw [List.mem_singleton.1 hc]
        rfl
      · have hvalue : Nat.ofDigitChars 10
            (digits ++ List.replicate (whole.toNat - digits.length) '0' ++ ['0']) 0 =
            10 * (10 ^ (whole.toNat - digits.length) * n) := by
          rw [Nat.ofDigitChars_append, Nat.ofDigitChars_append, hn, Nat.ofDigitChars_replicate_zero]
          rfl
        have hpower : (10 : ℚ) ^ (whole - digits.length) = 10 ^ (whole.toNat - digits.length) := by
          rw [← zpow_natCast]
          congr 1
          omega
        rw [hvalue, Scientific.value, Scientific.value, hpower]
        push_cast
        norm_num
        ring
    · rename_i hlt
      refine ⟨digits.take whole.toNat, digits.drop whole.toNat, rfl, ?_, ?_, ?_, ?_⟩
      · rw [ne_eq, List.take_eq_nil_iff]
        rintro (hzero | rfl)
        · omega
        · exact absurd hlength (by decide)
      · exact fun c hc => hdigits c (List.mem_of_mem_take hc)
      · exact fun c hc => hdigits c (List.mem_of_mem_drop hc)
      · rw [List.take_append_drop, hn, List.length_drop]
        congr 2
        omega

/-- The exponent of the leading digit bounds a decimal by powers of ten. -/
theorem Scientific.le_leading_iff {d : Scientific} (hd : 0 < d.digits) (k : Int) :
    k ≤ d.exponent + (Nat.toDigits 10 d.digits).length - 1 ↔ (10 : ℚ) ^ k ≤ d.value := by
  have hlength := Nat.length_toDigits_pos (b := 10) (n := d.digits)
  have hiff : ∀ l, 0 < l → ((Nat.toDigits 10 d.digits).length ≤ l ↔ d.digits < 10 ^ l) :=
    fun _ hl => Nat.length_toDigits_le_iff (by decide) hl
  generalize (Nat.toDigits 10 d.digits).length = length at hlength hiff
  have hupper : (d.digits : ℚ) < 10 ^ (length : ℤ) := by
    exact_mod_cast (hiff length hlength).1 le_rfl
  have hlower : (10 : ℚ) ^ (length - 1 : ℤ) ≤ d.digits := by
    have hnat : 10 ^ (length - 1) ≤ d.digits := by
      rcases Nat.eq_zero_or_pos (length - 1) with hzero | hpos
      · rw [hzero, pow_zero]
        exact hd
      · by_contra hlt
        have := (hiff (length - 1) hpos).2 (not_le.1 hlt)
        omega
    rw [show (length - 1 : ℤ) = (length - 1 : ℕ) by omega]
    exact_mod_cast hnat
  have hten : (0 : ℚ) < 10 ^ d.exponent := by positivity
  constructor
  · intro hk
    calc (10 : ℚ) ^ k ≤ 10 ^ (length - 1 + d.exponent : ℤ) :=
          zpow_le_zpow_right₀ (by norm_num) (by omega)
      _ = 10 ^ (length - 1 : ℤ) * 10 ^ d.exponent := zpow_add₀ (by norm_num) _ _
      _ ≤ d.digits * 10 ^ d.exponent := mul_le_mul_of_nonneg_right hlower hten.le
  · intro hk
    have hlt : (10 : ℚ) ^ k < 10 ^ (length + d.exponent : ℤ) := by
      calc (10 : ℚ) ^ k ≤ d.digits * 10 ^ d.exponent := hk
        _ < 10 ^ (length : ℤ) * 10 ^ d.exponent := mul_lt_mul_of_pos_right hupper hten
        _ = 10 ^ (length + d.exponent : ℤ) := (zpow_add₀ (by norm_num) _ _).symm
    have := (zpow_lt_zpow_iff_right₀ (by norm_num)).1 hlt
    omega

/-- An exponent part that is written follows digits with at most a point among them. -/
theorem Notation.scientific_of_neg (f : Notation) (n : Nat) {exponent : Int}
    (h : exponent < 0) : ∃ (c : Char) (cs rest : List Char), c.isDigit = true ∧
      (∀ d ∈ cs, d.isDigit = true ∨ d = '.') ∧
      f.scientific (Nat.toDigits 10 n) exponent = c :: cs ++ 'e' :: '-' :: rest := by
  have hdigits : ∀ c ∈ Nat.toDigits 10 n, c.isDigit = true :=
    fun c hc => Nat.isDigit_of_mem_toDigits (by decide) (by decide) hc
  obtain ⟨c, cs, hcs⟩ := List.exists_cons_of_ne_nil (Nat.toDigits_ne_nil (b := 10) (n := n))
  rw [hcs] at hdigits ⊢
  obtain ⟨hc, hrest⟩ := List.forall_mem_cons.1 hdigits
  cases cs with
  | nil =>
      refine ⟨c, [], padded f.exponentWidth exponent.natAbs, hc, by simp, ?_⟩
      simp only [Notation.scientific, if_pos h]
  | cons d ds =>
      refine ⟨c, '.' :: d :: ds, padded f.exponentWidth exponent.natAbs, hc, fun a ha => ?_, ?_⟩
      · rcases List.mem_cons.1 ha with rfl | ha
        · exact .inr rfl
        · exact .inl (hrest a ha)
      · simp only [Notation.scientific, if_pos h]

end Decimal

theorem continuesWord_of_numeral {c : Char} (hc : c.isDigit = true ∨ c = '.') :
    Lexeme.continuesWord true c = true := by
  rcases hc with hc | rfl
  · rw [Lexeme.continuesWord, (Decimal.digit_spec hc).2.2, Bool.true_or]
  · exact Bool.or_true _

theorem isWord_of_digit {c : Char} {cs : List Char} (hc : c.isDigit = true)
    (hcs : ∀ d ∈ cs, Lexeme.continuesWord true d = true) : Lexeme.IsWord (c :: cs) := by
  obtain ⟨-, hdigit, hstarts⟩ := Decimal.digit_spec hc
  refine ⟨hstarts, ?_⟩
  rwa [hdigit]

theorem ofWord_of_digits {c : Char} {cs : List Char} (hc : c.isDigit = true)
    (hcs : ∀ d ∈ cs, d.isDigit = true ∨ d = '.') {d : Decimal.Scientific}
    (hd : Decimal.readNumeral? (c :: cs) = some d) :
    Token.Kind.ofWord (c :: cs) = .number d.toFloat := by
  have hother : ∀ name : String, name.toList.head?.any Char.isDigit = false →
      String.ofList (c :: cs) ≠ name := by
    rintro _ hname rfl
    rw [String.toList_ofList, List.head?_cons, Option.any_some, hc] at hname
    cases hname
  have hscore : (c :: cs).contains '_' = false := by
    rw [← Bool.not_eq_true, List.contains_iff_mem, List.mem_cons]
    rintro (rfl | hmem)
    · cases hc
    · rcases hcs '_' hmem with hdigit | hpoint
      · cases hdigit
      · cases hpoint
  have hwords : String.ofList (c :: cs) ∉ Token.operatorWords := by
    intro hmem
    have hfirst : ∀ name ∈ Token.operatorWords, name.toList.head?.any Char.isDigit = false := by
      decide
    exact hother _ (hfirst _ hmem) rfl
  unfold Token.Kind.ofWord
  rw [if_neg hwords, if_neg (hother _ (by decide))]
  simp only [List.head?_cons, Option.any_some, (Decimal.digit_spec hc).2.1, hscore, Bool.not_false,
    Bool.and_self, if_true, hd]

/-- The tokens of a word. -/
theorem kinds_ofSource_word {word : List Char} (h : Lexeme.IsWord word) :
    (Layout.ofSource word).kinds =
      [.blockOpen false, .blockOpen false, Token.Kind.ofWord word, .blockClose, .blockClose] := by
  have hall : Lexeme.all word = [.word word] := Lexeme.all_chars_of_written (l := .word word) h
  have hlaid : Layout.laid word = Layout.start.emit (Token.Kind.ofWord word) .start := by
    rw [Layout.laid, hall]
    rfl
  rw [Layout.ofSource_eq, hlaid, Layout.kinds_finish_of_filled rfl (Nat.lt_succ_self _)]
  rfl

theorem tokenize_word {word : List Char} (h : Lexeme.IsWord word) :
    tokenize (String.ofList word) = .ok (Layout.ofSource word) := by
  have hall : Lexeme.all word = [.word word] := Lexeme.all_chars_of_written (l := .word word) h
  have hclosed : ∀ l ∈ Lexeme.all (String.ofList word).toList, ∀ content,
      l ≠ .unclosed content := by
    rw [String.toList_ofList, hall]
    intro l hl content
    rw [List.mem_singleton.1 hl]
    nofun
  rw [tokenize_of_closed hclosed, String.toList_ofList]

namespace Number
open Float.Model Float.Model.UnpackedFloat

/-- The tokens of the text of a number are the number alone, on the one line of a program. -/
def Reread (x : Float) : Prop :=
  ∃ layout, tokenize (text x) = .ok layout ∧ layout.kinds =
    [.blockOpen false, .blockOpen false, .number x, .blockClose, .blockClose]

section
variable {x : Float} {cs : List Char}

theorem reread_word (htext : text x = String.ofList cs) (h : Lexeme.IsWord cs) :
    Reread x ↔ Token.Kind.ofWord cs = .number x := by
  rw [Reread, htext, tokenize_word h]
  constructor
  · rintro ⟨layout, hlayout, hkinds⟩
    cases hlayout
    rw [kinds_ofSource_word h] at hkinds
    simpa using hkinds
  · intro hword
    exact ⟨_, rfl, by rw [kinds_ofSource_word h, hword]⟩

/-- The text of a number is reread when it is a numeral for the number. -/
theorem reread_of_numeral {c : Char} (htext : text x = String.ofList (c :: cs))
    (hc : c.isDigit = true) (hcs : ∀ d ∈ cs, d.isDigit = true ∨ d = '.') {d : Decimal.Scientific}
    (hd : Decimal.readNumeral? (c :: cs) = some d) (hx : d.toFloat = x) : Reread x := by
  have hword : Lexeme.IsWord (c :: cs) :=
    isWord_of_digit hc fun d hd => continuesWord_of_numeral (hcs d hd)
  rw [reread_word htext hword, ofWord_of_digits hc hcs hd, hx]

theorem not_reread_of_name (htext : text x = String.ofList cs) (h : Lexeme.IsWord cs)
    {name : String} (hname : Token.Kind.ofWord cs = .identifier name) : ¬ Reread x := by
  rw [reread_word htext h, hname]
  nofun

/-- A minus sign after a word is an operator. -/
theorem not_reread_of_minus {word rest : List Char}
    (htext : text x = String.ofList (word ++ '-' :: rest)) (h : Lexeme.IsWord word) :
    ¬ Reread x := by
  rintro ⟨layout, hlayout, hkinds⟩
  -- the operator leaves a token of its own, which is none of the five
  have hall : Lexeme.all (word ++ '-' :: rest) =
      .word word :: .operator '-' :: Lexeme.all rest := by
    have hminus : Lexeme.all ('-' :: rest) = .operator '-' :: Lexeme.all rest :=
      Lexeme.all_chars_append (l := .operator '-') (by decide) nofun nofun
    rw [← hminus]
    refine Lexeme.all_chars_append (l := .word word) h (fun _ _ d hd => ?_) nofun
    cases hd
    decide
  rw [htext] at hlayout
  rw [eq_ofSource_of_tokenize hlayout, String.toList_ofList] at hkinds
  have hmem : .operator '-' ∈ Lexeme.all (word ++ '-' :: rest) := by
    rw [hall]
    exact .tail _ (.head _)
  obtain ⟨p, hp⟩ := Lexeme.exists_mem_place hmem .start
  have htoken : .operation (String.singleton '-') ∈ (Layout.ofSource (word ++ '-' :: rest)).kinds :=
    (Layout.tells_ofSource _).read.exists_token hp rfl
  rw [hkinds] at htoken
  simp at htoken

end

theorem not_reread_of_nan {x : Float} (h : x.toModel.unpack = .notANumber) : ¬ Reread x := by
  have hnan : x.isNaN = true := by
    show x.toModel.unpack.isNaN = true
    rw [h]
    rfl
  have hint : toInt? x = none := by
    rw [toInt?, hnan, Bool.true_or, if_pos rfl]
  have htext : text x = String.ofList ['N', 'a', 'N'] := by
    simp only [text, hint, hnan, if_true]
  exact not_reread_of_name htext (by decide +kernel)
    (by decide +kernel : Token.Kind.ofWord _ = .identifier "NaN")

theorem not_reread_of_infinity {x : Float} (h : x.toModel.unpack = .infinity .positive) :
    ¬ Reread x := by
  have hinfinity : (1.0 / 0.0 : Float).toModel.unpack = .infinity .positive := rfl
  obtain rfl := eq_of_unpack (h.trans hinfinity.symm) (by rw [h]; nofun)
  have htext : text (1.0 / 0.0) = String.ofList ['i', 'n', 'f'] := by decide +kernel
  exact not_reread_of_name htext (by decide +kernel)
    (by decide +kernel : Token.Kind.ofWord _ = .identifier "inf")

section
variable {x : Float} {m : Nat} {e : Int} {hm : 0 < m}

theorem isNaN_of_finite (hx : x.toModel.unpack = .finite .positive m e hm) : x.isNaN = false := by
  show x.toModel.unpack.isNaN = false
  rw [hx]
  rfl

theorem isInf_of_finite (hx : x.toModel.unpack = .finite .positive m e hm) : x.isInf = false := by
  show x.toModel.unpack.isInf = false
  rw [hx]
  rfl

theorem isNegative_of_finite (hx : x.toModel.unpack = .finite .positive m e hm) :
    isNegative x = false := by
  apply isNegative_of_unsigned
  · rw [Unsigned, hx]
    rfl
  · intro hnan
    cases hx.symm.trans hnan

theorem toInt?_of_finite (hx : x.toModel.unpack = .finite .positive m e hm) :
    toInt? x = if m % 2 ^ (-e).toNat = 0 then
      some ((m * 2 ^ e.toNat / 2 ^ (-e).toNat : ℕ) : ℤ) else none := by
  obtain ⟨-, hmantissa, hexponent⟩ := Decimal.Binary.ofBits_of_unpack hx
  simp only [toInt?, isNaN_of_finite hx, isInf_of_finite hx, isNegative_of_finite hx, hmantissa,
    hexponent, Decimal.twoTo, Nat.pow_eq]
  rfl

/-- A whole number is the value of the digits in its text. -/
theorem value_of_toInt? (hx : x.toModel.unpack = .finite .positive m e hm) {n : Int}
    (h : toInt? x = some n) : ∃ k : ℕ, n = k ∧ (k : ℚ) = m * 2 ^ e := by
  rw [toInt?_of_finite hx] at h
  split at h
  · rename_i hmod
    cases h
    refine ⟨_, rfl, ?_⟩
    have hdvd : 2 ^ (-e).toNat ∣ m * 2 ^ e.toNat := (Nat.dvd_of_mod_eq_zero hmod).mul_right _
    have hscaled : ((m * 2 ^ e.toNat / 2 ^ (-e).toNat : ℕ) : ℚ) * 2 ^ (-e).toNat =
        m * 2 ^ e * 2 ^ (-e).toNat := by
      rw [mul_assoc, Decimal.zpow_mul_pow_neg two_ne_zero]
      exact_mod_cast Nat.div_mul_cancel hdvd
    exact mul_right_cancel₀ (by positivity) hscaled
  · cases h

theorem exponent_neg_of_toInt? (hx : x.toModel.unpack = .finite .positive m e hm)
    (h : toInt? x = none) : e < 0 := by
  by_contra hneg
  have hzero : (-e).toNat = 0 := by omega
  rw [toInt?_of_finite hx, hzero, pow_zero, Nat.mod_one, if_pos rfl] at h
  cases h

theorem text_of_natCast {k : ℕ} (h : toInt? x = some (k : ℤ)) :
    text x = String.ofList (Nat.toDigits 10 k) := by
  rw [text, h, ← Nat.toString_eq_ofList_toDigits]
  rfl

/-- Digits alone are reread. -/
theorem reread_of_digits {k : ℕ} (h : toInt? x = some (k : ℤ))
    (hx : Decimal.Scientific.toFloat ⟨k, 0⟩ = x) : Reread x := by
  have htext := text_of_natCast h
  have hdigits : ∀ c ∈ Nat.toDigits 10 k, c.isDigit = true :=
    fun c hc => Nat.isDigit_of_mem_toDigits (by decide) (by decide) hc
  have hread := Decimal.readNumeral?_whole Nat.toDigits_ne_nil hdigits
  rw [Nat.ofDigitChars_ten_toDigits] at hread
  obtain ⟨c, cs, hcs⟩ := List.exists_cons_of_ne_nil (Nat.toDigits_ne_nil (b := 10) (n := k))
  rw [hcs] at htext hdigits hread
  obtain ⟨hc, hrest⟩ := List.forall_mem_cons.1 hdigits
  exact reread_of_numeral htext hc (fun d hd => .inl (hrest d hd)) hread hx

theorem reread_of_whole (hx : x.toModel.unpack = .finite .positive m e hm) {n : Int}
    (h : toInt? x = some n) : Reread x := by
  obtain ⟨k, rfl, hk⟩ := value_of_toInt? hx h
  refine reread_of_digits h (Decimal.Scientific.toFloat_eq hx ?_)
  rw [Decimal.Scientific.value, zpow_zero, mul_one, hk]
  exact roundsTo_self e

end

section
variable {x : Float} {m : Nat} {e : Int} {hm : 0 < m}

theorem text_of_fraction (hx : x.toModel.unpack = .finite .positive m e hm) (h : toInt? x = none) :
    text x = String.ofList (exactNotation.layout (Decimal.Binary.ofBits x.toBits).shortest) := by
  obtain ⟨-, hmantissa, -⟩ := Decimal.Binary.ofBits_of_unpack hx
  have hsign : ¬ x.toBits >>> 63 = 1 := of_decide_eq_false (isNegative_of_finite hx)
  simp only [text, h, exactText, Decimal.Notation.write, isNaN_of_finite hx, isInf_of_finite hx,
    hmantissa, if_neg hsign, if_neg hm.ne', Bool.false_eq_true, if_false, String.empty_append]

/-- A fraction has at most sixteen digits before the point. -/
theorem leading_of_fraction (hx : x.toModel.unpack = .finite .positive m e hm)
    (h : toInt? x = none) {d : Decimal.Scientific} (hd : RoundsTo m e d.value) :
    d.exponent + (Nat.toDigits 10 d.digits).length - 1 ≤ 15 := by
  have hc := canonical_of_unpack hx
  have hneg := exponent_neg_of_toInt? hx h
  by_contra hhigh
  have hten := (Decimal.Scientific.le_leading_iff (Decimal.Scientific.digits_pos hc hd) 16).1
    (by omega)
  have hlt : (10 : ℚ) ^ (16 : ℤ) < 2 ^ (52 : ℤ) := by
    calc (10 : ℚ) ^ (16 : ℤ) ≤ d.value := hten
      _ < 2 ^ (e + 53) := hd.lt_zpow hc
      _ ≤ 2 ^ (52 : ℤ) := zpow_le_zpow_right₀ one_le_two (by omega)
  norm_num at hlt

/-- Digits around a point are reread. -/
theorem reread_of_positional (hx : x.toModel.unpack = .finite .positive m e hm)
    {d : Decimal.Scientific} (hd : RoundsTo m e d.value)
    (htext : text x = String.ofList (exactNotation.positional (Nat.toDigits 10 d.digits)
      (d.exponent + (Nat.toDigits 10 d.digits).length))) : Reread x := by
  obtain ⟨front, back, heq, hne, hfront, hback, hvalue⟩ :=
    Decimal.Notation.positional_spec (f := exactNotation) rfl d.digits
      (d.exponent + (Nat.toDigits 10 d.digits).length)
  have hread := Decimal.readNumeral?_point hne hfront hback
  rw [heq] at htext
  obtain ⟨c, cs, rfl⟩ := List.exists_cons_of_ne_nil hne
  obtain ⟨hc, hcs⟩ := List.forall_mem_cons.1 hfront
  refine reread_of_numeral htext hc (fun a ha => ?_) hread ?_
  · rcases List.mem_append.1 ha with ha | ha
    · exact .inl (hcs a ha)
    · rcases List.mem_cons.1 ha with rfl | ha
      · exact .inr rfl
      · exact .inl (hback a ha)
  · apply Decimal.Scientific.toFloat_eq hx
    rw [hvalue, add_sub_cancel_right]
    exact hd

/-- The sign of a negative exponent ends the word. -/
theorem not_reread_of_scientific {n : Nat} {exponent : Int} (hneg : exponent < 0)
    (htext : text x = String.ofList (exactNotation.scientific (Nat.toDigits 10 n) exponent)) :
    ¬ Reread x := by
  obtain ⟨c, cs, rest, hc, hcs, heq⟩ := exactNotation.scientific_of_neg n hneg
  have hword : Lexeme.IsWord (c :: (cs ++ ['e'])) := by
    refine isWord_of_digit hc fun a ha => ?_
    rcases List.mem_append.1 ha with ha | ha
    · exact continuesWord_of_numeral (hcs a ha)
    · rw [List.mem_singleton.1 ha]
      decide +kernel
  have hminus : text x = String.ofList (c :: (cs ++ ['e']) ++ '-' :: rest) := by
    rw [htext, heq]
    simp
  exact not_reread_of_minus hminus hword

/-- A fraction is reread when its shortest decimal is not too small to be written without an
exponent. -/
theorem reread_fraction (hx : x.toModel.unpack = .finite .positive m e hm) (h : toInt? x = none) :
    Reread x ↔ (10 : ℚ) ^ (-4 : ℤ) ≤ (Decimal.Binary.ofBits x.toBits).shortest.value := by
  have htext := text_of_fraction hx h
  have hround := Decimal.Binary.roundsTo_shortest_ofBits hx
  generalize (Decimal.Binary.ofBits x.toBits).shortest = d at htext hround
  have hdigits := Decimal.Scientific.digits_pos (canonical_of_unpack hx) hround
  rw [← Decimal.Scientific.le_leading_iff hdigits]
  constructor
  · intro hreread
    by_contra hlow
    rw [Decimal.Notation.layout, if_neg (fun h => hlow h.1)] at htext
    exact not_reread_of_scientific (by omega) htext hreread
  · intro hlow
    rw [Decimal.Notation.layout, if_pos ⟨hlow, leading_of_fraction hx h hround⟩,
      sub_add_cancel] at htext
    exact reread_of_positional hx hround htext

theorem le_iff_of_finite {y : Float} {n : Nat} {f : Int} {hn : 0 < n}
    (hx : x.toModel.unpack = .finite .positive m e hm)
    (hy : y.toModel.unpack = .finite .positive n f hn) :
    x ≤ y ↔ e < f ∨ e = f ∧ m ≤ n := by
  have hle : x ≤ y ↔ UnpackedFloat.le x.toModel.unpack y.toModel.unpack = true :=
    decide_eq_true_iff
  rw [hle, hx, hy]
  show ((compare e f).then (compare m n)).isLE = true ↔ _
  rw [Ordering.isLE_then_iff_or, compare_lt_iff_lt, compare_eq_iff_eq, Nat.isLE_compare]

theorem unpack_least : (0.0001 : Float).toModel.unpack =
    .finite .positive 7378697629483821 (-66) (by decide) := rfl

theorem RoundsTo.lt_least {q : ℚ} (hc : Canonical m e) (h : RoundsTo m e q)
    (hbelow : e < -66 ∨ e = -66 ∧ m < 7378697629483821) : q < 10 ^ (-4 : ℤ) := by
  rcases hbelow with hlt | ⟨rfl, hlt⟩
  · calc q < 2 ^ (e + 53) := h.lt_zpow hc
      _ ≤ 2 ^ (-14 : ℤ) := zpow_le_zpow_right₀ one_le_two (by omega)
      _ < 10 ^ (-4 : ℤ) := by norm_num
  · have hm : (m : ℚ) ≤ 7378697629483820 := by exact_mod_cast Nat.le_of_lt_succ hlt
    calc q ≤ (m + 1 / 2) * 2 ^ (-66 : ℤ) := h.le
      _ ≤ (7378697629483820 + 1 / 2) * 2 ^ (-66 : ℤ) :=
        mul_le_mul_of_nonneg_right (by linarith) (two_zpow_pos _).le
      _ < 10 ^ (-4 : ℤ) := by norm_num

theorem RoundsTo.least_lt {q : ℚ} (hc : Canonical m e) (h : RoundsTo m e q)
    (habove : -66 < e ∨ e = -66 ∧ 7378697629483821 < m) : 10 ^ (-4 : ℤ) < q := by
  rcases habove with hlt | ⟨rfl, hlt⟩
  · have hm : (0x10000000000000 : ℚ) ≤ m := by
      exact_mod_cast hc.full.resolve_right (by omega)
    calc (10 : ℚ) ^ (-4 : ℤ) < (0x10000000000000 - 1 / 2) * 2 ^ (-65 : ℤ) := by norm_num
      _ ≤ (m - 1 / 2) * 2 ^ e :=
        mul_le_mul (by linarith) (zpow_le_zpow_right₀ one_le_two (by omega)) (by positivity)
          (by linarith)
      _ ≤ q := h.half_le
  · have hm : (7378697629483822 : ℚ) ≤ m := by exact_mod_cast hlt
    calc (10 : ℚ) ^ (-4 : ℤ) < (7378697629483822 - 1 / 2) * 2 ^ (-66 : ℤ) := by norm_num
      _ ≤ (m - 1 / 2) * 2 ^ (-66 : ℤ) :=
        mul_le_mul_of_nonneg_right (by linarith) (two_zpow_pos _).le
      _ ≤ q := h.half_le

/-- The shortest decimals keep the side of `0.0001` that their numbers are on. -/
theorem le_shortest_iff (hx : x.toModel.unpack = .finite .positive m e hm) :
    (10 : ℚ) ^ (-4 : ℤ) ≤ (Decimal.Binary.ofBits x.toBits).shortest.value ↔
      (0.0001 : Float) ≤ x := by
  have hc := canonical_of_unpack hx
  have hround := Decimal.Binary.roundsTo_shortest_ofBits hx
  rw [le_iff_of_finite unpack_least hx]
  constructor
  · intro hten
    by_contra hless
    exact hten.not_gt (hround.lt_least hc (by omega))
  · intro habove
    -- decimals just below `0.0001` round to it as well, so its shortest one is computed
    by_cases hleast : e = -66 ∧ m = 7378697629483821
    · obtain ⟨rfl, rfl⟩ := hleast
      obtain rfl := eq_of_unpack (hx.trans unpack_least.symm) (by rw [hx]; nofun)
      have hshortest : (Decimal.Binary.ofBits (0.0001 : Float).toBits).shortest = ⟨1, -4⟩ := by
        decide +kernel
      rw [hshortest, Decimal.Scientific.value, Nat.cast_one, one_mul]
    · exact (hround.least_lt hc (by omega)).le

end

end Number

/-- A number that is written in a text is reread from its own text if and only if it is finite,
and whole or no less than `0.0001`. -/
theorem literal_reread_iff {word : List Char} {x : Float}
    (h : Token.Kind.ofWord word = .number x) :
    Number.Reread x ↔ x.isFinite = true ∧ ((Number.toInt? x).isSome = true ∨ 0.0001 ≤ x) := by
  have hfinite : x.isFinite = x.toModel.unpack.isFinite := rfl
  obtain hx | hx | hx | ⟨m, e, hm, hx⟩ :=
    Number.cases_of_positive (Token.Kind.unsigned_of_ofWord h)
  · rw [hfinite, hx]
    exact iff_of_false (Number.not_reread_of_nan hx) nofun
  · rw [hfinite, hx]
    exact iff_of_false (Number.not_reread_of_infinity hx) nofun
  · have hint := Number.toInt?_of_zero hx
    have hzero : (0.0 : Float).toModel.unpack = .zero .positive := rfl
    obtain rfl := Number.eq_of_unpack (hx.trans hzero.symm) (by rw [hx]; nofun)
    rw [hint]
    exact iff_of_true (Number.reread_of_digits hint rfl) ⟨rfl, .inl rfl⟩
  · rw [hfinite, hx, ← Number.le_shortest_iff hx]
    cases hint : Number.toInt? x with
    | some n => exact iff_of_true (Number.reread_of_whole hx hint) ⟨rfl, .inl rfl⟩
    | none =>
        rw [Number.reread_fraction hx hint]
        exact ⟨fun hle => ⟨rfl, .inr hle⟩, fun hle => hle.2.resolve_left nofun⟩

theorem literal_reread_iff_least :
    Token.Kind.ofWord "0.0001".toList = .number 0.0001 ∧ Number.Reread 0.0001 := by
  have hword : Token.Kind.ofWord "0.0001".toList = .number 0.0001 := by decide +kernel
  exact ⟨hword, (literal_reread_iff hword).2 ⟨by decide +kernel, .inr (by decide +kernel)⟩⟩

/-- A number below the least one, and one that is too large to be finite. -/
theorem literals_not_reread :
    (Token.Kind.ofWord "0.0000001".toList = .number 0.0000001 ∧ ¬ Number.Reread 0.0000001) ∧
      (Token.Kind.ofWord "1e999".toList = .number (1.0 / 0.0) ∧ ¬ Number.Reread (1.0 / 0.0)) := by
  refine ⟨⟨by decide +kernel, ?_⟩, by decide +kernel, Number.not_reread_of_infinity rfl⟩
  have htext : Number.text 0.0000001 = String.ofList (['1', 'e'] ++ '-' :: ['0', '7']) := by
    decide +kernel
  exact Number.not_reread_of_minus htext (by decide +kernel)

end Pseudocode

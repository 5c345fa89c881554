import Pseudocode.Proofs.Numerals

/-!
# The value of a number

A finite number is a rational. The bits of a number tell whether it is whole, and then which
integer it is. A negative number is the number of the same mantissa and exponent with its
sign changed.
-/
namespace Pseudocode.Number
open Float.Model Float.Model.UnpackedFloat

def value? (x : Float) : Option ℚ :=
  match x.toModel.unpack with
  | finite sign m e _ => some (((sign.apply m : ℤ) : ℚ) * 2 ^ e)
  | zero _ => some 0
  | infinity _ | notANumber => none

theorem isNegative_iff_unpackSign (x : Float) : isNegative x = true ↔
    @unpackSign Format.binary64 x.toModel.toBits.toBitVec = 1#1 := by
  rw [isNegative, decide_eq_true_iff, ← UInt64.toNat_inj, UInt64.toNat_shiftRight,
    Nat.shiftRight_eq_div_pow, ← BitVec.toNat_inj, toNat_unpackSign]
  rfl

theorem ofBitVec_eq_negative {b : BitVec 1} : Sign.ofBitVec b = .negative ↔ b = 1#1 := by
  constructor
  · intro h
    exact ofBitVec_inj (b := 1#1) h
  · rintro rfl
    rfl

section
variable {x : Float} {sign : Sign} {m : Nat} {e : Int} {hm : 0 < m}

theorem isNegative_iff (hx : x.toModel.unpack = .finite sign m e hm) :
    isNegative x = true ↔ sign = .negative := by
  rw [isNegative_iff_unpackSign, ← ofBitVec_eq_negative]
  rcases unpack_cases x.toModel.toBits.toBitVec with
    ⟨-, -, hu⟩ | ⟨-, hu⟩ | ⟨-, -, hu⟩ | ⟨-, _, hu⟩ | ⟨-, -, _, hu⟩
  all_goals
    have hu := hx.symm.trans hu
    cases hu
  all_goals rfl

theorem value?_of_unpack (hx : x.toModel.unpack = .finite sign m e hm) :
    value? x = some (((sign.apply m : ℤ) : ℚ) * 2 ^ e) := by
  rw [value?, hx]

theorem not_isNaN_or_isInf (hx : x.toModel.unpack = .finite sign m e hm) :
    (x.isNaN || x.isInf) = false := by
  show (x.toModel.unpack.isNaN || x.toModel.unpack.isInf) = false
  rw [hx]
  rfl

theorem exists_value? (h : (x.isNaN || x.isInf) = false) : ∃ q, value? x = some q := by
  change (x.toModel.unpack.isNaN || x.toModel.unpack.isInf) = false at h
  unfold value?
  cases hx : x.toModel.unpack with
  | finite sign m e hm => exact ⟨_, rfl⟩
  | zero sign => exact ⟨_, rfl⟩
  | infinity sign =>
      rw [hx] at h
      cases h
  | notANumber =>
      rw [hx] at h
      cases h

theorem exists_unpack {q : ℚ} (h : value? x = some q) (hq : q ≠ 0) :
    ∃ sign m e hm, x.toModel.unpack = .finite sign m e hm := by
  unfold value? at h
  cases hx : x.toModel.unpack with
  | finite sign m e hm => exact ⟨sign, m, e, hm, rfl⟩
  | zero sign =>
      rw [hx] at h
      exact absurd (Option.some.inj h).symm hq
  | infinity sign =>
      rw [hx] at h
      cases h
  | notANumber =>
      rw [hx] at h
      cases h

theorem text_of_isNaN (h : x.isNaN = true) : text x = "NaN" := by
  have hint : toInt? x = none := if_pos (by rw [h, Bool.true_or])
  simp only [text, hint, h, if_true]

theorem text_of_isInf (hnan : x.isNaN = false) (h : x.isInf = true) :
    text x = if isNegative x then "-inf" else "inf" := by
  have hint : toInt? x = none := if_pos (by rw [h, Bool.or_true])
  simp only [text, hint, hnan, exactText, Decimal.Notation.write, h, Bool.false_eq_true, if_false,
    if_true, isNegative, decide_eq_true_iff]
  split <;> rfl

/-- The number without its sign. -/
theorem exists_neg (hx : x.toModel.unpack = .finite .negative m e hm) :
    ∃ y : Float, y.toModel.unpack = .finite .positive m e hm ∧ -y = x := by
  have hc := canonical_of_unpack hx
  have hy : (Float.ofModel (.pack (.finite .positive m e hm))).toModel.unpack =
      .finite .positive m e hm := unpack_pack hc .positive
  refine ⟨_, hy, ?_⟩
  show Float.ofModel (.pack (UnpackedFloat.neg
    (Float.ofModel (.pack (.finite .positive m e hm))).toModel.unpack)) = x
  rw [hy]
  exact ofModel_pack hx

theorem toInt?_of_unpack (hx : x.toModel.unpack = .finite sign m e hm) :
    toInt? x = if m % 2 ^ (-e).toNat = 0 then
      some (sign.apply (m * 2 ^ e.toNat / 2 ^ (-e).toNat : ℕ)) else none := by
  obtain ⟨-, hmantissa, hexponent⟩ := Decimal.Binary.ofBits_of_unpack hx
  have hsign : ∀ k : ℕ, (if isNegative x = true then -(k : ℤ) else k) = sign.apply k := by
    intro k
    have hnegative := isNegative_iff hx
    cases sign with
    | negative => exact if_pos (hnegative.2 rfl)
    | positive =>
        refine if_neg fun h => ?_
        cases hnegative.1 h
  simp only [toInt?, not_isNaN_or_isInf hx, hmantissa, hexponent, Decimal.twoTo, Nat.pow_eq, hsign,
    Bool.false_eq_true, if_false]

end

section
variable {m : Nat} {e : Int}

/-- The quotient that a whole number is. -/
theorem cast_quotient (h : m % 2 ^ (-e).toNat = 0) :
    ((m * 2 ^ e.toNat / 2 ^ (-e).toNat : ℕ) : ℚ) = m * 2 ^ e := by
  have hdvd : 2 ^ (-e).toNat ∣ m * 2 ^ e.toNat := (Nat.dvd_of_mod_eq_zero h).mul_right _
  have hscaled : ((m * 2 ^ e.toNat / 2 ^ (-e).toNat : ℕ) : ℚ) * 2 ^ (-e).toNat =
      m * 2 ^ e * 2 ^ (-e).toNat := by
    rw [mul_assoc, Decimal.zpow_mul_pow_neg two_ne_zero]
    exact_mod_cast Nat.div_mul_cancel hdvd
  exact mul_right_cancel₀ (by positivity) hscaled

theorem mod_of_whole {k : ℕ} (h : (m : ℚ) * 2 ^ e = k) : m % 2 ^ (-e).toNat = 0 := by
  have hscaled : m * 2 ^ e.toNat = k * 2 ^ (-e).toNat := by
    have hcast : (m : ℚ) * 2 ^ e.toNat = k * 2 ^ (-e).toNat := by
      rw [← h, mul_assoc, Decimal.zpow_mul_pow_neg two_ne_zero]
    exact_mod_cast hcast
  -- one of the two powers is one
  rcases le_or_gt 0 e with he | he
  · rw [show (-e).toNat = 0 by omega, pow_zero, Nat.mod_one]
  · rw [show e.toNat = 0 by omega, pow_zero, mul_one] at hscaled
    rw [hscaled, Nat.mul_mod_left]

end

/-- A sign may be moved to the other side. -/
theorem apply_mul_eq_iff (sign : Sign) (m : ℕ) (q : ℚ) (n : ℤ) :
    ((sign.apply m : ℤ) : ℚ) * q = n ↔ (m : ℚ) * q = (sign.apply n : ℤ) := by
  cases sign with
  | positive => exact Iff.rfl
  | negative =>
      simp only [Sign.apply, Int.cast_neg, Int.cast_natCast]
      rw [neg_mul, neg_eq_iff_eq_neg]

theorem apply_apply (sign : Sign) (n : ℤ) : sign.apply (sign.apply n) = n := by
  cases sign with
  | positive => rfl
  | negative => exact neg_neg n

/-- A number is found to be whole exactly if its value is an integer, and then it is found to be
that integer. -/
theorem toInt?_eq_some_iff {x : Float} {n : Int} : toInt? x = some n ↔ value? x = some (n : ℚ) := by
  have hnone : (x.toModel.unpack.isNaN || x.toModel.unpack.isInf) = true → toInt? x = none :=
    fun h => if_pos h
  cases hx : x.toModel.unpack with
  | notANumber =>
      rw [hnone (by rw [hx]; rfl), value?, hx]
      exact iff_of_false (fun h => by cases h) fun h => by cases h
  | infinity sign =>
      rw [hnone (by rw [hx]; rfl), value?, hx]
      exact iff_of_false (fun h => by cases h) fun h => by cases h
  | zero sign =>
      rw [toInt?_of_zero hx, value?, hx, Option.some_inj, Option.some_inj]
      exact_mod_cast Iff.rfl
  | finite sign m e hm =>
      rw [toInt?_of_unpack hx, value?_of_unpack hx, Option.some_inj, apply_mul_eq_iff]
      constructor
      · intro h
        split at h
        · rename_i hmod
          cases h
          rw [apply_apply, Int.cast_natCast, cast_quotient hmod]
        · cases h
      · intro h
        have hnonneg : 0 ≤ sign.apply n := by
          have hcast : (0 : ℚ) ≤ (sign.apply n : ℤ) := by
            rw [← h]
            positivity
          exact_mod_cast hcast
        obtain ⟨k, hk⟩ := Int.eq_ofNat_of_zero_le hnonneg
        rw [hk, Int.cast_natCast] at h
        have hmod := mod_of_whole h
        have hquotient : m * 2 ^ e.toNat / 2 ^ (-e).toNat = k := by
          have hcast := cast_quotient hmod
          rw [h] at hcast
          exact_mod_cast hcast
        rw [if_pos hmod, hquotient, ← hk, apply_apply]

end Pseudocode.Number

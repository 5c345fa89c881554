import Pseudocode.Proofs.Rounding

/-!
# Reading decimals

A decimal is read as the number that it rounds to. The reader multiplies or divides digits by
a power of ten. It rounds once, since where it takes two steps, the digits and the power are
numbers themselves.
-/
namespace Pseudocode.Number
open Float.Model Float.Model.UnpackedFloat

section
variable {M m₁ m₂ : Nat} {E e₁ e₂ : Int} (h₁ : 0 < m₁) (h₂ : 0 < m₂) (hc : Canonical M E)

theorem mul_eq (hq : RoundsTo M E (m₁ * 2 ^ e₁ * (m₂ * 2 ^ e₂))) (hfull : 52 ≤ (m₁ * m₂).log2) :
    UnpackedFloat.mul Format.binary64 (.finite .positive m₁ e₁ h₁) (.finite .positive m₂ e₂ h₂) =
      .finite .positive M E hc.pos := by
  refine roundWithAccuracy_eq hc hq ?_ (.inl hfull) .positive
  have hvalue : (m₁ * 2 ^ e₁ * (m₂ * 2 ^ e₂) / 2 ^ (e₁ + e₂) : ℚ) = (m₁ * m₂ : ℕ) := by
    rw [zpow_add₀ two_ne_zero]
    have := (two_zpow_pos e₁).ne'
    have := (two_zpow_pos e₂).ne'
    push_cast
    field_simp
  rw [hvalue]
  exact represents_exact _

include h₁ h₂ in
/-- A quotient is taken to enough places. -/
theorem log2_quotient {t : Int}
    (ht : t = min (e₁ - e₂) (max ((m₁.log2 : Int) + e₁ - (m₂.log2 + e₂) - 53) (-1074))) :
    52 ≤ ((m₁ <<< (e₁ - e₂ - t).toNat) / m₂).log2 ∨ t ≤ -1074 := by
  rcases le_or_gt t (-1074) with hle | hgt
  · exact .inr hle
  · left
    have hplaces : m₂.log2 + 53 ≤ m₁.log2 + (e₁ - e₂ - t).toNat := by omega
    have hquotient : 2 ^ 52 ≤ (m₁ <<< (e₁ - e₂ - t).toNat) / m₂ := by
      rw [Nat.le_div_iff_mul_le h₂, Nat.shiftLeft_eq]
      calc 2 ^ 52 * m₂ ≤ 2 ^ 52 * 2 ^ (m₂.log2 + 1) := Nat.mul_le_mul_left _ Nat.lt_log2_self.le
        _ = 2 ^ (m₂.log2 + 53) := by ring
        _ ≤ 2 ^ (m₁.log2 + (e₁ - e₂ - t).toNat) := Nat.pow_le_pow_right two_pos hplaces
        _ = 2 ^ m₁.log2 * 2 ^ (e₁ - e₂ - t).toNat := Nat.pow_add ..
        _ ≤ m₁ * 2 ^ (e₁ - e₂ - t).toNat := Nat.mul_le_mul_right _ (Nat.log2_self_le h₁.ne')
    have hpos := (Nat.two_pow_pos 52).trans_le hquotient
    exact (Nat.le_log2 hpos.ne').2 hquotient

theorem div_eq (hq : RoundsTo M E (m₁ * 2 ^ e₁ / (m₂ * 2 ^ e₂))) :
    UnpackedFloat.div Format.binary64 (.finite .positive m₁ e₁ h₁) (.finite .positive m₂ e₂ h₂) =
      .finite .positive M E hc.pos := by
  obtain ⟨t, ht⟩ : ∃ t, t = min (e₁ - e₂)
    (max ((m₁.log2 : Int) + e₁ - (m₂.log2 + e₂) - 53) (-1074)) := ⟨_, rfl⟩
  have hcore : divCore Format.binary64 m₁ e₁ m₂ e₂ =
      ((m₁ <<< (e₁ - e₂ - t).toNat) / m₂, t,
        accuracyOfFraction ((m₁ <<< (e₁ - e₂ - t).toNat) % m₂) m₂) := by
    have htarget : min (e₁ - e₂) (Format.binary64.targetExponent
        (totalExponent m₁ e₁ - totalExponent m₂ e₂)) = t := by
      rw [ht]
      show min (e₁ - e₂) (max ((m₁.log2 : Int) + 1 + e₁ - ((m₂.log2 : Int) + 1 + e₂) - (53 : Nat))
        (3 - 2 ^ 10 - (53 : Nat))) = _
      omega
    unfold divCore
    rw [htarget]
  show (let (m, e, accuracy) := divCore Format.binary64 m₁ e₁ m₂ e₂
    roundWithAccuracy Format.binary64 .positive m e accuracy) = _
  rw [hcore]
  refine roundWithAccuracy_eq hc hq ?_ (log2_quotient h₁ h₂ ht) .positive
  have hshift : ((e₁ - e₂ - t).toNat : Int) = e₁ - e₂ - t := by omega
  have hvalue : (m₁ * 2 ^ e₁ / (m₂ * 2 ^ e₂) / 2 ^ t : ℚ) =
      (m₁ <<< (e₁ - e₂ - t).toNat : ℕ) / m₂ := by
    have hpower : (2 : ℚ) ^ (e₁ - e₂ - t).toNat = 2 ^ e₁ / 2 ^ e₂ / 2 ^ t := by
      rw [← zpow_natCast, hshift, zpow_sub₀ two_ne_zero, zpow_sub₀ two_ne_zero]
    rw [Nat.shiftLeft_eq]
    push_cast
    rw [hpower]
    have := (two_zpow_pos e₂).ne'
    have := (two_zpow_pos t).ne'
    have : (m₂ : ℚ) ≠ 0 := by exact_mod_cast h₂.ne'
    field_simp
  rw [hvalue]
  exact represents_quotient _ h₂

end

theorem roundsTo_self {m : Nat} (e : Int) : RoundsTo m e (m * 2 ^ e) := by
  have hpos := two_zpow_pos e
  refine ⟨.inl ?_, .inl ?_⟩ <;> apply mul_lt_mul_of_pos_right _ hpos
  · split <;> linarith
  · linarith

/-- Numerals of up to fifteen digits, and a little more, are numbers. -/
theorem unpack_toFloat {n : Nat} (hpos : 0 < n) (hn : n < 0x20000000000000) :
    ∃ m e hm, n.toUInt64.toFloat.toModel.unpack = .finite .positive m e hm ∧ 52 ≤ m.log2 ∧
      (m : ℚ) * 2 ^ e = n := by
  have hlog : n.log2 < 53 := (Nat.log2_lt hpos.ne').2 hn
  have hle : 2 ^ 52 ≤ n <<< (52 - n.log2) := by
    rw [Nat.shiftLeft_eq]
    calc 2 ^ 52 = 2 ^ n.log2 * 2 ^ (52 - n.log2) := by rw [← Nat.pow_add]; congr 1; omega
      _ ≤ n * 2 ^ (52 - n.log2) := Nat.mul_le_mul_right _ (Nat.log2_self_le hpos.ne')
  have hlt : n <<< (52 - n.log2) < 2 ^ 53 := by
    rw [Nat.shiftLeft_eq]
    calc n * 2 ^ (52 - n.log2) < 2 ^ (n.log2 + 1) * 2 ^ (52 - n.log2) :=
          Nat.mul_lt_mul_of_pos_right Nat.lt_log2_self (Nat.two_pow_pos _)
      _ = 2 ^ 53 := by rw [← Nat.pow_add]; congr 1; omega
  have hc : Canonical (n <<< (52 - n.log2)) (n.log2 - 52) :=
    ⟨(Nat.two_pow_pos 52).trans_le hle, hlt, by omega, by omega, .inl hle⟩
  have hvalue : ((n <<< (52 - n.log2) : ℕ) : ℚ) * 2 ^ ((n.log2 : Int) - 52) = n := by
    have hpower : (2 : ℚ) ^ (52 - n.log2) * 2 ^ ((n.log2 : Int) - 52) = 1 := by
      rw [← zpow_natCast, ← zpow_add₀ two_ne_zero, Nat.cast_sub (by omega)]
      simp
    rw [Nat.shiftLeft_eq]
    push_cast
    rw [mul_assoc, hpower, mul_one]
  refine ⟨_, _, hc.pos, ?_, (Nat.le_log2 hc.pos.ne').2 hle, hvalue⟩
  have hnat : n.toUInt64.toNat = n := Nat.mod_eq_of_lt (by omega)
  have hround : UnpackedFloat.ofUInt64 Format.binary64 n.toUInt64 =
      .finite .positive (n <<< (52 - n.log2)) (n.log2 - 52) hc.pos := by
    have hshift : (0 - Format.binary64.targetExponent (totalExponent n 0)).toNat =
        52 - n.log2 := by
      rw [targetExponent_eq]
      omega
    show UnpackedFloat.normalize Format.binary64 (n.toUInt64.toNat : Int) 0 .positive = _
    rw [hnat]
    unfold UnpackedFloat.normalize
    rw [show compare (n : Int) 0 = .gt from Int.compare_eq_gt.2 (by omega)]
    show roundWithAccuracy Format.binary64 .positive
      (n <<< (0 - Format.binary64.targetExponent (totalExponent n 0)).toNat)
      (0 - ((0 - Format.binary64.targetExponent (totalExponent n 0)).toNat : Int)) .exact = _
    rw [hshift, show (0 : Int) - ((52 - n.log2 : ℕ) : Int) = n.log2 - 52 by omega]
    refine roundWithAccuracy_eq hc (roundsTo_self _) ?_
      (.inl ((Nat.le_log2 hc.pos.ne').2 hle)) .positive
    rw [mul_div_cancel_right₀ _ (two_zpow_pos _).ne']
    exact represents_exact _
  show UnpackedFloat.unpack Format.binary64 (UnpackedFloat.pack Format.binary64
    (UnpackedFloat.ofUInt64 Format.binary64 n.toUInt64)) = _
  rw [hround]
  exact unpack_pack hc .positive

/-- Powers of ten as far as the mantissa holds their powers of five. -/
theorem unpack_powerOfTen {k : Nat} (hk : k < Float.exactlyRepresentablePowersOfTen.size) :
    ∃ m e hm, (Float.exactlyRepresentablePowersOfTen[k]).toModel.unpack =
      .finite .positive m e hm ∧ (m : ℚ) * 2 ^ e = 10 ^ k := by
  have hall : ∀ i : Fin 23,
      let b : BitVec Format.binary64.numBits :=
        (Float.exactlyRepresentablePowersOfTen[i]).toModel.toBits.toBitVec
      unpackSign b = 0#1 ∧ unpackExponent b ≠ -1#11 ∧ unpackExponent b ≠ 0#11 ∧
        (0x10000000000000 + (unpackMantissa b).toNat) * 2 ^ (unpackExponent b).toNat =
          10 ^ i.val * 2 ^ 1075 := by
    decide +kernel
  obtain ⟨hsign, hone, hzero, hvalue⟩ := hall ⟨k, hk⟩
  change ∃ m e hm, UnpackedFloat.unpack Format.binary64
    (Float.exactlyRepresentablePowersOfTen[(⟨k, hk⟩ : Fin 23)]).toModel.toBits.toBitVec =
      .finite .positive m e hm ∧ (m : ℚ) * 2 ^ e = 10 ^ k
  generalize (Float.exactlyRepresentablePowersOfTen[(⟨k, hk⟩ : Fin 23)]).toModel.toBits.toBitVec =
    b at hsign hone hzero hvalue
  obtain ⟨hm, hu⟩ := unpack_of_exponent hone hzero
  rw [hsign] at hu
  refine ⟨_, _, hm, hu, ?_⟩
  have hcast := congrArg (Nat.cast : ℕ → ℚ) hvalue
  simp only [Nat.cast_mul, Nat.cast_add, Nat.cast_pow, Nat.cast_ofNat] at hcast
  rw [zpow_sub₀ two_ne_zero, zpow_natCast, ← mul_div_assoc, div_eq_iff (by positivity)]
  simp only [Nat.cast_add, Nat.cast_ofNat]
  exact hcast

section
variable {x : Float} {m : Nat} {e : Int} {hm : 0 < m} {q : ℚ}

theorem RoundsTo.lt_infinite (hc : Canonical m e) (h : RoundsTo m e q) : q < 2 ^ (1024 : ℤ) := by
  refine (h.lt_zpow hc).trans_le (zpow_le_zpow_right₀ one_le_two ?_)
  have := hc.greatest
  omega

theorem RoundsTo.least_le (hc : Canonical m e) (h : RoundsTo m e q) : 2 ^ (-1075 : ℤ) ≤ q := by
  have hone : (1 : ℚ) ≤ m := by exact_mod_cast hc.pos
  calc (2 : ℚ) ^ (-1075 : ℤ) = 1 / 2 * 2 ^ (-1074 : ℤ) := by
        rw [show (-1075 : ℤ) = -1 + -1074 by norm_num, zpow_add₀ two_ne_zero]
        norm_num
    _ ≤ 1 / 2 * 2 ^ e := by
        apply mul_le_mul_of_nonneg_left _ (by norm_num)
        exact zpow_le_zpow_right₀ one_le_two hc.least
    _ ≤ (m - 1 / 2) * 2 ^ e := mul_le_mul_of_nonneg_right (by linarith) (two_zpow_pos e).le
    _ ≤ q := h.half_le

theorem zpow_le_decimal {digits : Nat} {k : Int} (hpos : 0 < digits) (hk : 0 ≤ k) :
    (2 : ℚ) ^ (digits.log2 + 3 * k) ≤ digits * 10 ^ k := by
  have hlog : ((2 ^ digits.log2 : ℕ) : ℚ) ≤ digits := by exact_mod_cast Nat.log2_self_le hpos.ne'
  have hten : (2 : ℚ) ^ (3 * k) ≤ 10 ^ k := by
    rw [zpow_mul]
    exact zpow_le_zpow_left₀ hk (by norm_num) (by norm_num)
  rw [zpow_add₀ two_ne_zero, zpow_natCast]
  push_cast at hlog
  exact mul_le_mul hlog hten (two_zpow_pos _).le (Nat.cast_nonneg _)

theorem decimal_lt_zpow {digits : Nat} {k : Int} (hk : k ≤ 0) :
    digits * 10 ^ k < (2 : ℚ) ^ (digits.log2 + 1 + 3 * k) := by
  have hlog : (digits : ℚ) < (2 ^ (digits.log2 + 1) : ℕ) := by exact_mod_cast Nat.lt_log2_self
  have hten : (10 : ℚ) ^ k ≤ 2 ^ (3 * k) := by
    have hinv : (2 : ℚ) ^ (3 * -k) ≤ 10 ^ (-k) := by
      rw [zpow_mul]
      exact zpow_le_zpow_left₀ (by omega) (by norm_num) (by norm_num)
    rw [mul_neg, zpow_neg, zpow_neg] at hinv
    exact (inv_le_inv₀ (two_zpow_pos _) (zpow_pos (by norm_num) _)).1 hinv
  have hpower : (2 : ℚ) ^ ((digits.log2 : ℤ) + 1 + 3 * k) =
      (2 ^ (digits.log2 + 1) : ℕ) * 2 ^ (3 * k) := by
    rw [zpow_add₀ two_ne_zero]
    push_cast
    rw [← zpow_natCast]
    push_cast
    rfl
  rw [hpower]
  exact (mul_le_mul_of_nonneg_left hten (Nat.cast_nonneg _)).trans_lt
    (mul_lt_mul_of_pos_right hlog (two_zpow_pos _))

/-- A decimal in two steps: the digits are a number, and so is the power of ten. -/
theorem ofScientific_of_small (hx : x.toModel.unpack = .finite .positive m e hm) {digits k : Nat}
    (hpos : 0 < digits) (hd : digits < 0x20000000000000)
    (hk : k < Float.exactlyRepresentablePowersOfTen.size) :
    (RoundsTo m e (digits / 10 ^ k) →
      digits.toUInt64.toFloat / Float.exactlyRepresentablePowersOfTen[k] = x) ∧
    (RoundsTo m e (digits * 10 ^ k) →
      digits.toUInt64.toFloat * Float.exactlyRepresentablePowersOfTen[k] = x) := by
  have hc := canonical_of_unpack hx
  obtain ⟨m₁, e₁, h₁, hu₁, hlog, hvalue₁⟩ := unpack_toFloat hpos hd
  obtain ⟨m₂, e₂, h₂, hu₂, hvalue₂⟩ := unpack_powerOfTen hk
  rw [← hvalue₁, ← hvalue₂, ← ofModel_pack hx]
  constructor
  · intro hq
    show Float.ofModel (.pack (UnpackedFloat.div Format.binary64 _ _)) = _
    rw [hu₁, hu₂, div_eq h₁ h₂ hc hq]
  · intro hq
    have hfull : 52 ≤ (m₁ * m₂).log2 := by
      have hle := (Nat.le_log2 h₁.ne').1 hlog
      exact (Nat.le_log2 (Nat.mul_pos h₁ h₂).ne').2 (hle.trans (Nat.le_mul_of_pos_right m₁ h₂))
    show Float.ofModel (.pack (UnpackedFloat.mul Format.binary64 _ _)) = _
    rw [hu₁, hu₂, mul_eq h₁ h₂ hc hq hfull]

/-- A decimal in one step. -/
theorem ofScientific_of_large (hx : x.toModel.unpack = .finite .positive m e hm) {digits : Nat}
    {exponent : Int} (hpos : 0 < digits) (hq : RoundsTo m e (digits * 10 ^ exponent)) :
    Float.ofModel (Float.Model.ofScientific digits exponent) = x := by
  have hc := canonical_of_unpack hx
  have hnotLarge : ¬ exponent > 2 ^ 11 := by
    intro hlarge
    have hlt := (zpow_le_decimal hpos (by omega)).trans_lt (hq.lt_infinite hc)
    have := (zpow_lt_zpow_iff_right₀ one_lt_two).1 hlt
    omega
  have hnotSmall : ¬ exponent < -(2 ^ 11 + (digits.log2 : Int)) := by
    intro hsmall
    have hlt := (hq.least_le hc).trans_lt (decimal_lt_zpow (by omega))
    have := (zpow_lt_zpow_iff_right₀ one_lt_two).1 hlt
    omega
  have hround : UnpackedFloat.ofScientific Format.binary64 digits exponent =
      .finite .positive m e hm := by
    unfold UnpackedFloat.ofScientific
    rw [dif_neg hpos.ne', if_neg hnotLarge, if_neg hnotSmall]
    by_cases hk : 0 ≤ exponent
    · rw [if_pos hk]
      have hten : (10 : ℚ) ^ exponent = 10 ^ exponent.toNat := by
        rw [← zpow_natCast, Int.toNat_of_nonneg hk]
      refine mul_eq _ _ hc ?_ ?_
      · have hunit : (2 : ℚ) ^ Format.binary64.mantissaBits *
            2 ^ (-(Format.binary64.mantissaBits : Int)) = 1 := by
          rw [← zpow_natCast, ← zpow_add₀ two_ne_zero, add_neg_cancel, zpow_zero]
        rw [Nat.shiftLeft_eq, Nat.cast_mul, Nat.cast_pow, Nat.cast_ofNat, mul_assoc (digits : ℚ),
          hunit, mul_one, zpow_zero, mul_one, Nat.cast_pow, Nat.cast_ofNat, ← hten]
        exact hq
      · have hfull : 2 ^ 52 ≤ digits <<< Format.binary64.mantissaBits * 10 ^ exponent.toNat := by
          rw [Nat.shiftLeft_eq]
          calc 2 ^ 52 ≤ 1 * 2 ^ Format.binary64.mantissaBits * 1 := by decide
            _ ≤ digits * 2 ^ Format.binary64.mantissaBits * 10 ^ exponent.toNat :=
                Nat.mul_le_mul (Nat.mul_le_mul_right _ hpos) (Nat.one_le_pow _ _ (by decide))
        exact (Nat.le_log2 ((Nat.two_pow_pos 52).trans_le hfull).ne').2 hfull
    · rw [if_neg hk]
      have hten : (10 : ℚ) ^ exponent = 1 / 10 ^ (-exponent).toNat := by
        rw [← zpow_natCast, Int.toNat_of_nonneg (by omega), zpow_neg, one_div, inv_inv]
      refine div_eq _ _ hc ?_
      rw [zpow_zero, mul_one, mul_one, Nat.cast_pow, Nat.cast_ofNat, ← mul_one_div, ← hten]
      exact hq
  rw [← ofModel_pack hx, ← hround]
  rfl

/-- The decimal is read as the number that it rounds to. -/
theorem ofScientific_eq (hx : x.toModel.unpack = .finite .positive m e hm) {digits k : Nat}
    {negative : Bool} (hpos : 0 < digits)
    (hq : RoundsTo m e (digits * 10 ^ (if negative then -(k : Int) else k))) :
    Float.ofScientific digits negative k = x := by
  unfold Float.ofScientific
  split
  · rename_i hsmall
    have hsteps := ofScientific_of_small hx hpos hsmall.1 (Nat.lt_succ_of_le hsmall.2)
    cases negative with
    | true =>
        apply hsteps.1
        simpa [div_eq_mul_inv] using hq
    | false =>
        apply hsteps.2
        simpa using hq
  · cases negative with
    | true =>
        refine ofScientific_of_large hx hpos ?_
        rwa [if_pos rfl, Int.negOfNat_eq]
    | false => exact ofScientific_of_large hx hpos hq

end

end Pseudocode.Number

namespace Pseudocode.Decimal
open Float.Model Float.Model.UnpackedFloat Number

def Scientific.value (d : Scientific) : ℚ := d.digits * 10 ^ d.exponent

section
variable {m : Nat} {e : Int} {d : Scientific}

theorem Scientific.digits_pos (hc : Canonical m e) (hq : RoundsTo m e d.value) : 0 < d.digits := by
  rcases Nat.eq_zero_or_pos d.digits with hzero | hpos
  · have hle := hq.least_le hc
    rw [Scientific.value, hzero, Nat.cast_zero, zero_mul] at hle
    exact absurd (two_zpow_pos _) hle.not_gt
  · exact hpos

/-- A decimal is read as the number that it rounds to. -/
theorem Scientific.toFloat_eq {x : Float} {hm : 0 < m}
    (hx : x.toModel.unpack = .finite .positive m e hm) (hq : RoundsTo m e d.value) :
    d.toFloat = x := by
  have hc := canonical_of_unpack hx
  have hpos := digits_pos hc hq
  have hnotLarge : ¬ (0 ≤ d.exponent ∧ 1100 < (d.digits.log2 : Int) + 3 * d.exponent) := by
    rintro ⟨hk, hlarge⟩
    have hlt := (zpow_le_decimal hpos hk).trans_lt (hq.lt_infinite hc)
    have := (zpow_lt_zpow_iff_right₀ one_lt_two).1 hlt
    omega
  have hnotSmall : ¬ (d.exponent < 0 ∧ (d.digits.log2 : Int) + 3 * d.exponent < -1100) := by
    rintro ⟨hk, hsmall⟩
    have hlt := (hq.least_le hc).trans_lt (decimal_lt_zpow hk.le)
    have := (zpow_lt_zpow_iff_right₀ one_lt_two).1 hlt
    omega
  unfold Scientific.toFloat
  rw [if_neg hpos.ne', if_neg hnotLarge, if_neg hnotSmall]
  refine ofScientific_eq hx hpos ?_
  have hexponent : (if (decide (d.exponent < 0)) = true then -(d.exponent.natAbs : Int)
      else d.exponent.natAbs) = d.exponent := by
    simp only [decide_eq_true_eq]
    split <;> omega
  rw [hexponent]
  exact hq

end

end Pseudocode.Decimal

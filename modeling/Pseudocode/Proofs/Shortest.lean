import Pseudocode.Proofs.Reading

/-!
# The shortest decimal of a number

Every decimal that the search for the shortest one accepts rounds to the number, and so does
the exact value that it falls back on. So the number is read back from its shortest decimal.
-/
namespace Pseudocode.Decimal
open Float.Model Float.Model.UnpackedFloat Number

def Binary.value (x : Binary) : ℚ := x.mantissa * 2 ^ x.exponent

theorem zpow_mul_pow_neg {b : ℚ} (hb : b ≠ 0) (i : Int) :
    b ^ i * b ^ (-i).toNat = b ^ i.toNat := by
  rw [← zpow_natCast, ← zpow_natCast, ← zpow_add₀ hb]
  congr 1
  omega

section
variable (a : Nat) (i : Int) (n : Nat) (j : Int)

/-- Both sides of a comparison are scaled by the same power. -/
theorem exists_scale : ∃ c : ℚ, 0 < c ∧
    ((a * tenTo i.toNat * twoTo (-j).toNat : ℕ) : ℚ) = a * 10 ^ i * c ∧
    ((n * twoTo j.toNat * tenTo (-i).toNat : ℕ) : ℚ) = n * 2 ^ j * c := by
  refine ⟨10 ^ (-i).toNat * 2 ^ (-j).toNat, by positivity, ?_, ?_⟩
  · have hten := zpow_mul_pow_neg (b := 10) (by norm_num) i
    simp only [tenTo, twoTo, Nat.pow_eq]
    push_cast
    rw [← hten]
    ring
  · have htwo := zpow_mul_pow_neg (b := 2) (by norm_num) j
    simp only [tenTo, twoTo, Nat.pow_eq]
    push_cast
    rw [← htwo]
    ring

theorem compareScaled_eq_gt : compareScaled a i n j = .gt ↔ (n * 2 ^ j : ℚ) < a * 10 ^ i := by
  obtain ⟨c, hc, hleft, hright⟩ := exists_scale a i n j
  rw [compareScaled, Nat.compare_eq_gt, ← @Nat.cast_lt ℚ, hleft, hright,
    mul_lt_mul_iff_left₀ hc]

theorem compareScaled_eq_lt : compareScaled a i n j = .lt ↔ (a * 10 ^ i : ℚ) < n * 2 ^ j := by
  obtain ⟨c, hc, hleft, hright⟩ := exists_scale a i n j
  rw [compareScaled, Nat.compare_eq_lt, ← @Nat.cast_lt ℚ, hleft, hright,
    mul_lt_mul_iff_left₀ hc]

theorem compareScaled_eq_eq : compareScaled a i n j = .eq ↔ (a * 10 ^ i : ℚ) = n * 2 ^ j := by
  obtain ⟨c, hc, hleft, hright⟩ := exists_scale a i n j
  rw [compareScaled, Nat.compare_eq_eq, ← Nat.cast_inj (R := ℚ), hleft, hright,
    mul_left_inj' hc.ne']

end

/-- A binary number as the bits of a number tell it. -/
structure Binary.Proper (x : Binary) : Prop where
  canonical : Canonical x.mantissa x.exponent
  narrow : x.narrowBelow = true ↔ x.mantissa = 0x10000000000000 ∧ -1074 < x.exponent

/-- A decimal stands for the number that it rounds to. -/
theorem Binary.standsFor_iff {x : Binary} (hx : x.Proper) (d : Scientific) :
    x.standsFor d = true ↔ RoundsTo x.mantissa x.exponent d.value := by
  have hquarter : (2 : ℚ) ^ x.exponent = 4 * 2 ^ (x.exponent - 2) := by
    rw [zpow_sub₀ two_ne_zero]
    norm_num
    ring
  have hm := hx.canonical.pos
  have hlow : (((if x.narrowBelow then 4 * x.mantissa - 1 else 4 * x.mantissa - 2 : ℕ) : ℚ)) *
      2 ^ (x.exponent - 2) = (if x.mantissa = 0x10000000000000 ∧ -1074 < x.exponent then
        (x.mantissa : ℚ) - 1 / 4 else x.mantissa - 1 / 2) * 2 ^ x.exponent := by
    by_cases hnarrow : x.narrowBelow = true
    · rw [if_pos hnarrow, if_pos (hx.narrow.1 hnarrow), hquarter, Nat.cast_sub (by omega)]
      push_cast
      ring
    · rw [if_neg hnarrow, if_neg (fun h => hnarrow (hx.narrow.2 h)), hquarter,
        Nat.cast_sub (by omega)]
      push_cast
      ring
  have hhigh : ((4 * x.mantissa + 2 : ℕ) : ℚ) * 2 ^ (x.exponent - 2) =
      (x.mantissa + 1 / 2) * 2 ^ x.exponent := by
    rw [hquarter]
    push_cast
    ring
  simp only [standsFor, Bool.and_eq_true, Bool.or_eq_true, decide_eq_true_eq, compareScaled_eq_gt,
    compareScaled_eq_lt, compareScaled_eq_eq, hlow, hhigh]
  unfold RoundsTo Scientific.value
  simp only [eq_comm]

section
variable {x : Binary}

theorem Binary.standsFor_of_nearestAt {place : Int} {d : Scientific}
    (h : x.nearestAt place = some d) : x.standsFor d = true := by
  rw [nearestAt] at h
  split at h
  · cases h
  · rename_i hbelow _
    cases h
    exact hbelow
  · rename_i _ habove
    cases h
    exact habove
  · rename_i hbelow habove
    split at h
    · cases h
      exact hbelow
    · cases h
      exact habove
    · cases h
      split
      · exact hbelow
      · exact habove

theorem Binary.standsFor_of_shortestFrom {scale : Int} {steps count : Nat} {d : Scientific}
    (h : x.shortestFrom scale steps count = some d) : x.standsFor d = true := by
  induction steps generalizing count with
  | zero => cases h
  | succ steps ih =>
      rw [shortestFrom] at h
      cases hnear : x.nearestAt (scale - count) with
      | none =>
          rw [hnear, Option.none_or] at h
          exact ih h
      | some near =>
          rw [hnear] at h
          cases h
          exact standsFor_of_nearestAt hnear

theorem Scientific.value_stripFrom (steps : Nat) (d : Scientific) :
    (d.stripFrom steps).value = d.value := by
  induction steps generalizing d with
  | zero => rfl
  | succ steps ih =>
      rw [stripFrom]
      split
      · rename_i hten
        have hdigits : (d.digits : ℚ) = (d.digits / 10 : ℕ) * 10 := by
          exact_mod_cast (Nat.div_mul_cancel (Nat.dvd_of_mod_eq_zero hten.2)).symm
        rw [ih, Scientific.value, Scientific.value, zpow_add_one₀ (by norm_num), hdigits]
        push_cast
        ring
      · rfl

theorem Binary.value_exact (x : Binary) : x.exact.value = x.value := by
  have hten : (10 : ℚ) ^ min x.exponent 0 = 2 ^ min x.exponent 0 * 5 ^ min x.exponent 0 := by
    rw [← mul_zpow]
    norm_num
  have htwo : (2 : ℚ) ^ x.exponent.toNat * 2 ^ min x.exponent 0 = 2 ^ x.exponent := by
    rw [← zpow_natCast, ← zpow_add₀ two_ne_zero]
    congr 1
    omega
  have hfive : (5 : ℚ) ^ (-x.exponent).toNat * 5 ^ min x.exponent 0 = 1 := by
    rw [← zpow_natCast, ← zpow_add₀ (by norm_num)]
    convert zpow_zero (5 : ℚ) using 2
    omega
  rw [exact, Scientific.value, value, hten, ← htwo]
  simp only [twoTo, fiveTo, Nat.pow_eq]
  push_cast
  calc _ = (x.mantissa : ℚ) * (2 ^ x.exponent.toNat * 2 ^ min x.exponent 0) *
        (5 ^ (-x.exponent).toNat * 5 ^ min x.exponent 0) := by ring
    _ = _ := by rw [hfive, mul_one]

/-- The number is what its shortest decimal rounds to. -/
theorem Binary.roundsTo_shortest (hx : x.Proper) :
    RoundsTo x.mantissa x.exponent x.shortest.value := by
  rw [shortest, Scientific.value_stripFrom]
  cases hfound : x.shortestFrom x.scale 17 1 with
  | none =>
      rw [Option.getD_none, value_exact]
      exact roundsTo_self x.exponent
  | some d =>
      rw [Option.getD_some, ← standsFor_iff hx]
      exact standsFor_of_shortestFrom hfound

end

theorem Binary.ofBits_of_unpack {x : Float} {sign : Sign} {m : Nat} {e : Int} {hm : 0 < m}
    (h : x.toModel.unpack = .finite sign m e hm) :
    (ofBits x.toBits).Proper ∧ (ofBits x.toBits).mantissa = m ∧
      (ofBits x.toBits).exponent = e := by
  have hc := canonical_of_unpack h
  have hfraction := (@unpackMantissa Format.binary64 x.toModel.toBits.toBitVec).isLt
  have hparts : (ofBits x.toBits).mantissa = m ∧ (ofBits x.toBits).exponent = e ∧
      ((ofBits x.toBits).narrowBelow = true ↔ m = 0x10000000000000 ∧ -1074 < e) := by
    unfold ofBits
    rw [toNat_biased, toNat_fraction]
    rcases unpack_cases x.toModel.toBits.toBitVec with
      ⟨-, -, hu⟩ | ⟨-, hu⟩ | ⟨-, -, hu⟩ | ⟨he, hp, hu⟩ | ⟨hone, hzero, hp, hu⟩
    all_goals have hu := h.symm.trans hu
    case inr.inr.inr.inl =>
      obtain ⟨-, rfl, rfl⟩ := finite.inj hu
      rw [he]
      exact ⟨rfl, rfl, nofun, fun h => absurd h.2 (lt_irrefl _)⟩
    case inr.inr.inr.inr =>
      obtain ⟨-, rfl, rfl⟩ := finite.inj hu
      have hne : (@unpackExponent Format.binary64 x.toModel.toBits.toBitVec).toNat ≠ 0 :=
        fun heq => hzero (BitVec.eq_of_toNat_eq heq)
      dsimp only
      rw [if_neg hne]
      refine ⟨rfl, rfl, ?_⟩
      simp only [Bool.and_eq_true, decide_eq_true_eq]
      omega
    all_goals cases hu
  obtain ⟨hmantissa, hexponent, hnarrow⟩ := hparts
  exact ⟨⟨by rwa [hmantissa, hexponent], by rw [hmantissa, hexponent]; exact hnarrow⟩, hmantissa,
    hexponent⟩

theorem Binary.roundsTo_shortest_ofBits {x : Float} {sign : Sign} {m : Nat} {e : Int} {hm : 0 < m}
    (h : x.toModel.unpack = .finite sign m e hm) :
    RoundsTo m e (ofBits x.toBits).shortest.value := by
  obtain ⟨hproper, hmantissa, hexponent⟩ := ofBits_of_unpack h
  have hround := roundsTo_shortest hproper
  rwa [hmantissa, hexponent] at hround

end Pseudocode.Decimal

import Mathlib.Algebra.Order.Field.Power
import Mathlib.Algebra.Order.Field.Rat
import Mathlib.Tactic.FieldSimp
import Mathlib.Tactic.Linarith
import Mathlib.Tactic.Positivity
import Mathlib.Tactic.Ring
import Pseudocode.Proofs.NumberSign

/-!
# Rounding

A rational rounds to the nearest number, and to the one with the even mantissa halfway
between two. The arithmetic of numbers keeps a mantissa with two more bits: the next bit of
the exact result, and whether there is anything behind it. That is enough to find the number
that the exact result rounds to.
-/
namespace Pseudocode.Number
open Float.Model Float.Model.UnpackedFloat

/-- The rational lies nearest to the natural, or halfway and the natural is even. -/
def Nearest (n : Nat) (q : ℚ) : Prop :=
  (n - 1 / 2 < q ∨ n % 2 = 0 ∧ n - 1 / 2 = q) ∧ (q < n + 1 / 2 ∨ n % 2 = 0 ∧ q = n + 1 / 2)

/-- The rational that a mantissa stands for while its last bits are only known by the next bit and
by whether there are others. -/
def Represents : ExtendedMantissa → ℚ → Prop
  | ⟨m, false, false⟩, q => q = m
  | ⟨m, false, true⟩, q => m < q ∧ q < m + 1 / 2
  | ⟨m, true, false⟩, q => q = m + 1 / 2
  | ⟨m, true, true⟩, q => m + 1 / 2 < q ∧ q < m + 1

theorem Represents.bounds {em : ExtendedMantissa} {q : ℚ} (h : Represents em q) :
    em.mantissa ≤ q ∧ q < em.mantissa + 1 := by
  obtain ⟨m, r, s⟩ := em
  cases r <;> cases s <;> simp only [Represents] at h ⊢ <;> constructor <;> linarith

theorem Represents.shiftRightOne {em : ExtendedMantissa} {q : ℚ} (h : Represents em q) :
    Represents em.shiftRightOne (q / 2) := by
  obtain ⟨m, r, s⟩ := em
  have hm : ((m % 2 : ℕ) : ℚ) + 2 * ((m / 2 : ℕ) : ℚ) = m := by exact_mod_cast Nat.mod_add_div m 2
  -- the last bit of the mantissa is the next bit now, and both bits behind it tell what is left
  rcases Nat.mod_two_eq_zero_or_one m with hr | hr <;> rw [hr] at hm <;> cases r <;> cases s <;>
    simp [Represents, ExtendedMantissa.shiftRightOne, hr] at h hm ⊢ <;> grind

theorem Represents.shiftRight {em : ExtendedMantissa} {q : ℚ} (h : Represents em q) (n : Nat) :
    Represents (em >>> n) (q / 2 ^ n) := by
  change Represents (n.repeat ExtendedMantissa.shiftRightOne em) _
  induction n with
  | zero => simpa [Nat.repeat] using h
  | succ n ih =>
      rw [pow_succ, ← div_div]
      exact ih.shiftRightOne

theorem Nearest.bounds {n : Nat} {q : ℚ} (h : Nearest n q) : n - 1 / 2 ≤ q ∧ q ≤ n + 1 / 2 := by
  obtain ⟨hlow | hlow, hhigh | hhigh⟩ := h <;> constructor <;> linarith

/-- Rounding finds the nearest natural, and the even one of two. -/
theorem Represents.roundedMantissa {em : ExtendedMantissa} {q : ℚ} (h : Represents em q) {n : Nat}
    (hn : Nearest n q) : em.roundedMantissa = n := by
  obtain ⟨m, r, s⟩ := em
  obtain ⟨hlow, hhigh⟩ := hn.bounds
  cases r <;> cases s <;> simp only [Represents] at h
  · have hle : (m : ℚ) < n + 1 := by linarith
    have hge : (n : ℚ) < m + 1 := by linarith
    norm_cast at hle hge
    show m = n
    omega
  · have hle : (m : ℚ) < n + 1 := by linarith
    have hge : (n : ℚ) < m + 1 := by linarith
    norm_cast at hle hge
    show m = n
    omega
  · have hle : (m : ℚ) ≤ n := by linarith
    have hge : (n : ℚ) ≤ m + 1 := by linarith
    norm_cast at hle hge
    show m + m % 2 = n
    obtain rfl | rfl : n = m ∨ n = m + 1 := by omega
    · rcases hn.2 with hlt | ⟨heven, -⟩
      · linarith
      · omega
    · rcases hn.1 with hlt | ⟨heven, -⟩
      · push_cast at hlt
        linarith
      · omega
  · have hle : (m : ℚ) < n := by linarith
    have hge : (n : ℚ) < m + 2 := by linarith
    norm_cast at hle hge
    show m + 1 = n
    omega

theorem represents_exact (m : Nat) :
    Represents (ExtendedMantissa.ofMantissaAndAccuracy m .exact) m := rfl

/-- A quotient with what is known about its remainder. -/
theorem represents_quotient (n : Nat) {d : Nat} (hd : 0 < d) :
    Represents (ExtendedMantissa.ofMantissaAndAccuracy (n / d) (accuracyOfFraction (n % d) d))
      (n / d : ℚ) := by
  have hpos : (0 : ℚ) < d := by exact_mod_cast hd
  have hsplit : (n : ℚ) / d = (n / d : ℕ) + (n % d : ℕ) / d := by
    field_simp
    exact_mod_cast (Nat.div_add_mod n d).symm
  have hlt : ((n % d : ℕ) : ℚ) < d := by exact_mod_cast Nat.mod_lt n hd
  rw [accuracyOfFraction]
  split
  · rename_i hzero
    rw [hsplit, hzero]
    simp [Represents, ExtendedMantissa.ofMantissaAndAccuracy]
  · rename_i hzero
    have hrest : (0 : ℚ) < (n % d : ℕ) := by exact_mod_cast Nat.pos_of_ne_zero hzero
    rw [hsplit]
    rcases hc : compare (2 * (n % d)) d with _ | _ | _
    · have hhalf : (2 : ℚ) * (n % d : ℕ) < d := by exact_mod_cast Nat.compare_eq_lt.1 hc
      constructor
      · exact lt_add_of_pos_right _ (div_pos hrest hpos)
      · rw [add_lt_add_iff_left, div_lt_iff₀ hpos]
        linarith
    · have hhalf : (2 : ℚ) * (n % d : ℕ) = d := by exact_mod_cast Nat.compare_eq_eq.1 hc
      show _ = _
      rw [add_right_inj, div_eq_iff hpos.ne']
      linarith
    · have hhalf : (d : ℚ) < 2 * (n % d : ℕ) := by exact_mod_cast Nat.compare_eq_gt.1 hc
      constructor
      · rw [add_lt_add_iff_left, lt_div_iff₀ hpos]
        linarith
      · rw [add_lt_add_iff_left, div_lt_one hpos]
        exact hlt

/-- The mantissa and the exponent of a finite number other than zero. -/
structure Canonical (m : Nat) (e : Int) : Prop where
  pos : 0 < m
  lt : m < 0x20000000000000
  least : -1074 ≤ e
  greatest : e ≤ 971
  full : 0x10000000000000 ≤ m ∨ e = -1074

/-- The rational rounds to the number: it lies no further than halfway to the next numbers, and
halfway only for an even mantissa. At a power of two the next number below is twice as near. -/
def RoundsTo (m : Nat) (e : Int) (q : ℚ) : Prop :=
  let low : ℚ := if m = 0x10000000000000 ∧ -1074 < e then m - 1 / 4 else m - 1 / 2
  (low * 2 ^ e < q ∨ m % 2 = 0 ∧ low * 2 ^ e = q) ∧
    (q < (m + 1 / 2) * 2 ^ e ∨ m % 2 = 0 ∧ q = (m + 1 / 2) * 2 ^ e)

theorem two_zpow_pos (e : Int) : (0 : ℚ) < 2 ^ e := zpow_pos two_pos e

section
variable {m : Nat} {e : Int} {q : ℚ}

theorem RoundsTo.le (h : RoundsTo m e q) : q ≤ (m + 1 / 2) * 2 ^ e := by
  obtain ⟨-, hlt | ⟨-, heq⟩⟩ := h
  · exact hlt.le
  · exact heq.le

theorem RoundsTo.low_le (h : RoundsTo m e q) :
    (if m = 0x10000000000000 ∧ -1074 < e then (m : ℚ) - 1 / 4 else m - 1 / 2) * 2 ^ e ≤ q := by
  obtain ⟨hlt | ⟨-, heq⟩, -⟩ := h
  · exact hlt.le
  · exact heq.le

theorem RoundsTo.half_le (h : RoundsTo m e q) : (m - 1 / 2) * 2 ^ e ≤ q := by
  refine le_trans (mul_le_mul_of_nonneg_right ?_ (two_zpow_pos e).le) h.low_le
  split <;> linarith

theorem Canonical.cast_lt (h : Canonical m e) : (m : ℚ) ≤ 2 ^ (53 : ℤ) - 1 := by
  have hm : m ≤ 0x1FFFFFFFFFFFFF := by have := h.lt; omega
  have hcast : (m : ℚ) ≤ 0x1FFFFFFFFFFFFF := by exact_mod_cast hm
  norm_num
  linarith

/-- Numbers that round to a number lie below the next power of two. -/
theorem RoundsTo.lt_zpow (hc : Canonical m e) (h : RoundsTo m e q) : q < 2 ^ (e + 53) := by
  have hm := hc.cast_lt
  calc q ≤ (m + 1 / 2) * 2 ^ e := h.le
    _ < 2 ^ (53 : ℤ) * 2 ^ e := by
        apply mul_lt_mul_of_pos_right _ (two_zpow_pos e)
        linarith
    _ = 2 ^ (e + 53) := by rw [← zpow_add₀ two_ne_zero, add_comm]

/-- Apart from powers of two, they lie above the power of two below. -/
theorem RoundsTo.zpow_lt (hm : 0x10000000000000 < m) (h : RoundsTo m e q) :
    2 ^ (e + 52) < q := by
  have hcast : (0x10000000000001 : ℚ) ≤ m := by exact_mod_cast hm
  calc (2 : ℚ) ^ (e + 52) = 2 ^ (52 : ℤ) * 2 ^ e := by rw [← zpow_add₀ two_ne_zero, add_comm]
    _ < (m - 1 / 2) * 2 ^ e := by
        apply mul_lt_mul_of_pos_right _ (two_zpow_pos e)
        norm_num
        linarith
    _ ≤ q := h.half_le

/-- At a power of two, twice the rational is nearest to twice the number or the rational lies
above it. -/
theorem RoundsTo.of_power (he : -1074 < e) (h : RoundsTo 0x10000000000000 e q)
    (hq : q < 2 ^ (e + 52)) : 2 ^ (e + 51) < q ∧ Nearest 0x20000000000000 (q / 2 ^ (e - 1)) := by
  have hpos := two_zpow_pos e
  have hlow := h.low_le
  rw [if_pos ⟨rfl, he⟩] at hlow
  have hhalf : (2 : ℚ) ^ e = 2 ^ (e - 1) * 2 := by rw [← zpow_add_one₀ two_ne_zero, sub_add_cancel]
  have hpos' := two_zpow_pos (e - 1)
  have h52 : (2 : ℚ) ^ (e + 52) = 0x20000000000000 * 2 ^ (e - 1) := by
    rw [show e + 52 = 53 + (e - 1) by ring, zpow_add₀ two_ne_zero]
    norm_num
  have h51 : (2 : ℚ) ^ (e + 51) = 0x10000000000000 * 2 ^ (e - 1) := by
    rw [show e + 51 = 52 + (e - 1) by ring, zpow_add₀ two_ne_zero]
    norm_num
  rw [hhalf] at hlow
  rw [h52] at hq
  rw [h51]
  push_cast at hlow
  refine ⟨by nlinarith, ?_, .inl ?_⟩
  · rw [lt_div_iff₀ hpos', eq_div_iff hpos'.ne']
    push_cast
    rcases hlow.lt_or_eq with hlt | heq
    · left
      linarith
    · right
      exact ⟨by norm_num, by linarith⟩
  · rw [div_lt_iff₀ hpos']
    push_cast
    nlinarith

/-- Otherwise the rational is nearest to the number in units of the last place. -/
theorem RoundsTo.nearest (h : RoundsTo m e q)
    (hq : m = 0x10000000000000 → -1074 < e → 2 ^ (e + 52) ≤ q) : Nearest m (q / 2 ^ e) := by
  have hpos := two_zpow_pos e
  obtain ⟨hlow, hhigh⟩ := h
  refine ⟨?_, ?_⟩
  · rw [lt_div_iff₀ hpos, eq_div_iff hpos.ne']
    by_cases hpower : m = 0x10000000000000 ∧ -1074 < e
    · have hle := hq hpower.1 hpower.2
      left
      calc ((m : ℚ) - 1 / 2) * 2 ^ e < 2 ^ (52 : ℤ) * 2 ^ e := by
            apply mul_lt_mul_of_pos_right _ hpos
            rw [hpower.1]
            norm_num
        _ = 2 ^ (e + 52) := by rw [← zpow_add₀ two_ne_zero, add_comm]
        _ ≤ q := hle
    · rwa [if_neg hpower] at hlow
  · rwa [div_lt_iff₀ hpos, div_eq_iff hpos.ne']

end

theorem targetExponent_eq (m : Nat) (e : Int) :
    Format.binary64.targetExponent (totalExponent m e) = max ((m.log2 : Int) + e - 52) (-1074) := by
  show max ((m.log2 : Int) + 1 + e - (53 : Nat)) (3 - 2 ^ 10 - (53 : Nat)) = _
  omega

theorem shiftToTargetExponent_eq {m : Nat} {e t : Int} (accuracy : Accuracy)
    (ht : max ((m.log2 : Int) + e - 52) (-1074) = t) (he : e ≤ t) :
    shiftToTargetExponent Format.binary64 m e accuracy =
      (ExtendedMantissa.ofMantissaAndAccuracy m accuracy >>> (t - e).toNat, t) := by
  have hexponent : e + ((t - e).toNat : Int) = t := by omega
  show (ExtendedMantissa.ofMantissaAndAccuracy m accuracy >>>
    (Format.binary64.targetExponent (totalExponent m e) - e).toNat,
      e + ((Format.binary64.targetExponent (totalExponent m e) - e).toNat : Int)) = _
  rw [targetExponent_eq, ht, hexponent]

/-- A mantissa that fits stays as it is. -/
theorem shiftToTargetExponent_of_fits {m : Nat} {e : Int} (hm : m < 0x20000000000000)
    (he : -1074 ≤ e) :
    shiftToTargetExponent Format.binary64 m e .exact = (⟨m, false, false⟩, e) := by
  have hlog : m.log2 ≤ 52 := by
    rcases Nat.eq_zero_or_pos m with rfl | hpos
    · simp
    · have hlt : m.log2 < 53 := (Nat.log2_lt hpos.ne').2 hm
      omega
  have hshift : (Format.binary64.targetExponent (totalExponent m e) - e).toNat = 0 := by
    rw [targetExponent_eq]
    omega
  show (ExtendedMantissa.ofMantissaAndAccuracy m .exact >>>
    (Format.binary64.targetExponent (totalExponent m e) - e).toNat,
      e + ((Format.binary64.targetExponent (totalExponent m e) - e).toNat : Int)) = _
  rw [hshift]
  simp only [Nat.cast_zero, add_zero]
  rfl

/-- A mantissa that has become too long by rounding is a power of two. -/
theorem shiftToTargetExponent_of_carry {e : Int} (he : -1074 ≤ e) :
    shiftToTargetExponent Format.binary64 0x20000000000000 e .exact =
      (⟨0x10000000000000, false, false⟩, e + 1) := by
  have hlog : Nat.log2 0x20000000000000 = 53 := by decide +kernel
  rw [shiftToTargetExponent_eq .exact (t := e + 1) (by rw [hlog]; omega) (by omega),
    show (e + 1 - e).toNat = 1 by omega]
  rfl

section
variable {m : Nat} {e : Int} {q : ℚ} {em : ExtendedMantissa}

/-- The binade of a rational whose mantissa is known. -/
theorem Represents.zpow_bounds (h : Represents em (q / 2 ^ e)) (hm : em.mantissa = m) :
    (m ≠ 0 → 2 ^ (m.log2 + e) ≤ q) ∧ q < 2 ^ (m.log2 + e + 1) := by
  have hpos := two_zpow_pos e
  obtain ⟨hle, hlt⟩ := h.bounds
  rw [hm, le_div_iff₀ hpos] at hle
  rw [hm, div_lt_iff₀ hpos] at hlt
  constructor
  · intro hne
    have hlog : ((2 ^ m.log2 : ℕ) : ℚ) ≤ m := by exact_mod_cast Nat.log2_self_le hne
    rw [zpow_add₀ two_ne_zero, zpow_natCast]
    push_cast at hlog
    exact (mul_le_mul_of_nonneg_right hlog hpos.le).trans hle
  · have hlog : ((m + 1 : ℕ) : ℚ) ≤ (2 ^ (m.log2 + 1) : ℕ) := by
      exact_mod_cast Nat.lt_log2_self (n := m)
    rw [show (m.log2 : ℤ) + e + 1 = ((m.log2 + 1 : ℕ) : ℤ) + e by push_cast; ring,
      zpow_add₀ two_ne_zero, zpow_natCast]
    push_cast at hlog
    exact hlt.trans_le (mul_le_mul_of_nonneg_right hlog hpos.le)

end

theorem mantissa_ofMantissaAndAccuracy (m : Nat) (accuracy : Accuracy) :
    (ExtendedMantissa.ofMantissaAndAccuracy m accuracy).mantissa = m := by
  cases accuracy with
  | exact => rfl
  | inexact o => cases o <;> rfl

/-- Where the mantissa of a rational ends is where the number ends that it rounds to, or one place
further back for a rational just below a power of two. -/
theorem RoundsTo.target {M m : Nat} {E e : Int} {q : ℚ} (hc : Canonical M E) (hq : RoundsTo M E q)
    (hlow : m ≠ 0 → 2 ^ (m.log2 + e) ≤ q) (hhigh : q < 2 ^ (m.log2 + e + 1))
    (hfull : 52 ≤ m.log2 ∨ e ≤ -1074) :
    (max ((m.log2 : Int) + e - 52) (-1074) = E ∧
      (M = 0x10000000000000 → -1074 < E → 2 ^ (E + 52) ≤ q)) ∨
    (max ((m.log2 : Int) + e - 52) (-1074) = E - 1 ∧ M = 0x10000000000000 ∧ -1074 < E ∧
      q < 2 ^ (E + 52)) := by
  have hone : (1 : ℚ) < 2 := one_lt_two
  have hleast := hc.least
  have habove : (m.log2 : Int) + e - 52 ≤ E ∨ m = 0 := by
    rcases Nat.eq_zero_or_pos m with rfl | hpos
    · exact .inr rfl
    · have := (zpow_lt_zpow_iff_right₀ hone).1 ((hlow hpos.ne').trans_lt (hq.lt_zpow hc))
      omega
  have hzero : m = 0 → m.log2 = 0 := by
    rintro rfl
    simp
  have hbelow : ∀ k : Int, 2 ^ k ≤ q → k < m.log2 + e + 1 := by
    intro k hk
    exact (zpow_lt_zpow_iff_right₀ hone).1 (hk.trans_lt hhigh)
  by_cases hE : E = -1074
  · left
    exact ⟨by omega, by omega⟩
  · by_cases hM : M = 0x10000000000000
    · subst hM
      rcases le_or_gt (2 ^ (E + 52)) q with hle | hlt
      · have := hbelow _ hle
        left
        exact ⟨by omega, fun _ _ => hle⟩
      · have hpower := (hq.of_power (by omega) hlt).1
        have := hbelow _ hpower.le
        have hne : m ≠ 0 := by
          intro h
          have := hzero h
          omega
        have := (zpow_lt_zpow_iff_right₀ hone).1 ((hlow hne).trans_lt hlt)
        right
        exact ⟨by omega, rfl, by omega, hlt⟩
    · have hlarge : 0x10000000000000 < M := by
        have := hc.full
        omega
      have := hbelow _ (hq.zpow_lt hlarge).le
      left
      exact ⟨by omega, fun h => absurd h hM⟩

/-- Rounding a rational gives the number that it rounds to. -/
theorem roundWithAccuracy_eq {M m : Nat} {E e : Int} {q : ℚ} {accuracy : Accuracy}
    (hc : Canonical M E) (hq : RoundsTo M E q)
    (hrep : Represents (ExtendedMantissa.ofMantissaAndAccuracy m accuracy) (q / 2 ^ e))
    (hfull : 52 ≤ m.log2 ∨ e ≤ -1074) (sign : Sign) :
    roundWithAccuracy Format.binary64 sign m e accuracy = .finite sign M E hc.pos := by
  obtain ⟨hlow, hhigh⟩ := hrep.zpow_bounds (mantissa_ofMantissaAndAccuracy m accuracy)
  have hleast := hc.least
  have hshifted : ∀ t, e ≤ t → Represents
      (ExtendedMantissa.ofMantissaAndAccuracy m accuracy >>> (t - e).toNat) (q / 2 ^ t) := by
    intro t ht
    have hsplit : (2 : ℚ) ^ t = 2 ^ e * 2 ^ (t - e).toNat := by
      rw [← zpow_natCast, ← zpow_add₀ two_ne_zero]
      congr 1
      omega
    rw [hsplit, ← div_div]
    exact hrep.shiftRight _
  rcases hq.target hc hlow hhigh hfull with ⟨ht, hpower⟩ | ⟨ht, rfl, hE, hpower⟩
  · have he : e ≤ E := by omega
    have hround := (hshifted E he).roundedMantissa (hq.nearest hpower)
    unfold roundWithAccuracy
    rw [shiftToTargetExponent_eq accuracy ht he]
    dsimp only
    rw [hround, shiftToTargetExponent_of_fits hc.lt hc.least]
    exact dif_neg hc.pos.ne'
  · have he : e ≤ E - 1 := by omega
    have hround := (hshifted (E - 1) he).roundedMantissa (hq.of_power hE hpower).2
    unfold roundWithAccuracy
    rw [shiftToTargetExponent_eq accuracy ht he]
    dsimp only
    rw [hround, shiftToTargetExponent_of_carry (by omega), sub_add_cancel]
    exact dif_neg (show 0x10000000000000 ≠ 0 by decide)

theorem canonical_of_unpack {b : BitVec Format.binary64.numBits} {sign : Sign} {m : Nat} {e : Int}
    {hm : 0 < m} (h : UnpackedFloat.unpack Format.binary64 b = .finite sign m e hm) :
    Canonical m e := by
  have hmantissa : (unpackMantissa b).toNat < 0x10000000000000 := (unpackMantissa b).isLt
  have hexponent : (unpackExponent b).toNat < 0x800 := (unpackExponent b).isLt
  rcases unpack_cases b with
    ⟨-, -, hu⟩ | ⟨-, hu⟩ | ⟨-, -, hu⟩ | ⟨-, hp, hu⟩ | ⟨hone, hzero, hp, hu⟩ <;> rw [h] at hu
  case inr.inr.inr.inl =>
    obtain ⟨-, rfl, rfl⟩ := finite.inj hu
    exact ⟨hm, by omega, le_rfl, by decide, .inr rfl⟩
  case inr.inr.inr.inr =>
    obtain ⟨-, rfl, rfl⟩ := finite.inj hu
    have hone' : (unpackExponent b).toNat ≠ 2047 := fun heq => hone (BitVec.eq_of_toNat_eq heq)
    have hzero' : (unpackExponent b).toNat ≠ 0 := fun heq => hzero (BitVec.eq_of_toNat_eq heq)
    exact ⟨hm, by omega, by omega, by omega, .inl (by omega)⟩
  all_goals cases hu

theorem unpack_of_exponent {b : BitVec Format.binary64.numBits} (hone : unpackExponent b ≠ -1#11)
    (hzero : unpackExponent b ≠ 0#11) : ∃ h, UnpackedFloat.unpack Format.binary64 b =
      .finite (Sign.ofBitVec (unpackSign b)) (0x10000000000000 + (unpackMantissa b).toNat)
        ((unpackExponent b).toNat - 1075) h := by
  rcases unpack_cases b with ⟨he, -⟩ | ⟨he, -⟩ | ⟨he, -⟩ | ⟨he, -⟩ | ⟨-, -, hu⟩
  · exact absurd he hone
  · exact absurd he hone
  · exact absurd he hzero
  · exact absurd he hzero
  · exact hu

theorem finite_congr {sign sign' : Sign} {m m' : Nat} {e e' : Int} (hs : sign = sign')
    (hm : m = m') (he : e = e') (h : 0 < m) (h' : 0 < m') :
    finite sign m e h = finite sign' m' e' h' := by
  subst hs hm he
  rfl

section
variable (sign : Sign) {exponent : BitVec 11} {mantissa : BitVec 52}

theorem ofBitVec_packComponents : Sign.ofBitVec (unpackSign
    (packComponents Format.binary64 sign exponent mantissa)) = sign := by
  rw [unpackSign_packComponents]
  cases sign <;> rfl

theorem unpack_normal (mantissa : BitVec 52) (hone : exponent ≠ -1#11) (hzero : exponent ≠ 0#11) :
    ∃ h, UnpackedFloat.unpack Format.binary64
      (packComponents Format.binary64 sign exponent mantissa) =
        .finite sign (0x10000000000000 + mantissa.toNat) (exponent.toNat - 1075) h := by
  have hu := unpack_of_exponent (b := packComponents Format.binary64 sign exponent mantissa)
    (by rwa [unpackExponent_packComponents]) (by rwa [unpackExponent_packComponents])
  rwa [unpackExponent_packComponents, unpackMantissa_packComponents, ofBitVec_packComponents] at hu

theorem unpack_subnormal (hm : mantissa ≠ 0#52) :
    ∃ h, UnpackedFloat.unpack Format.binary64
      (packComponents Format.binary64 sign 0#11 mantissa) =
        .finite sign mantissa.toNat (-1074) h := by
  have hcases := unpack_cases (packComponents Format.binary64 sign 0#11 mantissa)
  rw [unpackExponent_packComponents, unpackMantissa_packComponents, ofBitVec_packComponents]
    at hcases
  rcases hcases with ⟨he, -⟩ | ⟨he, -⟩ | ⟨-, hz, -⟩ | ⟨-, hu⟩ | ⟨-, he, -⟩
  · exact absurd he (by decide)
  · exact absurd he (by decide)
  · exact absurd hz hm
  · exact hu
  · exact absurd rfl he

end

/-- Packing loses nothing. -/
theorem unpack_pack {m : Nat} {e : Int} (hc : Canonical m e) (sign : Sign) :
    UnpackedFloat.unpack Format.binary64 (UnpackedFloat.pack Format.binary64
      (.finite sign m e hc.pos)) = .finite sign m e hc.pos := by
  obtain ⟨hpos, hlt, hleast, hgreatest, hfull⟩ := hc
  have hpack : UnpackedFloat.pack Format.binary64 (.finite sign m e hpos) =
      if 2 ^ 11 ≤ (e + (1023 : Nat) + (52 : Nat)).toNat + 1 then packedInfinity Format.binary64 sign
      else if m.log2 + 1 = 53 then packComponents Format.binary64 sign
        (BitVec.ofNat 11 (e + (1023 : Nat) + (52 : Nat)).toNat) (BitVec.ofNat 52 m)
      else packComponents Format.binary64 sign 0#11 (BitVec.ofNat 52 m) := rfl
  have hlog : m.log2 + 1 = 53 ↔ 0x10000000000000 ≤ m := by
    have hup : m.log2 < 53 := (Nat.log2_lt hpos.ne').2 hlt
    have hlow : 52 ≤ m.log2 ↔ 2 ^ 52 ≤ m := Nat.le_log2 hpos.ne'
    norm_num at hlow
    omega
  have hmantissa : (BitVec.ofNat 52 m).toNat = m % 0x10000000000000 := BitVec.toNat_ofNat ..
  rw [hpack, if_neg (by omega)]
  by_cases hnormal : 0x10000000000000 ≤ m
  · have hexponent : (BitVec.ofNat 11 (e + (1023 : Nat) + (52 : Nat)).toNat).toNat =
        (e + 1075).toNat % 0x800 := by
      rw [BitVec.toNat_ofNat, add_assoc]
      rfl
    rw [if_pos (hlog.2 hnormal)]
    generalize BitVec.ofNat 11 (e + (1023 : Nat) + (52 : Nat)).toNat = exponent at hexponent ⊢
    have hone : exponent ≠ -1#11 := by
      rintro rfl
      rw [show (-1#11).toNat = 2047 from rfl] at hexponent
      omega
    have hzero : exponent ≠ 0#11 := by
      rintro rfl
      rw [show (0#11).toNat = 0 from rfl] at hexponent
      omega
    obtain ⟨h, hu⟩ := unpack_normal sign (BitVec.ofNat 52 m) hone hzero
    rw [hu]
    exact finite_congr rfl (by omega) (by omega) _ _
  · rw [if_neg (fun h => hnormal (hlog.1 h))]
    have hne : BitVec.ofNat 52 m ≠ 0#52 := by
      intro hzero
      rw [hzero, show (0#52).toNat = 0 from rfl] at hmantissa
      omega
    obtain ⟨h, hu⟩ := unpack_subnormal sign hne
    rw [hu]
    exact finite_congr rfl (by omega) (by omega) _ _

/-- A finite number is what its mantissa and exponent pack into. -/
theorem ofModel_pack {x : Float} {sign : Sign} {m : Nat} {e : Int} {hm : 0 < m}
    (h : x.toModel.unpack = .finite sign m e hm) :
    Float.ofModel (.pack (.finite sign m e hm)) = x := by
  have hu : (Float.ofModel (.pack (.finite sign m e hm))).toModel.unpack = .finite sign m e hm :=
    unpack_pack (canonical_of_unpack h) sign
  apply eq_of_unpack
  · rw [hu, h]
  · rw [hu]
    nofun

end Pseudocode.Number

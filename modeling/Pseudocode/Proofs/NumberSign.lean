import Pseudocode.Proofs.NumberText
import Pseudocode.Token

/-!
# The sign of numbers in a text

A numeral has no sign, and neither has the number that is read from it: every step of the
reading rounds, multiplies or divides numbers without a sign. So no negative zero is ever
read, and a number in a text is known by its value.
-/
namespace Pseudocode.Number
open Float.Model Float.Model.UnpackedFloat

/-- The sign of a number; what is no number counts as positive. -/
def signOf : UnpackedFloat → Sign
  | infinity sign | zero sign | finite sign _ _ _ => sign
  | notANumber => .positive

/-- The number is not negative, and no negative zero. -/
def Unsigned (x : Float) : Prop := signOf x.toModel.unpack = .positive

theorem cases_of_positive {u : UnpackedFloat} (h : signOf u = .positive) :
    u = notANumber ∨ u = infinity .positive ∨ u = zero .positive ∨
      ∃ mantissa exponent hm, u = finite .positive mantissa exponent hm := by
  cases u with
  | notANumber => exact .inl rfl
  | infinity sign =>
      obtain rfl : sign = .positive := h
      exact .inr (.inl rfl)
  | zero sign =>
      obtain rfl : sign = .positive := h
      exact .inr (.inr (.inl rfl))
  | finite sign mantissa exponent hm =>
      obtain rfl : sign = .positive := h
      exact .inr (.inr (.inr ⟨mantissa, exponent, hm, rfl⟩))

theorem unpackSign_packComponents {spec : Format} (sign : Sign)
    (exponent : BitVec spec.exponentBits) (mantissa : BitVec spec.mantissaBitsWithoutImplicit) :
    unpackSign (packComponents spec sign exponent mantissa) = sign.toBitVec := by
  apply BitVec.eq_of_getLsbD_eq
  intro i hi
  obtain rfl : i = 0 := by omega
  show (BitVec.cast _ ((sign.toBitVec ++ exponent ++ mantissa).extractLsb _ _)).getLsbD 0 = _
  simp [BitVec.getLsbD_append, BitVec.getElem_append]

theorem signOf_unpack {b : BitVec Format.binary64.numBits} (h : unpackSign b = 0#1) :
    signOf (UnpackedFloat.unpack Format.binary64 b) = .positive := by
  obtain ⟨-, -, hu⟩ | ⟨-, hu⟩ | ⟨-, -, hu⟩ | ⟨-, _, hu⟩ | ⟨-, -, _, hu⟩ := unpack_cases b
  case inr.inl => rw [hu]; rfl
  all_goals rw [hu, h]; rfl

theorem unpackSign_pack {spec : Format} {u : UnpackedFloat} (h : signOf u = .positive) :
    unpackSign (UnpackedFloat.pack spec u) = 0#1 := by
  obtain rfl | rfl | rfl | ⟨mantissa, exponent, hm, rfl⟩ := cases_of_positive h
  · exact unpackSign_packComponents _ _ _
  · exact unpackSign_packComponents _ _ _
  · exact unpackSign_packComponents _ _ _
  -- too large, normal or subnormal: packed with the sign in each case
  · show unpackSign (if _ then packedInfinity spec .positive
      else if _ then packComponents spec .positive _ _ else packComponents spec .positive _ _) = _
    split
    · exact unpackSign_packComponents _ _ _
    · split <;> exact unpackSign_packComponents _ _ _

theorem unsigned_pack {u : UnpackedFloat} (h : signOf u = .positive) :
    Unsigned (.ofModel (.pack u)) :=
  signOf_unpack (unpackSign_pack h)

theorem signOf_roundWithAccuracy (spec : Format) (sign : Sign) (mantissa : Nat) (exponent : Int)
    (accuracy : Accuracy) :
    signOf (roundWithAccuracy spec sign mantissa exponent accuracy) = sign := by
  have hround (n : Nat) (e : Int) :
      signOf (if h : n = 0 then zero sign else finite sign n e (Nat.pos_of_ne_zero h)) = sign := by
    by_cases h : n = 0
    · rw [dif_pos h]
      rfl
    · rw [dif_neg h]
      rfl
  exact hround _ _

theorem signOf_mul {spec : Format} {a b : UnpackedFloat} (ha : signOf a = .positive)
    (hb : signOf b = .positive) : signOf (UnpackedFloat.mul spec a b) = .positive := by
  obtain rfl | rfl | rfl | ⟨m, e, hm, rfl⟩ := cases_of_positive ha <;>
    obtain rfl | rfl | rfl | ⟨m', e', hm', rfl⟩ := cases_of_positive hb
  case inr.inr.inr.inr.inr.inr => exact signOf_roundWithAccuracy _ _ _ _ _
  all_goals rfl

theorem signOf_div {spec : Format} {a b : UnpackedFloat} (ha : signOf a = .positive)
    (hb : signOf b = .positive) : signOf (UnpackedFloat.div spec a b) = .positive := by
  obtain rfl | rfl | rfl | ⟨m, e, hm, rfl⟩ := cases_of_positive ha <;>
    obtain rfl | rfl | rfl | ⟨m', e', hm', rfl⟩ := cases_of_positive hb
  case inr.inr.inr.inr.inr.inr => exact signOf_roundWithAccuracy _ _ _ _ _
  all_goals rfl

theorem Unsigned.mul {x y : Float} (hx : Unsigned x) (hy : Unsigned y) : Unsigned (x * y) :=
  unsigned_pack (signOf_mul hx hy)

theorem Unsigned.div {x y : Float} (hx : Unsigned x) (hy : Unsigned y) : Unsigned (x / y) :=
  unsigned_pack (signOf_div hx hy)

theorem signOf_ofScientific (spec : Format) (digits : Nat) (exponent : Int) :
    signOf (UnpackedFloat.ofScientific spec digits exponent) = .positive := by
  unfold UnpackedFloat.ofScientific
  by_cases hm : digits = 0
  · rw [dif_pos hm]
    rfl
  · rw [dif_neg hm]
    refine iteInduction (motive := fun u => signOf u = .positive) (fun _ => rfl) fun _ => ?_
    refine iteInduction (motive := fun u => signOf u = .positive) (fun _ => rfl) fun _ => ?_
    exact iteInduction (motive := fun u => signOf u = .positive)
      (fun _ => signOf_mul rfl rfl) fun _ => signOf_div rfl rfl

theorem unsigned_toFloat_uint64 (n : UInt64) : Unsigned n.toFloat := by
  apply unsigned_pack
  show signOf (UnpackedFloat.normalize Format.binary64 (n.toNat : Int) 0 .positive) = .positive
  unfold UnpackedFloat.normalize
  split
  · rename_i h
    have := Int.compare_eq_lt.1 h
    omega
  · rfl
  · exact signOf_roundWithAccuracy _ _ _ _ _

theorem unsigned_powerOfTen {e : Nat} (h : e < Float.exactlyRepresentablePowersOfTen.size) :
    Unsigned (Float.exactlyRepresentablePowersOfTen[e]) := by
  have hall : ∀ i : Fin 23, @unpackSign Format.binary64
      (Float.exactlyRepresentablePowersOfTen[i]).toModel.toBits.toBitVec = 0#1 := by
    decide +kernel
  exact signOf_unpack (hall ⟨e, h⟩)

theorem unsigned_ofScientific (digits : Nat) (negative : Bool) (exponent : Nat) :
    Unsigned (Float.ofScientific digits negative exponent) := by
  unfold Float.ofScientific
  split
  · dsimp only
    split
    · exact (unsigned_toFloat_uint64 _).div (unsigned_powerOfTen _)
    · exact (unsigned_toFloat_uint64 _).mul (unsigned_powerOfTen _)
  · exact unsigned_pack (signOf_ofScientific _ _ _)

/-- What is read from a numeral has no sign. -/
theorem unsigned_toFloat (d : Decimal.Scientific) : Unsigned d.toFloat := by
  unfold Decimal.Scientific.toFloat
  dsimp only
  split
  · exact unsigned_ofScientific _ _ _
  · split
    · exact (unsigned_ofScientific _ _ _).div (unsigned_ofScientific _ _ _)
    · split
      · exact unsigned_ofScientific _ _ _
      · exact unsigned_ofScientific _ _ _

theorem isNegative_of_unsigned {x : Float} (h : Unsigned x) (hn : x.toModel.unpack ≠ .notANumber) :
    isNegative x = false := by
  have hsign : Sign.ofBitVec (@unpackSign Format.binary64 x.toModel.toBits.toBitVec) =
      .positive := by
    rcases unpack_cases x.toModel.toBits.toBitVec with
      ⟨-, -, hu⟩ | ⟨-, hu⟩ | ⟨-, -, hu⟩ | ⟨-, _, hu⟩ | ⟨-, -, _, hu⟩
    case inr.inl => exact absurd hu hn
    all_goals
      rw [Unsigned, show x.toModel.unpack = _ from hu] at h
      exact h
  have hzero : @unpackSign Format.binary64 x.toModel.toBits.toBitVec = 0#1 :=
    ofBitVec_inj (b := 0#1) hsign
  have hdiv := congrArg BitVec.toNat hzero
  rw [toNat_unpackSign] at hdiv
  rw [isNegative, decide_eq_false_iff_not, ← UInt64.toNat_inj, UInt64.toNat_shiftRight,
    Nat.shiftRight_eq_div_pow]
  intro hone
  have : x.toBits.toNat / 0x8000000000000000 = 0 := hdiv
  have : x.toBits.toNat / 0x8000000000000000 = 1 := hone
  omega

/-- A number without a sign is known by its value. -/
theorem eq_of_beq_of_unsigned {x y : Float} (hx : Unsigned x) (hy : Unsigned y)
    (h : (x == y) = true) : x = y := by
  have hcompare : UnpackedFloat.compare x.toModel.unpack y.toModel.unpack = some .eq := by
    change (UnpackedFloat.compare x.toModel.unpack y.toModel.unpack == some .eq) = true at h
    simpa using h
  obtain ⟨hn, hcases⟩ := eq_or_zero_of_compare hcompare
  apply eq_of_unpack _ hn
  obtain heq | ⟨s, t, hs, ht⟩ := hcases
  · exact heq
  · rw [Unsigned, hs] at hx
    rw [Unsigned, ht] at hy
    rw [hs, ht, show s = .positive from hx, show t = .positive from hy]

end Pseudocode.Number

namespace Pseudocode

theorem Token.Kind.unsigned_of_ofWord {word : List Char} {x : Float}
    (h : Token.Kind.ofWord word = .number x) : Number.Unsigned x := by
  unfold ofWord at h
  dsimp only at h
  split at h
  · cases h
  · split at h
    · cases h
    · split at h
      · split at h
        · cases h
          exact Number.unsigned_toFloat _
        · cases h
      · cases h

end Pseudocode

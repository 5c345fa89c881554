import Pseudocode.Number

/-!
# The text of equal numbers

Equality of numbers is equality of values, and not of bits: both zeros are equal. A
number is determined by its value in all other cases, and the text of a zero does not
show its sign, so equal numbers have one text.
-/
namespace Pseudocode.Number
open Float.Model Float.Model.UnpackedFloat

section
variable (b : BitVec Format.binary64.numBits)

theorem toNat_unpackMantissa : (unpackMantissa b).toNat = b.toNat % 0x10000000000000 := by
  change (b.extractLsb' 0 52).toNat = _
  rw [BitVec.extractLsb'_toNat, Nat.shiftRight_zero]

theorem toNat_unpackExponent : (unpackExponent b).toNat = b.toNat / 0x10000000000000 % 0x800 := by
  change (b.extractLsb' 52 11).toNat = _
  rw [BitVec.extractLsb'_toNat, Nat.shiftRight_eq_div_pow]

theorem toNat_unpackSign : (unpackSign b).toNat = b.toNat / 0x8000000000000000 := by
  have hlt : b.toNat < 0x10000000000000000 := b.isLt
  change (b.extractLsb' 63 1).toNat = _
  rw [BitVec.extractLsb'_toNat, Nat.shiftRight_eq_div_pow]
  omega

end

/-- A word is known by its three fields. -/
theorem eq_of_fields {a b : BitVec Format.binary64.numBits}
    (hm : unpackMantissa a = unpackMantissa b) (he : unpackExponent a = unpackExponent b)
    (hs : unpackSign a = unpackSign b) : a = b := by
  have hm := congrArg BitVec.toNat hm
  have he := congrArg BitVec.toNat he
  have hs := congrArg BitVec.toNat hs
  rw [toNat_unpackMantissa, toNat_unpackMantissa] at hm
  rw [toNat_unpackExponent, toNat_unpackExponent] at he
  rw [toNat_unpackSign, toNat_unpackSign] at hs
  apply BitVec.eq_of_toNat_eq
  omega

theorem ofBitVec_inj {a b : BitVec 1} (h : Sign.ofBitVec a = Sign.ofBitVec b) : a = b := by
  unfold Sign.ofBitVec at h
  split at h <;> split at h <;> cases h
  · simp_all
  · have ha := a.isLt
    have hb := b.isLt
    apply BitVec.eq_of_toNat_eq
    simp_all [BitVec.toNat_eq]
    omega

/-- The five sorts of numbers by their bits. -/
theorem unpack_cases (b : BitVec Format.binary64.numBits) :
    (unpackExponent b = -1#11 ∧ unpackMantissa b = 0#52 ∧
      UnpackedFloat.unpack Format.binary64 b = .infinity (Sign.ofBitVec (unpackSign b))) ∨
    (unpackExponent b = -1#11 ∧ UnpackedFloat.unpack Format.binary64 b = .notANumber) ∨
    (unpackExponent b = 0#11 ∧ unpackMantissa b = 0#52 ∧
      UnpackedFloat.unpack Format.binary64 b = .zero (Sign.ofBitVec (unpackSign b))) ∨
    (unpackExponent b = 0#11 ∧ ∃ h, UnpackedFloat.unpack Format.binary64 b =
      .finite (Sign.ofBitVec (unpackSign b)) (unpackMantissa b).toNat (-1074) h) ∨
    (unpackExponent b ≠ -1#11 ∧ unpackExponent b ≠ 0#11 ∧
      ∃ h, UnpackedFloat.unpack Format.binary64 b =
        .finite (Sign.ofBitVec (unpackSign b)) (0x10000000000000 + (unpackMantissa b).toNat)
          ((unpackExponent b).toNat - 1075) h) := by
  have hunpack : UnpackedFloat.unpack Format.binary64 b =
      if unpackExponent b = -1#11 then
        if unpackMantissa b = 0#52 then .infinity (Sign.ofBitVec (unpackSign b)) else .notANumber
      else if unpackExponent b = 0#11 then _ else _ := rfl
  rw [hunpack]
  by_cases hone : unpackExponent b = -1#11
  · rw [if_pos hone]
    by_cases hm : unpackMantissa b = 0#52
    · exact .inl ⟨hone, hm, if_pos hm⟩
    · exact .inr (.inl ⟨hone, if_neg hm⟩)
  rw [if_neg hone]
  by_cases hzero : unpackExponent b = 0#11
  · rw [if_pos hzero]
    by_cases hm : unpackMantissa b = 0#52
    · exact .inr (.inr (.inl ⟨hzero, hm, dif_pos hm⟩))
    · have hpos : 0 < (unpackMantissa b).toNat :=
        Nat.pos_of_ne_zero fun h => hm (BitVec.eq_of_toNat_eq h)
      refine .inr (.inr (.inr (.inl ⟨hzero, hpos, ?_⟩)))
      rw [dif_neg hm, hzero]
      rfl
  · rw [if_neg hzero]
    have hm : (1#1 ++ unpackMantissa b).toNat = 0x10000000000000 + (unpackMantissa b).toNat := by
      rw [BitVec.toNat_append, ← Nat.shiftLeft_add_eq_or_of_lt (unpackMantissa b).isLt]
      rfl
    have hsame : ∀ (k : Nat) (hk : 0 < k), k = 0x10000000000000 + (unpackMantissa b).toNat →
        ∃ h, UnpackedFloat.finite (Sign.ofBitVec (unpackSign b)) k
          ((unpackExponent b).toNat - 1075) hk = .finite (Sign.ofBitVec (unpackSign b))
          (0x10000000000000 + (unpackMantissa b).toNat) ((unpackExponent b).toNat - 1075) h := by
      rintro k hk rfl
      exact ⟨hk, rfl⟩
    exact .inr (.inr (.inr (.inr ⟨hone, hzero, hsame _ _ hm⟩)))

/-- Numbers have one word each. -/
theorem unpack_inj {a b : BitVec Format.binary64.numBits}
    (h : UnpackedFloat.unpack Format.binary64 a = UnpackedFloat.unpack Format.binary64 b)
    (hn : UnpackedFloat.unpack Format.binary64 a ≠ .notANumber) : a = b := by
  have hla : (unpackMantissa a).toNat < 0x10000000000000 := (unpackMantissa a).isLt
  have hlb : (unpackMantissa b).toNat < 0x10000000000000 := (unpackMantissa b).isLt
  have hfields : Sign.ofBitVec (unpackSign a) = Sign.ofBitVec (unpackSign b) →
      unpackExponent a = unpackExponent b → unpackMantissa a = unpackMantissa b → a = b :=
    fun hs he hm => eq_of_fields hm he (ofBitVec_inj hs)
  rcases unpack_cases a with
    ⟨he, hm, hu⟩ | ⟨-, hu⟩ | ⟨he, hm, hu⟩ | ⟨he, hp, hu⟩ | ⟨-, -, hp, hu⟩
  case inr.inl => exact absurd hu hn
  all_goals
    rcases unpack_cases b with
      ⟨he', hm', hu'⟩ | ⟨-, hu'⟩ | ⟨he', hm', hu'⟩ | ⟨he', hp', hu'⟩ | ⟨-, -, hp', hu'⟩ <;>
    rw [hu, hu'] at h <;> try cases h
  · exact hfields (infinity.inj h) (he.trans he'.symm) (hm.trans hm'.symm)
  · exact hfields (zero.inj h) (he.trans he'.symm) (hm.trans hm'.symm)
  all_goals obtain ⟨hs, hmantissa, hexponent⟩ := finite.inj h
  · exact hfields hs (he.trans he'.symm) (BitVec.eq_of_toNat_eq hmantissa)
  · omega
  · omega
  · exact hfields hs (BitVec.eq_of_toNat_eq (by omega)) (BitVec.eq_of_toNat_eq (by omega))

/-- A number is known by its sort, mantissa and exponent. -/
theorem eq_of_unpack {x y : Float} (h : x.toModel.unpack = y.toModel.unpack)
    (hn : x.toModel.unpack ≠ .notANumber) : x = y := by
  have hbits := unpack_inj h hn
  obtain ⟨⟨bits, hv⟩⟩ := x
  obtain ⟨⟨bits', hv'⟩⟩ := y
  obtain rfl : bits = bits' := UInt64.eq_of_toBitVec_eq hbits
  rfl

/-- Numbers of equal value are the same number, or both are zero. -/
theorem eq_or_zero_of_compare {a b : UnpackedFloat} (h : UnpackedFloat.compare a b = some .eq) :
    a ≠ .notANumber ∧ (a = b ∨ ∃ s t, a = .zero s ∧ b = .zero t) := by
  cases a with
  | notANumber => cases b <;> cases h
  | infinity s =>
      refine ⟨nofun, .inl ?_⟩
      cases b with
      | infinity t => cases s <;> cases t <;> first | rfl | cases h
      | _ => cases s <;> cases h
  | zero s =>
      cases b with
      | zero t => exact ⟨nofun, .inr ⟨s, t, rfl, rfl⟩⟩
      | infinity t | finite t m e hm => cases t <;> cases h
      | notANumber => cases h
  | finite s m e hm =>
      refine ⟨nofun, .inl ?_⟩
      cases b with
      | zero t => cases s <;> cases h
      | infinity t => cases t <;> cases h
      | notANumber => cases h
      | finite t m' e' hm' =>
          have hparts : (Ord.compare e e').then (Ord.compare m m') = .eq → e = e' ∧ m = m' := by
            intro ho
            simpa [Ordering.then_eq_eq] using ho
          cases s <;> cases t <;> try cases h
          · obtain ⟨rfl, rfl⟩ := hparts (Ordering.swap_eq_eq.1 (Option.some.inj h))
            rfl
          · obtain ⟨rfl, rfl⟩ := hparts (Option.some.inj h)
            rfl

/-- The exponent field in the bits of a number. -/
theorem toNat_biased (x : Float) : ((x.toBits >>> 52) &&& 0x7FF).toNat =
    (@unpackExponent Format.binary64 x.toModel.toBits.toBitVec).toNat := by
  rw [toNat_unpackExponent, UInt64.toNat_and, UInt64.toNat_shiftRight, Nat.shiftRight_eq_div_pow]
  exact Nat.and_two_pow_sub_one_eq_mod _ 11

/-- The mantissa field in the bits of a number. -/
theorem toNat_fraction (x : Float) : (x.toBits &&& 0xFFFFFFFFFFFFF).toNat =
    (@unpackMantissa Format.binary64 x.toModel.toBits.toBitVec).toNat := by
  rw [toNat_unpackMantissa, UInt64.toNat_and]
  exact Nat.and_two_pow_sub_one_eq_mod _ 52

theorem toInt?_of_zero {x : Float} {s : Sign} (h : x.toModel.unpack = .zero s) :
    toInt? x = some 0 := by
  have hnan : x.isNaN = false := by
    show x.toModel.unpack.isNaN = false
    rw [h]
    rfl
  have hinf : x.isInf = false := by
    show x.toModel.unpack.isInf = false
    rw [h]
    rfl
  have hbits : Decimal.Binary.ofBits x.toBits = ⟨0, -1074, false⟩ := by
    rcases unpack_cases x.toModel.toBits.toBitVec with
      ⟨he, hm, hu⟩ | ⟨-, hu⟩ | ⟨he, hm, hu⟩ | ⟨he, hp, hu⟩ | ⟨-, -, hp, hu⟩
    case inr.inr.inl =>
      have hbiased : ((x.toBits >>> 52) &&& 0x7FF).toNat = 0 := by
        rw [toNat_biased, he]
        rfl
      have hfraction : (x.toBits &&& 0xFFFFFFFFFFFFF).toNat = 0 := by
        rw [toNat_fraction, hm]
        rfl
      simp only [Decimal.Binary.ofBits, hbiased, hfraction, if_true]
    all_goals
      have hu := h.symm.trans hu
      cases hu
  simp only [toInt?, hnan, hinf, hbits, Bool.or_self, Bool.false_eq_true, if_false, Nat.zero_mod,
    Nat.zero_mul, Nat.zero_div, if_true]
  simp

/-- Equal numbers have one text. -/
theorem text_eq_of_beq {x y : Float} (h : (x == y) = true) : text x = text y := by
  have hcompare : UnpackedFloat.compare x.toModel.unpack y.toModel.unpack = some .eq := by
    change (UnpackedFloat.compare x.toModel.unpack y.toModel.unpack == some .eq) = true at h
    simpa using h
  obtain ⟨hn, heq | ⟨s, t, hx, hy⟩⟩ := eq_or_zero_of_compare hcompare
  · rw [eq_of_unpack heq hn]
  · rw [text, text, toInt?_of_zero hx, toInt?_of_zero hy]

end Pseudocode.Number

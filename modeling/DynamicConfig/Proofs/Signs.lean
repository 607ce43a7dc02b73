import Mathlib
import DynamicConfig.Proofs.Numerals
/-!
# Signs of numbers

A double is a sign, an exponent and a fraction, and its opposite has the other sign (`Decimal.Components`). So a finite
number with a sign is spelled as its opposite after a `-` (`Decimal.spell_negative`), and if it is read back with its
sign then its opposite is read back without one (`Decimal.PrintsBack.opposite`).
-/

namespace DynamicConfig.Decimal

open Float.Model (Format UnpackedFloat)
open Float.Model.UnpackedFloat (Sign packComponents)

/-! ## Parts of a double -/

/-- The sign, exponent and fraction of a double. The greatest exponent without a fraction is that of infinity. -/
structure Components where
  sign : Sign
  exponent : BitVec 11
  fraction : BitVec 52
  /-- They are not those of `NaN`. -/
  number : exponent = -1#11 → fraction = 0#52

namespace Components

/-- The bits of a double with these parts. -/
def bits (c : Components) : BitVec 64 :=
  packComponents Format.binary64 c.sign c.exponent c.fraction

/-- The parts with the other sign. -/
def neg (c : Components) : Components :=
  { c with sign := -c.sign }

@[simp]
theorem neg_neg (c : Components) : c.neg.neg = c := by
  obtain ⟨sign, exponent, fraction, number⟩ := c
  cases sign <;> rfl

theorem toNat_bits (c : Components) :
    c.bits.toNat = c.sign.toBitVec.toNat * 2 ^ 63 + c.exponent.toNat * 2 ^ 52 + c.fraction.toNat := by
  have happend : c.bits = c.sign.toBitVec ++ c.exponent ++ c.fraction := rfl
  rw [happend, BitVec.toNat_append, BitVec.toNat_append, ← Nat.shiftLeft_add_eq_or_of_lt c.exponent.isLt,
    ← Nat.shiftLeft_add_eq_or_of_lt c.fraction.isLt, Nat.shiftLeft_eq, Nat.shiftLeft_eq]
  omega

theorem bits_ne_packedNaN (c : Components) : c.bits ≠ UnpackedFloat.packedNaN Format.binary64 := by
  intro h
  have hexponent := congrArg (@UnpackedFloat.unpackExponent Format.binary64) h
  have hfraction := congrArg (@UnpackedFloat.unpackMantissa Format.binary64) h
  rw [bits, UnpackedFloat.packedNaN, UnpackedFloat.unpackExponent_packComponents,
    UnpackedFloat.unpackExponent_packComponents] at hexponent
  rw [bits, UnpackedFloat.packedNaN, UnpackedFloat.unpackMantissa_packComponents,
    UnpackedFloat.unpackMantissa_packComponents, c.number hexponent] at hfraction
  revert hfraction
  decide

theorem bits_inj {c d : Components} (h : c.bits = d.bits) : c = d := by
  have hsign := congrArg (@UnpackedFloat.unpackSign Format.binary64) h
  have hexponent := congrArg (@UnpackedFloat.unpackExponent Format.binary64) h
  have hfraction := congrArg (@UnpackedFloat.unpackMantissa Format.binary64) h
  simp only [bits, UnpackedFloat.unpackSign_packComponents, UnpackedFloat.unpackExponent_packComponents,
    UnpackedFloat.unpackMantissa_packComponents] at hsign hexponent hfraction
  obtain ⟨s, e, f, _⟩ := c
  obtain ⟨s', e', f', _⟩ := d
  obtain rfl : e = e' := hexponent
  obtain rfl : f = f' := hfraction
  cases s <;> cases s' <;> first | rfl | cases hsign

/-- A number other than `NaN` is packed from such parts, and its opposite from those with the other sign. -/
theorem exists_of_pack {u : UnpackedFloat} (h : u ≠ .notANumber) :
    ∃ c : Components, u.pack Format.binary64 = c.bits ∧ u.neg.pack Format.binary64 = c.neg.bits := by
  cases u with
  | notANumber => exact (h rfl).elim
  | infinity s => exact ⟨⟨s, -1#11, 0, fun _ => rfl⟩, rfl, rfl⟩
  | zero s => exact ⟨⟨s, 0, 0, fun _ => rfl⟩, rfl, rfl⟩
  | finite s m e hm =>
    simp only [UnpackedFloat.neg, UnpackedFloat.pack]
    split
    · exact ⟨⟨s, -1#11, 0, fun _ => rfl⟩, rfl, rfl⟩
    · rename_i hlow
      split
      · refine ⟨⟨s, _, _, fun he => (hlow ?_).elim⟩, rfl, rfl⟩
        have := congrArg BitVec.toNat he
        simp [Format.binary64] at this hlow ⊢
        omega
      · exact ⟨⟨s, 0, _, fun he => absurd he (by decide)⟩, rfl, rfl⟩

end Components

/-! ## Opposites -/

variable {x : Float}

/-- The bits of a number other than `NaN` and those of its opposite. -/
theorem exists_components (h : x.isNaN = false) :
    ∃ c : Components, x.toBits.toBitVec = c.bits ∧ (-x).toBits.toBitVec = c.neg.bits := by
  have hne : x.toModel.unpack ≠ .notANumber := by
    intro hnan
    rw [Float.isNaN, Float.Model.isNaN, hnan] at h
    cases h
  obtain ⟨c, hbits, hneg⟩ := Components.exists_of_pack hne
  exact ⟨c, (UnpackedFloat.pack_unpack_of_valid x.toModel.valid).symm.trans hbits, hneg⟩

section Bits

variable {c : Components} (hbits : x.toBits.toBitVec = c.bits)
include hbits

theorem isNaN_of_bits : x.isNaN = false := by
  rw [← Bool.not_eq_true]
  intro hnan
  exact c.bits_ne_packedNaN (hbits.symm.trans ((UnpackedFloat.isNaN_unpack_iff_of_valid x.toModel.valid).1 hnan))

theorem isInf_of_bits : x.isInf = decide (c.exponent = -1#11) := by
  have hunpack : x.isInf = (UnpackedFloat.unpack Format.binary64 c.bits).isInf := by rw [← hbits]; rfl
  rw [hunpack, Components.bits, UnpackedFloat.unpack]
  simp only [UnpackedFloat.unpackExponent_packComponents, UnpackedFloat.unpackMantissa_packComponents]
  split
  · rename_i hexponent
    rw [if_pos (c.number hexponent), decide_eq_true hexponent]
    rfl
  · rename_i hexponent
    rw [decide_eq_false hexponent]
    split
    · split <;> rfl
    · rfl

/-- The sign bit. -/
theorem sign_of_bits : x.toBits >>> 63 = 1 ↔ c.sign = .negative := by
  have htoNat : x.toBits.toNat = c.bits.toNat := congrArg BitVec.toNat hbits
  rw [c.toNat_bits] at htoNat
  have he := c.exponent.isLt
  have hf := c.fraction.isLt
  rw [← UInt64.toNat_inj, UInt64.toNat_shiftRight, htoNat, Nat.shiftRight_eq_div_pow]
  cases c.sign <;> simp [Sign.toBitVec] <;> omega

theorem toNat_toBits_of_bits :
    x.toBits.toNat = c.sign.toBitVec.toNat * 2 ^ 63 + c.exponent.toNat * 2 ^ 52 + c.fraction.toNat :=
  (congrArg BitVec.toNat hbits).trans c.toNat_bits

/-- The 11 bits after the sign. -/
theorem exponent_of_bits : ((x.toBits >>> 52) &&& 0x7FF).toNat = c.exponent.toNat := by
  have he := c.exponent.isLt
  have hf := c.fraction.isLt
  have hs := c.sign.toBitVec.isLt
  rw [UInt64.toNat_and, UInt64.toNat_shiftRight, Nat.shiftRight_eq_div_pow, toNat_toBits_of_bits hbits]
  show _ &&& (2 ^ 11 - 1) = _
  rw [Nat.and_two_pow_sub_one_eq_mod]
  show (_ / 2 ^ 52) % _ = _
  omega

/-- The last 52 bits. -/
theorem fraction_of_bits : (x.toBits &&& 0xFFFFFFFFFFFFF).toNat = c.fraction.toNat := by
  have hf := c.fraction.isLt
  rw [UInt64.toNat_and, toNat_toBits_of_bits hbits]
  show _ &&& (2 ^ 52 - 1) = _
  rw [Nat.and_two_pow_sub_one_eq_mod]
  omega

/-- The magnitude of a number does not depend on its sign. -/
theorem binary_of_bits {y : Float} (hy : y.toBits.toBitVec = c.neg.bits) :
    Binary.ofBits x.toBits = Binary.ofBits y.toBits := by
  unfold Binary.ofBits
  rw [exponent_of_bits hbits, exponent_of_bits hy, fraction_of_bits hbits, fraction_of_bits hy]
  rfl

end Bits

theorem isNaN_neg (h : x.isNaN = false) : (-x).isNaN = false := by
  obtain ⟨c, -, hneg⟩ := exists_components h
  exact isNaN_of_bits hneg

theorem neg_neg_of_number (h : x.isNaN = false) : - -x = x := by
  obtain ⟨c, hbits, hneg⟩ := exists_components h
  obtain ⟨d, hd, hdneg⟩ := exists_components (isNaN_neg h)
  obtain rfl := Components.bits_inj (hd.symm.trans hneg)
  rw [Components.neg_neg] at hdneg
  exact Float.toBits_inj.1 (UInt64.toBitVec_inj.1 (hdneg.trans hbits.symm))

theorem isInf_neg (h : x.isNaN = false) : (-x).isInf = x.isInf := by
  obtain ⟨c, hbits, hneg⟩ := exists_components h
  rw [isInf_of_bits hbits, isInf_of_bits hneg]
  rfl

theorem beq_zero_neg (h : x.isNaN = false) : (-x == 0) = (x == 0) := by
  have hzero (y : Float) : (y == 0) = true ↔ y = 0 ∨ y = -0 := by
    rw [Float.beq_iff_ne_nan_and_eq]
    constructor
    · rintro ⟨-, -, rfl | ⟨rfl, -⟩ | ⟨rfl, -⟩⟩
      · exact .inl rfl
      · exact .inl rfl
      · exact .inr rfl
    · rintro (rfl | rfl)
      · exact ⟨by decide +kernel, by decide +kernel, .inl rfl⟩
      · exact ⟨by decide +kernel, by decide +kernel, .inr (.inr ⟨rfl, rfl⟩)⟩
  rw [Bool.eq_iff_iff, hzero, hzero]
  constructor
  · rintro (h0 | h0)
    · exact .inr (by rw [← h0, neg_neg_of_number h])
    · exact .inl (by rw [← neg_neg_of_number h, h0]; decide +kernel)
  · rintro (rfl | rfl)
    · exact .inr rfl
    · exact .inl (by decide +kernel)

/-! ## Spelling -/

/-- The number that is greater than every finite one. -/
def infinity : Float :=
  Float.ofBits 0x7FF0000000000000

/-- A number without an end is infinity or its opposite. -/
theorem eq_infinity_or_neg (hnan : x.isNaN = false) (h : x.isInf = true) : x = infinity ∨ x = -infinity := by
  obtain ⟨⟨sign, e, f, number⟩, hbits, -⟩ := exists_components hnan
  rw [isInf_of_bits hbits, decide_eq_true_eq] at h
  obtain rfl : e = -1#11 := h
  obtain rfl : f = 0#52 := number rfl
  have heq (y : Float) (hy : y.toBits.toBitVec = packComponents Format.binary64 sign (-1#11) 0#52) : x = y :=
    Float.toBits_inj.1 (UInt64.toBitVec_inj.1 (hbits.trans hy.symm))
  cases sign with
  | positive => exact .inl (heq _ (by decide +kernel))
  | negative => exact .inr (heq _ (by decide +kernel))

theorem spell_infinity : spell infinity = "math.Inf" ∧ spell (-infinity) = "-math.Inf" := by
  decide +kernel

/-- A number below zero, or minus zero, is spelled as its opposite with a sign. -/
theorem spell_negative (hnan : x.isNaN = false) (hinf : x.isInf = false) (hsign : x.toBits >>> 63 = 1) :
    spell x = "-" ++ spell (-x) ∧ ¬ (-x).toBits >>> 63 = 1 := by
  obtain ⟨c, hbits, hneg⟩ := exists_components hnan
  have hnegative := (sign_of_bits hbits).1 hsign
  have hpositive : ¬ (-x).toBits >>> 63 = 1 := by
    rw [sign_of_bits hneg, Components.neg, hnegative]
    simp [Neg.neg]
  refine ⟨?_, hpositive⟩
  have hshortest : shortest (-x) .up = shortest x .up := by rw [shortest, shortest, binary_of_bits hbits hneg]
  unfold spell
  rw [hnan, isNaN_neg hnan, hinf, isInf_neg hnan, hinf]
  simp only [Bool.false_eq_true, if_false]
  unfold Layout.render
  rw [if_pos hsign, if_neg hpositive, beq_zero_neg hnan]
  show String.ofList (['-'] ++ (if (x == 0) = true then _ else sourceLayout.magnitudeText (shortest x .up))) = _
  rw [← hshortest, String.ofList_append]
  rfl

example : spell (-0.0) = "-0" := by decide +kernel

/-! ## Reading back -/

/-- The number that a text stands for, which may begin with a sign. -/
def readSigned? : List Char → Option Float
  | '-' :: rest => (Literal.read? rest).map fun l => -l.value
  | chars => (Literal.read? chars).map Literal.value

/-- A number that is read back, with its sign, from the way it is spelled. -/
def PrintsBack (x : Float) : Prop :=
  readSigned? (spell x).toList = some x

instance (x : Float) : Decidable (PrintsBack x) :=
  inferInstanceAs (Decidable (readSigned? (spell x).toList = some x))

/-- A literal has no sign. -/
theorem PrintsBack.unsigned (h : PrintsBack x) (hnan : x.isNaN = false) (hinf : x.isInf = false)
    (hsign : ¬ x.toBits >>> 63 = 1) : (Literal.read? (spell x).toList).map Literal.value = some x := by
  obtain ⟨c, rest, hchars, hdigit⟩ := (isNumeral_spell_of_unsigned hnan hinf hsign).exists_digit
  rw [PrintsBack, hchars] at h
  rw [hchars, ← h]
  unfold readSigned?
  split
  · rename_i heq
    cases heq
    cases hdigit
  · rfl

theorem PrintsBack.opposite (h : PrintsBack x) (hnan : x.isNaN = false) (hinf : x.isInf = false)
    (hsign : x.toBits >>> 63 = 1) : (Literal.read? (spell (-x)).toList).map Literal.value = some (-x) := by
  obtain ⟨hspell, -⟩ := spell_negative hnan hinf hsign
  rw [PrintsBack, hspell, String.toList_append] at h
  obtain ⟨l, hread, hvalue⟩ : ∃ l, Literal.read? (spell (-x)).toList = some l ∧ -l.value = x :=
    Option.map_eq_some_iff.1 h
  have hl : l.value.isNaN = false := by
    rw [Float.isNaN_eq_decide_eq_nan, decide_eq_false_iff_not]
    intro hl
    rw [hl, show -Float.nan = Float.nan by decide +kernel] at hvalue
    rw [← hvalue, Float.isNaN_eq_decide_eq_nan] at hnan
    simp at hnan
  rw [hread, ← hvalue, neg_neg_of_number hl]
  rfl

end DynamicConfig.Decimal

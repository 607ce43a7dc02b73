import Mathlib
import DynamicConfig.Proofs.Signs
/-!
# Whole numbers as doubles

A double has 53 binary digits. So a whole number below 2⁵³ has a double that no other whole number is rounded to
(`eq_of_ofNat_beq`), and no whole number has a `NaN`. The decimal digits of a whole number are a numeral of its double.
-/

namespace DynamicConfig.Decimal

open Float.Model (Format UnpackedFloat totalExponent)
open Float.Model.UnpackedFloat

/-! ## Rounding -/

section Rounding

variable {m k : Nat} {e : Int} {accuracy : Accuracy}

theorem log2_mul_two_pow (hm : m ≠ 0) (k : Nat) : (m * 2 ^ k).log2 = m.log2 + k := by
  induction k with
  | zero => rw [Nat.pow_zero, Nat.mul_one, Nat.add_zero]
  | succ k ih =>
    have hne : m * 2 ^ k ≠ 0 := Nat.mul_ne_zero hm (Nat.two_pow_pos k).ne'
    rw [Nat.pow_succ, ← Nat.mul_assoc, Nat.mul_comm, Nat.log2_two_mul hne, ih, Nat.add_assoc]

/-- A number of 53 digits. -/
theorem log2_eq_iff_normal : m.log2 = 52 ↔ 2 ^ 52 ≤ m ∧ m < 2 ^ 53 := by
  by_cases hm : m = 0
  · subst hm
    decide
  · exact Nat.log2_eq_iff hm

theorem mantissa_shiftRight (em : ExtendedMantissa) (k : Nat) : (em >>> k).mantissa = em.mantissa / 2 ^ k := by
  induction k with
  | zero => exact (Nat.div_one _).symm
  | succ k ih =>
    show (em >>> k).mantissa / 2 = _
    rw [ih, Nat.div_div_eq_div_mul, Nat.pow_succ]

/-- Zeros are shifted out without a trace. -/
theorem exact_shiftRight (m k : Nat) :
    (⟨m * 2 ^ k, false, false⟩ : ExtendedMantissa) >>> k = ⟨m, false, false⟩ := by
  induction k generalizing m with
  | zero => rw [Nat.pow_zero, Nat.mul_one]; rfl
  | succ k ih =>
    have hshift : (⟨m * 2 ^ (k + 1), false, false⟩ : ExtendedMantissa) >>> k = ⟨m * 2, false, false⟩ := by
      rw [← ih (m * 2), Nat.pow_succ, Nat.mul_comm (2 ^ k), Nat.mul_assoc]
    show ((⟨m * 2 ^ (k + 1), false, false⟩ : ExtendedMantissa) >>> k).shiftRightOne = _
    rw [hshift, ExtendedMantissa.shiftRightOne]
    simp

theorem roundedMantissa_bounds (em : ExtendedMantissa) :
    em.mantissa ≤ em.roundedMantissa ∧ em.roundedMantissa ≤ em.mantissa + 1 := by
  obtain ⟨mantissa, roundBit, stickyBit⟩ := em
  cases roundBit <;> cases stickyBit <;>
    simp only [ExtendedMantissa.roundedMantissa, ExtendedMantissa.accuracy, Accuracy.roundToNearestEven] <;> omega

/-- All digits but the first 53 are shifted out. -/
theorem shiftToTargetExponent_of_log2 (hm : m.log2 = 52 + k) (he : -1074 ≤ e + k) (accuracy : Accuracy) :
    shiftToTargetExponent Format.binary64 m e accuracy =
      (ExtendedMantissa.ofMantissaAndAccuracy m accuracy >>> k, e + k) := by
  have htarget : Format.binary64.targetExponent (totalExponent m e) = e + k := by
    have hmin : Format.binary64.minExponent = -1074 := by decide
    rw [Format.targetExponent, totalExponent, hm, hmin, Format.mantissaBits]
    push_cast
    omega
  have hshift : (e + k - e).toNat = k := by omega
  rw [shiftToTargetExponent, htarget, shiftToExponent, hshift]

/-- A number is rounded to 53 digits, unless that takes one more. -/
theorem roundWithAccuracy_of_lt {r : Nat} (sign : Sign) (hm : m.log2 = 52 + k) (he : -1074 ≤ e + k)
    (hr : (ExtendedMantissa.ofMantissaAndAccuracy m accuracy >>> k).roundedMantissa = r) (hlow : 2 ^ 52 ≤ r)
    (hhigh : r < 2 ^ 53) :
    roundWithAccuracy Format.binary64 sign m e accuracy = .finite sign r (e + k) (by omega) := by
  have hsecond : shiftToTargetExponent Format.binary64 r (e + k) .exact = (⟨r, false, false⟩, e + k) :=
    (shiftToTargetExponent_of_log2 (k := 0) (log2_eq_iff_normal.2 ⟨hlow, hhigh⟩) (by omega) .exact).trans
      (congrArg (Prod.mk _) (Int.add_zero _))
  rw [roundWithAccuracy, shiftToTargetExponent_of_log2 hm he]
  simp only [hr, hsecond, dif_neg (show r ≠ 0 by omega)]

/-- Where rounding takes one more digit, that is a zero. -/
theorem roundWithAccuracy_of_carry (sign : Sign) (hm : m.log2 = 52 + k) (he : -1074 ≤ e + k)
    (hr : (ExtendedMantissa.ofMantissaAndAccuracy m accuracy >>> k).roundedMantissa = 2 ^ 53) :
    roundWithAccuracy Format.binary64 sign m e accuracy = .finite sign (2 ^ 52) (e + k + 1) (by decide) := by
  have hsecond : shiftToTargetExponent Format.binary64 (2 ^ 53) (e + k) .exact = (⟨2 ^ 52, false, false⟩, e + k + 1) :=
    shiftToTargetExponent_of_log2 (k := 1) (by decide +kernel) (by omega) .exact
  rw [roundWithAccuracy, shiftToTargetExponent_of_log2 hm he]
  simp only [hr, hsecond]
  rfl

/-- What has 53 digits and zeros after them is not changed. -/
theorem roundWithAccuracy_exact (sign : Sign) (hlow : 2 ^ 52 ≤ m) (hhigh : m < 2 ^ 53) (he : -1074 ≤ e + k) :
    roundWithAccuracy Format.binary64 sign (m * 2 ^ k) e .exact = .finite sign m (e + k) (by omega) := by
  have hlog : (m * 2 ^ k).log2 = 52 + k := by
    rw [log2_mul_two_pow (by omega), log2_eq_iff_normal.2 ⟨hlow, hhigh⟩]
  have hshifted : ExtendedMantissa.ofMantissaAndAccuracy (m * 2 ^ k) .exact >>> k = ⟨m, false, false⟩ :=
    exact_shiftRight m k
  exact roundWithAccuracy_of_lt sign hlog he (by rw [hshifted]; rfl) hlow hhigh

/-- What has more digits is rounded to 53 of them, and the exponent counts at least those that are lost. -/
theorem exists_roundWithAccuracy (sign : Sign) (hm : m.log2 = 52 + k) (he : -1074 ≤ e + k) :
    ∃ r exponent h, roundWithAccuracy Format.binary64 sign m e .exact = .finite sign r exponent h ∧
      2 ^ 52 ≤ r ∧ r < 2 ^ 53 ∧ e + k ≤ exponent := by
  have hpos : m ≠ 0 := by
    rintro rfl
    rw [Nat.log2_zero] at hm
    omega
  obtain ⟨hmlow, hmhigh⟩ := (Nat.log2_eq_iff hpos).1 hm
  obtain ⟨hlow, hhigh⟩ := roundedMantissa_bounds (ExtendedMantissa.ofMantissaAndAccuracy m .exact >>> k)
  rw [mantissa_shiftRight] at hlow hhigh
  have hquotientLow : 2 ^ 52 ≤ m / 2 ^ k := by
    rwa [Nat.le_div_iff_mul_le (Nat.two_pow_pos k), ← Nat.pow_add]
  have hquotientHigh : m / 2 ^ k < 2 ^ 53 := by
    rwa [Nat.div_lt_iff_lt_mul (Nat.two_pow_pos k), ← Nat.pow_add, show 53 + k = 52 + k + 1 by omega]
  change m / 2 ^ k ≤ _ at hlow
  change _ ≤ m / 2 ^ k + 1 at hhigh
  generalize hr : (ExtendedMantissa.ofMantissaAndAccuracy m .exact >>> k).roundedMantissa = r at hlow hhigh
  rcases Nat.lt_or_ge r (2 ^ 53) with hlt | hge
  · exact ⟨r, e + k, by omega, roundWithAccuracy_of_lt sign hm he hr (by omega) hlt, by omega, hlt, Int.le_refl _⟩
  · obtain rfl : r = 2 ^ 53 := by omega
    exact ⟨2 ^ 52, e + k + 1, by decide, roundWithAccuracy_of_carry sign hm he hr, Nat.le_refl _, by decide, by omega⟩

end Rounding

/-! ## Bits -/

/-- The exponent and the fraction of a number with 53 digits, of which the fraction leaves out the first. -/
theorem exists_components_of_normal {m : Nat} {e : Int} (hlow : 2 ^ 52 ≤ m) (hhigh : m < 2 ^ 53) (he : -1074 ≤ e)
    (h : 0 < m) :
    ∃ c : Components, pack Format.binary64 (.finite .positive m e h) = c.bits ∧ c.sign = .positive ∧
      (c.exponent.toNat : Int) = min (e + 1075) 2047 ∧ (e ≤ 971 → c.fraction.toNat + 2 ^ 52 = m) := by
  have hbias : (e + Format.binary64.exponentBias + Format.binary64.mantissaBitsWithoutImplicit).toNat = (e + 1075).toNat := by
    rw [show Format.binary64.exponentBias = 1023 by decide]
    show (e + 1023 + 52).toNat = _
    omega
  have hlog : m.log2 + 1 = Format.binary64.mantissaBits := by rw [log2_eq_iff_normal.2 ⟨hlow, hhigh⟩]; rfl
  have hall : (-1#11).toNat = 2047 := by decide
  by_cases hover : 972 ≤ e
  · have hpack : pack Format.binary64 (.finite .positive m e h) = packedInfinity Format.binary64 .positive := by
      simp only [pack, hbias]
      rw [if_pos]
      show 2048 ≤ _
      omega
    refine ⟨⟨.positive, -1#11, 0#52, fun _ => rfl⟩, hpack, rfl, ?_, fun hle => absurd hle (by omega)⟩
    rw [hall]
    omega
  · have hexponent : (BitVec.ofNat 11 (e + 1075).toNat).toNat = (e + 1075).toNat := by
      rw [BitVec.toNat_ofNat]
      exact Nat.mod_eq_of_lt (by omega)
    have hpack : pack Format.binary64 (.finite .positive m e h) =
        packComponents Format.binary64 .positive (BitVec.ofNat 11 (e + 1075).toNat) (BitVec.ofNat 52 m) := by
      simp only [pack, hbias, hlog]
      rw [if_neg, if_pos trivial]
      show ¬ 2048 ≤ _
      omega
    refine ⟨⟨.positive, BitVec.ofNat 11 (e + 1075).toNat, BitVec.ofNat 52 m, fun hall' => ?_⟩, hpack, rfl, ?_, fun _ => ?_⟩
    · rw [hall', hall] at hexponent
      omega
    · rw [hexponent]
      omega
    · rw [BitVec.toNat_ofNat]
      omega

theorem unpack_pack_of_normal {m : Nat} {e : Int} (hlow : 2 ^ 52 ≤ m) (hhigh : m < 2 ^ 53) (he : -1074 ≤ e)
    (hle : e ≤ 971) (h : 0 < m) :
    unpack Format.binary64 (pack Format.binary64 (.finite .positive m e h)) = .finite .positive m e h := by
  obtain ⟨⟨sign, exponent, fraction, number⟩, hbits, hsign, hexponent, hfraction⟩ :=
    exists_components_of_normal hlow hhigh he h
  dsimp only at hsign hexponent hfraction
  subst hsign
  have hm : (1#1 ++ fraction).toNat = m := by
    rw [BitVec.toNat_append, ← Nat.shiftLeft_add_eq_or_of_lt fraction.isLt, ← hfraction hle]
    show 2 ^ 52 + _ = _
    omega
  have hne : exponent ≠ -1#11 := by
    rintro rfl
    rw [show (-1#11).toNat = 2047 by decide] at hexponent
    omega
  have hne' : exponent ≠ 0#11 := by
    rintro rfl
    rw [show (0#11).toNat = 0 by decide] at hexponent
    omega
  rw [hbits, Components.bits, unpack]
  simp only [unpackExponent_packComponents, unpackMantissa_packComponents, unpackSign_packComponents, if_neg hne, if_neg hne',
    Sign.ofBitVec_toBitVec, UnpackedFloat.finite.injEq]
  refine ⟨trivial, hm, ?_⟩
  show (exponent.toNat : Int) - (1023 + 52) = e
  omega

/-! ## Whole numbers -/

variable {n : Nat}

/-- Below 2⁵³ a whole number has all its digits, and zeros after them. -/
theorem unpacked_ofNat_of_lt (hpos : 0 < n) (h : n < 2 ^ 53) :
    2 ^ 52 ≤ n * 2 ^ (52 - n.log2) ∧ n * 2 ^ (52 - n.log2) < 2 ^ 53 ∧
      ∃ hm, UnpackedFloat.ofNat Format.binary64 n = .finite .positive (n * 2 ^ (52 - n.log2)) (n.log2 - 52) hm := by
  have hlog : n.log2 ≤ 52 := Nat.le_of_lt_succ ((Nat.log2_lt (by omega)).2 h)
  have hdigits : (n * 2 ^ (52 - n.log2)).log2 = 52 := by
    rw [log2_mul_two_pow (by omega)]
    omega
  obtain ⟨hdigitsLow, hdigitsHigh⟩ := log2_eq_iff_normal.1 hdigits
  have htarget : Format.binary64.targetExponent (totalExponent n 0) = n.log2 - 52 := by
    rw [Format.targetExponent, totalExponent, show Format.binary64.minExponent = -1074 by decide, Format.mantissaBits]
    push_cast
    omega
  have hshift : (0 - ((n.log2 : Int) - 52)).toNat = 52 - n.log2 := by omega
  have hexponent : (0 : Int) - (52 - n.log2 : Nat) = n.log2 - 52 := by omega
  refine ⟨hdigitsLow, hdigitsHigh, by omega, ?_⟩
  have hround : UnpackedFloat.ofNat Format.binary64 n = round Format.binary64 .positive n 0 := by
    rw [UnpackedFloat.ofNat, UnpackedFloat.ofInt, UnpackedFloat.normalize, Int.compare_eq_gt.2 (by omega)]
    rfl
  rw [hround, UnpackedFloat.round, htarget, decreaseExponent, hshift, hexponent, Nat.shiftLeft_eq]
  have hexact := roundWithAccuracy_exact (k := 0) .positive hdigitsLow hdigitsHigh
    (show -1074 ≤ (n.log2 : Int) - 52 + (0 : Nat) by omega)
  simpa using hexact

theorem unpack_one : (Float.ofBits 0x3FF0000000000000).toModel.unpack = .finite .positive (2 ^ 52) (-52) (by decide) :=
  rfl

theorem toModel_ofNat_of_lt (hpos : 0 < n) (h : n < 2 ^ 53) :
    ∃ hm, (Float.ofNat n).toModel = .pack (.finite .positive (n * 2 ^ (52 - n.log2)) (n.log2 - 52) hm) := by
  obtain ⟨hlow, hhigh, hm, hunpacked⟩ := unpacked_ofNat_of_lt hpos h
  have hlog : n.log2 ≤ 52 := Nat.le_of_lt_succ ((Nat.log2_lt (by omega)).2 h)
  have htoNat : n.toUInt64.toNat = n := Nat.mod_eq_of_lt (by omega)
  have hunpack : n.toUInt64.toFloat.toModel.unpack = UnpackedFloat.ofNat Format.binary64 n := by
    have hpack : n.toUInt64.toFloat.toModel.unpack =
        unpack Format.binary64 (pack Format.binary64 (UnpackedFloat.ofNat Format.binary64 n.toUInt64.toNat)) := rfl
    rw [hpack, htoNat, hunpacked, unpack_pack_of_normal hlow hhigh (by omega) (by omega)]
  have hproduct : (Float.ofNat n).toModel = .pack (UnpackedFloat.mul Format.binary64 n.toUInt64.toFloat.toModel.unpack
      (Float.ofBits 0x3FF0000000000000).toModel.unpack) := by
    have hsmall : Float.ofNat n = n.toUInt64.toFloat * Float.ofBits 0x3FF0000000000000 := by
      show Float.ofScientific n false 0 = _
      rw [Float.ofScientific, dif_pos ⟨h, by decide⟩]
      rfl
    rw [hsmall]
    rfl
  refine ⟨hm, ?_⟩
  have hexact := roundWithAccuracy_exact (k := 52) (e := (n.log2 - 52 : Int) + -52) .positive hlow hhigh (by omega)
  rw [hproduct, hunpack, hunpacked, unpack_one]
  show Float.Model.pack (roundWithAccuracy _ .positive _ _ _) = _
  rw [hexact]
  congr 2
  omega

theorem exists_toModel_ofNat_of_le (h : 2 ^ 53 ≤ n) :
    ∃ m e hm, (Float.ofNat n).toModel = .pack (.finite .positive m e hm) ∧ 2 ^ 52 ≤ m ∧ m < 2 ^ 53 ∧ 1 ≤ e := by
  have hpos : n ≠ 0 := by omega
  have hlog : 53 ≤ n.log2 := (Nat.le_log2 hpos).2 h
  have hexponent : -((53 : Nat) : Int) + 0 + ((n.log2 + 1 : Nat) : Int) = n.log2 - 52 := by omega
  have hscientific : (Float.ofNat n).toModel = .pack (roundWithAccuracy Format.binary64 .positive (n <<< 53 * 10 ^ 0)
      (-((53 : Nat) : Int) + 0) .exact) := by
    have hlarge : Float.ofNat n = .ofModel (.pack (UnpackedFloat.ofScientific Format.binary64 n 0)) := by
      show Float.ofScientific n false 0 = _
      rw [Float.ofScientific, dif_neg (by omega)]
      rfl
    have hfloor : ¬ (0 : Int) < -((2 ^ Format.binary64.exponentBits : Int) + n.log2) := by
      show ¬ (0 : Int) < -(2048 + n.log2)
      omega
    rw [hlarge, UnpackedFloat.ofScientific, dif_neg hpos, if_neg (by decide), if_neg hfloor, if_pos (Int.le_refl 0)]
    rfl
  have hshifted : (n <<< 53 * 10 ^ 0).log2 = 52 + (n.log2 + 1) := by
    rw [Nat.pow_zero, Nat.mul_one, Nat.shiftLeft_eq, log2_mul_two_pow hpos]
    omega
  obtain ⟨m, e, hm, hround, hlow, hhigh, he⟩ :=
    exists_roundWithAccuracy .positive hshifted (by rw [hexponent]; omega)
  rw [hexponent] at he
  exact ⟨m, e, hm, by rw [hscientific, hround], hlow, hhigh, Int.le_trans (by omega) he⟩

/-- The parts of the double of a whole number below 2⁵³ have all its digits. -/
theorem exists_components_ofNat_of_lt (hpos : 0 < n) (h : n < 2 ^ 53) :
    ∃ c : Components, (Float.ofNat n).toBits.toBitVec = c.bits ∧ c.sign = .positive ∧
      c.exponent.toNat = n.log2 + 1023 ∧ c.fraction.toNat + 2 ^ 52 = n * 2 ^ (52 - n.log2) := by
  obtain ⟨hlow, hhigh, -⟩ := unpacked_ofNat_of_lt hpos h
  obtain ⟨hm, hmodel⟩ := toModel_ofNat_of_lt hpos h
  have hlog : n.log2 ≤ 52 := Nat.le_of_lt_succ ((Nat.log2_lt (by omega)).2 h)
  obtain ⟨c, hbits, hsign, hexponent, hfraction⟩ :=
    exists_components_of_normal hlow hhigh (show -1074 ≤ (n.log2 : Int) - 52 by omega) hm
  refine ⟨c, ?_, hsign, by omega, hfraction (by omega)⟩
  rw [Float.toBits, hmodel]
  exact hbits

/-- The parts of the double of a whole number: from 2⁵³ on the exponent is greater than any below. -/
theorem exists_components_ofNat (n : Nat) :
    ∃ c : Components, (Float.ofNat n).toBits.toBitVec = c.bits ∧
      (n = 0 ∧ c.exponent.toNat = 0 ∨
        0 < n ∧ n.log2 ≤ 52 ∧ c.exponent.toNat = n.log2 + 1023 ∧ c.fraction.toNat + 2 ^ 52 = n * 2 ^ (52 - n.log2) ∨
        2 ^ 53 ≤ n ∧ 1076 ≤ c.exponent.toNat) := by
  rcases Nat.lt_or_ge n (2 ^ 53) with hlt | hge
  · rcases Nat.eq_zero_or_pos n with rfl | hpos
    · exact ⟨⟨.positive, 0, 0, fun _ => rfl⟩, by decide +kernel, .inl ⟨rfl, rfl⟩⟩
    · obtain ⟨c, hbits, -, hexponent, hfraction⟩ := exists_components_ofNat_of_lt hpos hlt
      have hlog : n.log2 ≤ 52 := Nat.le_of_lt_succ ((Nat.log2_lt (by omega)).2 hlt)
      exact ⟨c, hbits, .inr (.inl ⟨hpos, hlog, hexponent, hfraction⟩)⟩
  · obtain ⟨m, e, hm, hmodel, hlow, hhigh, he⟩ := exists_toModel_ofNat_of_le hge
    obtain ⟨c, hbits, -, hexponent, -⟩ := exists_components_of_normal hlow hhigh (show -1074 ≤ e by omega) hm
    refine ⟨c, ?_, .inr (.inr ⟨hge, by omega⟩)⟩
    rw [Float.toBits, hmodel]
    exact hbits

theorem isNaN_ofNat (n : Nat) : (Float.ofNat n).isNaN = false := by
  obtain ⟨c, hbits, -⟩ := exists_components_ofNat n
  exact isNaN_of_bits hbits

theorem isNaN_ofInt (n : Int) : (Float.ofInt n).isNaN = false := by
  cases n with
  | ofNat n => exact isNaN_ofNat n
  | negSucc n => exact isNaN_neg (isNaN_ofNat (n + 1))

/-- Equal numbers have the same exponent and the same fraction, also if they are zeros. -/
theorem parts_eq_of_beq {x y : Float} {c d : Components} (hx : x.toBits.toBitVec = c.bits)
    (hy : y.toBits.toBitVec = d.bits) (h : (x == y) = true) : c.exponent = d.exponent ∧ c.fraction = d.fraction := by
  have hzero {z : Float} {e : Components} (hz : z.toBits.toBitVec = e.bits) (h0 : z = 0 ∨ z = -0) :
      e.exponent = 0 ∧ e.fraction = 0 := by
    rcases h0 with rfl | rfl
    · obtain rfl : e = ⟨.positive, 0, 0, fun _ => rfl⟩ := Components.bits_inj (hz.symm.trans (by decide +kernel))
      exact ⟨rfl, rfl⟩
    · obtain rfl : e = ⟨.negative, 0, 0, fun _ => rfl⟩ := Components.bits_inj (hz.symm.trans (by decide +kernel))
      exact ⟨rfl, rfl⟩
  obtain ⟨-, -, rfl | ⟨h0, h0'⟩ | ⟨h0, h0'⟩⟩ := Float.beq_iff_ne_nan_and_eq.1 h
  · obtain rfl := Components.bits_inj (hx.symm.trans hy)
    exact ⟨rfl, rfl⟩
  · rw [(hzero hx (.inl h0)).1, (hzero hx (.inl h0)).2, (hzero hy (.inr h0')).1, (hzero hy (.inr h0')).2]
    exact ⟨rfl, rfl⟩
  · rw [(hzero hx (.inr h0)).1, (hzero hx (.inr h0)).2, (hzero hy (.inl h0')).1, (hzero hy (.inl h0')).2]
    exact ⟨rfl, rfl⟩

/-- No other whole number has the double of one below 2⁵³. -/
theorem eq_of_ofNat_beq {other : Nat} (hn : n < 2 ^ 53) (h : (Float.ofNat n == Float.ofNat other) = true) :
    n = other := by
  obtain ⟨c, hc, hparts⟩ := exists_components_ofNat n
  obtain ⟨d, hd, hothers⟩ := exists_components_ofNat other
  obtain ⟨hexponent, hfraction⟩ := parts_eq_of_beq hc hd h
  rw [hexponent, hfraction] at hparts
  rcases hparts with ⟨rfl, hzero⟩ | ⟨hpos, hlog, hscale, hdigits⟩ | ⟨hge, -⟩
  · rcases hothers with ⟨rfl, -⟩ | ⟨-, -, hscale, -⟩ | ⟨-, hscale⟩
    · rfl
    · omega
    · omega
  · rcases hothers with ⟨-, hzero⟩ | ⟨-, -, hscale', hdigits'⟩ | ⟨-, hscale'⟩
    · omega
    · have hsame : n.log2 = other.log2 := by omega
      rw [hsame, hdigits'] at hdigits
      exact (Nat.eq_of_mul_eq_mul_right (Nat.two_pow_pos _) hdigits).symm
    · omega
  · omega

example : (Float.ofNat (2 ^ 53) == Float.ofNat (2 ^ 53 + 1)) = true := by decide +kernel

/-! ## Decimal digits -/

theorem all_isDigit_toDigits (n : Nat) : (Nat.toDigits 10 n).all Char.isDigit = true :=
  List.all_eq_true.2 fun _ hc => Nat.isDigit_of_mem_toDigits (by decide) (by decide) hc

theorem isNumeral_repr (n : Nat) : IsNumeral n.repr.toList := by
  rw [Nat.toList_repr]
  exact ⟨_, [], (List.append_nil _).symm, Nat.toDigits_ne_nil, all_isDigit_toDigits n, .inl rfl⟩

theorem ofDigits_toDigits (n : Nat) : ofDigits (Nat.toDigits 10 n) = n := by
  have hfold : Nat.ofDigitChars 10 (Nat.toDigits 10 n) 0 = n := Nat.ofDigitChars_ten_toDigits
  rwa [Nat.ofDigitChars_eq_foldl] at hfold

/-- The decimal digits of a whole number are read as its double. -/
theorem read?_repr (n : Nat) : (Literal.read? n.repr.toList).map Literal.value = some (Float.ofNat n) := by
  have hread : Literal.read? (Nat.toDigits 10 n ++ []) = some ⟨Nat.toDigits 10 n, [], 0⟩ :=
    read?_digits (all_isDigit_toDigits n) Nat.toDigits_ne_nil (by simp)
  rw [List.append_nil] at hread
  rw [Nat.toList_repr, hread, Option.map_some, Literal.value, List.append_nil, ofDigits_toDigits]
  rfl

end DynamicConfig.Decimal

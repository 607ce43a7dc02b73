import DynamicConfig.Proofs.WholeNumbers
/-!
# Whole numbers are spelled by their digits

All decimals that read back as the double of a whole number below 2⁵³ are less than one away from it. So no other
whole number is among them (`Binary.Whole`), the decimal of as few digits as possible is the whole number itself, and
the number is spelled by its decimal digits (`spell_ofNat`).
-/

namespace DynamicConfig.Decimal

/-! ## Decimal digits -/

theorem toDigits_mul_ten {n : Nat} (h : 0 < n) : Nat.toDigits 10 (n * 10) = Nat.toDigits 10 n ++ ['0'] := by
  have happend := Nat.toDigits_append_toDigits (b := 10) (d := 0) (by decide) h (by decide)
  rw [Nat.mul_comm, ← Nat.add_zero (10 * n), ← happend]
  rfl

theorem toDigits_mul_pow {n : Nat} (h : 0 < n) (k : Nat) :
    Nat.toDigits 10 (n * 10 ^ k) = Nat.toDigits 10 n ++ zeros k := by
  induction k with
  | zero => rw [Nat.pow_zero, Nat.mul_one, zeros, List.replicate_zero, List.append_nil]
  | succ k ih =>
    rw [Nat.pow_succ, ← Nat.mul_assoc, toDigits_mul_ten (Nat.mul_pos h (Nat.pow_pos (by decide))), ih, zeros, zeros,
      List.replicate_succ', List.append_assoc]

/-- The number of decimal digits. -/
def digitCount (n : Nat) : Nat :=
  (Nat.toDigits 10 n).length

theorem digitCount_le_iff {n k : Nat} (h : 0 < n) : digitCount n ≤ k ↔ n < 10 ^ k := by
  rcases Nat.eq_zero_or_pos k with rfl | hk
  · have hpos : 0 < digitCount n := Nat.length_toDigits_pos
    rw [Nat.pow_zero]
    omega
  · exact Nat.length_toDigits_le_iff (by decide) hk

/-- Zeros at the end are left out and written again. -/
theorem positionalText_ofScaled {number k : Nat} (h : 0 < number) :
    sourceLayout.positionalText (.ofScaled number k) = Nat.toDigits 10 (number * 10 ^ k) := by
  obtain ⟨kept, count, hsplit, hkept⟩ : ∃ kept count, Nat.toDigits 10 number = kept ++ zeros count ∧
      ((Nat.toDigits 10 number).reverse.dropWhile (· == '0')).reverse = kept := by
    refine ⟨_, ((Nat.toDigits 10 number).reverse.takeWhile (· == '0')).length, ?_, rfl⟩
    have hzeros : (Nat.toDigits 10 number).reverse.takeWhile (· == '0') =
        zeros ((Nat.toDigits 10 number).reverse.takeWhile (· == '0')).length := by
      refine List.eq_replicate_iff.2 ⟨rfl, fun c hc => ?_⟩
      simpa using List.all_eq_true.1 List.all_takeWhile c hc
    have happend := List.takeWhile_append_dropWhile (p := (· == '0')) (l := (Nat.toDigits 10 number).reverse)
    rw [hzeros] at happend
    have hreverse := congrArg List.reverse happend
    rwa [List.reverse_append, List.reverse_reverse, zeros, List.reverse_replicate, eq_comm] at hreverse
  have hlength : (Nat.toDigits 10 number).length = kept.length + count := by
    rw [hsplit, List.length_append, zeros, List.length_replicate]
  have hpos : 0 < (Nat.toDigits 10 number).length := Nat.length_toDigits_pos
  rw [toDigits_mul_pow h, hsplit, Layout.positionalText, Digits.ofScaled, hkept]
  dsimp only
  have hcount : ((Nat.toDigits 10 number).length + (k : Int)).toNat - kept.length = count + k := by omega
  rw [if_neg (by omega), if_neg (by omega), hcount, List.append_assoc kept (zeros count), zeros, zeros, zeros,
    List.replicate_append_replicate]
  exact List.append_nil _

/-! ## Which decimals read back -/

namespace Binary

/-- The value is a whole number, and every real that rounds to it is less than one away. -/
structure Whole (x : Binary) (n : Nat) : Prop where
  num : x.num = n * x.den
  low : x.low < x.num ∧ x.num < x.low + x.den
  high : x.num < x.high ∧ x.high < x.num + x.den

variable {x : Binary} {n : Nat}

theorem Whole.den_pos (h : x.Whole n) : 0 < x.den := by
  obtain ⟨hlow, hhigh⟩ := h.low
  omega

theorem compareScaled_natCast (digits k num den : Nat) :
    compareScaled digits k num den = compare (digits * 10 ^ k * den) num := by
  have hpositive : (k : Int).toNat = k := rfl
  have hnegative : (-(k : Int)).toNat = 0 := by omega
  rw [compareScaled, hpositive, hnegative]
  show compare (digits * 10 ^ k * den) (num * 10 ^ 0) = _
  rw [Nat.pow_zero, Nat.mul_one]

/-- Only the whole number itself reads back as its double, of all whole numbers. -/
theorem Whole.readsBack_iff (h : x.Whole n) (digits k : Nat) :
    x.readsBack digits k = true ↔ digits * 10 ^ k = n := by
  obtain ⟨hnum, ⟨hlow, hlow'⟩, ⟨hhigh, hhigh'⟩⟩ := h
  rw [readsBack, compareScaled_natCast, compareScaled_natCast]
  constructor
  · intro hreads
    have hge : x.low ≤ digits * 10 ^ k * x.den := by
      rcases hcompare : compare (digits * 10 ^ k * x.den) x.low with _ | _ | _
      · rw [hcompare] at hreads
        simp at hreads
      · exact Nat.le_of_eq (Nat.compare_eq_eq.1 hcompare).symm
      · exact Nat.le_of_lt (Nat.compare_eq_gt.1 hcompare)
    have hle : digits * 10 ^ k * x.den ≤ x.high := by
      rcases hcompare : compare (digits * 10 ^ k * x.den) x.high with _ | _ | _
      · exact Nat.le_of_lt (Nat.compare_eq_lt.1 hcompare)
      · exact Nat.le_of_eq (Nat.compare_eq_eq.1 hcompare)
      · rw [hcompare] at hreads
        simp at hreads
    have hbelow : n * x.den < (digits * 10 ^ k + 1) * x.den := by
      rw [Nat.add_mul, Nat.one_mul]
      omega
    have habove : digits * 10 ^ k * x.den < (n + 1) * x.den := by
      rw [Nat.add_mul, Nat.one_mul]
      omega
    have h1 := Nat.lt_of_mul_lt_mul_right hbelow
    have h2 := Nat.lt_of_mul_lt_mul_right habove
    omega
  · intro hdigits
    rw [hdigits, ← hnum, Nat.compare_eq_gt.2 hlow, Nat.compare_eq_lt.2 hhigh]
    rfl

/-! ## How many digits there are before the point -/

theorem Whole.compareScaled_one (h : x.Whole n) (hpos : 0 < n) (k : Int) :
    (compareScaled 1 k x.num x.den == .gt) = decide ((digitCount n : Int) ≤ k) := by
  have hden := h.den_pos
  rcases Int.lt_or_le k 0 with hk | hk
  · have hsmall : ¬ (digitCount n : Int) ≤ k := by omega
    have hle : 1 * Nat.pow 10 k.toNat * x.den ≤ x.num * Nat.pow 10 (-k).toNat := by
      have hzero : k.toNat = 0 := by omega
      rw [hzero, h.num]
      calc 1 * 10 ^ 0 * x.den ≤ n * x.den := Nat.mul_le_mul_right _ hpos
        _ ≤ n * x.den * 10 ^ (-k).toNat := Nat.le_mul_of_pos_right _ (Nat.pow_pos (by decide))
    rw [decide_eq_false hsmall, beq_eq_false_iff_ne, compareScaled, ne_eq, Nat.compare_eq_gt]
    omega
  · obtain ⟨k, rfl⟩ := Int.eq_ofNat_of_zero_le hk
    rw [compareScaled_natCast, h.num, Bool.eq_iff_iff, beq_iff_eq, Nat.compare_eq_gt, decide_eq_true_iff, Nat.one_mul,
      Int.ofNat_le, digitCount_le_iff hpos]
    exact Nat.mul_lt_mul_right hden

theorem Whole.scaleFrom (h : x.Whole n) (hpos : 0 < n) (steps : Nat) {start : Int} (hstart : start ≤ digitCount n)
    (hsteps : digitCount n ≤ start + steps) : x.scaleFrom steps start = digitCount n := by
  induction steps generalizing start with
  | zero =>
    rw [Binary.scaleFrom]
    omega
  | succ steps ih =>
    rw [Binary.scaleFrom, h.compareScaled_one hpos]
    by_cases hle : (digitCount n : Int) ≤ start
    · rw [decide_eq_true hle, if_pos rfl]
      omega
    · rw [decide_eq_false hle, if_neg Bool.false_ne_true]
      exact ih (by omega) (by omega)

/-- The first guess is close enough for all numbers of up to 53 binary digits. -/
theorem guess_bounds : ∀ log : Nat, log < 53 →
    let guess := ((log : Int) - 1) * 30103 / 100000 - 1
    10 ^ (guess - 1).toNat ≤ 2 ^ log ∧ 2 ^ (log + 1) ≤ 10 ^ (guess + 4).toNat ∧ 0 ≤ guess + 4 := by
  decide

theorem Whole.scale (h : x.Whole n) (hpos : 0 < n) (hlt : n < 2 ^ 53)
    (hlog : (x.num.log2 : Int) - x.den.log2 = n.log2) : x.scale = digitCount n := by
  have hbound : n.log2 < 53 := (Nat.log2_lt (by omega)).2 hlt
  obtain ⟨hlow, hhigh, hnonneg⟩ := guess_bounds n.log2 hbound
  rw [Binary.scale, hlog]
  generalize ((n.log2 : Int) - 1) * 30103 / 100000 - 1 = guess at *
  have hself : 2 ^ n.log2 ≤ n := Nat.log2_self_le (by omega)
  have hself' : n < 2 ^ (n.log2 + 1) := Nat.lt_log2_self
  have hgreater : ¬ digitCount n ≤ (guess - 1).toNat := by
    rw [digitCount_le_iff hpos]
    omega
  have hless : digitCount n ≤ (guess + 4).toNat := (digitCount_le_iff hpos).2 (by omega)
  have hcount : 0 < digitCount n := Nat.length_toDigits_pos
  exact h.scaleFrom hpos 4 (by omega) (by push_cast; omega)

/-! ## The decimal that is taken -/

/-- Without digits after the point, only the whole number itself can be taken. -/
theorem Whole.eq_of_withDigits (h : x.Whole n) {tie : Tie} {scale : Int} {count k : Nat} (hk : scale - count = k)
    {decimal : Nat × Int} (hsome : x.withDigits tie scale count = some decimal) :
    decimal.2 = k ∧ decimal.1 * 10 ^ k = n := by
  unfold withDigits at hsome
  rw [hk] at hsome
  dsimp only at hsome
  have hpow : 0 < 10 ^ k := Nat.pow_pos (by decide)
  split at hsome
  · cases hsome
  · rename_i hreads _
    cases hsome
    exact ⟨rfl, (h.readsBack_iff _ k).1 hreads⟩
  · rename_i _ hreads
    cases hsome
    exact ⟨rfl, (h.readsBack_iff _ k).1 hreads⟩
  · -- The two neighbours cannot both read back.
    rename_i hbelow habove
    have heq := ((h.readsBack_iff _ k).1 hbelow).trans ((h.readsBack_iff _ k).1 habove).symm
    rw [Nat.add_mul, Nat.one_mul] at heq
    omega

/-- With all its digits the whole number is taken. -/
theorem Whole.withDigits_isSome (h : x.Whole n) (tie : Tie) :
    (x.withDigits tie (digitCount n) (digitCount n)).isSome = true := by
  have hfloor : x.floorAt 0 = n := by
    rw [floorAt, h.num]
    show n * x.den * 10 ^ 0 / (x.den * 10 ^ 0) = n
    rw [Nat.pow_zero, Nat.mul_one, Nat.mul_one, Nat.mul_div_cancel _ h.den_pos]
  have hreads : x.readsBack n 0 = true := (h.readsBack_iff n 0).2 (by rw [Nat.pow_zero, Nat.mul_one])
  unfold withDigits
  rw [Int.sub_self]
  dsimp only
  rw [hfloor, hreads]
  split
  · rename_i heq _
    cases heq
  · rfl
  · rename_i heq _
    cases heq
  · split <;> rfl

theorem digitCount_le_of_lt (hpos : 0 < n) (hlt : n < 2 ^ 53) : digitCount n ≤ 16 := by
  have hpow : 2 ^ 53 < 10 ^ 16 := by norm_num
  exact (digitCount_le_iff hpos).2 (Nat.lt_trans hlt hpow)

/-- Some count of digits is enough, and the first that is leaves no digits after the point. -/
theorem Whole.exists_first (h : x.Whole n) (tie : Tie) {limit : Nat} (hlimit : digitCount n ≤ limit) :
    ∃ number k : Nat, (List.range limit).findSome? (fun m => x.withDigits tie (digitCount n) (m + 1)) =
      some (number, (k : Int)) ∧ number * 10 ^ k = n := by
  have hcount : 0 < digitCount n := Nat.length_toDigits_pos
  have hall : (x.withDigits tie (digitCount n) (digitCount n - 1 + 1)).isSome = true := by
    rw [Nat.sub_add_cancel hcount]
    exact h.withDigits_isSome tie
  have hmem : digitCount n - 1 ∈ List.range limit := List.mem_range.2 (by omega)
  have hsome : ((List.range limit).findSome? fun m => x.withDigits tie (digitCount n) (m + 1)).isSome = true :=
    List.findSome?_isSome_iff.2 ⟨_, hmem, hall⟩
  obtain ⟨⟨number, exponent⟩, hfirst⟩ := Option.isSome_iff_exists.1 hsome
  obtain ⟨before, place, after, hrange, hplace, hbefore⟩ := List.findSome?_eq_some_iff.1 hfirst
  have hle : place + 1 ≤ digitCount n := by
    have hsorted : (before ++ place :: after).Pairwise (· < ·) := hrange ▸ List.pairwise_lt_range
    rw [hrange] at hmem
    rcases List.mem_append.1 hmem with hmem | hmem
    · rw [hbefore _ hmem] at hall
      cases hall
    · rcases List.mem_cons.1 hmem with heq | hmem
      · omega
      · have hlt := (List.pairwise_cons.1 (List.pairwise_append.1 hsorted).2.1).1 _ hmem
        omega
  obtain ⟨k, hk⟩ : ∃ k : Nat, ((digitCount n : Int) - (place + 1 : Nat)) = k := ⟨digitCount n - (place + 1), by omega⟩
  obtain ⟨rfl, hnumber⟩ := h.eq_of_withDigits hk hplace
  exact ⟨number, k, hfirst, hnumber⟩

/-- The fewest digits of a whole number are its digits, up to the zeros at their end. -/
theorem Whole.shortest (h : x.Whole n) (hpos : 0 < n) (hlt : n < 2 ^ 53)
    (hlog : (x.num.log2 : Int) - x.den.log2 = n.log2) (tie : Tie) :
    ∃ number k : Nat, x.shortest tie = .ofScaled number k ∧ number * 10 ^ k = n := by
  obtain ⟨number, k, hfirst, hnumber⟩ :=
    h.exists_first tie (Nat.le_succ_of_le (digitCount_le_of_lt hpos hlt))
  refine ⟨number, k, ?_, hnumber⟩
  unfold Binary.shortest
  rw [h.scale hpos hlt hlog]
  dsimp only
  rw [hfirst]

end Binary

/-! ## Spelling -/

variable {n : Nat}

/-- The double of a whole number as a fraction. Its denominator makes up for the zeros at the end of its 53 binary
digits. -/
theorem exists_ofBits_ofNat (hpos : 0 < n) (hlt : n < 2 ^ 53) :
    ∃ below closed, (below = 1 ∨ below = 2) ∧ Binary.ofBits (Float.ofNat n).toBits =
      { num := n * 2 ^ (52 - n.log2 + 2), den := 2 ^ (52 - n.log2 + 2), low := n * 2 ^ (52 - n.log2 + 2) - below,
        high := n * 2 ^ (52 - n.log2 + 2) + 2, closed } := by
  obtain ⟨c, hbits, -, hexponent, hfraction⟩ := exists_components_ofNat_of_lt hpos hlt
  have hlog : n.log2 ≤ 52 := Nat.le_of_lt_succ ((Nat.log2_lt (by omega)).2 hlt)
  have hzero : n.log2 + 1023 - 1075 = 0 := by omega
  have hden : 1075 - max (n.log2 + 1023) 1 = 52 - n.log2 := by omega
  have hnormal : n.log2 + 1023 ≠ 0 := by omega
  have hmantissa : c.fraction.toNat + 0x10000000000000 = n * 2 ^ (52 - n.log2) := hfraction
  have hnum : 4 * (n * 2 ^ (52 - n.log2)) = n * 2 ^ (52 - n.log2 + 2) := by
    rw [Nat.pow_add]
    ring
  have hden' : 4 * Nat.pow 2 (52 - n.log2) = 2 ^ (52 - n.log2 + 2) := by
    rw [Nat.pow_add]
    exact Nat.mul_comm _ _
  have hunit : Nat.pow 2 0 = 1 := rfl
  unfold Binary.ofBits
  rw [exponent_of_bits hbits, fraction_of_bits hbits, hexponent]
  simp only [hzero, hden, if_neg hnormal, hmantissa, hden', hunit, Nat.mul_one, hnum]
  refine ⟨_, _, ?_, rfl⟩
  split
  · exact .inl rfl
  · exact .inr rfl

theorem whole_ofBits (hpos : 0 < n) (hlt : n < 2 ^ 53) :
    (Binary.ofBits (Float.ofNat n).toBits).Whole n ∧
      ((Binary.ofBits (Float.ofNat n).toBits).num.log2 : Int) - (Binary.ofBits (Float.ofNat n).toBits).den.log2 =
        n.log2 := by
  obtain ⟨below, closed, hbelow, hbinary⟩ := exists_ofBits_ofNat hpos hlt
  rw [hbinary]
  have hden : 2 ^ 2 ≤ 2 ^ (52 - n.log2 + 2) := Nat.pow_le_pow_right Nat.two_pos (Nat.le_add_left 2 _)
  have hnum : 1 * 2 ^ 2 ≤ n * 2 ^ (52 - n.log2 + 2) := Nat.mul_le_mul hpos hden
  refine ⟨⟨rfl, ?_, ?_⟩, ?_⟩
  · dsimp only
    omega
  · dsimp only
    omega
  · dsimp only
    rw [log2_mul_two_pow (by omega), Nat.log2_two_pow]
    omega

/-- A whole number below 2⁵³ is spelled by its decimal digits. -/
theorem spell_ofNat (hlt : n < 2 ^ 53) : spell (Float.ofNat n) = n.repr := by
  rcases Nat.eq_zero_or_pos n with rfl | hpos
  · decide +kernel
  · obtain ⟨c, hbits, hsign, hexponent, -⟩ := exists_components_ofNat_of_lt hpos hlt
    have hlog : n.log2 ≤ 52 := Nat.le_of_lt_succ ((Nat.log2_lt (by omega)).2 hlt)
    have hinf : (Float.ofNat n).isInf = false := by
      rw [isInf_of_bits hbits, decide_eq_false_iff_not]
      intro hall
      rw [hall, show (-1#11).toNat = 2047 by decide] at hexponent
      omega
    have hsign' : ¬ (Float.ofNat n).toBits >>> 63 = 1 := by
      rw [sign_of_bits hbits, hsign]
      rintro ⟨⟩
    have hzero : (Float.ofNat n == 0) = false := by
      refine Bool.eq_false_iff.2 fun h => ?_
      have heq : n = 0 := eq_of_ofNat_beq hlt h
      omega
    obtain ⟨hwhole, hscale⟩ := whole_ofBits hpos hlt
    obtain ⟨number, k, hshortest, hnumber⟩ := hwhole.shortest hpos hlt hscale .up
    have hnumberPos : 0 < number := by
      rcases Nat.eq_zero_or_pos number with rfl | h
      · omega
      · exact h
    have hmagnitude : sourceLayout.magnitudeText (shortest (Float.ofNat n) sourceLayout.tie) = Nat.toDigits 10 n := by
      rw [← hnumber, ← positionalText_ofScaled hnumberPos, ← hshortest, hnumber]
      rfl
    unfold spell Layout.render
    rw [isNaN_ofNat, hinf, hzero, hmagnitude, if_neg hsign', Nat.repr_eq_ofList_toDigits]
    rfl

end DynamicConfig.Decimal

import Mathlib.Data.List.TakeDrop
import Mathlib.Data.Option.Basic
import DynamicConfig.Decimal.Layout
import DynamicConfig.Decimal.Literal
/-!
# Numerals

A number in source text is a run of digits, with at most one point after the first of them
(`Decimal.IsNumeral`). Every beginning of one is a literal, and a numeral is no longer one with a character
that is no digit after it, unless that is its first point. A number is spelled as a numeral if its spelling is
read at all (`Decimal.isNumeral_spell`).
-/

namespace DynamicConfig.Decimal

/-- Digits, and perhaps a point and more digits. -/
def IsNumeral (chars : List Char) : Prop :=
  ∃ whole tail, chars = whole ++ tail ∧ whole ≠ [] ∧ whole.all Char.isDigit = true ∧
    (tail = [] ∨ ∃ fraction, tail = '.' :: fraction ∧ fraction.all Char.isDigit = true)

theorem IsNumeral.exists_digit {chars : List Char} (h : IsNumeral chars) :
    ∃ c rest, chars = c :: rest ∧ c.isDigit = true := by
  obtain ⟨whole, tail, rfl, hne, hd, -⟩ := h
  obtain ⟨c, digits, rfl⟩ := List.exists_cons_of_ne_nil hne
  rw [List.all_cons, Bool.and_eq_true] at hd
  exact ⟨c, digits ++ tail, rfl, hd.1⟩

/-! ## Reading -/

theorem span_digits {digits rest : List Char} (hd : digits.all Char.isDigit = true)
    (hr : ∀ c ∈ rest.head?, c.isDigit = false) : (digits ++ rest).span Char.isDigit = (digits, rest) := by
  have hall : ∀ c ∈ digits, c.isDigit = true := List.all_eq_true.1 hd
  rw [List.span_eq_takeWhile_dropWhile, List.takeWhile_append_of_pos hall, List.dropWhile_append_of_pos hall]
  cases rest with
  | nil => simp
  | cons c rest => simp [hr c rfl]

/-- The literal of the digits before and after its point, and of what follows them. -/
def Literal.ofParts (whole fraction : List Char) : List Char → Option Literal
  | [] => some ⟨whole, fraction, 0⟩
  | mark :: rest => do
    guard (mark == 'e' || mark == 'E')
    return ⟨whole, fraction, ← readExponent? rest⟩

/-- A mark without an exponent after it ends no literal. -/
theorem Literal.ofParts_singleton (whole fraction : List Char) (c : Char) : ofParts whole fraction [c] = none :=
  Option.bind_fun_none _

theorem read?_digits {whole rest : List Char} (hd : whole.all Char.isDigit = true) (hne : whole ≠ [])
    (hr : ∀ c ∈ rest.head?, c.isDigit = false ∧ c ≠ '.') :
    Literal.read? (whole ++ rest) = Literal.ofParts whole [] rest := by
  have hspan := span_digits hd fun c hc => (hr c hc).1
  have hempty : whole.isEmpty = false := by simpa using hne
  cases rest with
  | nil =>
    rw [List.append_nil] at hspan ⊢
    rw [Literal.read?, hspan]
    simp only [hempty]
    rfl
  | cons c rest =>
    have hpoint : c ≠ '.' := (hr c rfl).2
    rw [Literal.read?, hspan]
    simp [hempty, hpoint, Literal.ofParts]

theorem read?_point {whole fraction rest : List Char} (hd : whole.all Char.isDigit = true) (hne : whole ≠ [])
    (hf : fraction.all Char.isDigit = true) (hr : ∀ c ∈ rest.head?, c.isDigit = false) :
    Literal.read? (whole ++ '.' :: (fraction ++ rest)) = Literal.ofParts whole fraction rest := by
  have hspan : (whole ++ '.' :: (fraction ++ rest)).span Char.isDigit = (whole, '.' :: (fraction ++ rest)) :=
    span_digits hd fun c hc => by cases hc; rfl
  have hfraction := span_digits hf hr
  have hempty : whole.isEmpty = false := by simpa using hne
  rw [Literal.read?, hspan]
  simp only [hfraction, hempty]
  cases rest <;> rfl

theorem IsNumeral.isSome_read? {chars : List Char} (h : IsNumeral chars) : (Literal.read? chars).isSome = true := by
  obtain ⟨whole, tail, rfl, hne, hd, rfl | ⟨fraction, rfl, hf⟩⟩ := h
  · rw [read?_digits hd hne (by simp)]
    rfl
  · have hread : Literal.read? (whole ++ '.' :: (fraction ++ [])) = some ⟨whole, fraction, 0⟩ :=
      read?_point hd hne hf (by simp)
    rw [List.append_nil] at hread
    rw [hread]
    rfl

/-- What cannot go on in a numeral ends it: the second part of a numeral begins with its only point. -/
theorem IsNumeral.read?_concat {chars : List Char} (h : IsNumeral chars) {c : Char} (hd : c.isDigit = false)
    (hpoint : c = '.' → '.' ∈ chars) : Literal.read? (chars ++ [c]) = none := by
  obtain ⟨whole, tail, rfl, hne, hdigits, rfl | ⟨fraction, rfl, hf⟩⟩ := h
  · have hdot : c ≠ '.' := by
      intro hc
      have hmem := List.all_eq_true.1 hdigits '.' (by simpa using hpoint hc)
      cases hmem
    rw [List.append_nil, read?_digits hdigits hne (by simp [hd, hdot])]
    exact Literal.ofParts_singleton _ _ _
  · rw [List.append_assoc, List.cons_append, read?_point hdigits hne hf (by simp [hd])]
    exact Literal.ofParts_singleton _ _ _

/-- Whether a literal may have the character in it. -/
def Literal.mayHold (c : Char) : Bool :=
  c.isDigit || c == '.' || c == 'e' || c == 'E' || c == '+' || c == '-'

section Foreign

variable {c : Char} {chars : List Char} (hc : Literal.mayHold c = false)
include hc

theorem Literal.not_isDigit_of_mayHold : c.isDigit = false := by
  cases h : c.isDigit with
  | false => rfl
  | true => simp [mayHold, h] at hc

theorem mem_dropWhile_of_mayHold (h : c ∈ chars) : c ∈ chars.dropWhile Char.isDigit := by
  rw [← List.takeWhile_append_dropWhile (p := Char.isDigit) (l := chars)] at h
  rcases List.mem_append.1 h with hd | hd
  · have hdigit : c.isDigit = true := List.all_eq_true.1 List.all_takeWhile c hd
    rw [Literal.not_isDigit_of_mayHold hc] at hdigit
    cases hdigit
  · exact hd

theorem readExponent?_of_mayHold (h : c ∈ chars) : readExponent? chars = none := by
  have hdigits {digits : List Char} (hd : c ∈ digits) : (digits.isEmpty || !digits.all Char.isDigit) = true := by
    simp only [Bool.or_eq_true, Bool.not_eq_true', List.all_eq_false]
    exact .inr ⟨c, hd, by simp [Literal.not_isDigit_of_mayHold hc]⟩
  unfold readExponent?
  split
  rename_i negative digits heq
  rw [if_pos (hdigits _)]
  simp only [Literal.mayHold, Bool.or_eq_false_iff, beq_eq_false_iff_ne] at hc
  split at heq <;> (obtain ⟨-, rfl⟩ := Prod.mk.inj heq; simp_all)

theorem Literal.ofParts_of_mayHold (h : c ∈ chars) (whole fraction : List Char) : ofParts whole fraction chars = none := by
  cases chars with
  | nil => cases h
  | cons mark rest =>
    rw [ofParts]
    rcases List.mem_cons.1 h with heq | h
    · have hmark : (mark == 'e' || mark == 'E') = false := by simp_all [mayHold]
      rw [hmark]
      rfl
    · rw [readExponent?_of_mayHold hc h]
      exact Option.bind_fun_none _

/-- No literal has a character in it that it may not have. -/
theorem Literal.read?_of_mayHold (h : c ∈ chars) : read? chars = none := by
  have hnone {whole fraction rest : List Char} (hrest : c ∈ rest) (u : Option Unit) :
      (u.bind fun _ => ofParts whole fraction rest) = none := by
    rw [ofParts_of_mayHold hc hrest]
    exact Option.bind_fun_none _
  have hrest := mem_dropWhile_of_mayHold hc h
  unfold read?
  rw [List.span_eq_takeWhile_dropWhile]
  generalize chars.dropWhile Char.isDigit = rest at hrest
  dsimp only
  split
  · rename_i rest _
    rw [List.span_eq_takeWhile_dropWhile]
    refine hnone (mem_dropWhile_of_mayHold hc ?_) _
    rcases List.mem_cons.1 hrest with rfl | hrest
    · cases hc
    · exact hrest
  · exact hnone hrest _

end Foreign

/-- A beginning of a numeral is a numeral. -/
theorem IsNumeral.left {first rest : List Char} (h : IsNumeral (first ++ rest)) (hne : first ≠ []) :
    IsNumeral first := by
  obtain ⟨whole, tail, heq, hw, hd, htail⟩ := h
  rcases List.append_eq_append_iff.1 heq with ⟨mid, rfl, -⟩ | ⟨mid, rfl, hmid⟩
  · rw [List.all_append, Bool.and_eq_true] at hd
    exact ⟨first, [], by simp, hne, hd.1, .inl rfl⟩
  · refine ⟨whole, mid, rfl, hw, hd, ?_⟩
    rcases htail with rfl | ⟨fraction, rfl, hf⟩
    · exact .inl (List.append_eq_nil_iff.1 hmid.symm).1
    · cases mid with
      | nil => exact .inl rfl
      | cons c mid =>
        obtain ⟨rfl, hfraction⟩ := List.cons.inj hmid
        rw [hfraction, List.append_eq, List.all_append, Bool.and_eq_true] at hf
        exact .inr ⟨mid, rfl, hf.1⟩

/-! ## Spelling -/

theorem all_isDigit_zeros (count : Nat) : (zeros count).all Char.isDigit = true := by
  simp [zeros, List.all_replicate]

theorem all_isDigit_ofScaled (number : Nat) (exponent : Int) :
    (Digits.ofScaled number exponent).digits.all Char.isDigit = true := by
  refine List.all_eq_true.2 fun c hc => ?_
  have hmem : c ∈ (Nat.toDigits 10 number).reverse := List.dropWhile_subset _ (List.mem_reverse.1 hc)
  exact Nat.isDigit_of_mem_toDigits (by decide) (by decide) (List.mem_reverse.1 hmem)

theorem all_isDigit_shortest (x : Float) (tie : Tie) : (shortest x tie).digits.all Char.isDigit = true := by
  unfold shortest Binary.shortest
  dsimp only
  split <;> exact all_isDigit_ofScaled _ _

/-- Digits around a point are a numeral wherever the point is. -/
theorem isNumeral_positionalText {d : Digits} (hd : d.digits.all Char.isDigit = true) :
    IsNumeral (sourceLayout.positionalText d) := by
  have hall : ∀ c ∈ d.digits, c.isDigit = true := List.all_eq_true.1 hd
  unfold Layout.positionalText
  split
  · exact ⟨['0'], _, rfl, by simp, rfl, .inr ⟨_, rfl, by rw [List.all_append, all_isDigit_zeros, hd]; rfl⟩⟩
  · split
    · rename_i hpos hlt
      refine ⟨_, _, rfl, ?_, ?_, .inr ⟨_, rfl, ?_⟩⟩
      · rw [ne_eq, List.take_eq_nil_iff]
        rintro (h | h)
        · omega
        · simp [h] at hlt
          omega
      · exact List.all_eq_true.2 fun c hc => hall c (List.mem_of_mem_take hc)
      · exact List.all_eq_true.2 fun c hc => hall c (List.mem_of_mem_drop hc)
    · rename_i hpos hlt
      refine ⟨_, [], rfl, ?_, by rw [List.all_append, hd, all_isDigit_zeros]; rfl, .inl rfl⟩
      intro h
      obtain ⟨hnil, hzeros⟩ := List.append_eq_nil_iff.1 h
      rw [hnil, zeros, List.replicate_eq_nil_iff] at hzeros
      simp at hzeros
      omega

/-- A finite number without a sign is spelled as a numeral. -/
theorem isNumeral_spell_of_unsigned {x : Float} (hnan : x.isNaN = false) (hinf : x.isInf = false)
    (hsign : ¬ x.toBits >>> 63 = 1) : IsNumeral (spell x).toList := by
  unfold spell Layout.render
  rw [hnan, hinf, if_neg hsign]
  simp only [Bool.false_eq_true, if_false, String.toList_ofList, List.nil_append]
  split
  · exact ⟨['0'], [], rfl, by simp, rfl, .inl rfl⟩
  · exact isNumeral_positionalText (all_isDigit_shortest x .up)

/-- However small the number is, there is no exponent. -/
example : spell 2.98023223876953125e-8 = "0.000000029802322387695313" := by decide +kernel

/-- If the spelling of a number is read at all, it is a numeral: a sign and a name are no numbers. -/
theorem isNumeral_spell {x : Float} (h : (Literal.read? (spell x).toList).isSome = true) :
    IsNumeral (spell x).toList := by
  have hsign (chars : List Char) : Literal.read? ('-' :: chars) = none := rfl
  by_cases hnan : x.isNaN
  · rw [spell, if_pos hnan] at h
    cases h
  by_cases hinf : x.isInf
  · rw [spell, if_neg hnan, if_pos hinf] at h
    split at h <;> cases h
  by_cases hs : x.toBits >>> 63 = 1
  · rw [spell, if_neg hnan, if_neg hinf, Layout.render] at h
    simp only [if_pos hs, String.toList_ofList, List.singleton_append, hsign] at h
    cases h
  · exact isNumeral_spell_of_unsigned (Bool.eq_false_iff.2 hnan) (Bool.eq_false_iff.2 hinf) hs

end DynamicConfig.Decimal

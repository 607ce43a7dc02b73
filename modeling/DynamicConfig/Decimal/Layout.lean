import DynamicConfig.Decimal.Shortest
/-!
# How numbers are written

A layout fixes what the digits of a number leave open: which numbers are written positionally,
whether a whole number keeps a point, which of two equally near decimals is taken. There are two:
numbers in source text, and numbers in JSON text.
-/

namespace DynamicConfig.Decimal

/-- The decisions of one way to write finite numbers. -/
structure Layout where
  /-- The exponents of the leading digit, from the first up to below the second, that are written
  positionally; the others get a signed exponent. Without bounds all are positional. -/
  positional : Option (Int × Int)
  /-- Whether a whole number ends in `.0`. -/
  pointZero : Bool
  /-- Which of two equally near decimals is written. -/
  tie : Tie

/-- Numbers in source text never have an exponent, and a whole number has no point. -/
def sourceLayout : Layout := ⟨none, false, .up⟩

/-- Numbers in JSON text from `1e-5` up to below `1e16` are positional, and a whole number written
so keeps its point. -/
def jsonLayout : Layout := ⟨some (-5, 16), true, .toEven⟩

/-- A run of zeros. -/
def zeros (count : Nat) : List Char :=
  List.replicate count '0'

/-- Digits without an exponent: the point stands before, inside or after them. -/
def Layout.positionalText (layout : Layout) (d : Digits) : List Char :=
  if d.point ≤ 0 then
    '0' :: '.' :: (zeros (-d.point).toNat ++ d.digits)
  else if d.point < d.digits.length then
    d.digits.take d.point.toNat ++ '.' :: d.digits.drop d.point.toNat
  else
    d.digits ++ zeros (d.point.toNat - d.digits.length) ++ (if layout.pointZero then ['.', '0'] else [])

/-- Digits with an exponent: one digit, a point if more follow, and the signed exponent. -/
def scientificText (d : Digits) : List Char :=
  let exponent := d.point - 1
  let sign := if exponent < 0 then '-' else '+'
  d.digits.take 1 ++ (if d.digits.length ≤ 1 then [] else '.' :: d.digits.drop 1)
    ++ 'e' :: sign :: Nat.toDigits 10 exponent.natAbs

/-- The text of a magnitude other than zero. -/
def Layout.magnitudeText (layout : Layout) (d : Digits) : List Char :=
  match layout.positional with
  | none => layout.positionalText d
  | some (least, limit) =>
    if least ≤ d.point - 1 ∧ d.point - 1 < limit then layout.positionalText d else scientificText d

/-- The text of a finite double. Zero keeps its sign. -/
def Layout.render (layout : Layout) (x : Float) : String :=
  let sign := if x.toBits >>> 63 = 1 then ['-'] else []
  let magnitude :=
    if x == 0 then '0' :: (if layout.pointZero then ['.', '0'] else [])
    else layout.magnitudeText (shortest x layout.tie)
  String.ofList (sign ++ magnitude)

/-- A number the way the language spells it. Infinities and `NaN` have no literal, so they are
spelled as the fields of `math` that hold them. -/
def spell (x : Float) : String :=
  if x.isNaN then "math.NaN"
  else if x.isInf then (if 0 < x then "math.Inf" else "-math.Inf")
  else sourceLayout.render x

end DynamicConfig.Decimal

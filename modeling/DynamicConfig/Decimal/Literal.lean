/-!
# Decimal literals

A decimal literal has digits, an optional point that may end or begin them, and an optional
exponent. It stands for the double nearest to its value.
-/

namespace DynamicConfig.Decimal

/-- A decimal literal in parts: digits before and after the point, and the exponent. -/
structure Literal where
  whole : List Char
  fraction : List Char
  exponent : Int
deriving Repr, DecidableEq

/-- The number that a list of digits stands for. -/
def ofDigits (digits : List Char) : Nat :=
  digits.foldl (fun n c => 10 * n + (c.toNat - '0'.toNat)) 0

/-- The exponent after its mark: an optional sign and at least one digit. -/
def readExponent? (chars : List Char) : Option Int :=
  let (negative, digits) :=
    match chars with
    | '-' :: rest => (true, rest)
    | '+' :: rest => (false, rest)
    | _ => (false, chars)
  if digits.isEmpty || !digits.all Char.isDigit then none
  else some (if negative then -(ofDigits digits : Int) else ofDigits digits)

/-- The literal that a text spells, if it spells one. -/
def Literal.read? (chars : List Char) : Option Literal := do
  let (whole, rest) := chars.span Char.isDigit
  let (fraction, rest) :=
    match rest with
    | '.' :: rest => rest.span Char.isDigit
    | _ => ([], rest)
  guard (!(whole.isEmpty && fraction.isEmpty))
  match rest with
  | [] => some ⟨whole, fraction, 0⟩
  | mark :: rest =>
    guard (mark == 'e' || mark == 'E')
    return ⟨whole, fraction, ← readExponent? rest⟩

/-- The double nearest to the literal's value. -/
def Literal.value (l : Literal) : Float :=
  let exponent := l.exponent - l.fraction.length
  Float.ofScientific (ofDigits (l.whole ++ l.fraction)) (exponent < 0) exponent.natAbs

/-- Whether a text is a decimal literal. -/
def isLiteral (text : String) : Bool :=
  (Literal.read? text.toList).isSome

example : isLiteral "12." = true := by decide +kernel
example : isLiteral "1e" = false := by decide +kernel
example : ((Literal.read? "3.25".toList).map Literal.value) = some 3.25 := by decide +kernel

end DynamicConfig.Decimal

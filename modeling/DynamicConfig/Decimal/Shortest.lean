/-!
# The fewest digits of a double

A double stands for an interval of reals: all that round to it. Among the decimals in that
interval, `shortest` takes one with the fewest digits, of those the nearest to the double, and on
an exact tie the one its caller prefers. All arithmetic is on natural numbers and exact.
-/

namespace DynamicConfig.Decimal

/-- A positive finite double as a fraction, with the interval of reals that round to it. -/
structure Binary where
  /-- The value is `num / den`. -/
  num : Nat
  den : Nat
  /-- The reals that round to the value go from `low / den` to `high / den`. -/
  low : Nat
  high : Nat
  /-- Whether the two ends belong to the interval. -/
  closed : Bool
deriving Repr, DecidableEq

/-- The magnitude of a finite double. A mantissa of `2 ^ 52` above the least exponent is a power of
two, whose next smaller neighbour is only half as far away as the next larger one. An end of the
interval belongs to it when the mantissa is even, for a tie rounds to even. -/
def Binary.ofBits (bits : UInt64) : Binary :=
  let biased := ((bits >>> 52) &&& 0x7FF).toNat
  let fraction := (bits &&& 0xFFFFFFFFFFFFF).toNat
  let mantissa := if biased = 0 then fraction else fraction + 0x10000000000000
  let unit := Nat.pow 2 (biased - 1075)
  let below := if fraction = 0 ∧ 1 < biased then unit else 2 * unit
  { num := 4 * mantissa * unit
    den := 4 * Nat.pow 2 (1075 - max biased 1)
    low := 4 * mantissa * unit - below
    high := 4 * mantissa * unit + 2 * unit
    closed := mantissa % 2 = 0 }

/-- Compares `digits · 10 ^ exponent` with `num / den`. -/
def compareScaled (digits : Nat) (exponent : Int) (num den : Nat) : Ordering :=
  compare (digits * Nat.pow 10 exponent.toNat * den) (num * Nat.pow 10 (-exponent).toNat)

/-- Whether `digits · 10 ^ exponent` is among the reals that round to the value. -/
def Binary.readsBack (x : Binary) (digits : Nat) (exponent : Int) : Bool :=
  let fromLow := compareScaled digits exponent x.low x.den
  let toHigh := compareScaled digits exponent x.high x.den
  (fromLow == .gt || (x.closed && fromLow == .eq)) && (toHigh == .lt || (x.closed && toHigh == .eq))

/-- The greatest multiple of `10 ^ exponent` that is not above the value, in that unit. -/
def Binary.floorAt (x : Binary) (exponent : Int) : Nat :=
  x.num * Nat.pow 10 (-exponent).toNat / (x.den * Nat.pow 10 exponent.toNat)

/-- The least `k` from `start` on with the value below `10 ^ k`, trying `steps` of them. -/
def Binary.scaleFrom (x : Binary) : (steps : Nat) → (start : Int) → Int
  | 0, k => k
  | steps + 1, k => if compareScaled 1 k x.num x.den == .gt then k else x.scaleFrom steps (k + 1)

/-- The number of digits before the decimal point of a positive value, which is zero or negative
for a value below one tenth. The binary logarithm gives a first guess that is never too large and
at most two too small. -/
def Binary.scale (x : Binary) : Int :=
  x.scaleFrom 4 (((x.num.log2 : Int) - x.den.log2 - 1) * 30103 / 100000 - 1)

/-- Which of two equally near decimals is taken. -/
inductive Tie
  /-- The one whose last digit is even. -/
  | toEven
  /-- The one farther from zero. -/
  | up
deriving Repr, DecidableEq

/-- The decimal with `count` digits that stands for the value, if there is one: of the two
neighbours of the value the one that reads back, of two the nearer one. -/
def Binary.withDigits (x : Binary) (tie : Tie) (scale : Int) (count : Nat) : Option (Nat × Int) :=
  let exponent := scale - count
  let below := x.floorAt exponent
  match x.readsBack below exponent, x.readsBack (below + 1) exponent with
  | false, false => none
  | true, false => some (below, exponent)
  | false, true => some (below + 1, exponent)
  | true, true =>
    match compareScaled (2 * below + 1) exponent (2 * x.num) x.den, tie with
    | .gt, _ => some (below, exponent)
    | .lt, _ => some (below + 1, exponent)
    | .eq, .up => some (below + 1, exponent)
    | .eq, .toEven => some (below + below % 2, exponent)

/-- The digits of a decimal and the place of its point: `0.d₁d₂… · 10 ^ point`. -/
structure Digits where
  digits : List Char
  point : Int
deriving Repr, DecidableEq

/-- The digits of `number · 10 ^ exponent` without the zeros at their end. -/
def Digits.ofScaled (number : Nat) (exponent : Int) : Digits :=
  let digits := Nat.toDigits 10 number
  { digits := (digits.reverse.dropWhile (· == '0')).reverse, point := digits.length + exponent }

/-- The fewest digits that read back as the value. Seventeen digits are always enough; the exact
value stands for the case that they were not. -/
def Binary.shortest (x : Binary) (tie : Tie) : Digits :=
  let scale := x.scale
  match (List.range 17).findSome? fun n => x.withDigits tie scale (n + 1) with
  | some (number, exponent) => .ofScaled number exponent
  | none => .ofScaled (x.num * Nat.pow 10 x.den.log2 / x.den) (-x.den.log2)

/-- The fewest digits that read back as the magnitude of a finite double other than zero. -/
def shortest (x : Float) (tie : Tie) : Digits :=
  (Binary.ofBits x.toBits).shortest tie

end DynamicConfig.Decimal

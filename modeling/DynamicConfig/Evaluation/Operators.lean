import DynamicConfig.Value
/-!
# Operators on values

What an operator makes of operands that are no errors.
-/

namespace DynamicConfig

namespace Op

/-- The operators whose operands are both evaluated. -/
def isStrictBinary : Op → Bool
  | add | sub | mul | div | lt | le | gt | ge | eq | ne => true
  | _ => false

/-- An operator on two numbers. -/
def onNumbers (op : Op) (a b : Float) : Value :=
  match op with
  | add => .number (a + b)
  | sub => .number (a - b)
  | mul => .number (a * b)
  | div => .number (a / b)
  | lt => .bool (a < b)
  | le => .bool (a ≤ b)
  | gt => .bool (b < a)
  | ge => .bool (b ≤ a)
  | other => .error ("unsupported operator " ++ other.text)

/-- An operator on two values. Any two values can be compared for equality. -/
def onValues (op : Op) (a b : Value) : Value :=
  match op, a, b with
  | eq, _, _ => .bool (a == b)
  | ne, _, _ => .bool (!(a == b))
  | _, .number x, .number y => op.onNumbers x y
  | _, _, _ => .error "not a number"

/-- An operator on one value. -/
def onValue (op : Op) (a : Value) : Value :=
  match op, a with
  | not, .bool b => .bool (!b)
  | not, _ => .error "not a bool"
  | sub, .number x => .number (-x)
  | _, .number x => .number x
  | _, _ => .error "not a number"

/-- The outcome of `&` and `|` that the left operand decides alone, if it does. -/
def decidedBy (op : Op) (left : Value) : Option Value :=
  match op, left with
  | _, .error _ => some left
  | and, .bool false => some (.bool false)
  | or, .bool true => some (.bool true)
  | _, .bool _ => none
  | _, _ => some (.error "not a bool")

/-- The outcome of `&` and `|` where the right operand decides. -/
def decidedLast (right : Value) : Value :=
  match right with
  | .bool _ | .error _ => right
  | _ => .error "not a bool"

end Op

end DynamicConfig

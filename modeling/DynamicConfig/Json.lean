import DynamicConfig.Keyed
/-!
# JSON values

The form in which arguments come in and results go out. The fields of an object are kept in the
order of their keys, one field a key; `Json.ofFields` puts them so.
-/

namespace DynamicConfig

/-- A JSON value. A number is an `integer` when it is written as one and fits 64 bits, signed or
unsigned, and a double otherwise. -/
inductive Json
  | null
  | bool (value : Bool)
  | integer (value : Int)
  | number (value : Float)
  | string (text : String)
  | array (items : List Json)
  | object (fields : List (String × Json))
deriving Inhabited

namespace Json

/-- The object with the given fields; of two fields with one key the later one counts. -/
def ofFields (fields : List (String × Json)) : Json :=
  object (Keyed.ofList fields)

mutual

/-- Equality of JSON values. An integer differs from every double. -/
def beq : Json → Json → Bool
  | null, null => true
  | bool a, bool b => a == b
  | integer a, integer b => a == b
  | number a, number b => a == b
  | string a, string b => a == b
  | array xs, array ys => beqItems xs ys
  | object xs, object ys => beqFields xs ys
  | _, _ => false

/-- Equality of arrays, item by item. -/
def beqItems : List Json → List Json → Bool
  | [], [] => true
  | x :: xs, y :: ys => beq x y && beqItems xs ys
  | _, _ => false

/-- Equality of objects, field by field. -/
def beqFields : List (String × Json) → List (String × Json) → Bool
  | [], [] => true
  | (k, x) :: xs, (l, y) :: ys => k == l && beq x y && beqFields xs ys
  | _, _ => false

end

instance : BEq Json := ⟨beq⟩

/-- The double that a number stands for. -/
def asNumber? : Json → Option Float
  | integer n => some (Float.ofInt n)
  | number x => some x
  | _ => none

/-- The text of a string. -/
def asString? : Json → Option String
  | string text => some text
  | _ => none

/-- The truth value of a boolean. -/
def asBool? : Json → Option Bool
  | bool b => some b
  | _ => none

/-- The items of an array. -/
def asArray? : Json → Option (List Json)
  | array items => some items
  | _ => none

/-- The fields of an object. -/
def asObject? : Json → Option (List (String × Json))
  | object fields => some fields
  | _ => none

/-- An integer from zero on. -/
def asNat? : Json → Option Nat
  | integer (.ofNat n) => some n
  | _ => none

/-- The value of a field of an object. -/
def field? (json : Json) (key : String) : Option Json :=
  json.asObject?.bind (Keyed.get? key)

end Json

end DynamicConfig

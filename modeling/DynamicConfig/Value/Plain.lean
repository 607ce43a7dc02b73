import DynamicConfig.Json
import DynamicConfig.Value.Printer
/-!
# Plain data

A value as data that a caller can use without the language: texts, truth values, numbers, error
messages and maps of them. What is not data, such as a closure, is passed on as it is. Plain data has
a JSON form, and JSON values come in as arguments.
-/

namespace DynamicConfig

/-- A value without its identities. -/
inductive Plain
  | string (text : String)
  | bool (value : Bool)
  | number (value : Float)
  | error (message : String)
  | map (entries : List (Plain × Plain))
  /-- A value that is not data. -/
  | other (value : Value)
deriving Inhabited

namespace Plain

/-- The name of the kind of plain data. -/
def kindName : Plain → String
  | string _ => "string"
  | bool _ => "bool"
  | number _ => "number"
  | error _ => "error"
  | map _ => "map"
  | other _ => "opaque"

/-- The message, if it is one of an error. -/
def asError? : Plain → Option String
  | error message => some message
  | _ => none

mutual

/-- The value that plain data stands for, its objects with identities of their own. -/
def toValue : Plain → Fresh Value
  | string text => return .string text
  | bool b => return .bool b
  | number x => return .number x
  | error message => return .error message
  | map entries => do Value.ofPairs (← toPairs entries)
  | other value => return value

/-- The values of the entries of a map. -/
def toPairs : List (Plain × Plain) → Fresh (List (Value × Value))
  | [] => return []
  | (key, value) :: rest => do
    let key ← key.toValue
    let value ← value.toValue
    return (key, value) :: (← toPairs rest)

end

/-- The source text of the value that plain data stands for. -/
def code (plain : Plain) : String :=
  (plain.toValue.run 0).1.code

/-- The key of an entry in JSON: a text as it is, anything else by its source text. -/
def keyText : Plain → String
  | string text => text
  | plain => plain.code

mutual

/-- The JSON form of plain data. An error is an object with its message; a number that is not finite
and what is not data are given by their source text. -/
def toJson : Plain → Json
  | string text => .string text
  | bool b => .bool b
  | number x => if x.isNaN || x.isInf then .string (Decimal.spell x) else .number x
  | error message => .object [("error", .string message)]
  | map entries => .ofFields (toJsonFields entries)
  | other value => .string value.code

/-- The JSON forms of the entries of a map. -/
def toJsonFields : List (Plain × Plain) → List (String × Json)
  | [] => []
  | (key, value) :: rest => (key.keyText, value.toJson) :: toJsonFields rest

end

end Plain

namespace Value

mutual

/-- A value as plain data. -/
def toPlain : Value → Plain
  | string text => .string text
  | bool b => .bool b
  | number x => .number x
  | error message => .error message
  | object _ fields => .map (toPlainEntries fields)
  | value => .other value

/-- The fields of an object as plain data. -/
def toPlainEntries : List (Value × Value) → List (Plain × Plain)
  | [] => []
  | (key, value) :: rest => (toPlain key, toPlain value) :: toPlainEntries rest

end

mutual

/-- The value of a JSON argument. An array is an object with its places, from zero on, as keys. The
language has nothing for `null`, which is an error. -/
def ofJson : Json → Fresh Value
  | .null => return .error "null is not a value"
  | .bool b => return .bool b
  | .integer n => return .number (Float.ofInt n)
  | .number x => return .number x
  | .string text => return .string text
  | .array items => do ofPairs (← ofJsonItems 0 items)
  | .object fields => do ofPairs (← ofJsonFields fields)

/-- The values of the items of an array, with their places. -/
def ofJsonItems (place : Nat) : List Json → Fresh (List (Value × Value))
  | [] => return []
  | item :: rest => do
    let value ← ofJson item
    return (.number (Float.ofNat place), value) :: (← ofJsonItems (place + 1) rest)

/-- The values of the fields of an object, with their keys. -/
def ofJsonFields : List (String × Json) → Fresh (List (Value × Value))
  | [] => return []
  | (key, json) :: rest => do
    let value ← ofJson json
    return (.string key, value) :: (← ofJsonFields rest)

end

end Value

end DynamicConfig

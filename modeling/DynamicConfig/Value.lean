import DynamicConfig.Expr
/-!
# Values

What an expression evaluates to. An error is a value like any other. Objects map values to values and
keep the order in which their fields came; a scope, a function and a closure are values as well.

Equality is by content for data, by text for host functions, and by identity for scopes and closures.
An object also equals itself whatever it holds, which shows when it holds a `NaN`: that is why it has
an identity.
-/

namespace DynamicConfig

/-- The place of a scope among those that have been made. -/
abbrev ScopeId := Nat

/-- A value. -/
inductive Value
  | bool (value : Bool)
  | number (value : Float)
  | string (text : String)
  /-- An evaluation that went wrong, with the reason. -/
  | error (message : String)
  /-- Fields by their keys. -/
  | object (id : Nat) (fields : List (Value × Value))
  | scope (id : ScopeId)
  /-- A host function that is called with values. -/
  | function (code : String)
  /-- A host function that is called with expressions, and evaluates those that it needs. -/
  | lazyFunction (code : String)
  /-- An expression to be evaluated inside a scope once its argument is known. -/
  | closure (id : Nat) (body : Expr) (scope : ScopeId)
deriving Inhabited

namespace Value

/-- The kind of a value in messages. -/
def typeName : Value → String
  | bool _ => "bool"
  | number _ => "number"
  | string _ => "string"
  | error _ => "error"
  | object _ _ => "object"
  | scope _ => "scope"
  | function _ | lazyFunction _ => "function"
  | closure _ _ _ => "closure"

/-- Whether a value is an error. -/
def isError : Value → Bool
  | error _ => true
  | _ => false

/-- Whether a value is a function or a closure. -/
def isCallable : Value → Bool
  | function _ | lazyFunction _ | closure _ _ _ => true
  | _ => false

/-- The number, if the value is one. -/
def asNumber? : Value → Option Float
  | number x => some x
  | _ => none

/-- The text, if the value is a string. -/
def asString? : Value → Option String
  | string text => some text
  | _ => none

/-- The truth value, if the value is one. -/
def asBool? : Value → Option Bool
  | bool b => some b
  | _ => none

/-- The message, if the value is an error. -/
def asError? : Value → Option String
  | error message => some message
  | _ => none

/-- The fields, if the value is an object. -/
def asObject? : Value → Option (List (Value × Value))
  | object _ fields => some fields
  | _ => none

mutual

/-- Equality of values. `NaN` equals nothing. -/
def beq : Value → Value → Bool
  | bool a, bool b => a == b
  | number a, number b => a == b
  | string a, string b => a == b
  | error a, error b => a == b
  | object i xs, object j ys => i == j || (xs.length == ys.length && coveredBy xs ys)
  | scope i, scope j => i == j
  | function a, function b => a == b
  | lazyFunction a, lazyFunction b => a == b
  | closure i _ _, closure j _ _ => i == j
  | _, _ => false

/-- Whether other fields have every key of these, with an equal value. -/
def coveredBy : List (Value × Value) → List (Value × Value) → Bool
  | [], _ => true
  | (key, value) :: rest, others =>
    (others.find? (fun other => beq key other.1)).any (fun other => beq value other.2) && coveredBy rest others

end

instance : BEq Value := ⟨beq⟩

/-- The value of a key among fields. -/
def fieldOf? (fields : List (Value × Value)) (key : Value) : Option Value :=
  (fields.find? fun field => key == field.1).map Prod.snd

/-- Fields with one more. A field with an equal key keeps its place and its key, and changes its
value. -/
def insertField (key value : Value) : List (Value × Value) → List (Value × Value)
  | [] => [(key, value)]
  | (k, v) :: rest => if key == k then (k, value) :: rest else (k, v) :: insertField key value rest

/-- The fields of a list of pairs, of which the later ones replace the earlier ones. -/
def fieldsOf (pairs : List (Value × Value)) : List (Value × Value) :=
  pairs.foldl (fun fields pair => insertField pair.1 pair.2 fields) []

end Value

/-- Work that gives new objects and closures an identity that none has yet. -/
abbrev Fresh := StateM Nat

/-- An identity that nothing has yet. -/
def Fresh.id : Fresh Nat :=
  modifyGet fun next => (next, next + 1)

/-- A new object of the given pairs. -/
def Value.ofPairs (pairs : List (Value × Value)) : Fresh Value := do
  return .object (← Fresh.id) (Value.fieldsOf pairs)

end DynamicConfig

import DynamicConfig.Evaluation.Clauses
import DynamicConfig.Evaluation.Operators
import DynamicConfig.Host
/-!
# The rules of evaluation

One rule for each kind of node. The rules do not recurse: each is given the evaluator `run` for the
parts of a node, for bindings and for the bodies of closures.
-/

namespace DynamicConfig

namespace Evaluation

variable (host : Host) (run : Evaluator)

/-! ## Bindings -/

/-- Evaluates a binding that is in progress, inside the scope that holds it. After a failure it is as if
nothing had asked for it. -/
def evaluateEntry (scope : ScopeId) (place : Nat) (expr : Expr) : Eval Value :=
  ExceptT.mk do
    match ← (run expr scope).run with
    | .ok value =>
      let _ ← (Eval.setState scope place (.evaluated value)).run
      return .ok value
    | .error failure =>
      let _ ← (Eval.setState scope place (.unevaluated expr)).run
      return .error failure

/-- The value of a binding. Until it is known the binding is in progress; where the limit refuses to evaluate
it, it is as if nothing had asked for it. -/
def resolve (name : Value) (scope : ScopeId) (place : Nat) : EntryState → Eval Value
  | .evaluated value => return value
  | .inProgress => Eval.detectCircle name.displayName
  | .unevaluated expr => do
    Eval.setState scope place .inProgress
    let refused : Eval Value := do
      Eval.setState scope place (.unevaluated expr)
      Eval.refuseCall
    Eval.inCallOr refused (evaluateEntry run scope place expr)

/-- The value of a name, seen from a scope. -/
def lookupName (scope : ScopeId) (name : Value) : Eval Value := do
  match (← get).scopes.find? scope name with
  | some (holder, place, entry) => resolve run name holder place entry.state
  | none => return .error ("name not found: " ++ name.displayName)

/-- The value of a field of an object, or of a name of a scope. -/
def lookup (target field : Value) : Eval Value :=
  match target with
  | .object _ fields =>
    return (Value.fieldOf? fields field).getD (.error ("field not found: " ++ field.displayName))
  | .scope id => lookupName run id field
  | .error _ => return target
  | other => return .error ("cannot lookup a " ++ other.typeName)

/-! ## Calls -/

/-- The name that a closure's argument is bound to. -/
def closureArgument : String := "it"

/-- Evaluates the body of a closure with its argument bound. -/
def invoke (body : Expr) (scope : ScopeId) (arg : Value) : Eval Value :=
  Eval.inCall do
    let inner ← Eval.newScope scope [⟨.string closureArgument, .evaluated arg⟩]
    run body inner

/-- Calls a value with values. -/
def callValue (callee : Value) (args : List Value) : Eval Value := do
  host.checkInterrupt
  match callee, args with
  | .function code, _ =>
    match host.function? code with
    | some function => function args
    | none => return Host.unknown code
  | .closure _ body scope, [arg] => invoke run body scope arg
  | .closure _ _ _, _ => return .error "closures always take one arg"
  | .lazyFunction code, _ =>
    return .error (code ++ " takes unevaluated arguments and cannot be called with values")
  | .error _, _ => return callee
  | other, _ => return .error ("cannot call a " ++ other.typeName)

/-- Calls a lazy function with the arguments themselves. -/
def callLazy (code : String) (args : List Expr) (scope : ScopeId) : Eval Value :=
  match host.lazyFunction? code with
  | some function => function run args scope
  | none => return Host.unknown code

/-- The fields that bare names among arguments give, and the bindings among them. A name gets its value
from the scope of the call at once. -/
def namedArgs (scope : ScopeId) :
    List Expr → List (Value × Value) → Bindings → Eval (Except String (List (Value × Value) × Bindings))
  | [], fields, inline => return .ok (fields, inline)
  | arg :: rest, fields, inline =>
    match arg.asName? with
    | some name =>
      if (Value.fieldOf? fields (.string name)).isSome then return .error (duplicateName name)
      else do
        let value ← lookupName run scope (.string name)
        namedArgs scope rest (Value.insertField (.string name) value fields) inline
    | none =>
      if arg.isAssign then
        match inline.bindChain arg with
        | .ok inline => namedArgs scope rest fields inline
        | .error reason => return .error reason
      else return .error "arguments must be names or bindings when there is more than one"

/-- Adds the fields of bindings among arguments, which have a scope of their own inside that of the
call. A name may be given only once, a name in a where clause included. -/
def inlineArgs (scope inner : ScopeId) :
    List Value → List (Value × Value) → Eval (Except String (List (Value × Value)))
  | [], fields => return .ok fields
  | name :: rest, fields => do
    let taken := (Value.fieldOf? fields name).isSome || ((← get).scopes.get scope).bindings.contains name
    if taken then return .error (duplicateName name.displayName)
    let value ← lookupName run inner name
    inlineArgs scope inner rest (Value.insertField name value fields)

/-- Makes one object of several arguments, with their names as keys. -/
def mergeArgs (args : List Expr) (scope : ScopeId) : Eval Value := do
  match ← namedArgs run scope args [] [] with
  | .error reason => return .error reason
  | .ok (fields, inline) =>
    let inner ← Eval.newScope scope inline
    match ← inlineArgs run scope inner (inline.map Entry.name) fields with
    | .error reason => return .error reason
    | .ok fields => return .object (← Eval.fresh Fresh.id) fields

/-- The only value that a callee gets: that of a lone argument, or else an object of all arguments. -/
def evalArgs (args : List Expr) (scope : ScopeId) : Eval Value :=
  match args with
  | [single] => if single.isAssign then mergeArgs run args scope else run single scope
  | _ => mergeArgs run args scope

/-- A call. The bindings of its where clauses have a scope of their own. -/
def evalCall (callee : Expr) (args : List Expr) (scope : ScopeId) : Eval Value := do
  let function ← run callee scope
  if function.isError then return function
  match Bindings.takeWhere [] args with
  | .error reason => return .error reason
  | .ok (args, bindings) =>
    let callScope ← Eval.newScope scope bindings
    match function with
    | .lazyFunction code => callLazy host run code args callScope
    | _ =>
      let arg ← evalArgs run args callScope
      if arg.isError then return arg
      callValue host run function [arg]

/-! ## Closures -/

/-- The body among the items of a closure, and the bindings among them. -/
def closureItems : List Expr → (body : Option Expr) → Bindings → Except String (Option Expr × Bindings)
  | [], body, bindings => .ok (body, bindings)
  | item :: rest, body, bindings =>
    if item.isAssign then do closureItems rest body (← bindings.bindChain item)
    else if body.isSome then .error "closures take exactly one expression"
    else closureItems rest (some item) bindings

/-- The body and the bindings of a closure. -/
def closureParts (items : List Expr) : Except String (Expr × Bindings) := do
  let (items, bindings) ← Bindings.takeWhere [] items
  match ← closureItems items none bindings with
  | (none, _) => .error "no expression provided"
  | (some body, bindings) =>
    if bindings.contains (.string closureArgument) then .error "cannot define value for it"
    else .ok (body, bindings)

/-- A closure, with the scope around it and its own bindings. Nothing in it is evaluated yet. -/
def evalClosure (items : List Expr) (scope : ScopeId) : Eval Value :=
  match closureParts items with
  | .error reason => return .error reason
  | .ok (body, bindings) => do
    let inner ← Eval.newScope scope bindings
    return .closure (← Eval.fresh Fresh.id) body inner

/-! ## Operators -/

/-- An operator on one operand. -/
def evalUnary (op : Op) (operand : Expr) (scope : ScopeId) : Eval Value := do
  let value ← run operand scope
  if value.isError then return value
  return op.onValue value

/-- An operator on two operands, the left one first. An error on the left is the outcome at once. -/
def evalBinary (op : Op) (left right : Expr) (scope : ScopeId) : Eval Value := do
  let a ← run left scope
  if a.isError then return a
  let b ← run right scope
  if b.isError then return b
  return op.onValues a b

/-- `&` and `|`. The right operand is evaluated only if the left one does not decide. -/
def evalLogic (op : Op) (left right : Expr) (scope : ScopeId) : Eval Value := do
  match op.decidedBy (← run left scope) with
  | some outcome => return outcome
  | none => return Op.decidedLast (← run right scope)

/-- Access to a field, whose key is evaluated too. -/
def evalField (left key : Expr) (scope : ScopeId) : Eval Value := do
  let target ← run left scope
  if target.isError then return target
  let key ← run key scope
  if key.isError then return key
  lookup run target key

/-! ## Nodes -/

/-- A tree that there is no rule for. -/
def malformed (e : Expr) : FatalError :=
  .malformedNode e.treeText

/-- The rule of a kind of node with the given children. -/
def evalNode (e : Expr) (op : Op) (children : List Expr) (scope : ScopeId) : Eval Value :=
  match op, children with
  | .string, [.string text] => return .string text
  | .number, [.number x] => return .number x
  | .bool, [.bool b] => return .bool b
  | .name, [.string name] => lookupName run scope (.string name)
  | .add, [operand] | .sub, [operand] | .not, [operand] => evalUnary run op operand scope
  | .and, [left, right] | .or, [left, right] => evalLogic run op left right scope
  | .field, [left, key] => evalField run left key scope
  | .call, callee :: args => evalCall host run callee args scope
  | .closure, items => evalClosure items scope
  | _, [left, right] => if op.isStrictBinary then evalBinary run op left right scope else throw (malformed e)
  | _, _ => throw (malformed e)

/-- The rule of a tree, which has to be a node. -/
def step (e : Expr) (scope : ScopeId) : Eval Value :=
  match e.tag? with
  | some tag => evalNode host run e tag.op e.children scope
  | none => throw (malformed e)

end Evaluation

end DynamicConfig

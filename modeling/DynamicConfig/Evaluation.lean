import DynamicConfig.Evaluation.Step
import DynamicConfig.Expr.Parse
/-!
# Evaluation

The evaluator ties the rules of evaluation to themselves. It recurses on the number of nodes that may
still come under evaluation, which the nesting limit gives: so it ends on every tree, also where
bindings and closures refer to themselves without end.
-/

namespace DynamicConfig

/-- Evaluates an expression where `room` more nodes may come under evaluation. -/
def evalWithin (host : Host) : (room : Nat) → Evaluator
  | 0, _, _ => do
    host.checkInterrupt
    Eval.refuseNode
  | room + 1, e, scope => do
    host.checkInterrupt
    Eval.inNode (Evaluation.step host (evalWithin host room) e scope)

/-- Evaluates an expression inside a scope. -/
def evaluate (host : Host) (e : Expr) (scope : ScopeId) : Eval Value := do
  evalWithin host (← get).context.room e scope

/-- The value of a name, seen from a scope. -/
def lookupName (host : Host) (scope : ScopeId) (name : Value) : Eval Value :=
  Evaluation.lookupName (evaluate host) scope name

/-- The value of a field of an object, or of a name of a scope. -/
def lookupField (host : Host) (target field : Value) : Eval Value :=
  Evaluation.lookup (evaluate host) target field

/-- Calls a value with values. -/
def call (host : Host) (callee : Value) (args : List Value) : Eval Value :=
  Evaluation.callValue host (evaluate host) callee args

/-- Evaluates a source text inside a scope. A text with faults is not evaluated. -/
def evalSource (host : Host) (source : String) (scope : ScopeId) : StateM Machine (Except ConfigError Value) := do
  match parseClean source with
  | .error e => return .error e
  | .ok e => return (← (evaluate host e scope).run).mapError .fatal

end DynamicConfig

import DynamicConfig.Pattern.Trees
import DynamicConfig.Scope
/-!
# Where clauses and bindings

Arguments and the items of a closure may be bindings, `name = value`, and where clauses, which are
calls of the name `where` with bindings. Both are recognised by patterns:

    where(x = 1, y = z = 4)   [call [name "where"] [= [string "x"] ...] ...]
    y = z = 4                 [= [string "y"] [= [string "z"] [number 4]]]

In a chain of bindings the first name gets the value and each other one refers to the name before it,
so that all of them share one value.
-/

namespace DynamicConfig

/-- A call of the name `where`. -/
def wherePattern : Pattern Expr :=
  .first (.text "call") (.first (.list [.text "name", .text "where"]) (.captureItems "args"))

/-- A binding of a name. -/
def bindingPattern : Pattern Expr :=
  .list [.text "=", .list [.text "string", .captureText "name"], .captureNode "value"]

/-- The arguments of a where clause. -/
def Expr.whereArgs? (e : Expr) : Option (List Expr) :=
  (wherePattern.matched? e).bind fun captures => captures.lists "args"

/-- The name and the value of a binding. -/
def Expr.asBinding? (e : Expr) : Option (String × Expr) := do
  let captures ← bindingPattern.matched? e
  return (← captures.texts "name", ← captures.nodes "value")

/-- The names that a chain of bindings binds, and the value that they share. -/
def Expr.bindingChain : Expr → List String × Expr
  | .list [head, target, value] =>
    match Expr.asBinding? (.list [head, target, value]) with
    | some (name, _) =>
      let (names, shared) := value.bindingChain
      (name :: names, shared)
    | none => ([], .list [head, target, value])
  | e => ([], e)

/-- What each name of a chain is bound to: the first one to the value, each other one to the name
before it. -/
def aliases (location : Location) : (value : Expr) → List String → List (String × Expr)
  | _, [] => []
  | value, name :: rest => (name, value) :: aliases location (.nameLeaf location name) rest

namespace Bindings

/-- Adds several bindings of names to expressions. -/
def bindAll (bindings : Bindings) (pairs : List (String × Expr)) : Except String Bindings :=
  pairs.foldlM (fun bindings pair =>
    (bindings.bindExpr (.string pair.1) pair.2).mapError duplicateName) bindings

/-- Adds the bindings of a chain. It fails, with the reason, if the expression is no binding or a name
is bound already. -/
def bindChain (bindings : Bindings) (arg : Expr) : Except String Bindings :=
  match arg.bindingChain with
  | ([], _) => .error "missing = in where"
  | (names, value) => bindings.bindAll (aliases (arg.location?.getD ⟨0, 0⟩) value names)

/-- Takes the where clauses out of arguments and adds their bindings. The other arguments keep their
order. -/
def takeWhere (bindings : Bindings) : List Expr → Except String (List Expr × Bindings)
  | [] => .ok ([], bindings)
  | arg :: rest =>
    match arg.whereArgs? with
    | some clauses => do
      let bindings ← clauses.foldlM bindChain bindings
      takeWhere bindings rest
    | none => do
      let (others, bindings) ← takeWhere bindings rest
      return (arg :: others, bindings)

end Bindings

end DynamicConfig

import DynamicConfig.Host
/-!
# Built-in names

The names that are bound everywhere: `if` evaluates one of two branches, `error` makes an error value,
`object` gives its argument a name, and `math` holds the numbers that have no literal.
-/

namespace DynamicConfig

namespace Host

/-- Evaluates the branch that a truth value chooses. -/
def chooseBranch (run : Evaluator) (args : List Expr) (scope : ScopeId) : Eval Value :=
  match args with
  | [condition, yes, no] =>
    if args.any Expr.isAssign then return .error "if requires 3 unnamed args"
    else do
      match ← run condition scope with
      | .bool true => run yes scope
      | .bool false => run no scope
      | .error message => return .error message
      | other => return .error ("if condition must be a bool, found " ++ other.typeName)
  | _ => return .error "if requires 3 unnamed args"

/-- The error value with a message. -/
def makeError : List Value → Value
  | [.string message] => .error message
  | _ => .error "error() takes one string only"

/-- The only argument itself. -/
def makeObject : List Value → Value
  | [value] => value
  | _ => .error "object() takes one arg only"

/-- The functions that every host has. -/
def builtin : Host where
  function? code :=
    match code with
    | "error" => some fun args => return makeError args
    | "object" => some fun args => return makeObject args
    | _ => none
  lazyFunction? code :=
    match code with
    | "if" => some chooseBranch
    | _ => none

@[simp]
theorem stops_builtin (c : Context) : builtin.stops c = c.interrupted :=
  Bool.or_false c.interrupted

/-- The functions that every host has, where other threads ask evaluation to stop. -/
def interruptedBy (interrupts : (checks : Nat) → Bool) : Host :=
  { builtin with interrupts }

end Host

/-- The bindings that every evaluation has. They are all evaluated. -/
def globals : Bindings :=
  let infinity := Float.ofBits 0x7FF0000000000000
  let notANumber := Float.ofBits 0x7FF8000000000000
  [⟨.string "if", .evaluated (.lazyFunction "if")⟩,
   ⟨.string "error", .evaluated (.function "error")⟩,
   ⟨.string "object", .evaluated (.function "object")⟩,
   ⟨.string "math", .evaluated (.object 0
      [(.string "Inf", .number infinity), (.string "NaN", .number notANumber)])⟩]

/-- The scope of the built-in names. -/
def globalScope : ScopeId := 0

/-- A machine that has done nothing yet: it has the scope of the built-in names alone. -/
def Machine.initial (context : Context) : Machine where
  context := context
  scopes := #[⟨[], globals⟩]
  nextId := 1

end DynamicConfig

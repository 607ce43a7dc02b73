import DynamicConfig.Evaluation
import DynamicConfig.Host.Builtin
/-!
# A host to try the language with

Functions that show how evaluation goes: arithmetic, a log, evaluation inside a function, and what a
lazy function gets to see.
-/

namespace DynamicConfig.Host

/-! ## Functions of values -/

/-- The square of a number. -/
def square : List Value → Value
  | [.number x] => .number (x * x)
  | _ => .error "arg not a number"

/-- Adds a line to the log. -/
def writeLog (line : String) : Eval Unit :=
  modify fun m => { m with log := m.log.push line }

/-- The first of some arguments. -/
def firstArg (args : List Value) : Value :=
  args.head?.getD (.error "no arg")

/-- Logs its argument and returns it. -/
def logValue (args : List Value) : Eval Value := do
  writeLog (firstArg args).code
  return firstArg args

/-- Logs a word and returns the number of lines in the log. -/
def tick : Eval Value := do
  writeLog "tick"
  return .number (Float.ofNat (← get).log.size)

/-- Work in a context of its own. A failure is an error value with its wording. -/
def isolated (work : Eval Value) : Eval Value :=
  tryCatch (Eval.inContext {} work) fun failure => return .error failure.message

/-- A field of a value, if it is a number and looking it up does not fail. -/
def numberField (inner : Host) (value : Value) (name : String) : Eval (Option Float) :=
  tryCatch (Value.asNumber? <$> lookupField inner value (.string name)) fun _ => return none

/-- The length of the hypotenuse of a right triangle with the sides `x` and `y`. -/
def hypotenuse (inner : Host) (args : List Value) : Eval Value :=
  match args with
  | [arg] => Eval.inContext {} do
    let x ← numberField inner arg "x"
    let y ← numberField inner arg "y"
    match x, y with
    | some x, some y => return .number (x * x + y * y).sqrt
    | _, _ => return .error "invalid args"
  | _ => return .error "invalid args"

/-- Calls the function `f` with `x`, and then with what came out of it. -/
def twice (inner : Host) (args : List Value) : Eval Value :=
  isolated do
    let part (name : String) : Eval Value :=
      match args with
      | arg :: _ => lookupField inner arg (.string name)
      | [] => return firstArg args
    let f ← part "f"
    let x ← part "x"
    call inner f [← call inner f [x]]

/-! ## Lazy functions -/

/-- The last of the values of some arguments, which are evaluated in order. -/
def lastValue (run : Evaluator) (scope : ScopeId) : (last : Value) → List Expr → Eval Value
  | last, [] => return last
  | _, arg :: rest => do lastValue run scope (← run arg scope) rest

/-- The functions of the workbench, with the host that evaluations inside a function have. -/
def workbenchOver (inner : Host) : Host where
  function? code :=
    match code with
    | "square" => some fun args => return square args
    | "hypotenuse" => some (hypotenuse inner)
    | "log" => some logValue
    | "tick" => some fun _ => tick
    | "twice" => some (twice inner)
    | _ => none
  lazyFunction? code :=
    match code with
    | "source" => some fun _ args _ => return .string ("; ".intercalate (args.map Expr.sourceText))
    | "scope" => some fun _ _ scope => return .scope scope
    | "last" => some fun run args scope => lastValue run scope (.error "no args") args
    | "depth" => some fun _ _ _ => do return .number (Float.ofNat (← get).context.depth)
    | "stop" => some fun _ _ _ => do
      Eval.modifyContext fun c => { c with interrupted := true }
      return .bool true
    | _ => none

/-- A workbench whose functions may evaluate inside one another up to a number of levels. -/
def workbenchOf : (levels : Nat) → Host
  | 0 => builtin
  | levels + 1 => (workbenchOver (workbenchOf levels)).or builtin

/-- The workbench. -/
def workbench : Host :=
  workbenchOf 256

/-- The value of a function of the workbench. -/
def workbenchValue (name : String) : Value :=
  if name ∈ ["source", "scope", "last", "depth", "stop"] then .lazyFunction name else .function name

/-- The names of the functions of the workbench, in the order in which they are bound. -/
def workbenchNames : List String :=
  ["square", "hypotenuse", "log", "tick", "twice", "source", "scope", "last", "depth", "stop"]

/-- The bindings of the functions of the workbench. -/
def workbenchBindings : Bindings :=
  workbenchNames.map fun name => ⟨.string name, .evaluated (workbenchValue name)⟩

end DynamicConfig.Host

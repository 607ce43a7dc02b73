import DynamicConfig.Expr.Printer
import DynamicConfig.Answer
/-!
# The read-eval-print loop

Each line is a source text, or a command if it begins with a colon. A text is evaluated in a new
context; what stays from line to line are the bindings that were made, each in a scope of its own
inside the one before it.
-/

namespace DynamicConfig

namespace Repl

/-- What a line asks for. -/
inductive Line
  | empty
  | quit
  | help
  /-- Print the tree of a source text. -/
  | tree (source : String)
  /-- Bind a name to the value of a source text. -/
  | bind (name source : String)
  | eval (source : String)
  | unknown (line : String)
deriving Repr, DecidableEq

/-- The parts of a text before and after its first space. -/
def cutAtSpace? (text : String) : Option (String × String) :=
  match text.toList.span (· != ' ') with
  | (before, _ :: after) => some (String.ofList before, String.ofList after)
  | (_, []) => none

/-- What a line asks for. -/
def Line.read (text : String) : Line :=
  let line := Text.trim text
  match line.toList with
  | [] => .empty
  | ':' :: command =>
    let (name, rest) := (cutAtSpace? (String.ofList command)).getD (String.ofList command, "")
    let rest := Text.trim rest
    match name with
    | "q" | "quit" => .quit
    | "h" | "help" => .help
    | "tree" => .tree rest
    | "let" =>
      match cutAtSpace? rest with
      | some (name, source) => .bind name (Text.trim source)
      | none => .unknown line
    | _ => .unknown line
  | _ => .eval line

/-- What the loop says first. -/
def banner : String := "fig 0.1.0 (:help for commands)\n"

/-- What the loop says before it reads a line. -/
def prompt : String := "fig> "

/-- The commands of the loop. -/
def helpText : String :=
  ":help           show this message\n" ++
  ":tree <expr>    print the canonical tree\n" ++
  ":let name expr  bind a name for later lines\n" ++
  ":quit           exit\n"

/-- What stays from line to line. -/
structure State where
  machine : Machine
  /-- The scope of the last binding. -/
  scope : ScopeId

/-- Nothing but the built-in names. -/
def State.initial (settings : Settings) : State :=
  ⟨Machine.initial settings.context, globalScope⟩

/-- The line that reports a failure. -/
def failureLine (message : String) : String :=
  "error: " ++ message ++ "\n"

/-- Work on the machine. -/
def onMachine {α : Type} (work : StateM Machine α) : StateM State α :=
  modifyGet fun state =>
    let (result, machine) := work.run state.machine
    (result, { state with machine })

/-- Evaluates a source text in a new context. -/
def evaluate (settings : Settings) (source : String) : StateM State (Except ConfigError Value) := do
  let scope := (← get).scope
  onMachine do
    modify fun m => { m with context := settings.context }
    evalSource Host.builtin source scope

/-- Binds a name to a value for the lines to come. -/
def bindName (name : String) (value : Value) : StateM State Unit := do
  let scope ← onMachine (Machine.newScope (some (← get).scope) [⟨.string name, .evaluated value⟩])
  modify fun state => { state with scope }

/-- The tree of a source text, and its faults. -/
def treeLines (source : String) : String :=
  match parse source with
  | .error failure => failureLine failure.message
  | .ok parsed =>
    parsed.expr.treeText ++ "\n" ++ String.join (parsed.errors.map fun e => failureLine e.text)

/-- Answers a line. There is no answer to the line that ends the loop. -/
def respond? (settings : Settings) (text : String) : StateM State (Option String) := do
  match Line.read text with
  | .empty => return some ""
  | .quit => return none
  | .help => return some helpText
  | .tree source => return some (treeLines source)
  | .bind name source =>
    match ← evaluate settings source with
    | .ok value => do
      bindName name value
      return some ""
    | .error failure => return some (failureLine failure.message)
  | .eval source =>
    match ← evaluate settings source with
    | .ok value => return some (value.code ++ "\n")
    | .error failure => return some (failureLine failure.message)
  | .unknown line => return some ("unknown command " ++ Text.Quoted.encode line ++ ", try :help\n")

/-- Answers the given lines, each after a prompt. A last prompt comes where the lines end. -/
def respondAll (settings : Settings) : List String → StateM State String
  | [] => return prompt
  | line :: rest => do
    match ← respond? settings line with
    | none => return prompt
    | some answer => return prompt ++ answer ++ (← respondAll settings rest)

/-- All that the loop says when it is given some lines. -/
def transcript (settings : Settings) (lines : List String) : String :=
  banner ++ ((respondAll settings lines).run (State.initial settings)).1

end Repl

end DynamicConfig

import DynamicConfig.Evaluation
import DynamicConfig.Host.Builtin
import DynamicConfig.Settings
import DynamicConfig.Store
import DynamicConfig.Value.Plain
/-!
# Answers

An entry of a configuration is asked for with an argument: its text is evaluated in a scope of its own
inside that of the built-in names, in a new context, with the argument bound. A text with faults is not
evaluated.
-/

namespace DynamicConfig

/-- The bindings of names to arguments. -/
def argumentBindings (args : List (String × Json)) : Fresh Bindings :=
  args.mapM fun arg => do return ⟨.string arg.1, .evaluated (← Value.ofJson arg.2)⟩

/-- Makes a scope inside another one that binds names to arguments. -/
def Machine.bindArguments (parent : ScopeId) (args : List (String × Json)) : StateM Machine ScopeId := do
  Machine.newScope (some parent) (← Machine.fresh (argumentBindings args))

/-- The value of a source text with names bound to arguments. -/
def answerSource (context : Context) (args : List (String × Json)) (source : String) :
    Except ConfigError Value :=
  let work : StateM Machine (Except ConfigError Value) := do
    evalSource Host.builtin source (← Machine.bindArguments globalScope args)
  (work.run (Machine.initial context)).1

/-- The answer of a source text for an argument. -/
def Settings.answerSource (settings : Settings) (arg : Json) (source : String) : Except ConfigError Value :=
  DynamicConfig.answerSource settings.context [(settings.argumentName, arg)] source

section

variable {σ : Type} [Store σ] (settings : Settings)

/-- The answer of an entry for an argument. It may be an error value. -/
def answerValue (key : String) (arg : Json) : StateM σ (Except ConfigError Value) := do
  match (← Store.config).get? key with
  | none => return .error (.notFound key)
  | some source => return settings.answerSource arg source

/-- The answer of an entry for an argument, as plain data. An error value is a failure here. -/
def answerPlain (key : String) (arg : Json) : StateM σ (Except ConfigError Plain) := do
  match ← answerValue settings key arg with
  | .error failure => return .error failure
  | .ok value =>
    match value.toPlain with
    | .error message => return .error (.evaluation message)
    | plain => return .ok plain

end

end DynamicConfig

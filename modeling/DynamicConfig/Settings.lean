import DynamicConfig.Json.Reader
import DynamicConfig.Machine
/-!
# Settings

What can be chosen about the service, and how it is read from JSON: an object of any of the settings
by their names, or an array of the first few of them in order. Reading is strict, so that a misspelt
setting does not go unnoticed.
-/

namespace DynamicConfig

/-- What can be chosen about the service. -/
structure Settings where
  /-- How long a configuration is remembered before it is asked for again, in milliseconds. -/
  refreshMs : Nat := 1000
  /-- How many closures and bindings may be under evaluation at once. -/
  maxCallDepth : Nat := 128
  /-- What the keys of password policies begin with. -/
  authPrefix : String := "auth:basic:"
  /-- The name that the argument of an entry is bound to. -/
  argumentName : String := "it"
  /-- Whether every step of an evaluation is reported. -/
  trace : Bool := false
deriving Repr, DecidableEq

namespace Settings

/-- The whole seconds of the refresh interval. -/
def refreshSeconds (settings : Settings) : Nat :=
  settings.refreshMs / 1000

/-- The context that a request starts with. -/
def context (settings : Settings) : Context where
  limits := { maxCallDepth := settings.maxCallDepth }

/-- A setting: its name, and how a JSON value changes it, if it is one of the right kind. -/
structure Field where
  name : String
  change? : Json → Settings → Option Settings

/-- The settings in their order. -/
def fields : List Field :=
  [⟨"refresh_ms", fun json settings => json.asNat?.map fun n => { settings with refreshMs := n }⟩,
   ⟨"max_call_depth", fun json settings => json.asNat?.map fun n => { settings with maxCallDepth := n }⟩,
   ⟨"auth_prefix", fun json settings => json.asString?.map fun s => { settings with authPrefix := s }⟩,
   ⟨"argument_name", fun json settings => json.asString?.map fun s => { settings with argumentName := s }⟩,
   ⟨"trace", fun json settings => json.asBool?.map fun b => { settings with trace := b }⟩]

/-- The settings of a member of an object. Only the name of a setting may be its key. -/
def changeNamed? (settings : Settings) (member : String × Json) : Option Settings := do
  let field ← fields.find? fun field => field.name == member.1
  field.change? member.2 settings

/-- The settings of an object or an array. What is not in it stays as it is by default. -/
def ofJson? : Json → Option Settings
  | .object members => do
    guard (members.map Prod.fst).Nodup
    members.foldlM changeNamed? {}
  | .array items => do
    guard (items.length ≤ fields.length)
    (fields.zip items).foldlM (fun settings pair => pair.1.change? pair.2 settings) {}
  | _ => none

/-- The settings that a text holds. -/
def read? (text : String) : Option Settings := do
  ofJson? (← Json.readAsWritten? text)

end Settings

end DynamicConfig

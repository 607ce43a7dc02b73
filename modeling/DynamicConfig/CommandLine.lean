import DynamicConfig.CommandLine.Invocation
import DynamicConfig.CommandLine.Repl
import DynamicConfig.Json.Printer
import DynamicConfig.Policy
import DynamicConfig.Store.Memory
/-!
# The command line

What the program prints and with which code it ends, given its arguments, the files around it and what
it is told. A store file is a JSON object of source texts by their keys.
-/

namespace DynamicConfig

/-- What can be found under the name of a file. -/
inductive FileState
  | missing
  | unreadable
  | text (content : String)
deriving Repr, DecidableEq

/-- The end of the program. -/
structure Outcome where
  code : Nat
  stdout : String
  /-- What went wrong, if the arguments made sense. -/
  error : Option String
deriving Repr, DecidableEq

namespace CommandLine

/-! ## Inputs -/

/-- The settings in a file, or those by default. -/
def loadSettings (files : String → FileState) : Option String → Except String Settings
  | none => .ok {}
  | some name =>
    let found := match files name with
      | .text content => Settings.read? content
      | _ => none
    match found with
    | some settings => .ok settings
    | none => .error ("loading settings from " ++ name)

/-- The store in a text: the entries of an object, in the order of their keys. -/
def readStore? (text : String) : Option MemoryStore := do
  let fields ← (← Json.readAsWritten? text).asObject?
  let entries ← fields.mapM fun field => do return (field.1, ← field.2.asString?)
  return MemoryStore.ofEntries (Keyed.ofList entries)

/-- The store in a file. -/
def loadStore (files : String → FileState) (name : String) : Except String MemoryStore :=
  match files name with
  | .text content =>
    match readStore? content with
    | some store => .ok store
    | none => .error ("decoding store " ++ name)
  | _ => .error ("reading store " ++ name)

/-- The store in a file, or an empty one if there is no such file. -/
def loadStoreIfAny (files : String → FileState) (name : String) : Except String MemoryStore :=
  if files name = .missing then .ok {} else loadStore files name

/-- The argument in a text, which is `true` if none is given. -/
def readArgument : Option String → Except String Json
  | none => .ok (.bool true)
  | some text =>
    match Json.read? text with
    | some arg => .ok arg
    | none => .error "--arg is not valid JSON"

/-! ## Commands -/

/-- The tree of a source text, the text of the tree, and the faults. -/
def parseReport (parsed : Parsed) : Json :=
  .ofFields
    [("tree", .string parsed.expr.treeText), ("code", .string parsed.expr.sourceText),
     ("errors", .array (parsed.errors.map fun e => .string e.text))]

/-- A configuration as a JSON object. -/
def configJson (config : Config) : Json :=
  .object (config.map fun entry => (entry.1, .string entry.2))

/-- What a command prints. `lines` is what the program is told. -/
def perform (settings : Settings) (files : String → FileState) (lines : List String) :
    Command → Except String String
  | .parse source => do
    let parsed ← (DynamicConfig.parse source).mapError FatalError.message
    return (parseReport parsed).pretty ++ "\n"
  | .eval source arg => do
    let arg ← readArgument arg
    let value ← (settings.answerSource arg source).mapError ConfigError.message
    return value.toPlain.toJson.compact ++ "\n"
  | .get key store arg => do
    let store ← loadStore files store
    let arg ← readArgument arg
    let plain ← ((answerPlain settings key arg).run store).1.mapError ConfigError.message
    return plain.toJson.compact ++ "\n"
  | .auth store user password path => do
    let store ← loadStore files store
    let api := apiName path
    if ((authorize settings user password api).run store).1 then return "allowed\n"
    else throw ("access denied for " ++ user ++ " on " ++ Text.Quoted.encode api)
  | .setAuth store user password => do
    let store ← loadStoreIfAny files store
    let changed := setPassword settings user password store
    return (configJson ((Store.config.run changed).1)).pretty ++ "\n"
  | .repl => return Repl.transcript settings lines

/-! ## The whole program -/

/-- A text up to the end of its first line. -/
def firstLine (text : String) : String :=
  String.ofList (text.toList.takeWhile (· != '\n'))

/-- The lines of a text. What follows the last line break is a line if it is not empty. -/
def linesOf (text : String) : List String :=
  let lines := text.splitOn "\n"
  if lines.getLast? = some "" then lines.dropLast else lines

/-- What a request for the version is answered with. -/
def programVersion : String := "fig-cli 0.1.0\n"

/-- How the program is used. -/
def usageText : String :=
  "Evaluate fig config expressions\n\n" ++
  "Usage: fig [OPTIONS] [COMMAND]\n\n" ++
  "Commands:\n" ++
  "  parse     Print the canonical tree and parse errors as JSON\n" ++
  "  eval      Evaluate an expression\n" ++
  "  get       Evaluate a stored config entry\n" ++
  "  auth      Check credentials against a stored basic-auth policy\n" ++
  "  set-auth  Store the standard basic-auth policy and print the updated store\n" ++
  "  repl      Interactive read-eval-print loop\n" ++
  "  help      Print this message or the help of the given subcommand(s)\n\n" ++
  "Options:\n" ++
  "      --config <FILE>  Settings file (JSON)\n" ++
  "  -v, --verbose        Log at debug level\n" ++
  "  -h, --help           Print help\n" ++
  "  -V, --version        Print version\n"

/-- The outcome of a command line that is not carried out. -/
def stopOutcome : Stop → Outcome
  | .help => ⟨0, usageText, none⟩
  | .version => ⟨0, programVersion, none⟩
  | .badUsage => ⟨2, "", none⟩

/-- The outcome of a command. -/
def commandOutcome : Except String String → Outcome
  | .ok printed => ⟨0, printed, none⟩
  | .error message => ⟨1, "", some (firstLine ("Error: " ++ message))⟩

/-- The outcome of the program. The settings are loaded first, whatever the command is. -/
def run (arguments : List String) (files : String → FileState) (input : String) : Outcome :=
  match Invocation.read arguments with
  | .error stop => stopOutcome stop
  | .ok invocation =>
    commandOutcome do
      let settings ← loadSettings files invocation.config
      perform settings files (linesOf input) invocation.command

end CommandLine

end DynamicConfig

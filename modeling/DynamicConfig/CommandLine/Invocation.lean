/-!
# Invocations

What the arguments of a command line ask for. Two options may stand before the name of a command or
after it: `--config FILE`, of which the one after the name counts, and `--verbose`. An option that
takes a value takes the next argument, or what follows an `=`. After `--` everything is an operand.
-/

namespace DynamicConfig

/-- What to do. -/
inductive Command
  /-- Print the tree of a source text and its faults. -/
  | parse (source : String)
  /-- Evaluate a source text for an argument. -/
  | eval (source : String) (arg : Option String)
  /-- Answer for a stored entry and an argument. -/
  | get (key store : String) (arg : Option String)
  /-- Say whether a user may call something. -/
  | auth (store user password path : String)
  /-- Print a store in which a user has got a password. -/
  | setAuth (store user password : String)
  /-- Talk line by line. -/
  | repl
deriving Repr, DecidableEq

/-- What a command line asks for. -/
structure Invocation where
  /-- The file that holds the settings. -/
  config : Option String
  /-- Whether more is reported of what is done. No answer depends on it. -/
  verbose : Bool
  command : Command
deriving Repr, DecidableEq

/-- The file that a command reads its store from. -/
def Command.store? : Command → Option String
  | get _ store _ | auth store _ _ _ | setAuth store _ _ => some store
  | parse _ | eval _ _ | repl => none

/-- The files that have to be read. -/
def Invocation.files (invocation : Invocation) : List String :=
  invocation.config.toList ++ invocation.command.store?.toList

/-- Why a command line is not carried out. -/
inductive Stop
  | help
  | version
  /-- The arguments make no sense. -/
  | badUsage
deriving Repr, DecidableEq

namespace Invocation

/-! ## Words -/

/-- The form of an argument. -/
inductive Word
  | operand (text : String)
  /-- Two hyphens alone. -/
  | separator
  | long (name : String) (value : Option String)
  | short (letters : List Char)

/-- The form of an argument. A hyphen alone is an operand. -/
def Word.ofArgument (argument : String) : Word :=
  match argument.toList with
  | ['-', '-'] => .separator
  | '-' :: '-' :: rest =>
    let (name, value) := rest.span (· != '=')
    .long (String.ofList name) (if value.isEmpty then none else some (String.ofList value.tail))
  | '-' :: letter :: rest => .short (letter :: rest)
  | _ => .operand argument

/-- Whether an argument may be the value of the option before it. -/
def Word.isOperand : Word → Bool
  | operand _ => true
  | _ => false

/-! ## Options and operands -/

/-- What may be given in one part of a command line: before the name of a command, or after it. -/
structure Part where
  /-- The options that take a value. -/
  options : List String
  /-- How many operands there are at most. -/
  operands : Nat
  /-- Whether the first operand names a command, to which all arguments after it belong. -/
  namesCommand : Bool := false

/-- What has been given in one part of a command line. -/
structure Given where
  values : List (String × String) := []
  verbose : Bool := false
  operands : List String := []
  command : Option (String × List String) := none

/-- The options whose value is the name of a file, which is not empty. -/
def fileOptions : List String := ["config", "store"]

namespace Given

/-- The value of an option. -/
def value? (given : Given) (name : String) : Option String :=
  given.values.lookup name

/-- Gives an option its value, which may be done once. -/
def addValue (given : Given) (name value : String) : Except Stop Given :=
  if (given.value? name).isSome || (fileOptions.contains name && value.isEmpty) then .error .badUsage
  else .ok { given with values := (name, value) :: given.values }

/-- Gives one more operand. -/
def addOperand (part : Part) (given : Given) (text : String) : Except Stop Given :=
  if given.operands.length < part.operands then .ok { given with operands := given.operands ++ [text] }
  else .error .badUsage

/-- Gives the flag of verbosity, which may be done once. -/
def addVerbose (given : Given) : Except Stop Given :=
  if given.verbose then .error .badUsage else .ok { given with verbose := true }

/-- Asks for the version, which may be done before the name of a command only. -/
def askVersion (part : Part) : Stop :=
  if part.namesCommand then .version else .badUsage

/-- Gives flags by their letters. -/
def addLetters (part : Part) : List Char → Given → Except Stop Given
  | [], given => .ok given
  | 'v' :: rest, given => do addLetters part rest (← given.addVerbose)
  | 'h' :: _, _ => .error .help
  | 'V' :: _, _ => .error (askVersion part)
  | _ :: _, _ => .error .badUsage

/-- Reads the arguments of one part of a command line. -/
def addAll (part : Part) : List String → Given → Except Stop Given
  | [], given => .ok given
  | argument :: rest, given =>
    match Word.ofArgument argument with
    | .separator => rest.foldlM (addOperand part) given
    | .short letters => do addAll part rest (← addLetters part letters given)
    | .long "verbose" none => do addAll part rest (← given.addVerbose)
    | .long "help" none => .error .help
    | .long "version" none => .error (askVersion part)
    | .operand text =>
      if part.namesCommand then .ok { given with command := some (text, rest) }
      else do addAll part rest (← given.addOperand part text)
    | .long name value =>
      if !part.options.contains name then .error .badUsage
      else
        match value with
        | some value => do addAll part rest (← given.addValue name value)
        | none =>
          match rest with
          | [] => .error .badUsage
          | value :: rest =>
            if (Word.ofArgument value).isOperand then do addAll part rest (← given.addValue name value)
            else .error .badUsage

end Given

/-! ## Commands -/

/-- What may be given before the name of a command. -/
def commonPart : Part where
  options := ["config"]
  operands := 0
  namesCommand := true

/-- What may be given after the name of a command. -/
def partOf? (name : String) : Option Part :=
  match name with
  | "parse" => some ⟨["config"], 1, false⟩
  | "eval" => some ⟨["config", "arg"], 1, false⟩
  | "get" => some ⟨["config", "store", "arg"], 1, false⟩
  | "auth" => some ⟨["config", "store", "user", "password", "api"], 0, false⟩
  | "set-auth" => some ⟨["config", "store", "user", "password"], 0, false⟩
  | "repl" => some ⟨["config"], 0, false⟩
  | _ => none

/-- The command of a name and of what is given after it, if nothing is missing. -/
def commandOf? (name : String) (given : Given) : Option Command :=
  match name, given.operands with
  | "parse", [source] => some (.parse source)
  | "eval", [source] => some (.eval source (given.value? "arg"))
  | "get", [key] => do return .get key (← given.value? "store") (given.value? "arg")
  | "auth", [] => do
    return .auth (← given.value? "store") (← given.value? "user") (← given.value? "password")
      ((given.value? "api").getD "")
  | "set-auth", [] => do
    return .setAuth (← given.value? "store") (← given.value? "user") (← given.value? "password")
  | "repl", [] => some .repl
  | _, _ => none

/-- What a request for help asks about, if there is such a thing. -/
def helpOn (topics : List String) : Stop :=
  if topics.all fun topic => topic == "help" || (partOf? topic).isSome then .help else .badUsage

/-- What a command line asks for. Without a command it asks to talk line by line. -/
def read (arguments : List String) : Except Stop Invocation := do
  let common ← Given.addAll commonPart arguments {}
  match common.command with
  | none => return ⟨common.value? "config", common.verbose, .repl⟩
  | some ("help", topics) => .error (helpOn topics)
  | some (name, rest) =>
    match partOf? name with
    | none => .error .badUsage
    | some part =>
      let own ← Given.addAll part rest {}
      match commandOf? name own with
      | none => .error .badUsage
      | some command =>
        return ⟨(own.value? "config").or (common.value? "config"), common.verbose || own.verbose, command⟩

end Invocation

end DynamicConfig

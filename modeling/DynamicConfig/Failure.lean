import DynamicConfig.ParseError
/-!
# Failures

What ends the work on an expression at once, as opposed to an error value, which is a result. Such a
failure means that a caller did something wrong, or that the work was interrupted; no source text
without faults leads to one of the first two kinds.
-/

namespace DynamicConfig

/-- A failure that ends reading or evaluating an expression. -/
inductive FatalError
  /-- A node that evaluation has no rule for, as the text of its tree. -/
  | malformedNode (found : String)
  /-- A binding of something that is not a name, at its `=`. -/
  | invalidAssignTarget (offset : Nat)
  /-- A `,` or `=` where there is neither an argument list nor a closure. -/
  | misplacedOperator (op : String) (offset : Nat)
  /-- The work was asked to stop. -/
  | interrupted
deriving Repr, DecidableEq

/-- The wording of a failure. -/
def FatalError.message : FatalError → String
  | malformedNode found => "malformed expression node: " ++ found
  | invalidAssignTarget offset => "invalid assignment target at " ++ toString offset
  | misplacedOperator op offset =>
    "`" ++ op ++ "` is only valid inside an argument list (at " ++ toString offset ++ ")"
  | interrupted => "evaluation interrupted"

/-- A failure to answer a request for a configuration entry. -/
inductive ConfigError
  /-- No entry is stored under the key. -/
  | notFound (key : String)
  /-- The stored text has faults. -/
  | parse (errors : List ParseError)
  | fatal (error : FatalError)
  /-- The entry evaluates to an error value. -/
  | evaluation (message : String)
deriving Repr, DecidableEq

/-- The wording of a failure. -/
def ConfigError.message : ConfigError → String
  | notFound key => "config not found: " ++ key
  | parse errors => "invalid config expression: " ++ ParseError.joined errors
  | fatal error => error.message
  | evaluation message => message

end DynamicConfig

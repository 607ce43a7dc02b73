import DynamicConfig.Expr.OfRaw
import DynamicConfig.RawTree.Reading
/-!
# Expressions of source texts

Every source text has an expression and a list of faults, unless a comma or a binding stands where it
means nothing. An expression is there to be evaluated only if it has no faults.
-/

namespace DynamicConfig

/-- The expression of a source text, and the faults of the text in the order in which they are found. -/
structure Parsed where
  expr : Expr
  errors : List ParseError

/-- Whether the source text has no faults. -/
def Parsed.isOk (parsed : Parsed) : Bool :=
  parsed.errors.isEmpty

/-- The expression of a source text without faults, and else the faults. -/
def Parsed.result (parsed : Parsed) : Except (List ParseError) Expr :=
  if parsed.isOk then .ok parsed.expr else .error parsed.errors

/-- Reads a source text. -/
def parse (source : String) : Except FatalError Parsed := do
  let (raw, found) := RawTree.ofSource (some Frame.maxHeight) source
  let (expr, errors) ← Expr.ofRaw raw found
  return ⟨expr, errors⟩

/-- The expression of a source text that may be evaluated. -/
def parseClean (source : String) : Except ConfigError Expr :=
  match parse source with
  | .error fatal => .error (.fatal fatal)
  | .ok parsed => parsed.result.mapError .parse

end DynamicConfig

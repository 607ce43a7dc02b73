/-!
# Faults of a source text

What can be wrong with a source text, and where. A text is read to its end whatever is wrong with
it, so one text may have many faults.
-/

namespace DynamicConfig

/-- The kinds of faults. -/
inductive ParseError.Kind
  /-- A closing bracket that does not pair with the innermost open one. -/
  | mismatchedBraces
  /-- A bracket that is never closed. -/
  | incompleteBraces
  /-- A string that is never closed. -/
  | incompleteString
  /-- A character that begins no token. -/
  | invalidCharacter
  /-- Two terms side by side that are no call. -/
  | missingOperator
  /-- An operator without one of its operands. -/
  | missingTerm
  /-- A term nested deeper than is read. -/
  | tooDeep
deriving Repr, DecidableEq

/-- The wording of a kind. -/
def ParseError.Kind.text : ParseError.Kind → String
  | mismatchedBraces => "mismatched braces/parens"
  | incompleteBraces => "incomplete braces/parens"
  | incompleteString => "unterminated string"
  | invalidCharacter => "invalid character"
  | missingOperator => "missing operator"
  | missingTerm => "missing term"
  | tooDeep => "expression nested too deeply"

/-- A fault and the byte at which it was found. -/
structure ParseError where
  kind : ParseError.Kind
  offset : Nat
deriving Repr, DecidableEq

/-- The kind and the place. -/
def ParseError.text (e : ParseError) : String :=
  e.kind.text ++ " at " ++ toString e.offset

/-- The texts of several faults, with commas between them. -/
def ParseError.joined (errors : List ParseError) : String :=
  ", ".intercalate (errors.map ParseError.text)

end DynamicConfig

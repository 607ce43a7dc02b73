import DynamicConfig.Text.Quoted
import DynamicConfig.Token
/-!
# Raw trees

The tree of a source text as its operators and brackets stand: every operator has two operands, two
terms side by side are an application, and brackets are kept. `Expr.ofRaw` turns it into an
expression.
-/

namespace DynamicConfig

/-- A term that is a single token. -/
inductive Leaf
  | string (text : String)
  | number (value : Float)
  | bool (value : Bool)
  | name (text : String)

/-- The leaf of a token's text: a string if it begins with a quote, a number if it begins with a
digit, `true` and `false` in any case, and else a name. -/
def Leaf.ofText? (text : String) : Option Leaf :=
  match text.toList with
  | '"' :: rest => some (.string (Text.Quoted.decode rest))
  | c :: rest =>
    if c.isDigit then (Decimal.Literal.read? (c :: rest)).map (.number ·.value)
    else if Text.equalIgnoringCase text "true" then some (.bool true)
    else if Text.equalIgnoringCase text "false" then some (.bool false)
    else some (.name text)
  | [] => some (.name text)

/-- A tree of operators, applications and brackets over leaves. -/
inductive RawTree
  /-- An operand that is not there, at the place where it is missed. -/
  | missing (offset : Nat)
  /-- A term that is nested too deep to be read. -/
  | cutOff (offset : Nat)
  | leaf (leaf : Leaf) (location : Location)
  | binary (symbol : Symbol) (location : Location) (left right : RawTree)
  /-- Two terms side by side, at the place where the second one begins. -/
  | apply (location : Location) (callee args : RawTree)
  | group (bracket : Bracket) (location : Location) (inner : RawTree)

namespace RawTree

/-- The number of levels of a tree. -/
def height : RawTree → Nat
  | missing _ | cutOff _ | leaf _ _ => 1
  | binary _ _ left right => max left.height right.height + 1
  | apply _ callee args => max callee.height args.height + 1
  | group _ _ inner => inner.height + 1

/-- The tree of a token that is no symbol. A token that begins as a number and is none counts as a
missing term. -/
def ofToken (token : Token) : RawTree × List ParseError :=
  match Leaf.ofText? token.text with
  | some l => (leaf l token.location, [])
  | none => (missing token.location.start, [⟨.invalidCharacter, token.location.start⟩])

end RawTree

end DynamicConfig

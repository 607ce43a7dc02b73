import DynamicConfig.Decimal.Layout
import DynamicConfig.Expr
import DynamicConfig.Text.Quoted
/-!
# Writing expressions

Two texts of an expression: the tree with its tags, and source text. Source text has brackets exactly
where the operand of an operator binds no tighter than the operator itself.
-/

namespace DynamicConfig.Expr

mutual

/-- The tree with its tags, each list in square brackets. -/
def treeText : Expr → String
  | tag t => t.text
  | string text => Text.Quoted.encode text
  | number x => Decimal.spell x
  | bool b => if b then "true" else "false"
  | nil => "nil"
  | list items => "[" ++ " ".intercalate (treeTexts items) ++ "]"

/-- The texts of several trees. -/
def treeTexts : List Expr → List String
  | [] => []
  | e :: rest => treeText e :: treeTexts rest

end

/-- Whether a node is bracketed as an operand of another one. -/
def needsBrackets (operand parent : Op) : Bool :=
  !operand.isLeaf &&
    (operand.precedence < parent.precedence ||
      (operand.precedence == parent.precedence && parent.precedence < Op.field.precedence))

/-- The text of an operand, in brackets if it needs them. -/
def operandText (parent : Op) (operand : Expr) (text : String) : String :=
  match operand.op? with
  | some op => if needsBrackets op parent then "(" ++ text ++ ")" else text
  | none => text

/-- The text of a key after a dot: a string stands bare, anything else in brackets. -/
def keyText (key : Expr) (text : String) : String :=
  match key.asStringLiteral? with
  | some name => name
  | none => "(" ++ text ++ ")"

/-- The text of the name of a binding: a string stands bare. -/
def targetText (target : Expr) (text : String) : String :=
  target.asStringLiteral?.getD text

/-- The source text of a node, from its children and their texts. A shape without a text of its own
is a blank to fill in. -/
def nodeText (op : Op) (children : List Expr) (texts : List String) : String :=
  match op, children, texts with
  | .string, [_], [payload] | .number, [_], [payload] | .bool, [_], [payload] => payload
  | .name, [.string name], _ => name
  | .call, callee :: _, calleeText :: args =>
    operandText .call callee calleeText ++ "(" ++ ", ".intercalate args ++ ")"
  | .field, [left, key], [leftText, rightText] => operandText .field left leftText ++ "." ++ keyText key rightText
  | .assign, [target, _], [leftText, rightText] => targetText target leftText ++ " = " ++ rightText
  | .closure, _, _ => "\x7b" ++ ", ".intercalate texts ++ "\x7d"
  | _, [operand], [text] => op.text ++ operandText op operand text
  | _, [left, right], [leftText, rightText] =>
    operandText op left leftText ++ " " ++ op.text ++ " " ++ operandText op right rightText
  | _, _, _ => "_"

mutual

/-- The source text of an expression. -/
def sourceText : Expr → String
  | tag t => t.text
  | string text => Text.Quoted.encode text
  | number x => Decimal.spell x
  | bool b => if b then "true" else "false"
  | list (.tag t :: rest) => nodeText t.op rest (sourceTexts rest)
  | list _ | nil => "_"

/-- The source texts of several expressions. -/
def sourceTexts : List Expr → List String
  | [] => []
  | e :: rest => sourceText e :: sourceTexts rest

end

end DynamicConfig.Expr

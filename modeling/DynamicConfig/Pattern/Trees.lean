import DynamicConfig.Expr
import DynamicConfig.Json
import DynamicConfig.Pattern
/-!
# The trees that patterns are held against

Expressions and JSON values. The tag of a node reads as the text of its kind, so a node is a list
that begins with a text.
-/

namespace DynamicConfig

instance : Treelike Expr where
  asText?
    | .string text => some text
    | .tag t => some t.op.text
    | _ => none
  asNumber?
    | .number x => some x
    | _ => none
  asBool?
    | .bool b => some b
    | _ => none
  asItems?
    | .list items => some items
    | _ => none
  isNil
    | .nil => true
    | _ => false

instance : Treelike Json where
  asText? := Json.asString?
  asNumber? := Json.asNumber?
  asBool? := Json.asBool?
  asItems? := Json.asArray?
  isNil
    | .null => true
    | _ => false

end DynamicConfig

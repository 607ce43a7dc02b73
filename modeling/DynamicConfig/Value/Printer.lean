import DynamicConfig.Expr.Printer
import DynamicConfig.Text.Letter
import DynamicConfig.Value
/-!
# Writing values

The code of a value is source text. The code of a scalar or an error evaluates to an equal value, and so does that of an
object of them under names, as long as it may be read at all.
-/

namespace DynamicConfig.Value

/-- Whether a text may stand as a bare key: letters, digits and underscores, no digit first, and
neither `true` nor `false`. -/
def isBareKey (text : String) : Bool :=
  match text.toList with
  | [] => false
  | first :: rest =>
    (Text.isLetter first || first = '_') && rest.all (fun c => Text.isAlphanumeric c || c = '_')
      && !Text.equalIgnoringCase text "true" && !Text.equalIgnoringCase text "false"

/-- The code of an error. -/
def errorCode (message : String) : String :=
  "error(" ++ Text.Quoted.encode message ++ ")"

/-- The code of a key of an object, given its code elsewhere. -/
def keyCode (key : Value) (code : String) : String :=
  match key with
  | string text => if isBareKey text then text else code
  | _ => code

mutual

/-- The source text of a value. -/
def code : Value → String
  | bool b => if b then "true" else "false"
  | number x => Decimal.spell x
  | string text => Text.Quoted.encode text
  | error message => errorCode message
  | object _ fields => "object(" ++ ", ".intercalate (fieldCodes fields) ++ ")"
  | scope _ => "<scope>"
  | function code | lazyFunction code => code
  | closure _ body _ => "\x7b" ++ body.sourceText ++ "\x7d"

/-- The source texts of fields, as bindings. -/
def fieldCodes : List (Value × Value) → List String
  | [] => []
  | (key, value) :: rest => (keyCode key (code key) ++ " = " ++ code value) :: fieldCodes rest

end

/-- A value as a name in messages: a string without its quotes. -/
def displayName (name : Value) : String :=
  name.asString?.getD name.code

/-- A value with its kind, for a reader who debugs. A scope has no text of this form that means
anything outside the running program. -/
def debugText? (value : Value) : Option String :=
  let shown (kind : String) := some (kind ++ "(" ++ value.code ++ ")")
  match value with
  | bool _ => shown "Bool"
  | number _ => shown "Number"
  | string _ => shown "String"
  | error message => some ("Error(" ++ Text.Quoted.encode message ++ ")")
  | object _ _ => shown "Object"
  | scope _ => none
  | function _ => shown "Function"
  | lazyFunction _ => shown "NativeFunction"
  | closure _ _ _ => shown "Closure"

end DynamicConfig.Value

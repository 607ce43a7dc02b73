import DynamicConfig.Json
import DynamicConfig.Decimal.Layout
/-!
# Writing JSON

Two forms: compact, without any space, and indented by two spaces a level.
-/

namespace DynamicConfig.Json

/-- A digit of a hexadecimal escape. -/
def hexDigit (n : Nat) : Char :=
  Nat.digitChar (n % 16)

/-- The way a character stands in a string: quotes, backslashes and control characters are escaped,
those that have a letter by their letter. -/
def escapeChar (c : Char) : List Char :=
  if c = '"' then ['\\', '"']
  else if c = '\\' then ['\\', '\\']
  else if c = '\n' then ['\\', 'n']
  else if c = '\t' then ['\\', 't']
  else if c = '\r' then ['\\', 'r']
  else if c.toNat = 0x8 then ['\\', 'b']
  else if c.toNat = 0xC then ['\\', 'f']
  else if c.toNat < 0x20 then ['\\', 'u', '0', '0', hexDigit (c.toNat / 16), hexDigit c.toNat]
  else [c]

/-- A string between quotes. -/
def quote (text : String) : String :=
  String.ofList ('"' :: (text.toList.flatMap escapeChar ++ ['"']))

/-- A number, which is finite. -/
def numberText (x : Float) : String :=
  Decimal.jsonLayout.render x

mutual

/-- The text without any space. -/
def compact : Json → String
  | null => "null"
  | bool b => if b then "true" else "false"
  | integer n => toString n
  | number x => numberText x
  | string text => quote text
  | array items => "[" ++ ",".intercalate (compactItems items) ++ "]"
  | object fields => "\x7b" ++ ",".intercalate (compactFields fields) ++ "\x7d"

/-- The texts of the items of an array. -/
def compactItems : List Json → List String
  | [] => []
  | item :: rest => item.compact :: compactItems rest

/-- The texts of the fields of an object. -/
def compactFields : List (String × Json) → List String
  | [] => []
  | (key, value) :: rest => (quote key ++ ":" ++ value.compact) :: compactFields rest

end

/-- Members of a container, each on a line of its own at the given depth. -/
def onLines (opening closing : String) (depth : Nat) (members : List String) : String :=
  let indent (n : Nat) := String.ofList (List.replicate (2 * n) ' ')
  if members.isEmpty then opening ++ closing
  else
    opening ++ "\n" ++ ",\n".intercalate (members.map (indent (depth + 1) ++ ·)) ++ "\n" ++ indent depth
      ++ closing

mutual

/-- The text with one member a line, indented by two spaces a level. -/
def indented (depth : Nat) : Json → String
  | array items => onLines "[" "]" depth (indentedItems (depth + 1) items)
  | object fields => onLines "\x7b" "\x7d" depth (indentedFields (depth + 1) fields)
  | json => json.compact

/-- The texts of the items of an array. -/
def indentedItems (depth : Nat) : List Json → List String
  | [] => []
  | item :: rest => item.indented depth :: indentedItems depth rest

/-- The texts of the fields of an object. -/
def indentedFields (depth : Nat) : List (String × Json) → List String
  | [] => []
  | (key, value) :: rest => (quote key ++ ": " ++ value.indented depth) :: indentedFields depth rest

end

/-- The indented text of a whole value. -/
def pretty (json : Json) : String :=
  json.indented 0

end DynamicConfig.Json

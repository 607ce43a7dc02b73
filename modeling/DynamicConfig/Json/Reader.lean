import DynamicConfig.Json
/-!
# Reading JSON

A strict reader: one value, nothing after it but blanks, no more than 127 containers inside one
another. A text is first cut into lexemes, which are then put together with a stack of the
containers that are still open.
-/

namespace DynamicConfig.Json

/-! ## Numbers -/

/-- A magnitude in the making: at most 64 bits of digits, and a power of ten. -/
structure Magnitude where
  significand : Nat
  exponent : Int

/-- Whether one more digit leaves the significand within 64 bits. -/
def Magnitude.admits (m : Magnitude) (digit : Nat) : Bool :=
  m.significand * 10 + digit < 0x10000000000000000

/-- The value of a digit. -/
def digitValue (c : Char) : Nat :=
  c.toNat - '0'.toNat

/-- Digits before the point. From the first digit that does not fit on, they only scale. -/
def Magnitude.addWhole (m : Magnitude) : List Char → Magnitude
  | [] => m
  | c :: rest =>
    if m.admits (digitValue c) then
      Magnitude.addWhole { m with significand := m.significand * 10 + digitValue c } rest
    else { m with exponent := m.exponent + (rest.length + 1) }

/-- Digits after the point. From the first digit that does not fit on, they are dropped. -/
def Magnitude.addFraction (m : Magnitude) : List Char → Magnitude
  | [] => m
  | c :: rest =>
    if m.admits (digitValue c) then
      Magnitude.addFraction ⟨m.significand * 10 + digitValue c, m.exponent - 1⟩ rest
    else m

/-- A power of ten that is a double. -/
def powerOfTen (n : Nat) : Float :=
  Float.ofScientific 1 false n

/-- The double of a magnitude: its significand, multiplied or divided by the power of ten, which is
taken in two steps when it is out of a double's range. There is none if it would be infinite. -/
def Magnitude.toFloat? (m : Magnitude) : Option Float :=
  let significand := Float.ofNat m.significand
  let scale := m.exponent.natAbs
  if m.significand = 0 then some significand
  else if 0 ≤ m.exponent then
    if 308 < scale || (significand * powerOfTen scale).isInf then none
    else some (significand * powerOfTen scale)
  else if scale ≤ 308 then some (significand / powerOfTen scale)
  else if scale ≤ 616 then some (significand / powerOfTen 308 / powerOfTen (scale - 308))
  else some 0

/-- Digits at the front of a text, of which there must be one. -/
def readDigits? (chars : List Char) : Option (List Char × List Char) :=
  let (digits, rest) := chars.span Char.isDigit
  if digits.isEmpty then none else some (digits, rest)

/-- The digits before the point: a single zero, or digits that begin with another one. -/
def readWhole? (chars : List Char) : Option (List Char × List Char) := do
  let (digits, rest) ← readDigits? chars
  if digits.head? = some '0' && digits.length ≠ 1 then none else some (digits, rest)

/-- The exponent at the front of a text, zero if there is none. -/
def readExponent? (chars : List Char) : Option (Int × List Char) :=
  match chars with
  | 'e' :: rest | 'E' :: rest => do
    let (negative, rest) :=
      match rest with
      | '-' :: rest => (true, rest)
      | '+' :: rest => (false, rest)
      | _ => (false, rest)
    let (digits, rest) ← readDigits? rest
    let exponent : Int := digits.foldl (fun n c => 10 * n + digitValue c) 0
    some (if negative then -exponent else exponent, rest)
  | _ => some (0, chars)

/-- The number at the front of a text. Without a point and an exponent it is an integer if it fits
64 bits; zero with a sign is a double. -/
def readNumber? (chars : List Char) : Option (Json × List Char) := do
  let (negative, chars) :=
    match chars with
    | '-' :: rest => (true, rest)
    | _ => (false, chars)
  let (whole, afterWhole) ← readWhole? chars
  let magnitude := Magnitude.addWhole ⟨0, 0⟩ whole
  let (fraction, afterFraction) ←
    match afterWhole with
    | '.' :: rest => readDigits? rest
    | _ => some ([], afterWhole)
  let (exponent, rest) ← readExponent? afterFraction
  let isInteger := rest.length = afterWhole.length && magnitude.exponent = 0
  if isInteger && !negative then
    return (integer magnitude.significand, rest)
  else if isInteger && 0 < magnitude.significand && magnitude.significand ≤ 0x8000000000000000 then
    return (integer (-magnitude.significand), rest)
  else
    let magnitude := magnitude.addFraction fraction
    let x ← { magnitude with exponent := magnitude.exponent + exponent }.toFloat?
    return (number (if negative then -x else x), rest)

/-! ## Strings -/

/-- The value of a hexadecimal digit. -/
def hexValue? (c : Char) : Option Nat :=
  if c.isDigit then some (c.toNat - '0'.toNat)
  else if 'a' ≤ c && c ≤ 'f' then some (c.toNat - 'a'.toNat + 10)
  else if 'A' ≤ c && c ≤ 'F' then some (c.toNat - 'A'.toNat + 10)
  else none

/-- The code unit at the front of a text, in four hexadecimal digits. -/
def readUnit? : List Char → Option (Nat × List Char)
  | a :: b :: c :: d :: rest => do
    return (((← hexValue? a) * 16 + (← hexValue? b)) * 256 + ((← hexValue? c) * 16 + (← hexValue? d)), rest)
  | _ => none

/-- The character of an escape, after its backslash. A code unit that leads a pair must be followed
by one that trails it. -/
def readEscape? : List Char → Option (Char × List Char)
  | '"' :: rest => some ('"', rest)
  | '\\' :: rest => some ('\\', rest)
  | '/' :: rest => some ('/', rest)
  | 'b' :: rest => some (Char.ofNat 0x8, rest)
  | 'f' :: rest => some (Char.ofNat 0xC, rest)
  | 'n' :: rest => some ('\n', rest)
  | 'r' :: rest => some ('\r', rest)
  | 't' :: rest => some ('\t', rest)
  | 'u' :: rest => do
    let (unit, rest) ← readUnit? rest
    if unit < 0xD800 || 0xDFFF < unit then return (Char.ofNat unit, rest)
    match rest with
    | '\\' :: 'u' :: rest =>
      let (trail, rest) ← readUnit? rest
      guard (unit < 0xDC00 && 0xDC00 ≤ trail && trail ≤ 0xDFFF)
      return (Char.ofNat (0x10000 + (unit - 0xD800) * 0x400 + (trail - 0xDC00)), rest)
    | _ => none
  | _ => none

/-- The rest of a string after its opening quote, given the characters before it, the last first.
It reads at most `fuel` characters. -/
def readString? : (fuel : Nat) → (read : List Char) → List Char → Option (String × List Char)
  | 0, _, _ => none
  | _, _, [] => none
  | fuel + 1, read, c :: rest =>
    if c = '"' then some (String.ofList read.reverse, rest)
    else if c = '\\' then
      match readEscape? rest with
      | some (escaped, rest) => readString? fuel (escaped :: read) rest
      | none => none
    else if c.toNat < 0x20 then none
    else readString? fuel (c :: read) rest

/-! ## Lexemes -/

/-- A bracket, a separator, or a value that is complete by itself. -/
inductive Lexeme
  | openArray
  | closeArray
  | openObject
  | closeObject
  | comma
  | colon
  | scalar (value : Json)

/-- The lexeme at the front of a text that begins with neither a blank nor nothing. -/
def readLexeme? (chars : List Char) : Option (Lexeme × List Char) :=
  match chars with
  | '[' :: rest => some (.openArray, rest)
  | ']' :: rest => some (.closeArray, rest)
  | '\x7b' :: rest => some (.openObject, rest)
  | '\x7d' :: rest => some (.closeObject, rest)
  | ',' :: rest => some (.comma, rest)
  | ':' :: rest => some (.colon, rest)
  | '"' :: rest => (readString? (rest.length + 1) [] rest).map fun (text, rest) => (.scalar (string text), rest)
  | 'n' :: 'u' :: 'l' :: 'l' :: rest => some (.scalar null, rest)
  | 't' :: 'r' :: 'u' :: 'e' :: rest => some (.scalar (bool true), rest)
  | 'f' :: 'a' :: 'l' :: 's' :: 'e' :: rest => some (.scalar (bool false), rest)
  | _ => (readNumber? chars).map fun (value, rest) => (.scalar value, rest)

/-- A blank between lexemes. -/
def isBlank (c : Char) : Bool :=
  c = ' ' || c = '\n' || c = '\t' || c = '\r'

/-- The lexemes of a text, at most `fuel` of them, given those before it, the last first. -/
def readLexemes? : (fuel : Nat) → (read : List Lexeme) → List Char → Option (List Lexeme)
  | fuel, read, chars =>
    match fuel, chars.dropWhile isBlank with
    | _, [] => some read.reverse
    | 0, _ => none
    | fuel + 1, chars =>
      match readLexeme? chars with
      | some (lexeme, rest) => readLexemes? fuel (lexeme :: read) rest
      | none => none

/-! ## Values -/

/-- A container that is still open, with its members so far, the last first. -/
inductive Opened
  | array (items : List Json)
  | object (fields : List (String × Json)) (key : String)

/-- What may come next: a value, or the end of the array just opened; a key, or the end of the object
just opened; or what follows a complete value. -/
inductive Expected
  | value (orEnd : Bool)
  | key (orEnd : Bool)
  | colon
  | separator (complete : Json)

/-- How many containers may stand inside one another. -/
def maxDepth : Nat := 127

/-- Puts lexemes together to one value. A complete value goes into the innermost open container when
the lexeme after it shows that the container goes on or ends. -/
def assemble? : List Opened → Expected → List Lexeme → Option Json
  | [], .separator complete, [] => some complete
  | opened, .value orEnd, lexeme :: rest =>
    match lexeme, opened with
    | .scalar value, _ => assemble? opened (.separator value) rest
    | .openArray, _ =>
      if opened.length < maxDepth then assemble? (.array [] :: opened) (.value true) rest else none
    | .openObject, _ =>
      if opened.length < maxDepth then assemble? (.object [] "" :: opened) (.key true) rest else none
    | .closeArray, .array [] :: opened => if orEnd then assemble? opened (.separator (array [])) rest else none
    | _, _ => none
  | .object fields _ :: opened, .key orEnd, lexeme :: rest =>
    match lexeme with
    | .scalar (string key) => assemble? (.object fields key :: opened) .colon rest
    | .closeObject => if orEnd then assemble? opened (.separator (object [])) rest else none
    | _ => none
  | opened, .colon, .colon :: rest => assemble? opened (.value false) rest
  | .array items :: opened, .separator complete, lexeme :: rest =>
    match lexeme with
    | .comma => assemble? (.array (complete :: items) :: opened) (.value false) rest
    | .closeArray => assemble? opened (.separator (array (complete :: items).reverse)) rest
    | _ => none
  | .object fields key :: opened, .separator complete, lexeme :: rest =>
    match lexeme with
    | .comma => assemble? (.object ((key, complete) :: fields) key :: opened) (.key false) rest
    | .closeObject =>
      assemble? opened (.separator (object ((key, complete) :: fields).reverse)) rest
    | _ => none
  | _, _, _ => none

mutual

/-- The value with the fields of every object in their order, one field a key. -/
def sorted : Json → Json
  | array items => array (sortedItems items)
  | object fields => ofFields (sortedFields fields)
  | json => json

/-- The items of an array, each sorted. -/
def sortedItems : List Json → List Json
  | [] => []
  | item :: rest => item.sorted :: sortedItems rest

/-- The fields of an object, their values sorted. -/
def sortedFields : List (String × Json) → List (String × Json)
  | [] => []
  | (key, value) :: rest => (key, value.sorted) :: sortedFields rest

end

/-- The value that a text holds, if it is JSON, with the fields of its objects as they are written,
repeated keys included. -/
def readAsWritten? (text : String) : Option Json := do
  assemble? [] (.value false) (← readLexemes? text.length [] text.toList)

/-- The value that a text holds, if it is JSON. -/
def read? (text : String) : Option Json :=
  (readAsWritten? text).map sorted

end DynamicConfig.Json

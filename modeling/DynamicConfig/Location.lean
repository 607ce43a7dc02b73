/-!
# Places in a source text

All places are counted in bytes of the text's UTF-8 form. A location is a half-open range of them.
-/

namespace DynamicConfig

/-- The characters after the first `bytes` bytes, if these end at a character. -/
def dropBytes? : (bytes : Nat) → List Char → Option (List Char)
  | 0, chars => some chars
  | _ + 1, [] => none
  | bytes + 1, c :: rest => if c.utf8Size ≤ bytes + 1 then dropBytes? (bytes + 1 - c.utf8Size) rest else none

/-- The characters of the first `bytes` bytes, if these end at a character. -/
def takeBytes? : (bytes : Nat) → List Char → Option (List Char)
  | 0, _ => some []
  | _ + 1, [] => none
  | bytes + 1, c :: rest =>
    if c.utf8Size ≤ bytes + 1 then (takeBytes? (bytes + 1 - c.utf8Size) rest).map (c :: ·) else none

/-- The bytes from `start` up to but not including `stop`. -/
structure Location where
  start : Nat
  stop : Nat
deriving Repr, DecidableEq, Inhabited

namespace Location

/-- The empty location at a place. -/
def empty (offset : Nat) : Location := ⟨offset, offset⟩

/-- The part of the text that a location covers. There is none if the location ends before it
starts, reaches past the text or cuts a character. -/
def slice? (location : Location) (source : String) : Option String := do
  guard (location.start ≤ location.stop)
  let rest ← dropBytes? location.start source.toList
  return String.ofList (← takeBytes? (location.stop - location.start) rest)

/-- Both ends, with a colon between them. -/
def text (location : Location) : String :=
  toString location.start ++ ":" ++ toString location.stop

end Location

end DynamicConfig

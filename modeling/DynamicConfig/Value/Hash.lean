import DynamicConfig.Value
/-!
# Hash codes of values

Equal values have equal hash codes: the order of the fields of an object does not count, nor does the
sign of zero, and an object's identity counts for nothing. What is hashed of a value is the same
whatever computes the codes.
-/

namespace DynamicConfig

/-- A way to compute hash codes: its state takes in one thing after the other, and has a code in the end. -/
structure Hasher where
  State : Type
  initial : State
  flag : State → Bool → State
  word : State → UInt64 → State
  text : State → String → State
  code : State → UInt64

namespace Hasher

mutual

/-- The state after a value: after its kind and its content, or its identity if it has no content. -/
def feed (hasher : Hasher) (state : hasher.State) : Value → hasher.State
  | .bool b => hasher.flag (hasher.word state 0) b
  | .number x => hasher.word (hasher.word state 1) (if x == 0 then 0 else x.toBits)
  | .string text => hasher.text (hasher.word state 2) text
  | .error message => hasher.text (hasher.word state 3) message
  | .object _ fields =>
    hasher.word (hasher.word (hasher.word state 4) fields.length.toUInt64) (hasher.fieldsCode fields)
  | .scope id => hasher.word (hasher.word state 5) id.toUInt64
  | .function code => hasher.text (hasher.word state 6) code
  | .lazyFunction code => hasher.text (hasher.word state 7) code
  | .closure id _ _ => hasher.word (hasher.word state 8) id.toUInt64

/-- The sum of the codes of fields, which does not depend on their order. -/
def fieldsCode (hasher : Hasher) : List (Value × Value) → UInt64
  | [] => 0
  | (key, value) :: rest =>
    hasher.code (hasher.feed (hasher.feed hasher.initial key) value) + hasher.fieldsCode rest

end

/-- The hash code of a value. -/
def hashCode (hasher : Hasher) (value : Value) : UInt64 :=
  hasher.code (hasher.feed hasher.initial value)

/-- Spreads the bits of a word over the whole word. -/
def spread (x : UInt64) : UInt64 :=
  let x := (x ^^^ (x >>> 30)) * 0xBF58476D1CE4E5B9
  let x := (x ^^^ (x >>> 27)) * 0x94D049BB133111EB
  x ^^^ (x >>> 31)

/-- Adds a word to a hash code. -/
def addWord (code word : UInt64) : UInt64 :=
  spread (code * 0x9E3779B97F4A7C15 + word + 1)

/-- A hasher whose state is the code so far. A text is the words of its characters, and one more that is no
character. -/
def mixing : Hasher where
  State := UInt64
  initial := 1
  flag code b := addWord code (if b then 1 else 0)
  word := addWord
  text code text := addWord (text.toList.foldl (fun code c => addWord code c.val.toUInt64) code) 0xFFFFFFFF
  code := id

end Hasher

/-- The hash code of a value. -/
def Value.hashCode (value : Value) : UInt64 :=
  Hasher.mixing.hashCode value

end DynamicConfig

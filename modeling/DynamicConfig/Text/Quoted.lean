/-!
# Quoted text

How a text is written between quotes, and how a quoted text is read back. A quote and a backslash
are written after a backslash, everything else stands for itself. Reading drops each backslash and
keeps the character after it, so every text read back from its written form is itself
(`unescape_escape`).
-/

namespace DynamicConfig.Text.Quoted

/-- Puts a backslash before each quote and each backslash. -/
def escape : List Char → List Char
  | [] => []
  | c :: rest => if c = '"' || c = '\\' then '\\' :: c :: escape rest else c :: escape rest

/-- Drops each backslash and keeps the character after it; a backslash at the end is dropped. -/
def unescape : List Char → List Char
  | [] => []
  | '\\' :: c :: rest => c :: unescape rest
  | '\\' :: [] => []
  | c :: rest => c :: unescape rest

/-- The text between quotes, with its quotes and backslashes escaped. -/
def encode (text : String) : String :=
  String.ofList ('"' :: (escape text.toList ++ ['"']))

/-- The body of a quoted text: what stands after the first quote and before a last one. -/
def body (chars : List Char) : List Char :=
  if chars.getLast? = some '"' then chars.dropLast else chars

/-- The text that a quoted text stands for, given what follows its opening quote. -/
def decode (afterQuote : List Char) : String :=
  String.ofList (unescape (body afterQuote))

theorem unescape_escape (s : List Char) : unescape (escape s) = s := by
  induction s with
  | nil => rfl
  | cons c rest ih =>
    by_cases h : c = '"' || c = '\\'
    · simp [escape, h, unescape, ih]
    · have hc : c ≠ '\\' := by simp_all
      rw [escape, if_neg h, unescape.eq_4 _ _ (by simp [hc]) (by simp [hc]), ih]

theorem body_append_quote (s : List Char) : body (s ++ ['"']) = s := by
  simp [body]

/-- Reading what was written gives the text back. -/
theorem decode_escape (text : String) : decode (escape text.toList ++ ['"']) = text := by
  simp [decode, body_append_quote, unescape_escape]

end DynamicConfig.Text.Quoted

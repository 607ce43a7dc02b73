import DynamicConfig.Proofs.Spelling
/-!
# Quoted texts are read back

Inside a string the scanner takes all that spells a text and is inside the same string afterwards
(`Scanner.scan_spells`), so a quoted text is one token, whatever follows it (`Scanner.scan_encode`), and
the leaf of that token is the text again (`Token.leaf?_encode`).
-/

namespace DynamicConfig

open Text.Quoted (escape encode)

namespace Text.Quoted

theorem escape_special {c : Char} (h : c = '"' ∨ c = '\\') (rest : List Char) :
    escape (c :: rest) = '\\' :: c :: escape rest := by
  simp [escape, h]

theorem escape_plain {c : Char} (h : ¬(c = '"' ∨ c = '\\')) (rest : List Char) :
    escape (c :: rest) = c :: escape rest := by
  simp [escape, h]

/-- The characters between two quotes spell a text: each quote and each backslash of it comes right after a backslash,
and any other character may. -/
inductive Spells : List Char → List Char → Prop
  | nil : Spells [] []
  | plain {c : Char} {chars text : List Char} (hc : ¬(c = '"' ∨ c = '\\')) (h : Spells chars text) :
    Spells (c :: chars) (c :: text)
  | escaped (c : Char) {chars text : List Char} (h : Spells chars text) : Spells ('\\' :: c :: chars) (c :: text)

theorem spells_escape (text : List Char) : Spells (escape text) text := by
  induction text with
  | nil => exact .nil
  | cons c rest ih =>
    by_cases h : c = '"' ∨ c = '\\'
    · rw [escape_special h]
      exact .escaped c ih
    · rw [escape_plain h]
      exact .plain h ih

theorem toList_encode (text : String) : (encode text).toList = '"' :: (escape text.toList ++ ['"']) :=
  String.toList_ofList

end Text.Quoted

/-! ## The scanner -/

namespace Scanner

variable {first : Nat} {seen : String}

theorem scan_plain {c : Char} (h : ¬(c = '"' ∨ c = '\\')) (rest : List Char) :
    (quoted first seen false).scan (first + seen.utf8ByteSize) (c :: rest) =
      (quoted first (seen.push c) false).scan (first + (seen.push c).utf8ByteSize) rest := by
  obtain ⟨hq, hb⟩ := not_or.1 h
  simp [scan, step, hq, hb, String.utf8ByteSize_push, Nat.add_assoc]

theorem scan_backslash (rest : List Char) :
    (quoted first seen false).scan (first + seen.utf8ByteSize) ('\\' :: rest) =
      (quoted first (seen.push '\\') true).scan (first + (seen.push '\\').utf8ByteSize) rest := by
  simp [scan, step, String.utf8ByteSize_push, Nat.add_assoc]

/-- After a backslash any character is one more of the string. -/
theorem scan_escaped (c : Char) (rest : List Char) :
    (quoted first seen true).scan (first + seen.utf8ByteSize) (c :: rest) =
      (quoted first (seen.push c) false).scan (first + (seen.push c).utf8ByteSize) rest := by
  simp [scan, step, String.utf8ByteSize_push, Nat.add_assoc]

/-- A quote that is not escaped ends the string. -/
theorem scan_quote (rest : List Char) :
    (quoted first seen false).scan (first + seen.utf8ByteSize) ('"' :: rest) =
      .token (.startingAt first (seen.push '"')) :: between.scan (first + (seen.push '"').utf8ByteSize) rest := by
  simp [scan, step, String.utf8ByteSize_push, Nat.add_assoc]

theorem append_ofList_cons (c : Char) (chars : List Char) :
    seen ++ String.ofList (c :: chars) = seen.push c ++ String.ofList chars := by
  apply String.toList_inj.1
  simp

/-- What spells a text leaves the scanner inside the string: no quote in it ends the string. -/
theorem scan_spells {chars text : List Char} (h : Text.Quoted.Spells chars text) (rest : List Char) :
    (quoted first seen false).scan (first + seen.utf8ByteSize) (chars ++ rest) =
      (quoted first (seen ++ String.ofList chars) false).scan
        (first + (seen ++ String.ofList chars).utf8ByteSize) rest := by
  induction h generalizing seen with
  | nil => simp
  | plain hc _ ih =>
    rw [append_ofList_cons, List.cons_append, scan_plain hc]
    exact ih
  | escaped c _ ih =>
    rw [append_ofList_cons, append_ofList_cons, List.cons_append, List.cons_append, scan_backslash, scan_escaped]
    exact ih

/-- Outside of a token, a quoted text is read as one token that ends where the text ends. -/
theorem scan_encode (text : String) (offset : Nat) (rest : List Char) :
    between.scan offset ((encode text).toList ++ rest) =
      .token (.startingAt offset (encode text)) :: between.scan (offset + (encode text).utf8ByteSize) rest := by
  have hopen : between.scan offset ('"' :: (escape text.toList ++ ('"' :: rest))) =
      (quoted offset "\"" false).scan (offset + "\"".utf8ByteSize) (escape text.toList ++ ('"' :: rest)) := rfl
  have hclose : ("\"" ++ String.ofList (escape text.toList)).push '"' = encode text := by
    apply String.toList_inj.1
    simp [Text.Quoted.toList_encode]
  rw [Text.Quoted.toList_encode, List.cons_append, List.append_assoc, List.singleton_append, hopen,
    scan_spells (Text.Quoted.spells_escape text.toList), scan_quote, hclose]

end Scanner

/-! ## Leaves -/

/-- No symbol begins with a quote. -/
theorem Symbol.ofText?_of_quote {text : String} {rest : List Char} (h : text.toList = '"' :: rest) :
    Symbol.ofText? text = none := by
  rw [Option.eq_none_iff_forall_ne_some]
  intro symbol hs
  obtain rfl := text_of_ofText? hs
  cases symbol <;> first | cases h | (rename_i bracket; cases bracket <;> cases h)

/-- The token of a quoted text stands for the text. -/
theorem Token.leaf?_encode (text : String) (offset : Nat) :
    (Token.startingAt offset (encode text)).leaf? = some (.string text) := by
  have hlist := Text.Quoted.toList_encode text
  refine Token.leaf?_eq_some_iff.2 ⟨Symbol.ofText?_of_quote hlist, ?_⟩
  simp only [Token.startingAt, Leaf.ofText?, hlist, Text.Quoted.decode_escape]

end DynamicConfig

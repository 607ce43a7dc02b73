import DynamicConfig.Proofs.Unclosed
/-!
# Texts put together

The scanner knows its place only from what it is told, so a text has the same tokens and faults wherever it begins, each
so much further on (`Scanner.scan_shift`). Where the first of two texts does not end inside a string, and the second one
begins with a character that ends any token of the first, both together have the tokens and faults of each
(`Joins.tokenize_append`). A quoted text begins with such a character and ends by itself, so nothing around it can change it,
and it changes nothing around it (`quoted_text_stands_alone`).
-/

namespace DynamicConfig

/-! ## The same further on -/

/-- The location so many bytes further on. -/
def Location.shift (bytes : Nat) (location : Location) : Location :=
  ⟨bytes + location.start, bytes + location.stop⟩

/-- The token so many bytes further on. -/
def Token.shift (bytes : Nat) (token : Token) : Token :=
  ⟨token.text, token.location.shift bytes⟩

/-- The fault so many bytes further on. -/
def ParseError.shift (bytes : Nat) (e : ParseError) : ParseError :=
  ⟨e.kind, bytes + e.offset⟩

/-- The token or fault so many bytes further on. -/
def Lexeme.shift (bytes : Nat) : Lexeme → Lexeme
  | token t => token (t.shift bytes)
  | fault e => fault (e.shift bytes)

theorem Token.startingAt_shift (bytes offset : Nat) (text : String) :
    (startingAt offset text).shift bytes = startingAt (bytes + offset) text := by
  simp only [startingAt, shift, Location.shift, Nat.add_assoc]

theorem Token.shift_shift (more bytes : Nat) (token : Token) : (token.shift bytes).shift more = token.shift (more + bytes) := by
  simp only [shift, Location.shift, Nat.add_assoc]

theorem ParseError.shift_shift (more bytes : Nat) (e : ParseError) : (e.shift bytes).shift more = e.shift (more + bytes) := by
  simp only [shift, Nat.add_assoc]

theorem filterMap_token?_shift (bytes : Nat) (lexemes : List Lexeme) :
    (lexemes.map (Lexeme.shift bytes)).filterMap Lexeme.token? =
      (lexemes.filterMap Lexeme.token?).map (Token.shift bytes) := by
  rw [List.filterMap_map, List.map_filterMap]
  congr 1
  funext lexeme
  cases lexeme <;> rfl

theorem filterMap_fault?_shift (bytes : Nat) (lexemes : List Lexeme) :
    (lexemes.map (Lexeme.shift bytes)).filterMap Lexeme.fault? =
      (lexemes.filterMap Lexeme.fault?).map (ParseError.shift bytes) := by
  rw [List.filterMap_map, List.map_filterMap]
  congr 1
  funext lexeme
  cases lexeme <;> rfl

namespace Scanner

variable {scanner : Scanner}

/-- The scanner with its token so many bytes further on. -/
def shift (bytes : Nat) : Scanner → Scanner
  | between => between
  | quoted start seen escaped => quoted (bytes + start) seen escaped
  | number start seen => number (bytes + start) seen
  | symbol start seen => symbol (bytes + start) seen
  | name start seen => name (bytes + start) seen

theorem start_shift (bytes offset : Nat) (c : Char) :
    start (bytes + offset) c = ((start offset c).1.shift bytes, (start offset c).2.map (Lexeme.shift bytes)) := by
  unfold start
  repeat' split
  all_goals rfl

theorem restart_shift (bytes first offset : Nat) (seen : String) (c : Char) :
    restart (.startingAt (bytes + first) seen) (bytes + offset) c =
      ((restart (.startingAt first seen) offset c).1.shift bytes,
        (restart (.startingAt first seen) offset c).2.map (Lexeme.shift bytes)) := by
  simp [restart, start_shift, ← Token.startingAt_shift, Lexeme.shift]

theorem step_shift (bytes offset : Nat) (c : Char) :
    (scanner.shift bytes).step (bytes + offset) c =
      ((scanner.step offset c).1.shift bytes, (scanner.step offset c).2.map (Lexeme.shift bytes)) := by
  cases scanner with
  | between => exact start_shift bytes offset c
  | quoted first seen escaped =>
    simp only [shift, step]
    split
    · simp [← Token.startingAt_shift, Lexeme.shift]
    · rfl
  | number first seen | symbol first seen =>
    simp only [shift, step]
    split
    · rfl
    · exact restart_shift bytes first offset seen c
  | name first seen =>
    simp only [shift, step]
    split
    · exact restart_shift bytes first offset seen c
    · rfl

theorem finish_shift (bytes : Nat) : (scanner.shift bytes).finish = scanner.finish.map (Lexeme.shift bytes) := by
  cases scanner with
  | between => rfl
  | quoted first seen escaped =>
    simp only [shift, finish]
    split
    · simp [← Token.startingAt_shift, Lexeme.shift]
    · simp [← Token.startingAt_shift, Lexeme.shift, ParseError.shift]
  | number | symbol | name => simp [shift, finish, ← Token.startingAt_shift, Lexeme.shift]

theorem scan_cons (offset : Nat) (c : Char) (rest : List Char) :
    scanner.scan offset (c :: rest) =
      (scanner.step offset c).2 ++ (scanner.step offset c).1.scan (offset + c.utf8Size) rest :=
  scan_of_step rfl rest

/-- What is found in a text does not depend on where the text begins. -/
theorem scan_shift (bytes offset : Nat) (chars : List Char) :
    (scanner.shift bytes).scan (bytes + offset) chars = (scanner.scan offset chars).map (Lexeme.shift bytes) := by
  induction chars generalizing scanner offset with
  | nil => exact finish_shift bytes
  | cons c rest ih => rw [scan_cons, scan_cons, step_shift, Nat.add_assoc, ih, List.map_append]

/-! ## One text after the other -/

/-- The scanner after some characters, which stand at the given place. -/
def after (scanner : Scanner) (offset : Nat) : List Char → Scanner
  | [] => scanner
  | c :: rest => (scanner.step offset c).1.after (offset + c.utf8Size) rest

/-- The scanner where a source text may go on. -/
def reached (source : String) : Scanner :=
  between.after 0 source.toList

/-- What is found in a text is found before what the scanner finds after it. -/
theorem scan_append (offset : Nat) (chars : List Char) :
    ∃ found, ∀ rest, scanner.scan offset (chars ++ rest) =
      found ++ (scanner.after offset chars).scan (offset + (String.ofList chars).utf8ByteSize) rest := by
  induction chars generalizing scanner offset with
  | nil => exact ⟨[], fun rest => by simp [after]⟩
  | cons c chars ih =>
    obtain ⟨found, hscan⟩ := @ih (scanner.step offset c).1 (offset + c.utf8Size)
    refine ⟨(scanner.step offset c).2 ++ found, fun rest => ?_⟩
    rw [List.cons_append, scan_cons, hscan, String.ofList_cons, String.utf8ByteSize_append, String.utf8ByteSize_singleton,
      Nat.add_assoc, List.append_assoc, after]

/-- Whether the character ends the token that is being read. -/
def ends (c : Char) : Scanner → Bool
  | between => true
  | quoted .. => false
  | number _ seen => !Decimal.isLiteral (seen.push c)
  | symbol _ seen => (Symbol.ofText? (seen.push c)).isNone
  | name _ _ => endsName c

/-- A token that ends is handed on as at the end of a source text. -/
theorem step_of_ends {c : Char} (h : scanner.ends c = true) (offset : Nat) :
    scanner.step offset c = ((start offset c).1, (start offset c).2 ++ scanner.finish) := by
  cases scanner with
  | between => exact Prod.ext rfl (List.append_nil _).symm
  | quoted => cases h
  | number first seen =>
    rw [ends, Bool.not_eq_true'] at h
    rw [step, h]
    rfl
  | symbol first seen =>
    rw [ends, Option.isNone_iff_eq_none] at h
    rw [step, h]
    rfl
  | name first seen =>
    rw [ends] at h
    rw [step, h]
    rfl

theorem ends_shift (c : Char) (bytes : Nat) : (scanner.shift bytes).ends c = scanner.ends c := by
  cases scanner <;> rfl

theorem isQuoted_shift (bytes : Nat) : (scanner.shift bytes).isQuoted = scanner.isQuoted := by
  cases scanner <;> rfl

theorem finish_of_outside (hs : scanner.isQuoted = false) : ∃ tokens : List Token, scanner.finish = tokens.map .token := by
  cases scanner with
  | between => exact ⟨[], rfl⟩
  | quoted => cases hs
  | number | symbol | name => exact ⟨[_], rfl⟩

theorem token?_start (offset : Nat) (c : Char) : (start offset c).2.filterMap Lexeme.token? = [] := by
  unfold start
  repeat' split
  all_goals rfl

/-- Outside of strings a quote ends any token. -/
theorem ends_quote (hs : scanner.isQuoted = false) : scanner.ends '"' = true := by
  cases scanner with
  | between => rfl
  | quoted => cases hs
  | number first seen => rw [ends, Decimal.isLiteral_push rfl]; rfl
  | symbol first seen => rw [ends, Symbol.ofText?_push_quote]; rfl
  | name first seen => rfl

/-! ## Where a source text may go on -/

theorem after_append (offset : Nat) (chars rest : List Char) :
    scanner.after offset (chars ++ rest) =
      (scanner.after offset chars).after (offset + (String.ofList chars).utf8ByteSize) rest := by
  induction chars generalizing scanner offset with
  | nil => simp [after]
  | cons c chars ih =>
    rw [List.cons_append, after, after, ih, String.ofList_cons, String.utf8ByteSize_append, String.utf8ByteSize_singleton,
      Nat.add_assoc]

theorem after_shift (bytes offset : Nat) (chars : List Char) :
    (scanner.shift bytes).after (bytes + offset) chars = (scanner.after offset chars).shift bytes := by
  induction chars generalizing scanner offset with
  | nil => rfl
  | cons c rest ih => rw [after, after, step_shift, Nat.add_assoc, ih]

end Scanner

open Scanner (reached)

variable {first second : String}

/-- The second text may come right after the first one: this does not end inside a string, and what begins the second one
ends the last token of the first. -/
structure Joins (first second : String) : Prop where
  outside : (reached first).isQuoted = false
  ends : ∀ c ∈ second.toList.head?, (reached first).ends c = true

/-- After both texts the scanner is as after the second one alone, if that is not empty. -/
theorem Joins.reached_append (h : Joins first second) (hne : second ≠ "") :
    reached (first ++ second) = (reached second).shift first.utf8ByteSize := by
  have hchars : second.toList ≠ [] := fun h => hne (String.toList_eq_nil_iff.1 h)
  obtain ⟨c, rest, hsecond⟩ := List.exists_cons_of_ne_nil hchars
  have hstep := Scanner.step_of_ends (h.ends c (by rw [hsecond]; rfl)) first.utf8ByteSize
  have hshift := @Scanner.after_shift .between first.utf8ByteSize 0 second.toList
  rw [Scanner.reached, String.toList_append, Scanner.after_append, String.ofList_toList, Nat.zero_add, Scanner.reached,
    ← hshift, hsecond, Scanner.after]
  show (Scanner.step (reached first) _ c).1.after _ rest = _
  rw [hstep]
  rfl

theorem Joins.outside_append (h : Joins first second) (hs : (reached second).isQuoted = false) :
    (reached (first ++ second)).isQuoted = false := by
  by_cases hne : second = ""
  · rw [hne, String.append_empty]
    exact h.outside
  · rw [h.reached_append hne, Scanner.isQuoted_shift]
    exact hs

/-- What ends both texts alone ends them together. -/
theorem Joins.ends_append (h : Joins first second) {c : Char} (hfirst : (reached first).ends c = true)
    (hsecond : (reached second).ends c = true) : (reached (first ++ second)).ends c = true := by
  by_cases hne : second = ""
  · rwa [hne, String.append_empty]
  · rwa [h.reached_append hne, Scanner.ends_shift]

/-- The tokens and faults of two texts, one after the other, are those of each, the second ones further on. -/
theorem Joins.tokenize_append (h : Joins first second) :
    tokenize (first ++ second) =
      ((tokenize first).1 ++ (tokenize second).1.map (Token.shift first.utf8ByteSize),
        (tokenize first).2 ++ (tokenize second).2.map (ParseError.shift first.utf8ByteSize)) := by
  obtain ⟨found, hscan⟩ := @Scanner.scan_append .between 0 first.toList
  obtain ⟨tokens, hfinish⟩ := Scanner.finish_of_outside h.outside
  rw [String.ofList_toList, Nat.zero_add] at hscan
  have hwhole : lexemes (first ++ second) = found ++ (reached first).scan first.utf8ByteSize second.toList := by
    rw [lexemes, String.toList_append, hscan]
    rfl
  have hfirst : lexemes first = found ++ tokens.map Lexeme.token := by
    have hscan := hscan []
    rw [List.append_nil] at hscan
    rw [lexemes, hscan, Scanner.scan, ← hfinish]
    rfl
  have hsecond : Scanner.between.scan first.utf8ByteSize second.toList =
      (lexemes second).map (Lexeme.shift first.utf8ByteSize) :=
    @Scanner.scan_shift .between first.utf8ByteSize 0 second.toList
  rw [tokenize, tokenize, tokenize, hwhole, hfirst, ← filterMap_token?_shift, ← filterMap_fault?_shift, ← hsecond]
  have htokens : (tokens.map Lexeme.token).filterMap Lexeme.fault? = [] := by
    simp [List.filterMap_map, Function.comp_def, Lexeme.fault?]
  cases hchars : second.toList with
  | nil =>
    rw [Scanner.scan, Scanner.scan, hfinish]
    simp [Scanner.finish]
  | cons c rest =>
    -- The token of the first text comes after a fault of the first character of the second one.
    have hends := h.ends c (by rw [hchars]; rfl)
    rw [Scanner.scan_cons, Scanner.scan_cons, Scanner.step_of_ends hends, hfinish, Scanner.step]
    simp [Scanner.token?_start, htokens]

/-- A quoted text is one token and stands for the text, whatever is before it and after it, if it does not begin inside a
string; and what is before it and after it has the tokens and faults that it has alone. -/
theorem quoted_text_stands_alone (before text after : String) (h : (reached before).isQuoted = false) :
    tokenize (before ++ Text.Quoted.encode text ++ after) =
        ((tokenize before).1 ++ .startingAt before.utf8ByteSize (Text.Quoted.encode text) ::
            (tokenize after).1.map (Token.shift (before ++ Text.Quoted.encode text).utf8ByteSize),
          (tokenize before).2 ++
            (tokenize after).2.map (ParseError.shift (before ++ Text.Quoted.encode text).utf8ByteSize)) ∧
      (Token.startingAt before.utf8ByteSize (Text.Quoted.encode text)).leaf? = some (.string text) := by
  refine ⟨?_, Token.leaf?_encode text _⟩
  have hafter : tokenize (Text.Quoted.encode text ++ after) =
      (.startingAt 0 (Text.Quoted.encode text) ::
          (tokenize after).1.map (Token.shift (Text.Quoted.encode text).utf8ByteSize),
        (tokenize after).2.map (ParseError.shift (Text.Quoted.encode text).utf8ByteSize)) := by
    have hrest := @Scanner.scan_shift .between (Text.Quoted.encode text).utf8ByteSize 0 after.toList
    rw [tokenize, lexemes, String.toList_append, Scanner.scan_encode, Nat.zero_add]
    rw [Scanner.shift, Nat.add_zero] at hrest
    rw [hrest, tokenize, lexemes, ← filterMap_token?_shift, ← filterMap_fault?_shift]
    rfl
  have hjoins : Joins before (Text.Quoted.encode text ++ after) := by
    refine ⟨h, fun c hc => ?_⟩
    rw [String.toList_append, Text.Quoted.toList_encode] at hc
    cases hc
    exact Scanner.ends_quote h
  rw [String.append_assoc, hjoins.tokenize_append, hafter, String.utf8ByteSize_append]
  simp [Token.startingAt_shift, Token.shift_shift, ParseError.shift_shift, Function.comp_def]

/-- A text with quotes and backslashes, between a name and a fault. -/
theorem escapes_stand_alone :
    (reached "x==").isQuoted = false ∧
      tokenize ("x==" ++ Text.Quoted.encode "a\"\\" ++ "#") =
        ([.startingAt 0 "x", .startingAt 1 "==", .startingAt 3 (Text.Quoted.encode "a\"\\")],
          [⟨.invalidCharacter, 10⟩]) ∧
      (Token.startingAt 3 (Text.Quoted.encode "a\"\\")).leaf? = some (.string "a\"\\") := by
  have hs : (reached "x==").isQuoted = false := by decide +kernel
  obtain ⟨htokenize, hleaf⟩ := quoted_text_stands_alone "x==" "a\"\\" "#" hs
  have hbefore : tokenize "x==" = ([.startingAt 0 "x", .startingAt 1 "=="], []) := by decide +kernel
  have hafter : tokenize "#" = ([], [⟨.invalidCharacter, 0⟩]) := by decide +kernel
  rw [hbefore, hafter] at htokenize
  exact ⟨hs, htokenize, hleaf⟩

end DynamicConfig

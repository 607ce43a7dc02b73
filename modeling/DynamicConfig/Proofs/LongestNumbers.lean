import DynamicConfig.Proofs.Scanning
import DynamicConfig.Proofs.Slices
/-!
# How far number tokens reach

A number token goes on as long as what is read so far is a literal. So it is the longest numeral that begins at its place
(`number_token_is_longest_numeral`): every beginning of a numeral is a numeral. An exponent has beginnings that are no
literals, so a number token never has one, and it is the longest literal at its place exactly if no exponent comes
right after it.
-/

namespace DynamicConfig

/-- The text is the longest beginning of the characters with a property. -/
def LongestPrefix (P : List Char → Prop) (text chars : List Char) : Prop :=
  text <+: chars ∧ P text ∧ ∀ other, other <+: chars → P other → other.length ≤ text.length

/-- A longer beginning of a text and what comes after it has the whole text in it. -/
theorem exists_of_longer_prefix {text rest other : List Char} (h : other <+: text ++ rest)
    (hlong : text.length < other.length) : ∃ c more, other = text ++ c :: more ∧ c :: more <+: rest := by
  have hprefix : text <+: other :=
    List.prefix_of_prefix_length_le (List.prefix_append text rest) h (Nat.le_of_lt hlong)
  obtain ⟨tail, rfl⟩ := hprefix
  cases tail with
  | nil => simp at hlong
  | cons c more => exact ⟨c, more, rfl, (List.prefix_append_right_inj text).1 h⟩

namespace Decimal

/-! ## Exponents -/

/-- The characters begin with a mark, perhaps a sign, and a digit. -/
def BeginsExponent (chars : List Char) : Prop :=
  ∃ mark sign digit rest, chars = mark :: (sign ++ digit :: rest) ∧ (mark = 'e' ∨ mark = 'E') ∧
    (sign = [] ∨ sign = ['+'] ∨ sign = ['-']) ∧ digit.isDigit = true

/-- The digits of an exponent after its sign. -/
theorem isSome_readExponent?_digits {digits : List Char} (hd : digits.all Char.isDigit = true) (hne : digits ≠ [])
    {sign : List Char} (hsign : sign = [] ∨ sign = ['+'] ∨ sign = ['-']) :
    (readExponent? (sign ++ digits)).isSome = true := by
  have hempty : (digits.isEmpty || !digits.all Char.isDigit) = false := by simpa [hd] using hne
  rcases hsign with rfl | rfl | rfl
  · obtain ⟨d, more, rfl⟩ := List.exists_cons_of_ne_nil hne
    have hdigit : d.isDigit = true := List.all_eq_true.1 hd d List.mem_cons_self
    have hminus : d ≠ '-' := by rintro rfl; cases hdigit
    have hplus : d ≠ '+' := by rintro rfl; cases hdigit
    simpa [readExponent?, hminus, hplus] using hd
  · simp [readExponent?, hempty]
  · simp [readExponent?, hempty]

/-- An exponent is read as digits, perhaps after a sign. -/
theorem exists_of_isSome_readExponent? {chars : List Char} (h : (readExponent? chars).isSome = true) :
    ∃ sign digits, chars = sign ++ digits ∧ (sign = [] ∨ sign = ['+'] ∨ sign = ['-']) ∧
      digits ≠ [] ∧ digits.all Char.isDigit = true := by
  unfold readExponent? at h
  split at h
  rename_i negative digits heq
  split at h
  · cases h
  · rename_i hdigits
    simp only [Bool.or_eq_true, List.isEmpty_iff, Bool.not_eq_true', not_or, Bool.not_eq_false] at hdigits
    split at heq <;> obtain ⟨-, rfl⟩ := Prod.mk.inj heq
    · exact ⟨['-'], _, rfl, .inr (.inr rfl), hdigits⟩
    · exact ⟨['+'], _, rfl, .inr (.inl rfl), hdigits⟩
    · exact ⟨[], _, rfl, .inl rfl, hdigits⟩

/-! ## Numerals and literals -/

section IsNumeral

variable {text rest : List Char} {c : Char} (h : IsNumeral text)
include h

/-- A numeral goes on with a digit or its first point. -/
theorem IsNumeral.concat (hc : c.isDigit = true ∨ c = '.' ∧ '.' ∉ text) : IsNumeral (text ++ [c]) := by
  obtain ⟨whole, tail, rfl, hne, hd, rfl | ⟨fraction, rfl, hf⟩⟩ := h
  · rcases hc with hc | ⟨rfl, -⟩
    · exact ⟨whole ++ [c], [], by simp, by simp, by simp [hd, hc], .inl rfl⟩
    · exact ⟨whole, ['.'], by simp, hne, hd, .inr ⟨[], rfl, rfl⟩⟩
  · rcases hc with hc | ⟨rfl, hpoint⟩
    · exact ⟨whole, '.' :: (fraction ++ [c]), by simp, hne, hd, .inr ⟨_, rfl, by simp [hf, hc]⟩⟩
    · exact absurd (by simp) hpoint

/-- One more character of a numeral makes a literal only if it makes a numeral. -/
theorem IsNumeral.concat_of_isSome_read? (hread : (Literal.read? (text ++ [c])).isSome = true) :
    IsNumeral (text ++ [c]) := by
  refine h.concat ?_
  by_contra hc
  obtain ⟨hd, hpoint⟩ := not_or.1 hc
  rw [h.read?_concat (by simpa using hd) fun hc => by simpa [hc] using hpoint] at hread
  cases hread

/-- What comes after a numeral makes a longer literal of it only if it is an exponent. -/
theorem IsNumeral.isSome_read?_append_iff (hend : Literal.read? (text ++ [c]) = none) :
    (Literal.read? (text ++ c :: rest)).isSome = true ↔ (c = 'e' ∨ c = 'E') ∧ (readExponent? rest).isSome = true := by
  have hc : ¬ (c.isDigit = true ∨ c = '.' ∧ '.' ∉ text) := by
    intro hc
    have hsome := (h.concat hc).isSome_read?
    rw [hend] at hsome
    cases hsome
  obtain ⟨hd, hpoint⟩ := not_or.1 hc
  have hparts (whole fraction : List Char) : (Literal.ofParts whole fraction (c :: rest)).isSome = true ↔
      (c = 'e' ∨ c = 'E') ∧ (readExponent? rest).isSome = true := by
    rw [Literal.ofParts]
    cases readExponent? rest <;> by_cases hmark : c = 'e' ∨ c = 'E' <;> simp [hmark]
  obtain ⟨whole, tail, rfl, hne, hdigits, rfl | ⟨fraction, rfl, hf⟩⟩ := h
  · have hdot : c ≠ '.' := by
      rintro rfl
      refine hpoint ⟨rfl, fun hmem => ?_⟩
      have hdigit := List.all_eq_true.1 hdigits '.' (by simpa using hmem)
      cases hdigit
    rw [List.append_nil, read?_digits hdigits hne (by simpa [hdot] using hd)]
    exact hparts _ _
  · rw [List.append_assoc, List.cons_append, read?_point hdigits hne hf (by simpa using hd)]
    exact hparts _ _

/-- A numeral that does not go on is the longest one: every beginning of a longer one would be one too. -/
theorem IsNumeral.longestPrefix (hend : ∀ c ∈ rest.head?, Literal.read? (text ++ [c]) = none) :
    LongestPrefix IsNumeral text (text ++ rest) := by
  refine ⟨List.prefix_append _ _, h, fun other hother hnumeral => ?_⟩
  by_contra hlong
  obtain ⟨c, more, rfl, tail, rfl⟩ := exists_of_longer_prefix hother (Nat.lt_of_not_le hlong)
  have hmore : IsNumeral (text ++ [c] ++ more) := by simpa using hnumeral
  have hconcat : IsNumeral (text ++ [c]) := hmore.left (by simp)
  have hsome := hconcat.isSome_read?
  rw [hend c rfl] at hsome
  cases hsome

/-- A numeral that does not go on is the longest literal unless an exponent comes after it. -/
theorem IsNumeral.longestPrefix_literal_iff (hend : ∀ c ∈ rest.head?, Literal.read? (text ++ [c]) = none) :
    LongestPrefix (fun chars => (Literal.read? chars).isSome = true) text (text ++ rest) ↔ ¬ BeginsExponent rest := by
  constructor
  · rintro ⟨-, -, hlongest⟩ ⟨mark, sign, digit, tail, rfl, hmark, hsign, hdigit⟩
    have hread : (readExponent? (sign ++ [digit])).isSome = true :=
      isSome_readExponent?_digits (by simpa using hdigit) (by simp) hsign
    have hlong : (text ++ mark :: (sign ++ [digit])).length ≤ text.length := by
      refine hlongest _ ⟨tail, by simp⟩ ?_
      exact (h.isSome_read?_append_iff (hend mark rfl)).2 ⟨hmark, hread⟩
    simp only [List.length_append, List.length_cons] at hlong
    omega
  · intro hno
    refine ⟨List.prefix_append _ _, h.isSome_read?, fun other hother hliteral => ?_⟩
    by_contra hlong
    obtain ⟨mark, exponent, rfl, tail, rfl⟩ := exists_of_longer_prefix hother (Nat.lt_of_not_le hlong)
    obtain ⟨hmark, hread⟩ := (h.isSome_read?_append_iff (hend mark rfl)).1 hliteral
    obtain ⟨sign, digits, rfl, hsign, hne, hdigits⟩ := exists_of_isSome_readExponent? hread
    obtain ⟨digit, more, rfl⟩ := List.exists_cons_of_ne_nil hne
    exact hno ⟨mark, sign, digit, more ++ tail, by simp, hmark, hsign, List.all_eq_true.1 hdigits digit List.mem_cons_self⟩

end IsNumeral

end Decimal

/-! ## Number tokens -/

/-- Whether the token is a number: it begins with a digit. -/
def Token.isNumber (token : Token) : Bool :=
  token.text.toList.head?.any Char.isDigit

theorem Token.isNumber_startingAt {text : String} {c : Char} {rest : List Char} (h : text.toList = c :: rest)
    (first : Nat) : (Token.startingAt first text).isNumber = c.isDigit := by
  rw [Token.isNumber, Token.startingAt, h]
  rfl

/-- A string is no number, whether it is closed or not. -/
theorem Token.isNumber_string {seen text : String} {body marks : List Char} (hseen : seen.toList = '"' :: body)
    (htext : text.toList = seen.toList ++ marks) (first : Nat) : (Token.startingAt first text).isNumber = false := by
  rw [hseen, List.cons_append] at htext
  rw [isNumber_startingAt htext]
  rfl

open Decimal (IsNumeral Literal)

/-- The token is a numeral in the characters, which begin at the given place, and does not go on with the next one. -/
def Token.EndsInTime (token : Token) (offset : Nat) (chars : List Char) : Prop :=
  ∃ (before : String) (rest : List Char), chars = before.toList ++ (token.text.toList ++ rest) ∧
    token = .startingAt (offset + before.utf8ByteSize) token.text ∧ IsNumeral token.text.toList ∧
    ∀ c ∈ rest.head?, Literal.read? (token.text.toList ++ [c]) = none

/-- What stands before the characters does not matter. -/
theorem Token.EndsInTime.after {token : Token} {offset : Nat} {chars : List Char} (before : String)
    (h : token.EndsInTime (offset + before.utf8ByteSize) chars) : token.EndsInTime offset (before.toList ++ chars) := by
  obtain ⟨more, rest, rfl, htoken, hnumeral, hend⟩ := h
  refine ⟨before ++ more, rest, by simp, ?_, hnumeral, hend⟩
  rwa [String.utf8ByteSize_append, ← Nat.add_assoc]

namespace Scanner

/-- What has been read of a number is a numeral. -/
def ReadsNumeral : Scanner → Prop
  | number _ seen => IsNumeral seen.toList
  | _ => True

variable {scanner next : Scanner} {offset first : Nat} {seen : String} {c : Char} {found : List Lexeme} {token : Token}

theorem readsNumeral_start (offset : Nat) (c : Char) : (start offset c).1.ReadsNumeral := by
  unfold start
  dsimp only
  split
  · trivial
  split
  · trivial
  split
  case isTrue hdigit => exact ⟨[c], [], by simp, by simp, by simpa using hdigit, .inl rfl⟩
  case isFalse => (repeat' split) <;> trivial

/-- A number goes on only as a numeral. -/
theorem readsNumeral_step (h : scanner.ReadsNumeral) (offset : Nat) (c : Char) :
    (scanner.step offset c).1.ReadsNumeral := by
  have hstart := readsNumeral_start offset c
  unfold step
  cases scanner with
  | between => exact hstart
  | quoted first seen escaped =>
    dsimp only
    split <;> trivial
  | number first seen =>
    dsimp only
    split
    case isTrue hliteral =>
      rw [Decimal.isLiteral, String.toList_push] at hliteral
      rw [ReadsNumeral, String.toList_push]
      exact h.concat_of_isSome_read? hliteral
    case isFalse => exact hstart
  | symbol first seen =>
    dsimp only
    split
    · trivial
    · exact hstart
  | name first seen =>
    dsimp only
    split
    · exact hstart
    · trivial

/-- No token is handed on where one begins. -/
theorem Begins.not_token (h : Begins offset c next found) : Lexeme.token token ∉ found := by
  cases h <;> simp

/-- A token that begins with a digit is read as a number. -/
theorem At.eq_number_of_isNumber (h : scanner.At offset first seen)
    (hnumber : (Token.startingAt first seen).isNumber = true) : scanner = .number first seen := by
  cases h with
  | between => cases hnumber
  | quoted _ hseen =>
    rw [Token.isNumber_startingAt hseen] at hnumber
    cases hnumber
  | number => rfl
  | symbol _ hsymbol =>
    obtain ⟨symbol, hs⟩ := Option.isSome_iff_exists.1 hsymbol
    obtain ⟨c, rest, htext, hstart, -⟩ := symbol.exists_chars
    rw [Symbol.text_of_ofText? hs] at htext
    rw [Token.isNumber_startingAt htext] at hnumber
    have hboth := (hstart 0).symm.trans (start_number hnumber 0)
    cases hboth
  | name _ hword =>
    obtain ⟨c, rest, htext, hstart, -⟩ := Text.exists_of_isWord hword
    rw [Token.isNumber_startingAt htext] at hnumber
    have hboth := (hstart 0).symm.trans (start_number hnumber 0)
    cases hboth

/-- What begins where a token is handed on is no token yet. -/
theorem eq_of_mem_restart {handed : Token} (h : Lexeme.token token ∈ (restart handed offset c).2) : token = handed := by
  rw [restart, List.mem_append] at h
  rcases h with h | h
  · exact absurd h (begins_start offset c).not_token
  · cases List.mem_singleton.1 h
    rfl

/-- What is read is no number unless a number is being read. -/
theorem At.endsInTime_of_ne_number (h : scanner.At offset first seen) (hnumber : token.isNumber = true)
    (text : List Char) (hne : scanner ≠ .number first seen) (htoken : token = .startingAt first seen) :
    token.EndsInTime first text :=
  absurd (h.eq_number_of_isNumber (htoken ▸ hnumber)) hne

/-- What is handed on at a character is the token that is being read, or a string. -/
theorem At.endsInTime_step (h : scanner.At offset first seen) (hnumeral : scanner.ReadsNumeral) (rest : List Char)
    (hmem : Lexeme.token token ∈ (scanner.step offset c).2) (hnumber : token.isNumber = true) :
    token.EndsInTime first (seen.toList ++ c :: rest) := by
  have hother := h.endsInTime_of_ne_number hnumber (seen.toList ++ c :: rest)
  unfold step at hmem
  cases h with
  | between => exact absurd hmem (begins_start offset c).not_token
  | quoted _ hseen escaped =>
    dsimp only at hmem
    split at hmem
    · cases List.mem_singleton.1 hmem
      rw [Token.isNumber_string hseen (String.toList_push c)] at hnumber
      cases hnumber
    · cases hmem
  | number =>
    dsimp only at hmem
    split at hmem
    · cases hmem
    · rename_i hliteral
      obtain rfl := eq_of_mem_restart hmem
      refine ⟨"", c :: rest, by simp [Token.startingAt], by simp [Token.startingAt], hnumeral, fun d hd => ?_⟩
      cases hd
      simpa [Decimal.isLiteral, Token.startingAt, String.toList_push] using hliteral
  | symbol =>
    dsimp only at hmem
    split at hmem
    · cases hmem
    · exact hother (by simp) (eq_of_mem_restart hmem)
  | name =>
    dsimp only at hmem
    split at hmem
    · exact hother (by simp) (eq_of_mem_restart hmem)
    · cases hmem

/-- What is handed on at the end is the token that is being read, or a string. -/
theorem At.endsInTime_finish (h : scanner.At offset first seen) (hnumeral : scanner.ReadsNumeral)
    (hmem : Lexeme.token token ∈ scanner.finish) (hnumber : token.isNumber = true) :
    token.EndsInTime first seen.toList := by
  have hother := h.endsInTime_of_ne_number hnumber seen.toList
  unfold finish at hmem
  cases h with
  | between => cases hmem
  | quoted _ hseen escaped =>
    have hstring {text : String} (marks : List Char) (htext : text.toList = seen.toList ++ marks)
        (htoken : token = .startingAt first text) : token.EndsInTime first seen.toList := by
      rw [htoken, Token.isNumber_string hseen htext] at hnumber
      cases hnumber
    dsimp only at hmem
    split at hmem
    · cases List.mem_singleton.1 hmem
      exact hstring [] (List.append_nil _).symm rfl
    · cases escaped with
      | false => exact hstring ['"'] (String.toList_push _) (by simpa using hmem)
      | true =>
        have htext : ((seen.push '\\').push '"').toList = seen.toList ++ ['\\', '"'] := by simp [String.toList_push]
        exact hstring _ htext (by simpa using hmem)
  | number =>
    cases List.mem_singleton.1 hmem
    exact ⟨"", [], by simp [Token.startingAt], by simp [Token.startingAt], hnumeral, by simp⟩
  | symbol => exact hother (by simp) (by simpa using hmem)
  | name => exact hother (by simp) (by simpa using hmem)

/-- A scanner goes on in its token or hands that on, and no character is left out. -/
theorem At.goesOn (h : scanner.At offset first seen) (c : Char) :
    ∃ done more : String, (scanner.step offset c).1.At (offset + c.utf8Size) (first + done.utf8ByteSize) more ∧
      seen.toList ++ [c] = done.toList ++ more.toList := by
  have hoffset := h.offset_push c
  have hpushed : Scanner.between.At (offset + c.utf8Size) (first + (seen.push c).utf8ByteSize) "" :=
    hoffset ▸ .between _
  have hpush : seen.toList ++ [c] = (seen.push c).toList ++ "".toList := by
    rw [String.toList_push, String.toList_empty, List.append_nil]
  have hmove := move_step h c
  generalize scanner.step offset c = result at hmove
  obtain ⟨next, found⟩ := result
  dsimp only at hmove ⊢
  -- After a token the next one begins, unless the character begins none.
  have hbegins {found : List Lexeme} (hbegin : Begins offset c next found) : ∃ done more : String,
      next.At (offset + c.utf8Size) (first + done.utf8ByteSize) more ∧
        seen.toList ++ [c] = done.toList ++ more.toList := by
    cases hbegin with
    | blank => exact ⟨_, _, hpushed, hpush⟩
    | invalid => exact ⟨_, _, hpushed, hpush⟩
    | token hat => exact ⟨seen, String.singleton c, h.offset_eq ▸ hat, by rw [String.toList_singleton]⟩
  cases hmove with
  | begin _ hbegin => exact hbegins hbegin
  | more hat => exact ⟨"", seen.push c, by simpa using hat, by simp [String.toList_push]⟩
  | close => exact ⟨_, _, hpushed, hpush⟩
  | handOn _ hbegin => exact hbegins hbegin

theorem At.endsInTime_scan (h : scanner.At offset first seen) (hnumeral : scanner.ReadsNumeral) {chars : List Char}
    (hmem : Lexeme.token token ∈ scanner.scan offset chars) (hnumber : token.isNumber = true) :
    token.EndsInTime first (seen.toList ++ chars) := by
  induction chars generalizing scanner offset first seen with
  | nil =>
    rw [scan] at hmem
    rw [List.append_nil]
    exact h.endsInTime_finish hnumeral hmem hnumber
  | cons c rest ih =>
    rw [scan, List.mem_append] at hmem
    rcases hmem with hmem | hmem
    · exact h.endsInTime_step hnumeral rest hmem hnumber
    · obtain ⟨done, more, hat, htext⟩ := h.goesOn c
      have hlater := ih hat (readsNumeral_step hnumeral offset c) hmem
      have hchars : seen.toList ++ c :: rest = done.toList ++ (more.toList ++ rest) := by
        rw [← List.append_assoc, ← htext, List.append_assoc, List.singleton_append]
      rw [hchars]
      exact hlater.after done

end Scanner

open Decimal (BeginsExponent)

section

variable {source : String} {token : Token}

theorem Token.endsInTime_of_mem (hmem : token ∈ (tokenize source).1) (hnumber : token.isNumber = true) :
    token.EndsInTime 0 source.toList := by
  have hends := (Scanner.At.between 0).endsInTime_scan trivial (mem_tokenize_iff.1 hmem) hnumber
  rwa [String.toList_empty, List.nil_append] at hends

/-- A number takes the dot after it for its point, if it has none. -/
theorem Token.head?_ne_dot (hmem : token ∈ (tokenize source).1) (hnumber : token.isNumber = true)
    (hpoint : '.' ∉ token.text.toList) {rest : List Char}
    (hrest : dropBytes? token.location.stop source.toList = some rest) : rest.head? ≠ some '.' := by
  obtain ⟨before, after, hsource, htoken, hnumeral, hend⟩ := Token.endsInTime_of_mem hmem hnumber
  have hstop : token.location.stop = (before ++ token.text).utf8ByteSize := by
    rw [htoken]
    simp [Token.startingAt]
  have hsplit : source.toList = (before ++ token.text).toList ++ after := by simp [hsource]
  obtain rfl : after = rest := by
    rw [hstop, hsplit, dropBytes?_text] at hrest
    exact Option.some.inj hrest
  intro hdot
  have hsome := (hnumeral.concat (.inr ⟨rfl, hpoint⟩)).isSome_read?
  rw [hend '.' hdot] at hsome
  cases hsome

end

/-- A number token is the longest numeral at its place. It is the longest literal too, unless an exponent comes right
after it. -/
theorem number_token_is_longest_numeral {source : String} {token : Token} (hmem : token ∈ (tokenize source).1)
    (hnumber : token.isNumber = true) :
    ∃ rest, dropBytes? token.location.start source.toList = some (token.text.toList ++ rest) ∧
      token.location.stop = token.location.start + token.text.utf8ByteSize ∧
      LongestPrefix IsNumeral token.text.toList (token.text.toList ++ rest) ∧
      (LongestPrefix (fun chars => (Literal.read? chars).isSome = true) token.text.toList (token.text.toList ++ rest) ↔
        ¬ BeginsExponent rest) := by
  obtain ⟨before, rest, hsource, htoken, hnumeral, hend⟩ := Token.endsInTime_of_mem hmem hnumber
  have hstart : token.location.start = before.utf8ByteSize := by
    rw [htoken]
    simp [Token.startingAt]
  have hstop : token.location.stop = before.utf8ByteSize + token.text.utf8ByteSize := by
    rw [htoken]
    simp [Token.startingAt]
  refine ⟨rest, ?_, by rw [hstop, hstart], hnumeral.longestPrefix hend, hnumeral.longestPrefix_literal_iff hend⟩
  rw [hstart, hsource, dropBytes?_text]

/-- A number before a point that it cannot take. -/
theorem number_before_second_point :
    Token.startingAt 2 "12.5" ∈ (tokenize "x 12.5.3").1 ∧ (Token.startingAt 2 "12.5").isNumber = true ∧
      ∃ rest, dropBytes? 2 "x 12.5.3".toList = some ("12.5".toList ++ rest) ∧
        LongestPrefix IsNumeral "12.5".toList ("12.5".toList ++ rest) := by
  have hmem : Token.startingAt 2 "12.5" ∈ (tokenize "x 12.5.3").1 := by decide +kernel
  have hnumber : (Token.startingAt 2 "12.5").isNumber = true := by decide +kernel
  obtain ⟨rest, hrest, -, hlongest, -⟩ := number_token_is_longest_numeral hmem hnumber
  exact ⟨hmem, hnumber, rest, hrest, hlongest⟩

/-- An exponent is left to the next token, although the whole text is a literal. -/
theorem exponent_is_left_over :
    tokenize "1e5" = ([.startingAt 0 "1", .startingAt 1 "e5"], []) ∧
      ¬ LongestPrefix (fun chars => (Literal.read? chars).isSome = true) "1".toList "1e5".toList := by
  refine ⟨by decide +kernel, fun hlongest => ?_⟩
  have hlength : "1e5".toList.length ≤ "1".toList.length :=
    hlongest.2.2 "1e5".toList List.prefix_rfl (by decide +kernel)
  exact absurd hlength (by decide +kernel)

end DynamicConfig

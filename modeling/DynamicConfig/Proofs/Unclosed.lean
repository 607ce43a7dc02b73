import DynamicConfig.Proofs.Scanning
import Mathlib.Data.List.Induction
/-!
# Strings that are not closed

A string goes on to the next quote that is not escaped, whatever stands in it, and the source text ends inside a string
if there is none (`EndsInside`). Such a string is found wrong at its first quote, and its token is closed so that it
stands for every character of the string (`unclosed_string_found`), unless the text ends with an escaped quote: this one
is taken for the quote that closes the string (`escaped_quote_taken_for_closing`).
-/

namespace DynamicConfig

/-! ## Where strings begin and end -/

namespace Text.Quoted

/-- What stands after the first quote of a string spells a text up to the end. A backslash at the very end has nothing
to escape and stands for itself. -/
inductive SpellsOn : List Char → List Char → Prop
  | whole {chars text : List Char} (h : Spells chars text) : SpellsOn chars text
  | pending {chars text : List Char} (h : Spells chars text) : SpellsOn (chars ++ ['\\']) (text ++ ['\\'])

/-- Each string that begins among the characters ends there. -/
inductive Closed : List Char → Prop
  | nil : Closed []
  | plain {c : Char} {rest : List Char} (hc : c ≠ '"') (hrest : Closed rest) : Closed (c :: rest)
  | string {chars text rest : List Char} (hs : Spells chars text) (hrest : Closed rest) :
    Closed ('"' :: chars ++ '"' :: rest)

variable {chars rest text : List Char}

theorem Spells.append {more moreText : List Char} (h : Spells chars text) (hm : Spells more moreText) :
    Spells (chars ++ more) (text ++ moreText) := by
  induction h with
  | nil => exact hm
  | plain hc _ ih => exact .plain hc ih
  | escaped c _ ih => exact .escaped c ih

theorem Spells.unescape_eq (h : Spells chars text) : unescape chars = text := by
  induction h with
  | nil => rfl
  | plain hc _ ih =>
    obtain ⟨-, hb⟩ := not_or.1 hc
    rw [unescape.eq_4 _ _ (by simp [hb]) (by simp [hb]), ih]
  | escaped c _ ih => rw [unescape, ih]

theorem Closed.append (h : Closed chars) (hrest : Closed rest) : Closed (chars ++ rest) := by
  induction h with
  | nil => exact hrest
  | plain hc _ ih => exact .plain hc ih
  | string hs _ ih =>
    rw [List.append_assoc, List.cons_append, List.cons_append]
    exact .string hs ih

/-- Characters end outside of strings, or inside the last one that begins among them. The induction is on the characters
from the first to the last, since one more only matters where the ones before it have ended. -/
theorem closed_or_spellsOn (chars : List Char) :
    Closed chars ∨ ∃ before body text, chars = before ++ '"' :: body ∧ Closed before ∧ SpellsOn body text := by
  induction chars using List.reverseRecOn with
  | nil => exact .inl .nil
  | append_singleton chars c ih =>
    rcases ih with hclosed | ⟨before, body, text, rfl, hclosed, hbody⟩
    · by_cases hc : c = '"'
      · subst hc
        exact .inr ⟨chars, [], [], rfl, hclosed, .whole .nil⟩
      · exact .inl (hclosed.append (.plain hc .nil))
    · have hinside {more moreText : List Char} (h : SpellsOn more moreText) (heq : body ++ [c] = more) :
          ∃ before' body' text', before ++ '"' :: body ++ [c] = before' ++ '"' :: body' ∧ Closed before' ∧
            SpellsOn body' text' :=
        ⟨before, more, moreText, by rw [List.append_assoc, List.cons_append, heq], hclosed, h⟩
      cases hbody with
      | whole h =>
        by_cases hq : c = '"'
        · subst hq
          rw [List.append_assoc]
          exact .inl (hclosed.append (.string h .nil))
        · by_cases hb : c = '\\'
          · subst hb
            exact .inr (hinside (.pending h) rfl)
          · exact .inr (hinside (.whole (h.append (.plain (not_or.2 ⟨hq, hb⟩) .nil))) rfl)
      | pending h => exact .inr (hinside (.whole (h.append (.escaped c .nil))) (by simp))

end Text.Quoted

/-- The source text ends inside a string, which begins after `before` and whose characters spell a text. -/
structure EndsInside (source before body text : String) : Prop where
  source_eq : source = before ++ "\"" ++ body
  closed : Text.Quoted.Closed before.toList
  spells : Text.Quoted.SpellsOn body.toList text.toList

/-! ## Outside of strings -/

/-- No symbol has a quote in it. -/
theorem Symbol.quote_not_mem_text (s : Symbol) : '"' ∉ s.text.toList := by
  cases s <;> first | decide | (rename_i bracket; cases bracket <;> decide)

theorem Symbol.ofText?_push_quote (seen : String) : ofText? (seen.push '"') = none := by
  rw [Option.eq_none_iff_forall_ne_some]
  intro symbol hs
  refine symbol.quote_not_mem_text ?_
  rw [text_of_ofText? hs, String.toList_push]
  exact List.mem_append_right _ (List.mem_singleton_self _)

theorem Decimal.isLiteral_push {c : Char} (hc : Literal.mayHold c = false) (seen : String) :
    isLiteral (seen.push c) = false := by
  rw [isLiteral, Literal.read?_of_mayHold hc (by simp [String.toList_push])]
  rfl

/-- Whether the fault is that of a string that is not closed. -/
def ParseError.isOfString (e : ParseError) : Bool :=
  e.kind = .incompleteString

/-- The faults of strings among lexemes. -/
def stringFaults (lexemes : List Lexeme) : List ParseError :=
  (lexemes.filterMap Lexeme.fault?).filter ParseError.isOfString

theorem stringFaults_append (xs ys : List Lexeme) : stringFaults (xs ++ ys) = stringFaults xs ++ stringFaults ys := by
  simp [stringFaults]

theorem stringFaults_tokens (tokens : List Token) : stringFaults (tokens.map Lexeme.token) = [] := by
  simp [stringFaults, List.filterMap_map, Function.comp_def, Lexeme.fault?]

namespace Scanner

variable {scanner : Scanner} {offset first : Nat} {seen : String}

/-- Whether the scanner is inside a string. -/
def isQuoted : Scanner → Bool
  | quoted .. => true
  | _ => false

theorem isQuoted_between : between.isQuoted = false := rfl

theorem start_quote (offset : Nat) : start offset '"' = (quoted offset "\"" false, []) := rfl

theorem start_of_ne_quote {c : Char} (hc : c ≠ '"') (offset : Nat) :
    (start offset c).1.isQuoted = false ∧ stringFaults (start offset c).2 = [] := by
  unfold start
  repeat' split
  all_goals exact ⟨rfl, rfl⟩

/-- Outside of strings a character begins the next token, after the one that it ends, or is one more of the token and no
quote. -/
theorem step_outside (hs : scanner.isQuoted = false) (offset : Nat) (c : Char) :
    (∃ tokens : List Token, scanner.step offset c =
        ((start offset c).1, (start offset c).2 ++ tokens.map Lexeme.token)) ∨
      ∃ next : Scanner, c ≠ '"' ∧ next.isQuoted = false ∧ scanner.step offset c = (next, []) := by
  cases scanner with
  | between => exact .inl ⟨[], by simp [step]⟩
  | quoted => cases hs
  | number first seen =>
    rw [step]
    split
    case isTrue h =>
      refine .inr ⟨_, ?_, rfl, rfl⟩
      rintro rfl
      rw [Decimal.isLiteral_push rfl] at h
      cases h
    case isFalse => exact .inl ⟨[_], rfl⟩
  | symbol first seen =>
    rw [step]
    split
    case isTrue h =>
      refine .inr ⟨_, ?_, rfl, rfl⟩
      rintro rfl
      rw [Symbol.ofText?_push_quote] at h
      cases h
    case isFalse => exact .inl ⟨[_], rfl⟩
  | name first seen =>
    rw [step]
    split
    case isTrue => exact .inl ⟨[_], rfl⟩
    case isFalse h =>
      refine .inr ⟨_, ?_, rfl, rfl⟩
      rintro rfl
      exact h rfl

theorem step_of_ne_quote (hs : scanner.isQuoted = false) (offset : Nat) {c : Char} (hc : c ≠ '"') :
    (scanner.step offset c).1.isQuoted = false ∧ stringFaults (scanner.step offset c).2 = [] := by
  rcases step_outside hs offset c with ⟨tokens, hstep⟩ | ⟨next, -, hnext, hstep⟩
  · obtain ⟨hstart, hfaults⟩ := start_of_ne_quote hc offset
    rw [hstep, stringFaults_append, hfaults, stringFaults_tokens]
    exact ⟨hstart, rfl⟩
  · rw [hstep]
    exact ⟨hnext, rfl⟩

theorem finish_outside (hs : scanner.isQuoted = false) : stringFaults scanner.finish = [] := by
  cases scanner <;> first | rfl | cases hs

/-- A quote outside of strings begins one, in which the scanner still is after what spells a text. -/
theorem scan_begin (hs : scanner.isQuoted = false) (offset : Nat) {chars text : List Char}
    (h : Text.Quoted.Spells chars text) :
    ∃ tokens : List Token, ∀ rest, scanner.scan offset ('"' :: (chars ++ rest)) =
      tokens.map Lexeme.token ++ (quoted offset ("\"" ++ String.ofList chars) false).scan
        (offset + ("\"" ++ String.ofList chars).utf8ByteSize) rest := by
  rcases step_outside hs offset '"' with ⟨tokens, hstep⟩ | ⟨next, hne, -⟩
  · refine ⟨tokens, fun rest => ?_⟩
    rw [scan, hstep, start_quote, List.nil_append, ← scan_spells h rest]
    rfl
  · exact absurd rfl hne

/-- Where each string ends that begins, the scanner is outside of strings again and has found none wrong. -/
theorem scan_closed {chars : List Char} (h : Text.Quoted.Closed chars) (hs : scanner.isQuoted = false) (offset : Nat) :
    ∃ (found : List Lexeme) (next : Scanner), next.isQuoted = false ∧ stringFaults found = [] ∧ ∀ rest,
      scanner.scan offset (chars ++ rest) = found ++ next.scan (offset + (String.ofList chars).utf8ByteSize) rest := by
  induction h generalizing scanner offset with
  | nil => exact ⟨[], scanner, hs, rfl, fun rest => by simp⟩
  | @plain c chars hc _ ih =>
    obtain ⟨hnext, hfound⟩ := step_of_ne_quote hs offset hc
    obtain ⟨found, next, hq, hfaults, hscan⟩ := ih hnext (offset + c.utf8Size)
    refine ⟨(scanner.step offset c).2 ++ found, next, hq, ?_, fun rest => ?_⟩
    · rw [stringFaults_append, hfound, hfaults]
      rfl
    · have hstep := scan_of_step (Prod.eta (scanner.step offset c)).symm (chars ++ rest)
      rw [List.cons_append, hstep, hscan, String.ofList_cons, String.utf8ByteSize_append,
        String.utf8ByteSize_singleton, Nat.add_assoc, List.append_assoc]
  | @string chars text more hspells _ ih =>
    have hsize : (("\"" ++ String.ofList chars).push '"').utf8ByteSize + (String.ofList more).utf8ByteSize =
        (String.ofList ('"' :: chars ++ '"' :: more)).utf8ByteSize := by
      rw [← String.utf8ByteSize_append]
      exact congrArg String.utf8ByteSize (String.toList_inj.1 (by simp))
    -- After its last quote the scanner is between tokens, whatever it was in before the string.
    obtain ⟨tokens, hbegin⟩ := scan_begin hs offset hspells
    obtain ⟨found, next, hq, hfaults, hscan⟩ :=
      ih isQuoted_between (offset + (("\"" ++ String.ofList chars).push '"').utf8ByteSize)
    refine ⟨tokens.map Lexeme.token ++ .token (.startingAt offset (("\"" ++ String.ofList chars).push '"')) :: found,
      next, hq, ?_, fun rest => ?_⟩
    · rw [stringFaults_append, stringFaults_tokens]
      exact hfaults
    · rw [List.append_assoc, List.cons_append, List.cons_append, hbegin, scan_quote, hscan, Nat.add_assoc, hsize]
      simp

theorem looksClosed_body (chars : List Char) :
    looksClosed ("\"" ++ String.ofList chars) false = decide (chars.getLast? = some '"') := by
  cases chars with
  | nil => rfl
  | cons c rest =>
    have hsize : 1 < ("\"" ++ String.ofList (c :: rest)).utf8ByteSize := by
      have hone : "\"".utf8ByteSize = 1 := rfl
      have := c.utf8Size_pos
      rw [String.utf8ByteSize_append, String.ofList_cons, String.utf8ByteSize_append, String.utf8ByteSize_singleton,
        hone]
      omega
    have hlast : ("\"" ++ String.ofList (c :: rest)).toList.getLast? = (c :: rest).getLast? := by simp
    rw [looksClosed, hlast, decide_eq_true hsize, Bool.true_and, Bool.not_false, Bool.and_true]

/-- A string that does not look closed is found wrong where it begins. -/
theorem finish_open {escaped : Bool} (h : looksClosed seen escaped = false) :
    (quoted first seen escaped).finish = [.fault ⟨.incompleteString, first⟩,
      .token (.startingAt first (seen ++ if escaped then "\\\"" else "\""))] := by
  have hmarks : (if escaped then seen.push '\\' else seen).push '"' = seen ++ if escaped then "\\\"" else "\"" := by
    apply String.toList_inj.1
    cases escaped <;> simp
  rw [finish, h, ← hmarks]
  rfl

/-- A string that the source text ends in is found wrong, and its token is closed by a quote, which nothing escapes. -/
theorem scan_unclosed (hs : scanner.isQuoted = false) (offset : Nat) {body text : List Char}
    (h : Text.Quoted.SpellsOn body text) (hlast : body.getLast? ≠ some '"') :
    ∃ (tokens : List Token) (marks : String), (marks = "\"" ∨ marks = "\\\"") ∧
      scanner.scan offset ('"' :: body) = tokens.map Lexeme.token ++ [.fault ⟨.incompleteString, offset⟩,
        .token (.startingAt offset ("\"" ++ String.ofList body ++ marks))] ∧
      Text.Quoted.decode (body ++ marks.toList) = String.ofList text := by
  cases h with
  | whole h =>
    obtain ⟨tokens, hbegin⟩ := scan_begin hs offset h
    refine ⟨tokens, "\"", .inl rfl, ?_, ?_⟩
    · have hend := hbegin []
      rw [List.append_nil] at hend
      rw [hend, scan, finish_open ((looksClosed_body body).trans (decide_eq_false hlast))]
      rfl
    · show Text.Quoted.decode (body ++ ['"']) = _
      rw [Text.Quoted.decode, Text.Quoted.body_append_quote, h.unescape_eq]
  | @pending chars text h =>
    obtain ⟨tokens, hbegin⟩ := scan_begin hs offset h
    refine ⟨tokens, "\\\"", .inr rfl, ?_, ?_⟩
    · have hbody : ("\"" ++ String.ofList chars).push '\\' = "\"" ++ String.ofList (chars ++ ['\\']) :=
        String.toList_inj.1 (by simp)
      rw [hbegin, scan_backslash, scan, finish_open (by simp [looksClosed]), hbody]
      rfl
    -- The backslash at the end is escaped by the one that is put after it.
    · have hspells := (h.append (.escaped '\\' .nil)).unescape_eq
      show Text.Quoted.decode (chars ++ ['\\'] ++ ['\\', '"']) = _
      rw [Text.Quoted.decode, show chars ++ ['\\'] ++ ['\\', '"'] = chars ++ ['\\', '\\'] ++ ['"'] by simp,
        Text.Quoted.body_append_quote, hspells]

/-- An escaped quote at the end of the source text passes for the one that closes the string. -/
theorem scan_escaped_quote (hs : scanner.isQuoted = false) (offset : Nat) {body text : List Char}
    (h : Text.Quoted.SpellsOn body text) (hlast : body.getLast? = some '"') :
    stringFaults (scanner.scan offset ('"' :: body)) = [] := by
  cases h with
  | whole h =>
    obtain ⟨tokens, hbegin⟩ := scan_begin hs offset h
    have hend := hbegin []
    rw [List.append_nil] at hend
    rw [hend, scan, finish, looksClosed_body, decide_eq_true hlast, stringFaults_append, stringFaults_tokens]
    rfl
  | pending h => simp at hlast

end Scanner

/-! ## Source texts -/

section EndsInside

variable {source before body text : String}

theorem EndsInside.toList_eq (h : EndsInside source before body text) :
    source.toList = before.toList ++ '"' :: body.toList := by
  rw [h.source_eq]
  simp

/-- What is found in a source text that ends inside a string: something before the string, and what the string is found
to be by a scanner that is outside of strings. -/
theorem EndsInside.lexemes_eq (h : EndsInside source before body text) :
    ∃ (found : List Lexeme) (scanner : Scanner), scanner.isQuoted = false ∧ stringFaults found = [] ∧
      lexemes source = found ++ scanner.scan before.utf8ByteSize ('"' :: body.toList) := by
  obtain ⟨found, scanner, hs, hfaults, hscan⟩ := Scanner.scan_closed h.closed Scanner.isQuoted_between 0
  refine ⟨found, scanner, hs, hfaults, ?_⟩
  rw [lexemes, h.toList_eq, hscan, String.ofList_toList, Nat.zero_add]

/-- The token of a string that is closed with marks stands for what they are the end of. -/
theorem leaf?_of_decode {chars : List Char} {marks : String} (h : Text.Quoted.decode (chars ++ marks.toList) = text)
    (first : Nat) :
    (Token.startingAt first ("\"" ++ String.ofList chars ++ marks)).leaf? = some (.string text) := by
  have hlist : ("\"" ++ String.ofList chars ++ marks).toList = '"' :: (chars ++ marks.toList) := by simp
  exact Token.leaf?_eq_some_iff.2 ⟨Symbol.ofText?_of_quote hlist, by rw [Token.startingAt, Leaf.ofText?_quote hlist, h]⟩

theorem EndsInside.found (h : EndsInside source before body text) (hlast : body.toList.getLast? ≠ some '"') :
    (tokenize source).2.filter ParseError.isOfString = [⟨.incompleteString, before.utf8ByteSize⟩] ∧
      ∃ marks : String, (marks = "\"" ∨ marks = "\\\"") ∧
        (tokenize source).1.getLast? = some (.startingAt before.utf8ByteSize ("\"" ++ body ++ marks)) ∧
        (Token.startingAt before.utf8ByteSize ("\"" ++ body ++ marks)).leaf? = some (.string text) := by
  obtain ⟨found, scanner, hs, hfaults, hlex⟩ := h.lexemes_eq
  obtain ⟨tokens, marks, hmarks, hscan, hdecode⟩ := Scanner.scan_unclosed hs before.utf8ByteSize h.spells hlast
  have hleaf := leaf?_of_decode hdecode before.utf8ByteSize
  rw [String.ofList_toList] at hscan hleaf
  rw [String.ofList_toList] at hleaf
  refine ⟨?_, marks, hmarks, ?_, hleaf⟩
  · show stringFaults (lexemes source) = _
    rw [hlex, hscan, stringFaults_append, hfaults, stringFaults_append, stringFaults_tokens]
    rfl
  · rw [tokenize, hlex, hscan]
    simp [List.findSome?_cons, Lexeme.token?]

theorem EndsInside.not_found (h : EndsInside source before body text) (hlast : body.toList.getLast? = some '"') :
    (tokenize source).2.filter ParseError.isOfString = [] := by
  obtain ⟨found, scanner, hs, hfaults, hlex⟩ := h.lexemes_eq
  show stringFaults (lexemes source) = _
  rw [hlex, stringFaults_append, hfaults, Scanner.scan_escaped_quote hs _ h.spells hlast]
  rfl

/-- Where the source text does not end inside a string, none is found wrong. -/
theorem not_found_of_closed (h : Text.Quoted.Closed source.toList) :
    (tokenize source).2.filter ParseError.isOfString = [] := by
  obtain ⟨found, scanner, hs, hfaults, hscan⟩ := Scanner.scan_closed h Scanner.isQuoted_between 0
  have hlex := hscan []
  rw [List.append_nil] at hlex
  show stringFaults (lexemes source) = _
  rw [lexemes, hlex, Scanner.scan, stringFaults_append, hfaults, Scanner.finish_outside hs]
  rfl

/-- A source text with a string found wrong ends inside a string. -/
theorem endsInside_of_found {e : ParseError} (h : e ∈ (tokenize source).2.filter ParseError.isOfString) :
    ∃ before body text : String, EndsInside source before body text ∧ body.toList.getLast? ≠ some '"' := by
  rcases Text.Quoted.closed_or_spellsOn source.toList with hclosed | ⟨before, body, text, heq, hclosed, hspells⟩
  · rw [not_found_of_closed hclosed] at h
    cases h
  · have hends : EndsInside source (String.ofList before) (String.ofList body) (String.ofList text) :=
      ⟨String.toList_inj.1 (by simp [heq]), by simpa using hclosed, by simpa using hspells⟩
    refine ⟨_, _, _, hends, fun hlast => ?_⟩
    rw [hends.not_found hlast] at h
    cases h

end EndsInside

/-- A string is found wrong exactly if the source text ends inside it, unless the text ends with an escaped quote. No
other string is found wrong then, and the token of this one, the last token, is closed by a quote and stands for every
character of the string. -/
theorem unclosed_string_found (source : String) :
    (∀ place, ⟨.incompleteString, place⟩ ∈ (tokenize source).2 ↔ ∃ before body text : String,
        EndsInside source before body text ∧ body.toList.getLast? ≠ some '"' ∧ place = before.utf8ByteSize) ∧
      ∀ before body text : String, EndsInside source before body text → body.toList.getLast? ≠ some '"' →
        (tokenize source).2.filter ParseError.isOfString = [⟨.incompleteString, before.utf8ByteSize⟩] ∧
          ∃ marks : String, (marks = "\"" ∨ marks = "\\\"") ∧
            (tokenize source).1.getLast? = some (.startingAt before.utf8ByteSize ("\"" ++ body ++ marks)) ∧
            (Token.startingAt before.utf8ByteSize ("\"" ++ body ++ marks)).leaf? = some (.string text) := by
  refine ⟨fun place => ⟨fun hmem => ?_, ?_⟩, fun _ _ _ h hlast => h.found hlast⟩
  · have hfound : ParseError.mk .incompleteString place ∈ (tokenize source).2.filter ParseError.isOfString :=
      List.mem_filter.2 ⟨hmem, rfl⟩
    obtain ⟨before, body, text, h, hlast⟩ := endsInside_of_found hfound
    rw [(h.found hlast).1] at hfound
    exact ⟨before, body, text, h, hlast, congrArg ParseError.offset (List.mem_singleton.1 hfound)⟩
  · rintro ⟨before, body, text, h, hlast, rfl⟩
    exact (List.mem_filter.1 ((h.found hlast).1 ▸ List.mem_singleton_self _)).1

/-- A backslash at the end of a string that is not closed. -/
theorem pending_backslash_found :
    EndsInside "x \"a\\" "x " "a\\" "a\\" ∧
      (tokenize "x \"a\\").2.filter ParseError.isOfString = [⟨.incompleteString, 2⟩] ∧
      ∃ marks : String, (marks = "\"" ∨ marks = "\\\"") ∧
        (tokenize "x \"a\\").1.getLast? = some (.startingAt 2 ("\"a\\" ++ marks)) ∧
        (Token.startingAt 2 ("\"a\\" ++ marks)).leaf? = some (.string "a\\") := by
  have hends : EndsInside "x \"a\\" "x " "a\\" "a\\" :=
    ⟨rfl, .plain (by decide) (.plain (by decide) .nil), .pending (.plain (by decide) .nil)⟩
  exact ⟨hends, (unclosed_string_found "x \"a\\").2 _ _ _ hends (by decide)⟩

/-- The source text ends inside a string with an escaped quote in it, and no string is found wrong. The token stands for
an empty text. -/
theorem escaped_quote_taken_for_closing :
    EndsInside "\"\\\"" "" "\\\"" "\"" ∧ tokenize "\"\\\"" = ([.startingAt 0 "\"\\\""], []) ∧
      (Token.startingAt 0 "\"\\\"").leaf? = some (.string "") :=
  ⟨⟨rfl, .nil, .whole (.escaped _ .nil)⟩, by decide +kernel, rfl⟩

end DynamicConfig

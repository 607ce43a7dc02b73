import Mathlib.Data.List.TakeDrop
import DynamicConfig.Proofs.Spelling
/-!
# The tokens of a source text

The tokens of a source text without faults stand in it one after the other, each at its place
(`laidOut_lexemes`), and each of them is a symbol or a leaf.
-/

namespace DynamicConfig

namespace Text

/-- Whether the text begins as a name does, and no character ends it. -/
def isWord (text : String) : Bool :=
  match text.toList with
  | [] => false
  | c :: rest =>
    !isBlank c && c != '"' && !c.isDigit && !Symbol.begins c && isLetter c && rest.all (!Scanner.endsName ·)

/-- Whether the text is a name: `true` and `false` in any case are none. -/
def isName (text : String) : Bool :=
  isWord text && !equalIgnoringCase text "true" && !equalIgnoringCase text "false"

theorem isWord_of_isName {text : String} (h : isName text = true) : isWord text = true := by
  simp only [isName, Bool.and_eq_true] at h
  exact h.1.1

/-- What does not end a word is one more character of it. -/
theorem isWord_push {text : String} (h : isWord text = true) {c : Char} (hc : Scanner.endsName c = false) :
    isWord (text.push c) = true := by
  unfold isWord at h ⊢
  split at h
  · cases h
  · rename_i d rest htext
    simp_all [String.toList_push]

end Text

namespace Leaf

variable {text : String} {rest : List Char} {c : Char}

theorem ofText?_quote (h : text.toList = '"' :: rest) : ofText? text = some (.string (Text.Quoted.decode rest)) := by
  simp only [ofText?, h]

theorem ofText?_digit (h : text.toList = c :: rest) (hc : c.isDigit = true) :
    ofText? text = (Decimal.Literal.read? (c :: rest)).map (.number ·.value) := by
  have hq : c ≠ '"' := by rintro rfl; cases hc
  simp only [ofText?, h, hc, if_true]

theorem ofText?_letter (h : text.toList = c :: rest) (hc : c.isDigit = false) (hq : c ≠ '"') :
    ofText? text =
      if Text.equalIgnoringCase text "true" then some (.bool true)
      else if Text.equalIgnoringCase text "false" then some (.bool false)
      else some (.name text) := by
  simp only [ofText?, h, hc, Bool.false_eq_true, if_false]

/-- A word is a truth value or a name. -/
theorem ofText?_word (h : Text.isWord text = true) :
    ofText? text =
      if Text.equalIgnoringCase text "true" then some (.bool true)
      else if Text.equalIgnoringCase text "false" then some (.bool false)
      else some (.name text) := by
  unfold Text.isWord at h
  split at h
  · cases h
  · rename_i c rest htext
    simp only [Bool.and_eq_true, Bool.not_eq_true', bne_iff_ne] at h
    obtain ⟨⟨⟨⟨⟨-, hq⟩, hd⟩, -⟩, -⟩, -⟩ := h
    exact ofText?_letter htext hd hq

end Leaf

/-- A token is a symbol or a leaf, and the name of a leaf is one. -/
def Token.IsProper (token : Token) : Prop :=
  token.symbol?.isSome ∨ ∃ l, Leaf.ofText? token.text = some l ∧ ∀ name, l = .name name → Text.isName name = true

/-- The tokens stand one after the other in the rest of a source text, which begins at the given
place. What stands between them is no part of any. -/
inductive LaidOut : (offset : Nat) → List Char → List Token → Prop
  | done (offset : Nat) : LaidOut offset [] []
  | skip {offset : Nat} {c : Char} {rest : List Char} {tokens : List Token}
    (h : LaidOut (offset + c.utf8Size) rest tokens) : LaidOut offset (c :: rest) tokens
  | token {offset : Nat} {text : String} {rest : List Char} {tokens : List Token} (hne : text ≠ "")
    (hp : (Token.startingAt offset text).IsProper) (h : LaidOut (offset + text.utf8ByteSize) rest tokens) :
    LaidOut offset (text.toList ++ rest) (.startingAt offset text :: tokens)

theorem LaidOut.isProper {offset : Nat} {chars : List Char} {tokens : List Token} (h : LaidOut offset chars tokens) :
    ∀ token ∈ tokens, token.IsProper := by
  induction h with
  | done => simp
  | skip _ ih => exact ih
  | token _ hp _ ih => exact List.forall_mem_cons.2 ⟨hp, ih⟩

/-- The rest of a source text, which begins at the given place, in pieces: blanks, characters that begin no token,
tokens, and perhaps a last token that lacks its quote. A string that lacks it gets one. -/
inductive Pieces : (offset : Nat) → List Char → List Token → List ParseError → Prop
  | done (offset : Nat) : Pieces offset [] [] []
  | blank {offset : Nat} {c : Char} {rest : List Char} {tokens : List Token} {faults : List ParseError}
    (hc : Text.isBlank c = true) (h : Pieces (offset + c.utf8Size) rest tokens faults) :
    Pieces offset (c :: rest) tokens faults
  | invalid {offset : Nat} {c : Char} {rest : List Char} {tokens : List Token} {faults : List ParseError}
    (hc : Text.isBlank c = false) (h : Pieces (offset + c.utf8Size) rest tokens faults) :
    Pieces offset (c :: rest) tokens (⟨.invalidCharacter, offset⟩ :: faults)
  | token {offset : Nat} {text : String} {rest : List Char} {tokens : List Token} {faults : List ParseError}
    (hne : text ≠ "") (hp : (Token.startingAt offset text).IsProper)
    (h : Pieces (offset + text.utf8ByteSize) rest tokens faults) :
    Pieces offset (text.toList ++ rest) (.startingAt offset text :: tokens) faults
  | unclosed {text : String} {rest : List Char} (h : text.toList = '"' :: rest) (offset : Nat) {marks : String}
    (hmarks : marks = "\"" ∨ marks = "\\\"") :
    Pieces offset text.toList [.startingAt offset (text ++ marks)] [⟨.incompleteString, offset⟩]

/-- Where there are no faults, the pieces are blanks and tokens. -/
theorem Pieces.laidOut {offset : Nat} {chars : List Char} {tokens : List Token} (h : Pieces offset chars tokens []) :
    LaidOut offset chars tokens := by
  generalize hfaults : ([] : List ParseError) = faults at h
  induction h with
  | done offset => exact .done offset
  | blank _ _ ih => exact .skip (ih hfaults)
  | token hne hp _ ih => exact .token hne hp (ih hfaults)
  | invalid | unclosed => cases hfaults

/-- A token that is closed by a quote of its own is a string. -/
theorem Pieces.isProper {offset : Nat} {chars : List Char} {tokens : List Token} {faults : List ParseError}
    (h : Pieces offset chars tokens faults) : ∀ token ∈ tokens, token.IsProper := by
  induction h with
  | done => simp
  | blank _ _ ih | invalid _ _ ih => exact ih
  | token _ hp _ ih => exact List.forall_mem_cons.2 ⟨hp, ih⟩
  | @unclosed text rest h offset marks _ =>
    have hquote : (text ++ marks).toList = '"' :: (rest ++ marks.toList) := by simp [h]
    exact List.forall_mem_singleton.2 (.inr ⟨_, Leaf.ofText?_quote hquote, by simp⟩)

namespace Scanner

/-- A scanner in the middle of a source text: what it has read of a token, where that starts, and where
the reading is. -/
inductive At : Scanner → (offset first : Nat) → (seen : String) → Prop
  | between (offset : Nat) : At between offset offset ""
  | quoted (first : Nat) {seen : String} {rest : List Char} (h : seen.toList = '"' :: rest) (escaped : Bool) :
    At (quoted first seen escaped) (first + seen.utf8ByteSize) first seen
  | number (first : Nat) {seen : String} {c : Char} {rest : List Char} (h : seen.toList = c :: rest)
    (hc : c.isDigit = true) (hn : Decimal.isLiteral seen = true) :
    At (number first seen) (first + seen.utf8ByteSize) first seen
  | symbol (first : Nat) {seen : String} (h : (Symbol.ofText? seen).isSome) :
    At (symbol first seen) (first + seen.utf8ByteSize) first seen
  | name (first : Nat) {seen : String} (h : Text.isWord seen = true) :
    At (name first seen) (first + seen.utf8ByteSize) first seen

theorem isProper_quoted {text : String} {rest : List Char} (h : text.toList = '"' :: rest) (first : Nat) :
    (Token.startingAt first text).IsProper :=
  .inr ⟨_, Leaf.ofText?_quote h, by simp⟩

theorem isProper_number {text : String} {c : Char} {rest : List Char} (h : text.toList = c :: rest)
    (hc : c.isDigit = true) (hn : Decimal.isLiteral text = true) (first : Nat) :
    (Token.startingAt first text).IsProper := by
  rw [Decimal.isLiteral, h] at hn
  obtain ⟨n, hn⟩ := Option.isSome_iff_exists.1 hn
  exact .inr ⟨.number n.value, by rw [Token.startingAt, Leaf.ofText?_digit h hc, hn]; rfl, by simp⟩

theorem isProper_word {text : String} (h : Text.isWord text = true) (first : Nat) :
    (Token.startingAt first text).IsProper := by
  refine .inr ?_
  rw [Token.startingAt, Leaf.ofText?_word h]
  split
  · exact ⟨_, rfl, by simp⟩
  · split
    · exact ⟨_, rfl, by simp⟩
    · refine ⟨_, rfl, fun name hname => ?_⟩
      cases hname
      simp_all [Text.isName]

theorem ne_empty_of_ofText? {text : String} (h : (Symbol.ofText? text).isSome) : text ≠ "" := by
  rintro rfl
  revert h
  decide

/-- The scanner is past what it has read. -/
theorem At.offset_eq {scanner : Scanner} {offset first : Nat} {seen : String} (h : scanner.At offset first seen) :
    offset = first + seen.utf8ByteSize := by
  cases h <;> rfl

theorem At.offset_push {scanner : Scanner} {offset first : Nat} {seen : String} (h : scanner.At offset first seen)
    (c : Char) : offset + c.utf8Size = first + (seen.push c).utf8ByteSize := by
  rw [h.offset_eq, String.utf8ByteSize_push, Nat.add_assoc]

/-- What a scanner has read of a token can be handed on. -/
theorem At.token {scanner : Scanner} {offset first : Nat} {seen : String} (h : scanner.At offset first seen)
    (hb : scanner ≠ Scanner.between) : seen ≠ "" ∧ (Token.startingAt first seen).IsProper := by
  cases h with
  | between => exact (hb rfl).elim
  | quoted _ h escaped => exact ⟨(by rintro rfl; cases h), isProper_quoted h _⟩
  | number _ h hc hn => exact ⟨(by rintro rfl; cases h), isProper_number h hc hn _⟩
  | symbol _ h => exact ⟨ne_empty_of_ofText? h, .inl h⟩
  | name _ h => exact ⟨(by rintro rfl; cases h), isProper_word h _⟩

theorem isLiteral_digit {c : Char} (h : c.isDigit = true) : Decimal.isLiteral (String.singleton c) = true := by
  have hspan : [c].span Char.isDigit = ([c], []) := by
    simp [List.span_eq_takeWhile_dropWhile, h]
  rw [Decimal.isLiteral, String.toList_singleton, Decimal.Literal.read?, hspan]
  rfl

/-- What a character does between two tokens. -/
inductive Begins (offset : Nat) (c : Char) : Scanner → List Lexeme → Prop
  | blank (hc : Text.isBlank c = true) : Begins offset c between []
  | token {next : Scanner} (h : next.At (offset + c.utf8Size) offset (String.singleton c)) : Begins offset c next []
  | invalid (hc : Text.isBlank c = false) : Begins offset c between [.fault ⟨.invalidCharacter, offset⟩]

theorem begins_start (offset : Nat) (c : Char) : Begins offset c (start offset c).1 (start offset c).2 := by
  have hsize : (String.singleton c).utf8ByteSize = c.utf8Size := String.utf8ByteSize_singleton
  have hlist : (String.singleton c).toList = [c] := String.toList_singleton c
  unfold start
  split
  case isTrue hblank => exact .blank hblank
  case isFalse hblank =>
    split
    case isTrue hc =>
      subst hc
      exact .token (hsize ▸ .quoted offset hlist false)
    case isFalse hq =>
      split
      case isTrue hd => exact .token (hsize ▸ .number offset hlist hd (isLiteral_digit hd))
      case isFalse hd =>
        split
        case isTrue hb => exact .token (hsize ▸ .symbol offset hb)
        case isFalse hb =>
          split
          case isTrue hl =>
            have hword : Text.isWord (String.singleton c) = true := by simp_all [Text.isWord]
            exact .token (hsize ▸ .name offset hword)
          case isFalse => exact .invalid (by simpa using hblank)

/-- What a scanner does with one character. -/
inductive Move (scanner : Scanner) (offset first : Nat) (seen : String) (c : Char) : Scanner → List Lexeme → Prop
  /-- Nothing has been read. -/
  | begin {next : Scanner} {found : List Lexeme} (hb : scanner = between) (h : Begins offset c next found) :
    Move scanner offset first seen c next found
  /-- The character is one more of the token. -/
  | more {next : Scanner} (h : next.At (offset + c.utf8Size) first (seen.push c)) :
    Move scanner offset first seen c next []
  /-- The character ends the token and is a part of it. -/
  | close (h : (Token.startingAt first (seen.push c)).IsProper) :
    Move scanner offset first seen c between [.token (.startingAt first (seen.push c))]
  /-- The character ends the token and is no part of it. -/
  | handOn {next : Scanner} {found : List Lexeme} (hb : scanner ≠ between) (h : Begins offset c next found) :
    Move scanner offset first seen c next (found ++ [.token (.startingAt first seen)])

theorem move_step {scanner : Scanner} {offset first : Nat} {seen : String} (h : scanner.At offset first seen)
    (c : Char) : Move scanner offset first seen c (scanner.step offset c).1 (scanner.step offset c).2 := by
  have hlist : (seen.push c).toList = seen.toList ++ [c] := String.toList_push c
  have hoffset := h.offset_push c
  have hbegins := begins_start offset c
  unfold step
  cases h with
  | between => exact .begin rfl hbegins
  | @quoted _ _ rest hseen escaped =>
    have hq : (seen.push c).toList = '"' :: (rest ++ [c]) := by rw [hlist, hseen]; rfl
    dsimp only
    split
    · exact .close (isProper_quoted hq first)
    · exact .more (hoffset ▸ .quoted first hq _)
  | @number _ _ d rest hseen hd hn =>
    have hn' : (seen.push c).toList = d :: (rest ++ [c]) := by rw [hlist, hseen]; rfl
    dsimp only
    split
    · rename_i hliteral
      exact .more (hoffset ▸ .number first hn' hd hliteral)
    · exact .handOn (by simp) hbegins
  | symbol _ hsym =>
    dsimp only
    split
    · rename_i hsym
      exact .more (hoffset ▸ .symbol first hsym)
    · exact .handOn (by simp) hbegins
  | name _ hword =>
    dsimp only
    split
    · exact .handOn (by simp) hbegins
    · rename_i hends
      exact .more (hoffset ▸ .name first (Text.isWord_push hword (by simpa using hends)))

/-- The tokens and faults among the lexemes are the pieces of the rest of a source text. -/
def Cuts (lexemes : List Lexeme) (offset : Nat) (chars : List Char) : Prop :=
  Pieces offset chars (lexemes.filterMap Lexeme.token?) (lexemes.filterMap Lexeme.fault?)

/-- A token is handed on after the faults that its end has shown. -/
theorem Cuts.token {offset : Nat} {text : String} {rest : List Char} {found more : List Lexeme} (hne : text ≠ "")
    (hp : (Token.startingAt offset text).IsProper) (hfound : found.filterMap Lexeme.token? = [])
    (h : Cuts (found ++ more) (offset + text.utf8ByteSize) rest) :
    Cuts (found ++ [.token (.startingAt offset text)] ++ more) offset (text.toList ++ rest) := by
  simp only [Cuts, List.append_assoc, List.filterMap_append, hfound, List.nil_append] at h ⊢
  exact .token hne hp h

section Cuts

variable {scanner : Scanner} {offset first : Nat} {seen : String}

/-- What is left at the end of a source text is at most one token. -/
theorem cuts_finish (h : scanner.At offset first seen) : Cuts scanner.finish first seen.toList := by
  have htoken (hb : scanner ≠ between) : Cuts [.token (.startingAt first seen)] first seen.toList := by
    obtain ⟨hne, hp⟩ := h.token hb
    have hlast : Pieces first (seen.toList ++ []) [.startingAt first seen] [] := .token hne hp (.done _)
    rwa [List.append_nil] at hlast
  cases h with
  | between => exact .done _
  | quoted _ hseen escaped =>
    unfold finish
    dsimp only
    split
    · exact htoken (by simp)
    · cases escaped
      · exact .unclosed hseen first (.inl rfl)
      · have hmarks : (seen.push '\\').push '"' = seen ++ "\\\"" := String.toList_inj.1 (by simp)
        rw [if_pos rfl, hmarks]
        exact .unclosed hseen first (.inr rfl)
  | number | symbol | name => exact htoken (by simp)

/-- The scan of a source text cuts it into pieces. -/
theorem cuts_scan (h : scanner.At offset first seen) (chars : List Char) :
    Cuts (scanner.scan offset chars) first (seen.toList ++ chars) := by
  induction chars generalizing scanner offset first seen with
  | nil =>
    rw [scan, List.append_nil]
    exact cuts_finish h
  | cons c rest ih =>
    have hpush : seen.toList ++ c :: rest = (seen.push c).toList ++ rest := by simp [String.toList_push]
    -- The rest is cut from the character on, whether that begins a token or not.
    have hbegins {next : Scanner} {found : List Lexeme} {place : Nat} (h : Begins place c next found) :
        Cuts (found ++ next.scan (place + c.utf8Size) rest) place (c :: rest) := by
      cases h with
      | blank hc => exact .blank hc (ih (.between _))
      | token hn => simpa using ih hn
      | invalid hc => exact .invalid hc (ih (.between _))
    -- A token goes before what its last character has begun.
    have hfound {next : Scanner} {found : List Lexeme} (h : Begins offset c next found) :
        found.filterMap Lexeme.token? = [] := by
      cases h <;> rfl
    have hmove := move_step h c
    rw [scan]
    generalize scanner.step offset c = result at hmove
    obtain ⟨next, found⟩ := result
    dsimp only at hmove ⊢
    cases hmove with
    | begin hb hbegin =>
      subst hb
      cases h
      exact hbegins hbegin
    | more hn =>
      rw [hpush]
      exact ih hn
    | close hp =>
      have hrest := ih (.between (offset + c.utf8Size))
      rw [h.offset_push] at hrest
      rw [hpush, h.offset_push]
      have hne : seen.push c ≠ "" := by
        intro he
        have := congrArg String.toList he
        simp [String.toList_push] at this
      exact Pieces.token hne hp hrest
    | handOn hb hbegin =>
      obtain ⟨hne, hp⟩ := h.token hb
      have hrest := hbegins hbegin
      generalize next.scan (offset + c.utf8Size) rest = more at hrest ⊢
      rw [h.offset_eq] at hrest
      exact .token hne hp (hfound hbegin) hrest

end Cuts

end Scanner

/-- Every source text is cut into the tokens and faults that are found in it. -/
theorem pieces_tokenize (source : String) : Pieces 0 source.toList (tokenize source).1 (tokenize source).2 :=
  Scanner.cuts_scan (.between 0) source.toList

theorem mem_tokenize_iff {source : String} {token : Token} :
    token ∈ (tokenize source).1 ↔ Lexeme.token token ∈ lexemes source := by
  rw [tokenize, List.mem_filterMap]
  constructor
  · rintro ⟨lexeme, hmem, heq⟩
    cases lexeme with
    | token t => exact Option.some.inj heq ▸ hmem
    | fault e => cases heq
  · exact fun hmem => ⟨_, hmem, rfl⟩

/-- The tokens of a source text without lexical faults are laid out in it. -/
theorem laidOut_lexemes {source : String} {tokens : List Token} (h : lexemes source = tokens.map Lexeme.token) :
    LaidOut 0 source.toList tokens := by
  have hpieces := pieces_tokenize source
  have htokens : tokenize source = (tokens, []) := by
    rw [tokenize, h]
    simp [List.filterMap_map, Function.comp_def, Lexeme.token?, Lexeme.fault?]
  rw [htokens] at hpieces
  exact hpieces.laidOut

end DynamicConfig

import DynamicConfig.Decimal.Literal
import DynamicConfig.Location
import DynamicConfig.ParseError
import DynamicConfig.Symbol
import DynamicConfig.Text.Letter
/-!
# Tokens

A source text is read one character at a time. A token is handed on when the next character shows
that it cannot go on: strings end with their quote, names with a blank, a quote or a symbol, numbers
and symbols where one more character would no longer make a number or a symbol. The character that
ends a token is looked at first, so its own fault comes before the token.

`tokenize` gives the tokens and the faults; `lexemes` gives both in the order in which they are
found.
-/

namespace DynamicConfig

/-- A piece of the source text. A string keeps its quotes and backslashes. -/
structure Token where
  text : String
  location : Location
deriving Repr, DecidableEq

/-- The token of a text that begins at a place. -/
def Token.startingAt (start : Nat) (text : String) : Token :=
  ⟨text, start, start + text.utf8ByteSize⟩

/-- A token or a fault of the source text. -/
inductive Lexeme
  | token (token : Token)
  | fault (error : ParseError)
deriving Repr, DecidableEq

/-- What has been read of the token that is being read: where it starts and its text so far. -/
inductive Scanner
  | between
  | quoted (start : Nat) (seen : String) (escaped : Bool)
  | number (start : Nat) (seen : String)
  | symbol (start : Nat) (seen : String)
  | name (start : Nat) (seen : String)
deriving Repr, DecidableEq

namespace Scanner

/-- Begins a token with a character. A blank begins none, and a character that cannot begin one is a
fault. -/
def start (offset : Nat) (c : Char) : Scanner × List Lexeme :=
  let seen := String.singleton c
  if Text.isBlank c then (between, [])
  else if c = '"' then (quoted offset seen false, [])
  else if c.isDigit then (number offset seen, [])
  else if Symbol.begins c then (symbol offset seen, [])
  else if Text.isLetter c then (name offset seen, [])
  else (between, [.fault ⟨.invalidCharacter, offset⟩])

/-- Hands on a token and begins the next one with the character that ended it. -/
def restart (token : Token) (offset : Nat) (c : Char) : Scanner × List Lexeme :=
  let (next, faults) := start offset c
  (next, faults ++ [.token token])

/-- Whether a character ends a name. -/
def endsName (c : Char) : Bool :=
  Text.isBlank c || c = '"' || Symbol.begins c

/-- Reads one character, which stands at the given place. -/
def step (scanner : Scanner) (offset : Nat) (c : Char) : Scanner × List Lexeme :=
  match scanner with
  | between => start offset c
  | quoted first seen escaped =>
    if c = '"' && !escaped then (between, [.token (.startingAt first (seen.push c))])
    else (quoted first (seen.push c) (c = '\\' && !escaped), [])
  | number first seen =>
    if Decimal.isLiteral (seen.push c) then (number first (seen.push c), [])
    else restart (.startingAt first seen) offset c
  | symbol first seen =>
    if (Symbol.ofText? (seen.push c)).isSome then (symbol first (seen.push c), [])
    else restart (.startingAt first seen) offset c
  | name first seen =>
    if endsName c then restart (.startingAt first seen) offset c
    else (name first (seen.push c), [])

/-- Whether a string that goes on to the end of the source text counts as closed: its last character
is a quote, and not the one that opened it. -/
def looksClosed (seen : String) (escaped : Bool) : Bool :=
  1 < seen.utf8ByteSize && seen.toList.getLast? = some '"' && !escaped

/-- Hands on what is left at the end of the source text. A string gets the quote that it lacks, after
a second backslash if a backslash is pending. -/
def finish : Scanner → List Lexeme
  | between => []
  | quoted first seen escaped =>
    if looksClosed seen escaped then [.token (.startingAt first seen)]
    else
      let seen := if escaped then seen.push '\\' else seen
      [.fault ⟨.incompleteString, first⟩, .token (.startingAt first (seen.push '"'))]
  | number first seen | symbol first seen | name first seen => [.token (.startingAt first seen)]

/-- Reads the rest of a source text, which stands at the given place. -/
def scan (scanner : Scanner) (offset : Nat) : List Char → List Lexeme
  | [] => scanner.finish
  | c :: rest =>
    let (next, found) := scanner.step offset c
    found ++ next.scan (offset + c.utf8Size) rest

end Scanner

/-- The tokens and faults of a source text in the order in which they are found. -/
def lexemes (source : String) : List Lexeme :=
  Scanner.between.scan 0 source.toList

/-- The token of a lexeme. -/
def Lexeme.token? : Lexeme → Option Token
  | token t => some t
  | fault _ => none

/-- The fault of a lexeme. -/
def Lexeme.fault? : Lexeme → Option ParseError
  | token _ => none
  | fault e => some e

/-- The tokens of a source text, and its faults. -/
def tokenize (source : String) : List Token × List ParseError :=
  ((lexemes source).filterMap Lexeme.token?, (lexemes source).filterMap Lexeme.fault?)

end DynamicConfig

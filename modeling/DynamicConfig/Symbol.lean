/-!
# Symbols

The brackets, separators and operators of the language, and how tightly each binds.
-/

namespace DynamicConfig

/-- The two kinds of brackets. -/
inductive Bracket
  | round
  | curly
deriving Repr, DecidableEq

/-- Everything in a source text that is neither a term nor a blank. -/
inductive Symbol
  | opening (bracket : Bracket)
  | closing (bracket : Bracket)
  | comma
  | assign
  | or
  | and
  | equal
  | notEqual
  | less
  | greater
  | lessEqual
  | greaterEqual
  | plus
  | minus
  | times
  | divide
  | not
  | dot
deriving Repr, DecidableEq

namespace Symbol

/-- The way a symbol is written. -/
def text : Symbol → String
  | opening .round => "("
  | closing .round => ")"
  | opening .curly => "\x7b"
  | closing .curly => "\x7d"
  | comma => ","
  | assign => "="
  | or => "|"
  | and => "&"
  | equal => "=="
  | notEqual => "!="
  | less => "<"
  | greater => ">"
  | lessEqual => "<="
  | greaterEqual => ">="
  | plus => "+"
  | minus => "-"
  | times => "*"
  | divide => "/"
  | not => "!"
  | dot => "."

/-- Every symbol once. -/
def all : List Symbol :=
  [opening .round, closing .round, opening .curly, closing .curly, comma, assign, or, and, equal, notEqual,
   less, greater, lessEqual, greaterEqual, plus, minus, times, divide, not, dot]

/-- The symbol that a text is, if it is one. -/
def ofText? (text : String) : Option Symbol :=
  all.find? (·.text == text)

theorem mem_all (s : Symbol) : s ∈ all := by
  cases s <;> first | decide | (rename_i b; cases b <;> decide)

/-- A symbol is read back from its text. -/
theorem ofText?_text (s : Symbol) : ofText? s.text = some s := by
  cases s <;> first | decide | (rename_i b; cases b <;> decide)

/-- Only the text of a symbol is read as that symbol. -/
theorem text_of_ofText? {t : String} {s : Symbol} (h : ofText? t = some s) : s.text = t := by
  simpa using List.find?_some h

/-- How tightly an operator binds its operands; a higher one binds tighter. -/
def priority : Symbol → Nat
  | opening _ | closing _ => 0
  | comma => 1
  | assign => 2
  | or => 3
  | and => 4
  | equal | notEqual => 5
  | less | greater | lessEqual | greaterEqual => 7
  | plus | minus => 10
  | times | divide => 20
  | not => 30
  | dot => 40

/-- Whether `a op b op c` groups to the right. -/
def groupsRight (s : Symbol) : Bool := s == assign

/-- Whether an operator may stand before its only operand. -/
def mayLead : Symbol → Bool
  | plus | minus | not => true
  | _ => false

/-- Whether a character begins a symbol. Each symbol of two characters begins with one that is a
symbol itself. -/
def begins (c : Char) : Bool :=
  (ofText? (String.singleton c)).isSome

end Symbol

end DynamicConfig

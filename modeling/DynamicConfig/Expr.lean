import DynamicConfig.Location
/-!
# Expressions

An expression is a list that begins with a tag. The tag tells the kind of the node and its place in
the source text; the other items are its children. A literal or a name has one child, its payload:

    o.five + 10   =>   [+:7:8 [.:1:2 [name:0:1 "o"] [string:2:6 "five"]] [number:9:11 10]]

Trees may also be built by hand, in any shape; evaluation refuses the shapes that it has no rule for.
-/

namespace DynamicConfig

/-- The kinds of nodes. -/
inductive Op
  | string
  | number
  | bool
  | name
  | call
  | field
  | add
  | sub
  | mul
  | div
  | lt
  | le
  | gt
  | ge
  | eq
  | ne
  | and
  | or
  | not
  | assign
  | closure
deriving Repr, DecidableEq

namespace Op

/-- The way a kind is written in a tag. -/
def text : Op → String
  | string => "string"
  | number => "number"
  | bool => "bool"
  | name => "name"
  | call => "call"
  | field => "."
  | add => "+"
  | sub => "-"
  | mul => "*"
  | div => "/"
  | lt => "<"
  | le => "<="
  | gt => ">"
  | ge => ">="
  | eq => "=="
  | ne => "!="
  | and => "&"
  | or => "|"
  | not => "!"
  | assign => "="
  | closure => "\x7b\x7d"

/-- Every kind once. -/
def all : List Op :=
  [string, number, bool, name, call, field, add, sub, mul, div, lt, le, gt, ge, eq, ne, and, or, not, assign,
   closure]

/-- The kind that is written so, if there is one. -/
def ofText? (text : String) : Option Op :=
  all.find? (·.text == text)

/-- A kind is read back from its text. -/
theorem ofText?_text (op : Op) : ofText? op.text = some op := by
  cases op <;> decide

/-- Literals and names are leaves. -/
def isLeaf : Op → Bool
  | string | number | bool | name => true
  | _ => false

/-- How tightly a kind binds its operands in source text. -/
def precedence : Op → Nat
  | assign => 2
  | or => 3
  | and => 4
  | eq | ne => 5
  | lt | le | gt | ge => 7
  | add | sub => 10
  | mul | div => 20
  | not => 30
  | _ => 40

end Op

/-- The head of a node: its kind and its place. -/
structure Tag where
  op : Op
  location : Location
deriving Repr, DecidableEq

/-- The kind and the place, with a colon between them. -/
def Tag.text (tag : Tag) : String :=
  tag.op.text ++ ":" ++ tag.location.text

/-- A tree: a node is a list that begins with a tag. -/
inductive Expr
  | tag (tag : Tag)
  | string (text : String)
  | number (value : Float)
  | bool (value : Bool)
  | list (items : List Expr)
  /-- What stands for a missing term. Only a text with faults has one. -/
  | nil
deriving Inhabited

namespace Expr

/-- The node of a kind, a place and children. -/
def node (op : Op) (location : Location) (children : List Expr) : Expr :=
  list (.tag ⟨op, location⟩ :: children)

/-- The leaf of a string. -/
def stringLeaf (location : Location) (text : String) : Expr :=
  node .string location [.string text]

/-- The leaf of a number. -/
def numberLeaf (location : Location) (value : Float) : Expr :=
  node .number location [.number value]

/-- The leaf of a truth value. -/
def boolLeaf (location : Location) (value : Bool) : Expr :=
  node .bool location [.bool value]

/-- The leaf of a name. -/
def nameLeaf (location : Location) (name : String) : Expr :=
  node .name location [.string name]

/-- The tag of a node. -/
def tag? : Expr → Option Tag
  | list (.tag t :: _) => some t
  | _ => none

/-- The kind of a node. -/
def op? (e : Expr) : Option Op :=
  e.tag?.map Tag.op

/-- The place of a node. -/
def location? (e : Expr) : Option Location :=
  e.tag?.map Tag.location

/-- The children of a node; what is no node has none. -/
def children : Expr → List Expr
  | list (.tag _ :: rest) => rest
  | _ => []

/-- The text of a leaf of a name. -/
def asName? : Expr → Option String
  | list [.tag ⟨.name, _⟩, .string name] => some name
  | _ => none

/-- The text of a leaf of a string. -/
def asStringLiteral? : Expr → Option String
  | list [.tag ⟨.string, _⟩, .string text] => some text
  | _ => none

/-- Whether a node is a binding. -/
def isAssign (e : Expr) : Bool :=
  e.op? == some .assign

mutual

/-- The tree itself and everything below it, a node before its children. -/
def walk : Expr → List Expr
  | list (.tag t :: rest) => list (.tag t :: rest) :: walkAll rest
  | e => [e]

/-- The walks of several trees, one after the other. -/
def walkAll : List Expr → List Expr
  | [] => []
  | e :: rest => walk e ++ walkAll rest

end

mutual

/-- Equality of trees. Numbers are compared as doubles. -/
def beq : Expr → Expr → Bool
  | tag a, tag b => a == b
  | string a, string b => a == b
  | number a, number b => a == b
  | bool a, bool b => a == b
  | list xs, list ys => beqAll xs ys
  | nil, nil => true
  | _, _ => false

/-- Equality of lists of trees, item by item. -/
def beqAll : List Expr → List Expr → Bool
  | [], [] => true
  | x :: xs, y :: ys => beq x y && beqAll xs ys
  | _, _ => false

end

instance : BEq Expr := ⟨beq⟩

end Expr

end DynamicConfig

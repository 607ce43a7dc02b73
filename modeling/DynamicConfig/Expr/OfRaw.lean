import DynamicConfig.Expr
import DynamicConfig.Failure
import DynamicConfig.RawTree
/-!
# Expressions of raw trees

What a raw tree means depends on where it stands: an application is a call, and right after a dot it
takes the field access along as its callee; commas and bindings have a meaning only between the
brackets of a call or a closure. `RawTree.meaning` gives all these readings of a tree at once;
`Expr.ofRaw` is the reading as a term.
-/

namespace DynamicConfig

/-- Work that collects faults and may fail for good. -/
abbrev Collect := StateT (List ParseError) (Except FatalError)

/-- Adds a fault to those found so far. -/
def Collect.fault (kind : ParseError.Kind) (offset : Nat) : Collect Unit :=
  modify (· ++ [⟨kind, offset⟩])

/-- The readings of a raw tree. -/
structure Meaning where
  /-- As a term. -/
  term : Collect Expr
  /-- As one item between brackets, where it may be a binding. -/
  item : Collect Expr
  /-- As everything between brackets. -/
  items : Collect (List Expr)
  /-- As what follows the dot at the given place, after the given target. -/
  key : Location → Expr → Collect Expr
  /-- As the arguments of an application; only round brackets can be that. -/
  args : Option (Collect (List Expr))

namespace Meaning

/-- The readings of a tree that means the same everywhere: in particular it is one item and one key. -/
def plain (term : Collect Expr) : Meaning where
  term := term
  item := term
  items := do return [← term]
  key location target := do return .node .field location [target, ← term]
  args := none

/-- The call of a callee with the arguments of an application at the given place. -/
def call (args : Option (Collect (List Expr))) (location : Location) (callee : Expr) : Collect Expr :=
  match args with
  | some args => do return .node .call location (callee :: (← args))
  | none => do
    Collect.fault .missingOperator location.stop
    return .nil

/-- The readings of a tree of round brackets. -/
def ofRound (inner : RawTree) (m : Meaning) : Meaning :=
  let args := match inner with
    | .missing _ => pure []
    | _ => m.items
  { plain m.term with args := some args }

/-- The kind of node that an infix operator makes. -/
def infixOp? : Symbol → Option Op
  | .or => some .or
  | .and => some .and
  | .equal => some .eq
  | .notEqual => some .ne
  | .less => some .lt
  | .greater => some .gt
  | .lessEqual => some .le
  | .greaterEqual => some .ge
  | .plus => some .add
  | .minus => some .sub
  | .times => some .mul
  | .divide => some .div
  | .not => some .not
  | _ => none

/-- The term of an operator between two trees. A leading `+`, `-` or `!` takes only the right one,
and `!` can do nothing else. -/
def infixTerm (op : Op) (location : Location) (left : RawTree) (l r : Meaning) : Collect Expr :=
  match left, op with
  | .missing _, .add | .missing _, .sub | .missing _, .not => do return .node op location [← r.term]
  | _, .not => do
    Collect.fault .missingOperator location.start
    return .nil
  | _, _ => do
    let left ← l.term
    let right ← r.term
    return .node op location [left, right]

/-- The name that a binding binds. -/
def target (location : Location) : RawTree → Collect Expr
  | .leaf (.name name) nameLocation => pure (.stringLeaf nameLocation name)
  | .missing offset => do
    Collect.fault .missingTerm offset
    return .nil
  | _ => throw (.invalidAssignTarget location.start)

/-- The readings of an operator between two trees. -/
def ofBinary (symbol : Symbol) (location : Location) (left : RawTree) (l r : Meaning) : Meaning :=
  match symbol with
  | .comma =>
    { plain (throw (.misplacedOperator "," location.start)) with
      items := do return (← l.items) ++ [← r.item] }
  | .assign =>
    let binding : Collect Expr := do
      let name ← target location left
      return .node .assign location [name, ← r.item]
    { plain (throw (.misplacedOperator "=" location.start)) with
      item := binding
      items := do return [← binding] }
  | .dot => plain (do r.key location (← l.term))
  | _ =>
    match infixOp? symbol with
    | some op => plain (infixTerm op location left l r)
    | none => plain (throw (.malformedNode ("bracket operator at " ++ location.text)))

/-- The leaf of an expression. -/
def leafExpr (location : Location) : Leaf → Expr
  | .string text => .stringLeaf location text
  | .number value => .numberLeaf location value
  | .bool value => .boolLeaf location value
  | .name name => .nameLeaf location name

/-- The readings of a leaf. A name after a dot is the key itself. -/
def ofLeaf (leaf : Leaf) (location : Location) : Meaning :=
  match leaf with
  | .name name =>
    { plain (pure (leafExpr location leaf)) with
      key := fun dot target => pure (.node .field dot [target, .stringLeaf location name]) }
  | _ => plain (pure (leafExpr location leaf))

/-- The readings of an application. After a dot, the access to the field is the callee. -/
def ofApply (location : Location) (callee args : Meaning) : Meaning :=
  { plain (do call args.args location (← callee.term)) with
    key := fun dot target => do call args.args location (← callee.key dot target) }

end Meaning

/-- The readings of a raw tree. -/
def RawTree.meaning : RawTree → Meaning
  | missing offset => .plain do
    Collect.fault .missingTerm offset
    return .nil
  | cutOff _ => .plain (pure .nil)
  | leaf l location => .ofLeaf l location
  | group .round _ inner => .ofRound inner inner.meaning
  | group .curly location inner => .plain do return .node .closure location (← inner.meaning.items)
  | apply location callee args => .ofApply location callee.meaning args.meaning
  | binary symbol location left right => .ofBinary symbol location left left.meaning right.meaning

/-- The expression of a raw tree, with the given faults and those found on the way. -/
def Expr.ofRaw (raw : RawTree) (errors : List ParseError) : Except FatalError (Expr × List ParseError) :=
  raw.meaning.term.run errors

end DynamicConfig

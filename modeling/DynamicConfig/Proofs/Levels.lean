import DynamicConfig.Expr.Printer
/-!
# How high the tree of a source text is

The height of the tree that the source text of an expression is read as, computed from the expression
(`Expr.textHeight`). Brackets are a level of their own. Arguments after a key are applied to the key before the dot
takes it, so the height of what stands before the dot is kept apart (`Levels`).
-/

namespace DynamicConfig

/-- The height of the last term of a text, and of what stands before the dot in front of that term. -/
structure Levels where
  last : Nat
  front : Option Nat := none

namespace Levels

/-- The height of the whole text. -/
def total : Levels → Nat
  | ⟨last, none⟩ => last
  | ⟨last, some front⟩ => max front last + 1

/-- Arguments of the given height after the text. -/
def applied (levels : Levels) (args : Nat) : Levels :=
  { levels with last := max levels.last args + 1 }

/-- A dot and a key of the given height after the text. -/
def dotted (levels : Levels) (key : Nat) : Levels :=
  ⟨key, some levels.total⟩

/-- The height of items with commas between them. -/
def joined : List Nat → Nat
  | [] => 1
  | first :: rest => rest.foldl (fun height item => max height item + 1) first

end Levels

namespace Expr

/-- The levels of an operand, in brackets if it needs them. -/
def operandLevels (parent : Op) (operand : Expr) (levels : Levels) : Levels :=
  match operand.op? with
  | some op => if needsBrackets op parent then ⟨levels.total + 1, none⟩ else levels
  | none => levels

/-- The height of a key after a dot. -/
def keyHeight (key : Expr) (levels : Levels) : Nat :=
  match key.asStringLiteral? with
  | some _ => 1
  | none => levels.total + 1

/-- The levels of the source text of a node, from its children and their levels. -/
def nodeLevels (op : Op) (children : List Expr) (levels : List Levels) : Levels :=
  match op, children, levels with
  | .string, _, _ | .number, _, _ | .bool, _, _ | .name, _, _ => ⟨1, none⟩
  | .call, callee :: _, first :: args =>
    (operandLevels .call callee first).applied (Levels.joined (args.map Levels.total) + 1)
  | .field, [left, key], [first, second] => (operandLevels .field left first).dotted (keyHeight key second)
  | .assign, [_, _], [_, value] => ⟨max 1 value.total + 1, none⟩
  | .closure, _, _ => ⟨Levels.joined (levels.map Levels.total) + 1, none⟩
  | _, [operand], [only] => ⟨max 1 (operandLevels op operand only).total + 1, none⟩
  | _, [left, right], [first, second] =>
    ⟨max (operandLevels op left first).total (operandLevels op right second).total + 1, none⟩
  | _, _, _ => ⟨1, none⟩

mutual

/-- The levels of the source text of an expression. -/
def levels : Expr → Levels
  | list (.tag t :: rest) => nodeLevels t.op rest (levelsOf rest)
  | _ => ⟨1, none⟩

/-- The levels of the source texts of several expressions. -/
def levelsOf : List Expr → List Levels
  | [] => []
  | e :: rest => levels e :: levelsOf rest

end

/-- The height of the source text of an expression. -/
def textHeight (e : Expr) : Nat :=
  e.levels.total

theorem map_total_levelsOf (es : List Expr) : (levelsOf es).map Levels.total = es.map textHeight := by
  induction es with
  | nil => rfl
  | cons e rest ih =>
    rw [levelsOf, List.map_cons, ih]
    rfl

end Expr

end DynamicConfig

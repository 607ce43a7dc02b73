import DynamicConfig.Expr.OfRaw
import DynamicConfig.Expr.Printer
/-!
# How deep expressions nest

The levels of nodes of an expression (`Expr.nesting`), and what they bound: a function that calls itself for the items
of a list makes no more calls within each other than there are levels, and one for what a leaf holds
(`Expr.recurse_of_nesting_le`). Walks, both texts and equality of trees are such functions (`Expr.WithinCalls`).
-/

namespace DynamicConfig.Expr

/-! ## Levels -/

mutual

/-- The number of levels of nodes. A leaf is one level, and so is what stands for a missing term. -/
def nesting : Expr → Nat
  | list items => nestingAll items + 1
  | nil => 1
  | _ => 0

/-- The levels of the deepest of several trees. -/
def nestingAll : List Expr → Nat
  | [] => 0
  | e :: rest => max (nesting e) (nestingAll rest)

end

theorem nestingAll_le_iff {es : List Expr} {n : Nat} : nestingAll es ≤ n ↔ ∀ e ∈ es, e.nesting ≤ n := by
  induction es with
  | nil => simp [nestingAll]
  | cons e rest ih => rw [nestingAll, Nat.max_le, ih, List.forall_mem_cons]

@[simp]
theorem nesting_node (op : Op) (location : Location) (children : List Expr) :
    (node op location children).nesting = nestingAll children + 1 := by
  simp [node, nesting, nestingAll]

theorem nesting_node_le_iff {op : Op} {location : Location} {children : List Expr} {n : Nat} :
    (node op location children).nesting ≤ n + 1 ↔ ∀ e ∈ children, e.nesting ≤ n := by
  rw [nesting_node, Nat.succ_le_succ_iff, nestingAll_le_iff]

@[simp]
theorem nesting_leafExpr (location : Location) (l : Leaf) : (Meaning.leafExpr location l).nesting = 1 := by
  cases l <;> rfl

@[simp]
theorem nesting_nil : nil.nesting = 1 := rfl

/-! ## Recursion -/

section Recursion

variable {α : Type} {value : Expr → α} {combine : List Expr → List α → α}

/-- What a function that calls itself for the items of a list is of a tree, if no more than so many calls of it are
within each other. -/
def recurse (value : Expr → α) (combine : List Expr → List α → α) : Nat → Expr → Option α
  | 0, _ => none
  | n + 1, list items => (items.mapM (recurse value combine n)).map (combine items)
  | _ + 1, e => some (value e)

/-- What the function is of a list is made of what it is of the items. -/
def IsRecursive (value : Expr → α) (combine : List Expr → List α → α) : Prop :=
  ∀ items, value (list items) = combine items (items.map value)

theorem mapM_of_forall_eq_some {call : Expr → Option α} {items : List Expr} (h : ∀ e ∈ items, call e = some (value e)) :
    items.mapM call = some (items.map value) := by
  induction items with
  | nil => rfl
  | cons e rest ih =>
    obtain ⟨he, hrest⟩ := List.forall_mem_cons.1 h
    rw [List.mapM_cons, he, ih hrest]
    rfl

/-- A recursive function makes a call for each level, and one for what a leaf holds. -/
theorem recurse_of_nesting_le (hvalue : IsRecursive value combine) {n : Nat} {e : Expr} (h : e.nesting ≤ n) :
    recurse value combine (n + 1) e = some (value e) := by
  induction n generalizing e with
  | zero => cases e <;> first | rfl | cases h
  | succ n ih =>
    cases e with
    | list items =>
      have hitems : ∀ item ∈ items, item.nesting ≤ n := nestingAll_le_iff.1 (Nat.le_of_succ_le_succ h)
      rw [recurse, mapM_of_forall_eq_some fun item hitem => ih (hitems item hitem), hvalue]
      rfl
    | _ => rfl

end Recursion

/-! ## The functions of trees -/

theorem walkAll_eq_flatten (es : List Expr) : walkAll es = (es.map walk).flatten := by
  induction es with
  | nil => rfl
  | cons e rest ih => rw [walkAll, ih, List.map_cons, List.flatten_cons]

theorem treeTexts_eq_map (es : List Expr) : treeTexts es = es.map treeText := by
  induction es with
  | nil => rfl
  | cons e rest ih => rw [treeTexts, ih, List.map_cons]

theorem sourceTexts_eq_map (es : List Expr) : sourceTexts es = es.map sourceText := by
  induction es with
  | nil => rfl
  | cons e rest ih => rw [sourceTexts, ih, List.map_cons]

/-- The walk of a list, from those of its items. -/
def walkOf : List Expr → List (List Expr) → List Expr
  | .tag t :: rest, _ :: walks => list (.tag t :: rest) :: walks.flatten
  | items, _ => [list items]

theorem isRecursive_walk : IsRecursive walk walkOf := by
  intro items
  match items with
  | [] => rfl
  | .tag t :: rest => rw [walk, walkAll_eq_flatten]; rfl
  | .string _ :: _ | .number _ :: _ | .bool _ :: _ | .list _ :: _ | .nil :: _ => rfl

/-- The tree text of a list, from those of its items. -/
def treeTextOf (_ : List Expr) (texts : List String) : String :=
  "[" ++ " ".intercalate texts ++ "]"

theorem isRecursive_treeText : IsRecursive treeText treeTextOf := by
  intro items
  rw [treeText, treeTexts_eq_map]
  rfl

/-- The source text of a list, from those of its items. -/
def sourceTextOf : List Expr → List String → String
  | .tag t :: rest, _ :: texts => nodeText t.op rest texts
  | _, _ => "_"

theorem isRecursive_sourceText : IsRecursive sourceText sourceTextOf := by
  intro items
  match items with
  | [] => rfl
  | .tag t :: rest => rw [sourceText, sourceTexts_eq_map]; rfl
  | .string _ :: _ | .number _ :: _ | .bool _ :: _ | .list _ :: _ | .nil :: _ => rfl

/-- Whether other trees are equal to those that some comparisons are with, one by one. -/
def beqsAll : List (Expr → Bool) → List Expr → Bool
  | [], [] => true
  | isEqual :: rest, e :: others => isEqual e && beqsAll rest others
  | _, _ => false

/-- The comparison with a list, from those with its items. -/
def beqOf (_ : List Expr) (comparisons : List (Expr → Bool)) : Expr → Bool
  | list others => beqsAll comparisons others
  | _ => false

theorem isRecursive_beq : IsRecursive beq beqOf := by
  have hall (xs ys : List Expr) : beqAll xs ys = beqsAll (xs.map beq) ys := by
    induction xs generalizing ys with
    | nil => cases ys <;> rfl
    | cons x xs ih =>
      cases ys with
      | nil => rfl
      | cons y ys => rw [beqAll, ih, List.map_cons, beqsAll]
  intro items
  funext other
  cases other with
  | list others => rw [beq, hall]; rfl
  | _ => rfl

/-- For the tree, no function of trees makes more than so many calls within each other. -/
structure WithinCalls (n : Nat) (e : Expr) : Prop where
  walk : recurse walk walkOf n e = some e.walk
  treeText : recurse treeText treeTextOf n e = some e.treeText
  sourceText : recurse sourceText sourceTextOf n e = some e.sourceText
  beq : recurse beq beqOf n e = some e.beq

theorem withinCalls_of_nesting_le {e : Expr} {n : Nat} (h : e.nesting ≤ n) : e.WithinCalls (n + 1) where
  walk := recurse_of_nesting_le isRecursive_walk h
  treeText := recurse_of_nesting_le isRecursive_treeText h
  sourceText := recurse_of_nesting_le isRecursive_sourceText h
  beq := recurse_of_nesting_le isRecursive_beq h

end DynamicConfig.Expr

import DynamicConfig.Proofs.Canonical
/-!
# Expressions up to locations
-/

namespace DynamicConfig.Expr

mutual

/-- The tree with every tag at the beginning of the text. -/
def unlocated : Expr → Expr
  | tag t => tag ⟨t.op, .empty 0⟩
  | list items => list (unlocatedAll items)
  | e => e

/-- The trees with every tag at the beginning of the text. -/
def unlocatedAll : List Expr → List Expr
  | [] => []
  | e :: rest => unlocated e :: unlocatedAll rest

end

theorem unlocatedAll_eq_map (es : List Expr) : unlocatedAll es = es.map unlocated := by
  induction es with
  | nil => rfl
  | cons e rest ih => rw [unlocatedAll, ih, List.map_cons]

@[simp]
theorem unlocated_node (op : Op) (location : Location) (children : List Expr) :
    (node op location children).unlocated = node op (.empty 0) (children.map unlocated) := by
  rw [node, unlocated, unlocatedAll, unlocated, unlocatedAll_eq_map, node]

/-- Nodes of one kind with children equal up to locations are equal up to locations. -/
theorem unlocated_node_congr {children others : List Expr} (h : children.map unlocated = others.map unlocated) (op : Op)
    (location location' : Location) :
    (node op location children).unlocated = (node op location' others).unlocated := by
  rw [unlocated_node, unlocated_node, h]

end DynamicConfig.Expr

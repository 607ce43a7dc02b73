import DynamicConfig.Proofs.RoundTrip
/-!
# Readable expressions

What is made of readable expressions is readable again, where its source text is read as it is meant
(`Expr.Readable`). So expressions are found that are parsed from their source texts.
-/

namespace DynamicConfig.Expr

variable {e : Expr}

/-- The expression is read from its source text. -/
structure Readable (role : Role) (e : Expr) : Prop where
  canonical : e.Canonical role
  legible : ∀ sub ∈ e.walk, sub.Legible ∧ sub.Named

theorem readable_leafExpr (location : Location) {l : Leaf} (hnumber : ∀ x, l = .number x → Decimal.ReadsBack x)
    (hname : ∀ name, l = .name name → Text.isName name = true) : Readable .term (Meaning.leafExpr location l) := by
  cases l with
  | number x =>
    exact ⟨.number location x, forall_walk_node_iff.2 ⟨⟨hnumber x rfl, trivial⟩, by simp [walk, Legible, Named]⟩⟩
  | name name =>
    exact ⟨.name location name, forall_walk_node_iff.2 ⟨⟨trivial, hname name rfl⟩, by simp [walk, Legible, Named]⟩⟩
  | string text =>
    exact ⟨.string location text, forall_walk_node_iff.2 ⟨⟨trivial, trivial⟩, by simp [walk, Legible, Named]⟩⟩
  | bool b =>
    exact ⟨.bool location b, forall_walk_node_iff.2 ⟨⟨trivial, trivial⟩, by simp [walk, Legible, Named]⟩⟩

theorem readable_nameLeaf (location : Location) {name : String} (h : Text.isName name = true) :
    Readable .term (nameLeaf location name) :=
  readable_leafExpr location (l := .name name) (by simp) (by simpa using h)

theorem readable_stringLeaf (location : Location) (text : String) : Readable .term (stringLeaf location text) :=
  readable_leafExpr location (l := .string text) (by simp) (by simp)

/-- A name after a dot, and before it nothing that would take the dot for the point of a number. -/
theorem Readable.field (h : Readable .term e) (location nameLocation : Location) (hend : e.endsWhole = false)
    {name : String} (hname : Text.isName name = true) :
    Readable .term (node .field location [e, stringLeaf nameLocation name]) := by
  have hkey := readable_stringLeaf nameLocation name
  refine ⟨.operator rfl (by simpa using ⟨h.canonical, hkey.canonical⟩),
    forall_walk_node_iff.2 ⟨⟨⟨hend, ?_⟩, trivial⟩, by simpa using ⟨h.legible, hkey.legible⟩⟩⟩
  intro target htarget
  cases htarget
  exact hname

/-- A sign before a literal or an access to a field. -/
theorem Readable.negative (h : Readable .term e) (location : Location)
    (hop : e.op? = some .number ∨ e.op? = some .field) :
    Readable .term (node .sub location [e]) ∧ (node .sub location [e]).sourceText = "-" ++ e.sourceText := by
  refine ⟨⟨.operator rfl (by simpa using h.canonical),
    forall_walk_node_iff.2 ⟨⟨?_, trivial⟩, by simpa using h.legible⟩⟩, ?_⟩
  · rcases hop with hop | hop <;> simp [Legible, node, hop]
  · rw [sourceText_lead (show Meaning.infixOp? .minus = some .sub from rfl), operandText]
    rcases hop with hop | hop <;> rw [hop] <;> rfl

/-- A binding among the arguments of a call. -/
theorem Readable.assign (h : Readable .term e) (location nameLocation : Location) {name : String}
    (hname : Text.isName name = true) : Readable .item (node .assign location [stringLeaf nameLocation name, e]) := by
  refine ⟨.assign (.item h.canonical), forall_walk_node_iff.2 ⟨⟨trivial, ?_⟩, ?_⟩⟩
  · intro target htarget
    cases htarget
    exact hname
  · simpa using ⟨(readable_stringLeaf nameLocation name).legible, h.legible⟩

theorem Readable.call (h : Readable .term e) (location : Location) {args : List Expr}
    (hargs : ∀ arg ∈ args, Readable .item arg) : Readable .term (node .call location (e :: args)) :=
  ⟨.call h.canonical fun arg harg => (hargs arg harg).canonical,
    forall_walk_node_iff.2 ⟨⟨trivial, trivial⟩,
      List.forall_mem_cons.2 ⟨h.legible, fun arg harg => (hargs arg harg).legible⟩⟩⟩

end DynamicConfig.Expr

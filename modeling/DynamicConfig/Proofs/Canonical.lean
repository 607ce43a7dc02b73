import DynamicConfig.Expr.Parse
import DynamicConfig.Proofs.Spelling
/-!
# Canonical expressions

Every source text without faults has a canonical expression (`canonical_of_parse`): nothing in it is
missing, each node has as many children as its kind asks for, and bindings stand only where there are
items.
-/

namespace DynamicConfig

/-- Whether a node of an operator may have that many operands. -/
def Op.takes : Op → Nat → Bool
  | .add, n | .sub, n => n == 1 || n == 2
  | .not, n => n == 1
  | .mul, n | .div, n | .lt, n | .le, n | .gt, n | .ge, n | .eq, n | .ne, n | .and, n | .or, n | .field, n => n == 2
  | _, _ => false

namespace Expr

/-- Where an expression stands: as an argument of a call or an item of a closure, or anywhere else. -/
inductive Role
  | term
  | item

/-- A tree that is well formed for its role. Only an item may be a binding. -/
inductive Canonical : Role → Expr → Prop
  | string (location : Location) (text : String) : Canonical .term (.stringLeaf location text)
  | number (location : Location) (value : Float) : Canonical .term (.numberLeaf location value)
  | bool (location : Location) (value : Bool) : Canonical .term (.boolLeaf location value)
  | name (location : Location) (name : String) : Canonical .term (.nameLeaf location name)
  | operator {op : Op} {location : Location} {operands : List Expr} (hn : op.takes operands.length = true)
    (ho : ∀ e ∈ operands, Canonical .term e) : Canonical .term (.node op location operands)
  | call {location : Location} {callee : Expr} {args : List Expr} (hc : Canonical .term callee)
    (ha : ∀ e ∈ args, Canonical .item e) : Canonical .term (.node .call location (callee :: args))
  | closure {location : Location} {items : List Expr} (hne : items ≠ []) (hi : ∀ e ∈ items, Canonical .item e) :
    Canonical .term (.node .closure location items)
  | item {e : Expr} (h : Canonical .term e) : Canonical .item e
  | assign {location nameLocation : Location} {name : String} {value : Expr} (hv : Canonical .item value) :
    Canonical .item (.node .assign location [.stringLeaf nameLocation name, value])

variable {e : Expr}

theorem canonical_unary {op : Op} (hn : op.takes 1 = true) (location : Location) (h : e.Canonical .term) :
    (node op location [e]).Canonical .term :=
  .operator hn fun _ he => by rwa [List.mem_singleton.1 he]

theorem canonical_pair {op : Op} (hn : op.takes 2 = true) (location : Location) {a b : Expr}
    (ha : a.Canonical .term) (hb : b.Canonical .term) : (node op location [a, b]).Canonical .term := by
  refine .operator hn fun e he => ?_
  rcases List.mem_cons.1 he with rfl | he
  · exact ha
  · rwa [List.mem_singleton.1 he]

/-- A canonical tree is a node. -/
theorem Canonical.exists_node {role : Role} (h : e.Canonical role) :
    ∃ op location children, e = .node op location children := by
  induction h with
  | item _ ih => exact ih
  | _ => exact ⟨_, _, _, rfl⟩

@[simp]
theorem op?_node (op : Op) (location : Location) (children : List Expr) :
    (node op location children).op? = some op := rfl

/-- A canonical term is no binding. -/
theorem Canonical.not_isAssign (h : e.Canonical .term) : e.isAssign = false := by
  cases h with
  | @operator op _ _ hn _ => cases op <;> first | rfl | cases hn
  | _ => rfl

/-- An item that is no binding is a term. -/
theorem Canonical.term_of_not_isAssign (h : e.Canonical .item) (hna : e.isAssign = false) :
    e.Canonical .term := by
  cases h with
  | item h => exact h
  | assign _ => cases hna

end Expr

/-! ## From raw trees -/

open DynamicConfig.Expr (Role)

/-- The role of what stands in a place. -/
def RawTree.Place.role : RawTree.Place → Role
  | .term | .key _ _ => .term
  | .item | .items | .args => .item

theorem Meaning.canonical_leafExpr (location : Location) (l : Leaf) :
    (leafExpr location l).Canonical .term := by
  cases l
  · exact .string _ _
  · exact .number _ _
  · exact .bool _ _
  · exact .name _ _

theorem Meaning.takes_one_of_mayLead {symbol : Symbol} {op : Op} (hs : symbol.mayLead = true)
    (hop : infixOp? symbol = some op) : op.takes 1 = true := by
  cases symbol <;> cases hs <;> cases hop <;> rfl

/-- The operators that stand between two operands. -/
def Symbol.isInfix : Symbol → Bool
  | or | and | equal | notEqual | less | greater | lessEqual | greaterEqual | plus | minus | times | divide | dot => true
  | _ => false

/-- What stands between two operands is an operator that takes two. -/
theorem Meaning.isInfix_of_infixOp? {symbol : Symbol} {op : Op} (hop : infixOp? symbol = some op) (hne : op ≠ .not) :
    symbol.isInfix = true ∧ op.takes 2 = true := by
  cases symbol <;> cases hop <;> first | exact ⟨rfl, rfl⟩ | exact (hne rfl).elim

/-- There is something between brackets that mean anything. -/
theorem RawTree.Means.ne_nil {t : RawTree} {es : List Expr} (h : t.Means .items es) : es ≠ [] := by
  cases h <;> simp

/-- What a raw tree means is canonical, as long as the target of a key is. -/
theorem RawTree.Means.canonical {t : RawTree} {place : Place} {es : List Expr} (h : t.Means place es)
    (htarget : ∀ dot target, place = .key dot target → target.Canonical .term) :
    ∀ e ∈ es, e.Canonical place.role := by
  induction h with
  | leaf l location => exact List.forall_mem_singleton.2 (Meaning.canonical_leafExpr location l)
  | round _ ih => exact ih (by simp)
  | curly h ih => exact List.forall_mem_singleton.2 (.closure h.ne_nil (ih (by simp)))
  | apply _ _ ihc iha =>
    have hc := List.forall_mem_singleton.1 (ihc (by simp))
    exact List.forall_mem_singleton.2 (.call hc (iha (by simp)))
  | lead hs hop _ ih =>
    have he := List.forall_mem_singleton.1 (ih (by simp))
    exact List.forall_mem_singleton.2 (Expr.canonical_unary (Meaning.takes_one_of_mayLead hs hop) _ he)
  | binary hop hne _ _ ihl ihr =>
    have ha := List.forall_mem_singleton.1 (ihl (by simp))
    have hb := List.forall_mem_singleton.1 (ihr (by simp))
    exact List.forall_mem_singleton.2 (Expr.canonical_pair (Meaning.isInfix_of_infixOp? hop hne).2 _ ha hb)
  | dot _ _ ihl ihr =>
    have hleft := List.forall_mem_singleton.1 (ihl (by simp))
    exact ihr fun dot target h => by cases h; exact hleft
  | keyName dot target name location =>
    exact List.forall_mem_singleton.2
      (Expr.canonical_pair rfl dot (htarget _ _ rfl) (.string location name))
  | keyApply _ _ ihc iha =>
    have hc := List.forall_mem_singleton.1 (ihc fun _ _ h => htarget _ _ (by cases h; rfl))
    exact List.forall_mem_singleton.2 (.call hc (iha (by simp)))
  | keyTerm _ _ _ ih =>
    have hk := List.forall_mem_singleton.1 (ih (by simp))
    exact List.forall_mem_singleton.2 (Expr.canonical_pair rfl _ (htarget _ _ rfl) hk)
  | noArgs => simp
  | args _ ih => exact ih (by simp)
  | item _ ih => exact fun e he => .item (ih (by simp) e he)
  | assign _ ih =>
    have hv := List.forall_mem_singleton.1 (ih (by simp))
    exact List.forall_mem_singleton.2 (.assign hv)
  | one _ ih => exact ih (by simp)
  | comma _ _ ihl ihr =>
    intro e he
    rcases List.mem_append.1 he with he | he
    · exact ihl (by simp) e he
    · exact ihr (by simp) e he

/-! ## From source texts -/

/-- A source text without faults has a raw tree without faults, which means its expression. -/
theorem limited_of_parse_eq_ok {source : String} {parsed : Parsed} (h : parse source = .ok parsed)
    (hok : parsed.errors = []) :
    ∃ tree : RawTree, RawTree.ofSource (some Frame.maxHeight) source = (tree, []) ∧
      tree.Means .term [parsed.expr] := by
  obtain ⟨expr, errors⟩ := parsed
  cases hok
  obtain ⟨⟨tree, found⟩, hsource⟩ : ∃ p, RawTree.ofSource (some Frame.maxHeight) source = p := ⟨_, rfl⟩
  have hraw := ofRaw_of_parse h
  rw [hsource] at hraw
  obtain rfl := Expr.found_eq_nil_of_ofRaw hraw
  have hwhole := (RawTree.spelled_of_ofSource (RawTree.ofSource_of_no_errors hsource)).2.isWhole
  exact ⟨tree, hsource, ((Expr.ofRaw_eq_ok_iff hwhole).1 hraw).2⟩

/-- The tree is the same without the limit. -/
theorem parse_eq_ok {source : String} {parsed : Parsed} (h : parse source = .ok parsed)
    (hok : parsed.errors = []) :
    ∃ tree : RawTree, RawTree.ofSource none source = (tree, []) ∧ tree.Means .term [parsed.expr] := by
  obtain ⟨tree, hsource, hmeans⟩ := limited_of_parse_eq_ok h hok
  exact ⟨tree, RawTree.ofSource_of_no_errors hsource, hmeans⟩

/-- A source text without faults has a canonical expression. -/
theorem canonical_of_parse {source : String} {parsed : Parsed} (h : parse source = .ok parsed)
    (hok : parsed.errors = []) : parsed.expr.Canonical .term := by
  obtain ⟨tree, _, hmeans⟩ := parse_eq_ok h hok
  exact List.forall_mem_singleton.1 (hmeans.canonical (by simp))

end DynamicConfig

import DynamicConfig.Proofs.Leaves
import DynamicConfig.Proofs.Tokens
/-!
# Names

A name in an expression is one in the source text, and so is the target of a binding: no blank, no quote and no
symbol is in it, and it is no truth value (`RawTree.Means.allNamed`). A string after a dot need not be one.
-/

namespace DynamicConfig

open RawTree (Place Means Spelled)

namespace Expr

variable {op : Op} {location : Location}

/-- The name of a node is a name, and so is the one that it binds. -/
def Named : Expr → Prop
  | list [.tag ⟨.name, _⟩, .string name] => Text.isName name = true
  | list [.tag ⟨.assign, _⟩, target, _] => ∀ name, target.asStringLiteral? = some name → Text.isName name = true
  | _ => True

theorem named_node (hname : op ≠ .name) (hassign : op ≠ .assign) (location : Location) (children : List Expr) :
    (node op location children).Named := by
  unfold Named node
  split
  · rename_i heq
    cases heq
    exact (hname rfl).elim
  · rename_i heq
    cases heq
    exact (hassign rfl).elim
  · trivial

/-- The names of a tree are names. -/
def AllNamed (e : Expr) : Prop :=
  ∀ sub ∈ e.walk, sub.Named

theorem allNamed_node {children : List Expr} (hname : op ≠ .name) (hassign : op ≠ .assign)
    (h : ∀ e ∈ children, e.AllNamed) : (node op location children).AllNamed :=
  forall_walk_node_iff.2 ⟨named_node hname hassign location children, h⟩

theorem allNamed_operator {symbol : Symbol} (hop : Meaning.infixOp? symbol = some op) {children : List Expr}
    (h : ∀ e ∈ children, e.AllNamed) : (node op location children).AllNamed := by
  cases symbol <;> cases hop <;> exact allNamed_node (by simp) (by simp) h

theorem allNamed_leafExpr {l : Leaf} (hn : ∀ name, l = .name name → Text.isName name = true) (location : Location) :
    (Meaning.leafExpr location l).AllNamed := by
  cases l with
  | name name => exact forall_walk_node_iff.2 ⟨hn name rfl, by simp [walk, Named]⟩
  | _ => exact allNamed_node (by simp) (by simp) (by simp [AllNamed, walk, Named])

end Expr

theorem Token.IsProper.isName {token : Token} (hp : token.IsProper) {name : String}
    (hl : token.leaf? = some (.name name)) : Text.isName name = true := by
  obtain ⟨hs, hleaf⟩ := Token.leaf?_eq_some_iff.1 hl
  rcases hp with hp | ⟨l, hl', hname⟩
  · simp [hs] at hp
  · rw [hleaf] at hl'
    exact hname name (Option.some.inj hl').symm

/-- The names in what a tree means are those of its tokens, besides those of the target of a key. -/
theorem RawTree.Means.allNamed {t : RawTree} {place : Place} {es : List Expr} (h : t.Means place es)
    {ts : List Token} (hs : t.Spelled ts) (hp : ∀ token ∈ ts, token.IsProper)
    (htarget : ∀ e ∈ place.target, e.AllNamed) : ∀ e ∈ es, e.AllNamed := by
  induction h generalizing ts with
  | leaf l location =>
    cases hs with
    | @leaf token _ hl =>
      refine List.forall_mem_singleton.2 (Expr.allNamed_leafExpr ?_ _)
      rintro name rfl
      exact (hp token (by simp)).isName hl
  | round _ ih | args _ ih =>
    cases hs with
    | group _ _ hi => exact ih hi (fun token ht => hp token (by simp [ht])) (by simp [Place.target])
  | curly _ ih =>
    cases hs with
    | group _ _ hi =>
      have hitems := ih hi (fun token ht => hp token (by simp [ht])) (by simp [Place.target])
      exact List.forall_mem_singleton.2 (Expr.allNamed_node (by simp) (by simp) hitems)
  | apply _ _ ihc iha | keyApply _ _ ihc iha =>
    cases hs with
    | apply hc ha =>
      obtain ⟨hpc, hpa⟩ := List.forall_mem_append.1 hp
      have hcallee := List.forall_mem_singleton.1 (ihc hc hpc htarget)
      have hargs := iha ha hpa (by simp [Place.target])
      exact List.forall_mem_singleton.2
        (Expr.allNamed_node (by simp) (by simp) (List.forall_mem_cons.2 ⟨hcallee, hargs⟩))
  | lead _ hop _ ih =>
    cases hs with
    | binary _ hl hr =>
      have hright := ih hr (fun token ht => hp token (by simp [ht])) (by simp [Place.target])
      exact List.forall_mem_singleton.2 (Expr.allNamed_operator hop hright)
  | binary hop _ _ _ ihl ihr =>
    cases hs with
    | binary _ hl hr =>
      have hleft := List.forall_mem_singleton.1 (ihl hl (fun token ht => hp token (by simp [ht])) (by simp [Place.target]))
      have hright := ihr hr (fun token ht => hp token (by simp [ht])) (by simp [Place.target])
      exact List.forall_mem_singleton.2 (Expr.allNamed_operator hop (List.forall_mem_cons.2 ⟨hleft, hright⟩))
  | dot _ _ ihl ihr =>
    cases hs with
    | binary _ hl hr =>
      have hleft := ihl hl (fun token ht => hp token (by simp [ht])) (by simp [Place.target])
      exact ihr hr (fun token ht => hp token (by simp [ht])) hleft
  | keyName dot target name location =>
    have hkey : (Expr.stringLeaf location name).AllNamed := Expr.allNamed_leafExpr (l := .string name) (by simp) location
    exact List.forall_mem_singleton.2 (Expr.allNamed_node (by simp) (by simp)
      (List.forall_mem_cons.2 ⟨List.forall_mem_singleton.1 htarget, List.forall_mem_singleton.2 hkey⟩))
  | keyTerm _ _ _ ih =>
    have hkey := ih hs hp (by simp [Place.target])
    exact List.forall_mem_singleton.2 (Expr.allNamed_node (by simp) (by simp)
      (List.forall_mem_cons.2 ⟨List.forall_mem_singleton.1 htarget, hkey⟩))
  | noArgs => simp
  | item _ ih | one _ ih => exact ih hs hp (by simp [Place.target])
  | @assign _ _ name _ _ _ ih =>
    cases hs with
    | binary _ hl hr =>
      cases hl with
      | @leaf token _ hl =>
        have hvalue := List.forall_mem_singleton.1
          (ih hr (fun token ht => hp token (by simp [ht])) (by simp [Place.target]))
        have hname : (Expr.stringLeaf token.location name).AllNamed :=
          Expr.allNamed_leafExpr (l := .string name) (by simp) _
        refine List.forall_mem_singleton.2 (Expr.forall_walk_node_iff.2
          ⟨?_, List.forall_mem_cons.2 ⟨hname, List.forall_mem_singleton.2 hvalue⟩⟩)
        rintro _ ⟨⟩
        exact (hp token (by simp)).isName hl
  | comma _ _ ihl ihr =>
    cases hs with
    | binary _ hl hr =>
      have hleft := ihl hl (fun token ht => hp token (by simp [ht])) (by simp [Place.target])
      have hright := ihr hr (fun token ht => hp token (by simp [ht])) (by simp [Place.target])
      exact List.forall_mem_append.2 ⟨hleft, hright⟩

end DynamicConfig

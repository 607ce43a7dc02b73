import DynamicConfig.Proofs.Tidy
/-!
# The leaves of an expression

The literals and names among the tokens of a raw tree are the leaves of the expression that it means, in
their order (`RawTree.Means.leaves`). A name that is a key or the target of a binding is a string.
-/

namespace DynamicConfig

open RawTree (Place Means Spelled)

/-! ## Walks -/

namespace Expr

theorem walk_node (op : Op) (location : Location) (children : List Expr) :
    (node op location children).walk = node op location children :: walkAll children := by
  rw [node, walk]

theorem walkAll_append (xs ys : List Expr) : walkAll (xs ++ ys) = walkAll xs ++ walkAll ys := by
  induction xs with
  | nil => rfl
  | cons x xs ih => rw [List.cons_append, walkAll, walkAll, ih, List.append_assoc]

theorem walkAll_cons (x : Expr) (xs : List Expr) : walkAll (x :: xs) = walkAll [x] ++ walkAll xs :=
  walkAll_append [x] xs

theorem walkAll_node (op : Op) (location : Location) (children : List Expr) :
    walkAll [node op location children] = node op location children :: walkAll children := by
  rw [walkAll, walk_node, walkAll, List.append_nil]

theorem mem_walkAll_iff {x : Expr} {es : List Expr} : x ∈ walkAll es ↔ ∃ e ∈ es, x ∈ e.walk := by
  induction es with
  | nil => simp [walkAll]
  | cons e rest ih => simp [walkAll, ih]

theorem forall_walk_node_iff {P : Expr → Prop} {op : Op} {location : Location} {children : List Expr} :
    (∀ sub ∈ (node op location children).walk, P sub) ↔
      P (node op location children) ∧ ∀ e ∈ children, ∀ sub ∈ e.walk, P sub := by
  simp only [walk_node, List.forall_mem_cons, mem_walkAll_iff]
  refine and_congr_right fun _ => ⟨fun h e he sub hsub => h sub ⟨e, he, hsub⟩, ?_⟩
  rintro h sub ⟨e, he, hsub⟩
  exact h e he sub hsub

theorem asName?_eq_some {e : Expr} {name : String} (h : e.asName? = some name) :
    ∃ location, e = nameLeaf location name := by
  unfold asName? at h
  split at h
  · rename_i place text
    cases h
    exact ⟨place, rfl⟩
  · cases h

theorem asStringLiteral?_eq_some {e : Expr} {text : String} (h : e.asStringLiteral? = some text) :
    ∃ location, e = stringLeaf location text := by
  unfold asStringLiteral? at h
  split at h
  · rename_i place text
    cases h
    exact ⟨place, rfl⟩
  · cases h

/-- Whether a node is a literal or a name. -/
def isLeaf (e : Expr) : Bool :=
  e.op?.any Op.isLeaf

/-- The literals and names in some trees, in the order of a walk. -/
def leaves (es : List Expr) : List Expr :=
  (walkAll es).filter isLeaf

theorem leaves_append (xs ys : List Expr) : leaves (xs ++ ys) = leaves xs ++ leaves ys := by
  rw [leaves, walkAll_append, List.filter_append, leaves, leaves]

theorem leaves_cons (x : Expr) (xs : List Expr) : leaves (x :: xs) = leaves [x] ++ leaves xs :=
  leaves_append [x] xs

theorem leaves_node {op : Op} (h : op.isLeaf = false) (location : Location) (children : List Expr) :
    leaves [node op location children] = leaves children := by
  rw [leaves, walkAll_node, List.filter_cons_of_neg (by simpa [isLeaf] using h), leaves]

theorem leaves_leafExpr (location : Location) (l : Leaf) :
    leaves [Meaning.leafExpr location l] = [Meaning.leafExpr location l] := by
  cases l <;> rfl

end Expr

open DynamicConfig.Expr (leaves)

/-! ## Leaves -/

/-- Whether the next token makes a binding of the name before it. -/
def beginsWithAssign : List Token → Bool
  | token :: _ => token.symbol? == some .assign
  | [] => false

/-- The leaves that tokens stand for. A name right after a dot is a key, and one right before `=` is a
target: both are strings. -/
def tokenLeaves : (afterDot : Bool) → List Token → List Expr
  | _, [] => []
  | afterDot, token :: rest =>
    match token.leaf? with
    | none => tokenLeaves (token.symbol? == some .dot) rest
    | some (.name name) =>
      (if afterDot || beginsWithAssign rest then .stringLeaf token.location name
        else .nameLeaf token.location name) :: tokenLeaves false rest
    | some l => Meaning.leafExpr token.location l :: tokenLeaves false rest

section Tokens

variable {token : Token} {symbol : Symbol} {rest : List Token}

theorem beginsWithAssign_cons (hs : token.symbol? = some symbol) (hne : symbol ≠ .assign) :
    beginsWithAssign (token :: rest) = false := by
  simp [beginsWithAssign, hs, hne]

theorem tokenLeaves_symbol (hs : token.symbol? = some symbol) (hne : symbol ≠ .dot) (afterDot : Bool) :
    tokenLeaves afterDot (token :: rest) = tokenLeaves false rest := by
  have hl : token.leaf? = none := by rw [Token.leaf?, hs]
  have hdot : (token.symbol? == some .dot) = false := by simp [hs, hne]
  rw [tokenLeaves, hl, hdot]

theorem tokenLeaves_dot (hs : token.symbol? = some .dot) (afterDot : Bool) :
    tokenLeaves afterDot (token :: rest) = tokenLeaves true rest := by
  have hl : token.leaf? = none := by rw [Token.leaf?, hs]
  have hdot : (token.symbol? == some .dot) = true := by simp [hs]
  rw [tokenLeaves, hl, hdot]

theorem tokenLeaves_leaf {l : Leaf} (hl : token.leaf? = some l) (hrest : beginsWithAssign rest = false) :
    tokenLeaves false (token :: rest) = Meaning.leafExpr token.location l :: tokenLeaves false rest := by
  cases l <;> simp [tokenLeaves, hl, hrest, Meaning.leafExpr]

theorem tokenLeaves_literal {l : Leaf} (hl : token.leaf? = some l) (hn : ∀ name, l ≠ .name name) (afterDot : Bool) :
    tokenLeaves afterDot (token :: rest) = Meaning.leafExpr token.location l :: tokenLeaves false rest := by
  cases l <;> simp [tokenLeaves, hl] at hn ⊢

theorem tokenLeaves_bound {name : String} (hl : token.leaf? = some (.name name)) {afterDot : Bool}
    (h : afterDot = true ∨ beginsWithAssign rest = true) :
    tokenLeaves afterDot (token :: rest) = .stringLeaf token.location name :: tokenLeaves false rest := by
  rcases h with h | h <;> simp [tokenLeaves, hl, h]

theorem tokenLeaves_group {bracket : Bracket} {first last : Token} (hf : first.symbol? = some (.opening bracket))
    (hl : last.symbol? = some (.closing bracket)) {inside : List Token} {es : List Expr}
    (h : tokenLeaves false (inside ++ last :: rest) = es ++ tokenLeaves false (last :: rest)) :
    tokenLeaves false (first :: (inside ++ [last]) ++ rest) = es ++ tokenLeaves false rest := by
  rw [List.cons_append, List.append_assoc, tokenLeaves_symbol hf (by simp), List.singleton_append, h,
    tokenLeaves_symbol hl (by simp)]

theorem tokenLeaves_between (hs : token.symbol? = some symbol) (hne : symbol ≠ .dot) {left right : List Token}
    {xs ys : List Expr}
    (hl : tokenLeaves false (left ++ (token :: right ++ rest)) = xs ++ tokenLeaves false (token :: right ++ rest))
    (hr : tokenLeaves false (right ++ rest) = ys ++ tokenLeaves false rest) :
    tokenLeaves false (left ++ token :: right ++ rest) = xs ++ ys ++ tokenLeaves false rest := by
  rw [List.append_assoc, hl, List.cons_append, tokenLeaves_symbol hs hne, hr, List.append_assoc]

end Tokens

/-- Whether what stands in a place follows a dot. -/
def RawTree.Place.afterDot : Place → Bool
  | .key _ _ => true
  | _ => false

/-- What an expression in a place has besides its own tokens. -/
def RawTree.Place.target : Place → List Expr
  | .key _ target => [target]
  | _ => []

namespace RawTree

variable {t : RawTree} {ts : List Token}

/-- The arguments of an application begin with a bracket. -/
theorem Means.first_of_args {es : List Expr} (h : t.Means .args es) {first : Token} {rest : List Token}
    (hs : t.Spelled (first :: rest)) : first.symbol? = some (.opening .round) := by
  cases h with
  | noArgs | args => cases hs with | group hf _ _ => exact hf

/-- It makes no difference to what is no name and no application whether it follows a dot. -/
theorem Means.tokenLeaves_key {k : Expr} (h : t.Means .term [k]) (hkey : t.IsKey)
    (hname : ∀ name location, t ≠ .leaf (.name name) location)
    (happly : ∀ location callee args, t ≠ .apply location callee args) (hs : t.Spelled ts) (afterDot : Bool)
    (rest : List Token) : tokenLeaves afterDot (ts ++ rest) = tokenLeaves false (ts ++ rest) := by
  cases hs with
  | missing => cases h
  | @leaf token l hl =>
    have hn : ∀ name, l ≠ .name name := by
      rintro name rfl
      exact hname name _ rfl
    rw [List.singleton_append, tokenLeaves_literal hl hn, tokenLeaves_literal hl hn]
  | apply => exact (happly _ _ _ rfl).elim
  | group hf _ _ => rw [List.cons_append, tokenLeaves_symbol hf (by simp), tokenLeaves_symbol hf (by simp)]
  | @binary _ symbol left _ _ _ hsym hl _ =>
    cases left with
    | missing =>
      cases hl
      have hne : symbol ≠ .dot := by
        rintro rfl
        cases h with
        | dot hl _ => cases hl
        | lead hs _ _ => cases hs
        | binary hop _ _ _ => cases hop
      rw [List.nil_append, List.cons_append, tokenLeaves_symbol hsym hne, tokenLeaves_symbol hsym hne]
    | _ => cases hkey

theorem isLeaf_of_infixOp? {symbol : Symbol} {op : Op} (h : Meaning.infixOp? symbol = some op) :
    op.isLeaf = false := by
  cases symbol <;> cases h <;> rfl

/-- The leaves of what a tree means are those that its tokens stand for. -/
theorem Means.leaves {place : Place} {es : List Expr} (h : t.Means place es) (htidy : t.Tidy)
    (hkey : place.afterDot = true → t.IsKey) (hs : t.Spelled ts) {rest : List Token}
    (hrest : beginsWithAssign rest = false) :
    leaves place.target ++ tokenLeaves place.afterDot (ts ++ rest) = leaves es ++ tokenLeaves false rest := by
  induction h generalizing ts rest with
  | leaf l location =>
    cases hs with
    | leaf hl =>
      show tokenLeaves false (_ :: rest) = _
      rw [tokenLeaves_leaf hl hrest, Expr.leaves_leafExpr]
      rfl
  | round _ ih =>
    cases hs with
    | group hf hl hi =>
      exact tokenLeaves_group hf hl
        (ih htidy (by simp [Place.afterDot]) hi (beginsWithAssign_cons hl (by simp)))
  | curly _ ih =>
    cases hs with
    | group hf hl hi =>
      rw [Expr.leaves_node rfl]
      exact tokenLeaves_group hf hl
        (ih htidy (by simp [Place.afterDot]) hi (beginsWithAssign_cons hl (by simp)))
  | @apply _ _ _ c es _ ha ihc iha =>
    cases hs with
    | @apply _ _ cs as first hc hargs =>
      have hfirst := ha.first_of_args hargs
      have hcallee : tokenLeaves false (cs ++ (first :: as ++ rest)) = _ ++ tokenLeaves false (first :: as ++ rest) :=
        ihc htidy.2.1 (by simp [Place.afterDot]) hc (beginsWithAssign_cons hfirst (by simp))
      have hinside : tokenLeaves false (first :: as ++ rest) = _ ++ tokenLeaves false rest :=
        iha htidy.2.2 (by simp [Place.afterDot]) hargs hrest
      show tokenLeaves false (cs ++ first :: as ++ rest) = _
      rw [List.append_assoc, hcallee, hinside, Expr.leaves_node rfl, Expr.leaves_cons c es, List.append_assoc]
  | @lead symbol _ _ _ _ _ hm hop _ ih =>
    cases hs with
    | @binary token _ _ _ _ rs hsym hl hr =>
      cases hl
      have hne : symbol ≠ .dot := by rintro rfl; cases hm
      have hright : tokenLeaves false (rs ++ rest) = _ ++ tokenLeaves false rest :=
        ih htidy.2.1 (by simp [Place.afterDot]) hr hrest
      show tokenLeaves false (token :: rs ++ rest) = _
      rw [List.cons_append, tokenLeaves_symbol hsym hne, hright, Expr.leaves_node (isLeaf_of_infixOp? hop)]
  | @binary symbol _ _ _ _ a b hop _ _ _ ihl ihr =>
    cases hs with
    | @binary token _ _ _ ls rs hsym hl hr =>
      have hdot : symbol ≠ .dot := by rintro rfl; cases hop
      have hassign : symbol ≠ .assign := by rintro rfl; cases hop
      have hleft : tokenLeaves false (ls ++ (token :: rs ++ rest)) = _ ++ tokenLeaves false (token :: rs ++ rest) :=
        ihl htidy.1 (by simp [Place.afterDot]) hl (beginsWithAssign_cons hsym hassign)
      have hright : tokenLeaves false (rs ++ rest) = _ ++ tokenLeaves false rest :=
        ihr htidy.2.1 (by simp [Place.afterDot]) hr hrest
      rw [Expr.leaves_node (isLeaf_of_infixOp? hop), Expr.leaves_cons a [b]]
      exact tokenLeaves_between hsym hdot hleft hright
  | @dot _ _ _ a e _ _ ihl ihr =>
    cases hs with
    | @binary token _ _ _ ls rs hsym hl hr =>
      have hleft : tokenLeaves false (ls ++ (token :: rs ++ rest)) = leaves [a] ++ tokenLeaves false (token :: rs ++ rest) :=
        ihl htidy.1 (by simp [Place.afterDot]) hl (beginsWithAssign_cons hsym (by simp))
      have hright : leaves [a] ++ tokenLeaves true (rs ++ rest) = leaves [e] ++ tokenLeaves false rest :=
        ihr htidy.2.1 (fun _ => htidy.2.2 rfl) hr hrest
      show tokenLeaves false (ls ++ token :: rs ++ rest) = _
      rw [List.append_assoc, hleft, List.cons_append, tokenLeaves_dot hsym, hright]
  -- The leaves of the target come first: its tokens stand before the dot.
  | keyName dot target name location =>
    cases hs with
    | leaf hl =>
      show leaves [target] ++ tokenLeaves true (_ :: rest) = _
      rw [tokenLeaves_bound hl (.inl rfl), Expr.leaves_node rfl, Expr.leaves_cons target [_], List.append_assoc]
      rfl
  | @keyApply _ target _ _ _ c es _ ha ihc iha =>
    cases hs with
    | @apply _ _ cs as first hc hargs =>
      have hfirst := ha.first_of_args hargs
      have hcallee : leaves [target] ++ tokenLeaves true (cs ++ (first :: as ++ rest)) =
          leaves [c] ++ tokenLeaves false (first :: as ++ rest) :=
        ihc htidy.2.1 (fun _ => htidy.1.isKey) hc (beginsWithAssign_cons hfirst (by simp))
      have hinside : tokenLeaves false (first :: as ++ rest) = _ ++ tokenLeaves false rest :=
        iha htidy.2.2 (by simp [Place.afterDot]) hargs hrest
      show leaves [target] ++ tokenLeaves true (cs ++ first :: as ++ rest) = _
      rw [List.append_assoc, hcallee, hinside, Expr.leaves_node rfl, Expr.leaves_cons c es, List.append_assoc]
  | @keyTerm _ target _ k hname happly h ih =>
    have hown : tokenLeaves false (ts ++ rest) = leaves [k] ++ tokenLeaves false rest :=
      ih htidy (by simp [Place.afterDot]) hs hrest
    show leaves [target] ++ tokenLeaves true (ts ++ rest) = _
    rw [h.tokenLeaves_key (hkey rfl) hname happly hs, hown, Expr.leaves_node rfl, Expr.leaves_cons target [k],
      List.append_assoc]
  | noArgs =>
    cases hs with
    | group hf hl hi =>
      cases hi
      show tokenLeaves false (_ :: _ :: rest) = _
      rw [tokenLeaves_symbol hf (by simp), tokenLeaves_symbol hl (by simp)]
      rfl
  | args _ ih =>
    cases hs with
    | group hf hl hi =>
      exact tokenLeaves_group hf hl
        (ih htidy (by simp [Place.afterDot]) hi (beginsWithAssign_cons hl (by simp)))
  | item _ ih | one _ ih => exact ih htidy (by simp [Place.afterDot]) hs hrest
  | @assign _ _ name value v _ ih =>
    cases hs with
    | @binary token _ _ _ ls rs hsym hl hr =>
      cases hl with
      | leaf hl =>
        -- Only here does `=` follow the tokens of a tree, and they are those of the name that is bound.
        have hbegins : beginsWithAssign (token :: rs ++ rest) = true := by simp [beginsWithAssign, hsym]
        have hvalue : tokenLeaves false (rs ++ rest) = leaves [v] ++ tokenLeaves false rest :=
          ih htidy.2.1 (by simp [Place.afterDot]) hr hrest
        show tokenLeaves false (_ :: (token :: rs ++ rest)) = _
        rw [tokenLeaves_bound hl (.inr hbegins), List.cons_append, tokenLeaves_symbol hsym (by simp), hvalue,
          Expr.leaves_node rfl, Expr.leaves_cons _ [v], List.append_assoc]
        rfl
  | @comma _ _ _ es e _ _ ihl ihr =>
    cases hs with
    | @binary token _ _ _ ls rs hsym hl hr =>
      have hleft : tokenLeaves false (ls ++ (token :: rs ++ rest)) = leaves es ++ tokenLeaves false (token :: rs ++ rest) :=
        ihl htidy.1 (by simp [Place.afterDot]) hl (beginsWithAssign_cons hsym (by simp))
      have hright : tokenLeaves false (rs ++ rest) = leaves [e] ++ tokenLeaves false rest :=
        ihr htidy.2.1 (by simp [Place.afterDot]) hr hrest
      rw [Expr.leaves_append]
      exact tokenLeaves_between hsym (by simp) hleft hright

end RawTree

end DynamicConfig

import DynamicConfig.Proofs.Leaves
import DynamicConfig.Proofs.Slices
/-!
# Expressions and their tokens

The expression of a source text without faults has all the tokens of the text, each once: the literals
and names are its leaves, in their order, and each operator is the tag of one node. A call is placed at
the bracket that opens its arguments, and a closure from bracket to bracket
(`canonical_tree_is_faithful`).
-/

namespace DynamicConfig

open RawTree (Place Means Spelled)

/-! ## Operators -/

/-- The kind of node that an operator makes. -/
def Symbol.op? : Symbol → Option Op
  | .dot => some .field
  | .assign => some .assign
  | symbol => Meaning.infixOp? symbol

/-- The tag of the node that an operator makes. -/
def Token.tag? (token : Token) : Option Tag :=
  (token.symbol?.bind Symbol.op?).map (⟨·, token.location⟩)

/-- Whether nodes of a kind come from operators. -/
def Op.isOperator : Op → Bool
  | .call | .closure => false
  | op => !op.isLeaf

theorem Symbol.op?_of_infixOp? {symbol : Symbol} {op : Op} (h : Meaning.infixOp? symbol = some op) :
    symbol.op? = some op := by
  cases symbol <;> first | exact h | cases h

/-- An operator, which is neither a bracket nor a comma, makes a node with its text. -/
theorem Symbol.exists_op {symbol : Symbol} (hb : symbol.isBracket = false) (hc : symbol ≠ .comma) :
    ∃ op, symbol.op? = some op ∧ op.text = symbol.text ∧ op.isOperator = true := by
  cases symbol <;> first | exact ⟨_, rfl, rfl, rfl⟩ | exact (hc rfl).elim | cases hb

theorem Token.tag?_of_op? {token : Token} {symbol : Symbol} {op : Op} (hs : token.symbol? = some symbol)
    (hop : symbol.op? = some op) : token.tag? = some ⟨op, token.location⟩ := by
  simp [tag?, hs, hop]

theorem Token.location_of_tag? {token : Token} {tag : Tag} (h : token.tag? = some tag) :
    token.location = tag.location := by
  rw [tag?, Option.map_eq_some_iff] at h
  obtain ⟨op, -, rfl⟩ := h
  rfl

theorem Token.count_of_op? {token : Token} {symbol : Symbol} {op : Op} (hs : token.symbol? = some symbol)
    (hop : symbol.op? = some op) (tag : Tag) (rest : List Token) :
    ((token :: rest).filterMap tag?).count tag =
      [(⟨op, token.location⟩ : Tag)].count tag + (rest.filterMap tag?).count tag := by
  have hcons : (token :: rest).filterMap tag? = [⟨op, token.location⟩] ++ rest.filterMap tag? :=
    List.filterMap_cons_some (tag?_of_op? hs hop)
  rw [hcons, List.count_append]

theorem Token.tag?_of_no_op {token : Token} {symbol : Symbol} (hs : token.symbol? = some symbol)
    (hop : symbol.op? = none) : token.tag? = none := by
  simp [tag?, hs, hop]

theorem Token.tag?_of_leaf? {token : Token} {l : Leaf} (hl : token.leaf? = some l) : token.tag? = none := by
  simp [tag?, (leaf?_eq_some_iff.1 hl).1]

namespace Expr

/-- How many nodes of some trees have a tag. -/
def tagged (tag : Tag) (es : List Expr) : Nat :=
  ((walkAll es).filterMap tag?).count tag

variable {tag : Tag}

theorem tagged_cons (x : Expr) (xs : List Expr) : tagged tag (x :: xs) = tagged tag [x] + tagged tag xs := by
  rw [tagged, walkAll_cons, List.filterMap_append, List.count_append, tagged, tagged]

theorem tagged_append (xs ys : List Expr) : tagged tag (xs ++ ys) = tagged tag xs + tagged tag ys := by
  rw [tagged, walkAll_append, List.filterMap_append, List.count_append, tagged, tagged]

theorem tagged_node (op : Op) (location : Location) (children : List Expr) :
    tagged tag [node op location children] = [(⟨op, location⟩ : Tag)].count tag + tagged tag children := by
  have hnode : (node op location children :: walkAll children).filterMap tag? =
      [⟨op, location⟩] ++ (walkAll children).filterMap tag? := rfl
  rw [tagged, walkAll_node, hnode, List.count_append, tagged]

theorem tagged_node_of_ne {op : Op} (h : op.isOperator = false) (htag : tag.op.isOperator = true)
    (location : Location) (children : List Expr) :
    tagged tag [node op location children] = tagged tag children := by
  have hne : tag ∉ [(⟨op, location⟩ : Tag)] := by
    intro hm
    rw [List.mem_singleton.1 hm, h] at htag
    cases htag
  rw [tagged_node, List.count_eq_zero.2 hne, Nat.zero_add]

theorem tagged_stringLeaf (htag : tag.op.isOperator = true) (location : Location) (text : String) :
    tagged tag [stringLeaf location text] = 0 :=
  tagged_node_of_ne rfl htag location _

theorem tagged_leafExpr (htag : tag.op.isOperator = true) (location : Location) (l : Leaf) :
    tagged tag [Meaning.leafExpr location l] = 0 := by
  cases l <;> exact tagged_node_of_ne rfl htag location _

end Expr

open DynamicConfig.Expr (leaves tagged)

/-- How many nodes with a tag an expression in a place has besides those of its own tokens: those of the
target, and the dot. -/
def RawTree.Place.tagged (tag : Tag) : Place → Nat
  | .key dot target => Expr.tagged tag [target] + [(⟨.field, dot⟩ : Tag)].count tag
  | _ => 0

/-- The operators of what a tree means are those among its tokens. -/
theorem RawTree.Means.tagged {tag : Tag} (htag : tag.op.isOperator = true) {t : RawTree} {place : Place}
    {es : List Expr} (h : t.Means place es) {ts : List Token} (hs : t.Spelled ts) :
    tagged tag es = place.tagged tag + (ts.filterMap Token.tag?).count tag := by
  induction h generalizing ts with
  | leaf l location =>
    cases hs with
    | leaf hl => simp [Expr.tagged_leafExpr htag, Place.tagged, Token.tag?_of_leaf? hl]
  | round _ ih | args _ ih =>
    cases hs with
    | group hf hl hi =>
      simpa [Place.tagged, Token.tag?_of_no_op hf rfl, Token.tag?_of_no_op hl rfl] using ih hi
  | curly _ ih =>
    cases hs with
    | group hf hl hi =>
      rw [Expr.tagged_node_of_ne rfl htag]
      simpa [Place.tagged, Token.tag?_of_no_op hf rfl, Token.tag?_of_no_op hl rfl] using ih hi
  | @apply _ _ _ c es _ _ ihc iha =>
    cases hs with
    | apply hc ha =>
      rw [Expr.tagged_node_of_ne rfl htag, Expr.tagged_cons c es, ihc hc, iha ha, List.filterMap_append,
        List.count_append]
      simp [Place.tagged]
  | lead hm hop _ ih =>
    cases hs with
    | binary hsym hl hr =>
      cases hl
      rw [Expr.tagged_node, ih hr, List.nil_append, Token.count_of_op? hsym (Symbol.op?_of_infixOp? hop)]
      simp only [Place.tagged]
      omega
  | @binary _ _ _ _ _ a b hop _ _ _ ihl ihr =>
    cases hs with
    | binary hsym hl hr =>
      rw [Expr.tagged_node, Expr.tagged_cons a [b], ihl hl, ihr hr, List.filterMap_append, List.count_append,
        Token.count_of_op? hsym (Symbol.op?_of_infixOp? hop)]
      simp only [Place.tagged]
      omega
  | dot _ _ ihl ihr =>
    cases hs with
    | binary hsym hl hr =>
      rw [ihr hr, Place.tagged, ihl hl, List.filterMap_append, List.count_append, Token.count_of_op? hsym rfl]
      simp only [Place.tagged]
      omega
  | keyName dot target name location =>
    cases hs with
    | leaf hl =>
      rw [Expr.tagged_node, Expr.tagged_cons target [_], Expr.tagged_stringLeaf htag,
        List.filterMap_cons_none (Token.tag?_of_leaf? hl)]
      simp only [Place.tagged, List.filterMap_nil, List.count_nil]
      omega
  | @keyApply _ _ _ _ _ c es _ _ ihc iha =>
    cases hs with
    | apply hc ha =>
      rw [Expr.tagged_node_of_ne rfl htag, Expr.tagged_cons c es, ihc hc, iha ha, List.filterMap_append,
        List.count_append]
      simp only [Place.tagged]
      omega
  | @keyTerm _ target _ k _ _ _ ih =>
    rw [Expr.tagged_node, Expr.tagged_cons target [k], ih hs]
    simp only [Place.tagged]
    omega
  | noArgs =>
    cases hs with
    | group hf hl hi =>
      cases hi
      simp [Place.tagged, Token.tag?_of_no_op hf rfl, Token.tag?_of_no_op hl rfl, Expr.tagged, Expr.walkAll]
  | item _ ih | one _ ih => exact ih hs
  | @assign _ _ _ _ v _ ih =>
    cases hs with
    | binary hsym hl hr =>
      cases hl with
      | leaf hl =>
        rw [Expr.tagged_node, Expr.tagged_cons _ [v], ih hr, Expr.tagged_stringLeaf htag, List.singleton_append,
          List.filterMap_cons_none (Token.tag?_of_leaf? hl), Token.count_of_op? hsym rfl]
        simp only [Place.tagged]
        omega
  | comma _ _ ihl ihr =>
    cases hs with
    | binary hsym hl hr =>
      rw [Expr.tagged_append, ihl hl, ihr hr, List.filterMap_append,
        List.filterMap_cons_none (Token.tag?_of_no_op hsym rfl), List.count_append]
      simp [Place.tagged]

/-! ## Calls and closures -/

/-- The tokens spell what the expressions are in a place. -/
def Spells (ts : List Token) (place : Place) (es : List Expr) : Prop :=
  ∃ t : RawTree, t.Spelled ts ∧ t.Means place es

/-- A call among some tokens: those of its callee, and right after them those of its arguments, from
the bracket that opens them to the one that closes them. The call is placed at the first of these. -/
def CallAmong (tokens : List Token) (e : Expr) : Prop :=
  ∃ location callee args before cs first as after, e = .node .call location (callee :: args) ∧
    tokens = before ++ (cs ++ first :: as) ++ after ∧ Spells cs .term [callee] ∧ Spells (first :: as) .args args ∧
    first.symbol? = some (.opening .round) ∧ location = .empty first.location.start

/-- A closure among some tokens: those of its items between two brackets, which it is placed from and
to. -/
def ClosureAmong (tokens : List Token) (e : Expr) : Prop :=
  ∃ location items before first inside last after, e = .node .closure location items ∧
    tokens = before ++ first :: (inside ++ last :: after) ∧ Spells inside .items items ∧
    first.symbol? = some (.opening .curly) ∧ last.symbol? = some (.closing .curly) ∧
    location = ⟨first.location.start, last.location.stop⟩

/-- A node is a call among the tokens if it is a call, and a closure if it is a closure. -/
def Among (tokens : List Token) (e : Expr) : Prop :=
  (e.op? = some .call → CallAmong tokens e) ∧ (e.op? = some .closure → ClosureAmong tokens e)

section Among

variable {tokens : List Token} {e : Expr}

theorem among_of_op? (hcall : e.op? ≠ some .call) (hclosure : e.op? ≠ some .closure) : Among tokens e :=
  ⟨fun h => (hcall h).elim, fun h => (hclosure h).elim⟩

/-- What is among some tokens is among more. -/
theorem Among.append (h : Among tokens e) (left right : List Token) : Among (left ++ tokens ++ right) e := by
  refine ⟨fun hop => ?_, fun hop => ?_⟩
  · obtain ⟨location, callee, args, before, cs, first, as, after, he, rfl, hspells⟩ := h.1 hop
    exact ⟨location, callee, args, left ++ before, cs, first, as, after ++ right, he, by simp, hspells⟩
  · obtain ⟨location, items, before, first, inside, last, after, he, rfl, hspells⟩ := h.2 hop
    exact ⟨location, items, left ++ before, first, inside, last, after ++ right, he, by simp, hspells⟩

theorem Among.append_left (h : Among tokens e) (left : List Token) : Among (left ++ tokens) e := by
  simpa using h.append left []

theorem Among.append_right (h : Among tokens e) (right : List Token) : Among (tokens ++ right) e := by
  simpa using h.append [] right

/-- All nodes of some trees are among the tokens. -/
def AllAmong (tokens : List Token) (es : List Expr) : Prop :=
  ∀ e ∈ Expr.walkAll es, Among tokens e

theorem allAmong_nil : AllAmong tokens [] := by
  simp [AllAmong, Expr.walkAll]

theorem allAmong_append_iff {xs ys : List Expr} :
    AllAmong tokens (xs ++ ys) ↔ AllAmong tokens xs ∧ AllAmong tokens ys := by
  simp [AllAmong, Expr.walkAll_append, or_imp, forall_and]

theorem allAmong_node_iff {op : Op} {location : Location} {children : List Expr} :
    AllAmong tokens [.node op location children] ↔
      Among tokens (.node op location children) ∧ AllAmong tokens children := by
  simp [AllAmong, Expr.walkAll_node]

/-- A node that is no call and no closure is among all tokens that its children are among. -/
theorem AllAmong.node {op : Op} (hcall : op ≠ .call) (hclosure : op ≠ .closure) (location : Location)
    {children : List Expr} (h : AllAmong tokens children) : AllAmong tokens [.node op location children] := by
  refine allAmong_node_iff.2 ⟨among_of_op? ?_ ?_, h⟩
  · simpa using hcall
  · simpa using hclosure

theorem AllAmong.pair {a b : Expr} (ha : AllAmong tokens [a]) (hb : AllAmong tokens [b]) : AllAmong tokens [a, b] :=
  allAmong_append_iff.2 ⟨ha, hb⟩

theorem AllAmong.append {es : List Expr} (h : AllAmong tokens es) (left right : List Token) :
    AllAmong (left ++ tokens ++ right) es :=
  fun e he => (h e he).append left right

theorem AllAmong.append_left {es : List Expr} (h : AllAmong tokens es) (left : List Token) :
    AllAmong (left ++ tokens) es :=
  fun e he => (h e he).append_left left

theorem AllAmong.append_right {es : List Expr} (h : AllAmong tokens es) (right : List Token) :
    AllAmong (tokens ++ right) es :=
  fun e he => (h e he).append_right right

theorem allAmong_atom {op : Op} (location : Location) {payload : Expr} (hcall : op ≠ .call) (hclosure : op ≠ .closure)
    (hwalk : payload.walk = [payload]) (hop : payload.op? = none) :
    AllAmong tokens [.node op location [payload]] := by
  refine .node hcall hclosure location fun e he => ?_
  rw [Expr.walkAll, hwalk] at he
  rw [List.mem_singleton.1 he]
  exact among_of_op? (by simp [hop]) (by simp [hop])

theorem allAmong_leafExpr (location : Location) (l : Leaf) : AllAmong tokens [Meaning.leafExpr location l] := by
  cases l <;> exact allAmong_atom location (by simp) (by simp) (by simp [Expr.walk]) rfl

theorem allAmong_stringLeaf (location : Location) (text : String) :
    AllAmong tokens [.stringLeaf location text] :=
  allAmong_leafExpr location (.string text)

end Among

/-- The calls and closures of an expression in a place are among its tokens. After a dot, the tokens
before the dot belong to it. -/
def RawTree.Place.AllAmong : Place → List Token → List Expr → Prop
  | .key dot target, ts, es => ∀ left ls token, RawTree.Spelled left ls → left.Means .term [target] →
      token.symbol? = some .dot → token.location = dot → DynamicConfig.AllAmong ls [target] →
      DynamicConfig.AllAmong (ls ++ token :: ts) es
  | _, ts, es => DynamicConfig.AllAmong ts es

/-- A call right after its callee. -/
theorem AllAmong.call {cs as : List Token} {first : Token} {callee : Expr} {args : List Expr}
    (hc : Spells cs .term [callee]) (hcs : AllAmong cs [callee]) (ha : Spells (first :: as) .args args)
    (has : AllAmong (first :: as) args) :
    AllAmong (cs ++ first :: as) [.node .call (.empty first.location.start) (callee :: args)] := by
  obtain ⟨t, hspelled, hmeans⟩ := ha
  refine allAmong_node_iff.2 ⟨⟨fun _ => ?_, by simp⟩, ?_⟩
  · exact ⟨_, callee, args, [], cs, first, as, [], rfl, by simp, hc, ⟨t, hspelled, hmeans⟩,
      hmeans.first_of_args hspelled, rfl⟩
  · exact allAmong_append_iff.2 ⟨hcs.append_right _, has.append_left cs⟩

theorem ne_of_infixOp? {symbol : Symbol} {op : Op} (h : Meaning.infixOp? symbol = some op) :
    op ≠ .call ∧ op ≠ .closure := by
  cases symbol <;> cases h <;> exact ⟨by simp, by simp⟩

theorem RawTree.Means.allAmong {t : RawTree} {place : Place} {es : List Expr} (h : t.Means place es)
    {ts : List Token} (hs : t.Spelled ts) : place.AllAmong ts es := by
  induction h generalizing ts with
  | leaf l location => exact allAmong_leafExpr location l
  | round _ ih | args _ ih =>
    cases hs with
    | @group _ first last _ inside hf hl hi => exact (ih hi).append [first] [last]
  | @curly _ _ items h ih =>
    cases hs with
    | @group _ first last _ inside hf hl hi =>
      refine allAmong_node_iff.2 ⟨⟨by simp, fun _ => ?_⟩, (ih hi).append [first] [last]⟩
      exact ⟨_, items, [], first, inside, last, [], rfl, by simp, ⟨_, hi, h⟩, hf, hl, rfl⟩
  | apply hc ha ihc iha =>
    cases hs with
    | apply hcs has => exact .call ⟨_, hcs, hc⟩ (ihc hcs) ⟨_, has, ha⟩ (iha has)
  | @lead _ _ location _ _ _ _ hop _ ih =>
    obtain ⟨hcall, hclosure⟩ := ne_of_infixOp? hop
    cases hs with
    | @binary token _ _ _ _ rs hsym hl hr =>
      cases hl
      exact .node hcall hclosure _ ((ih hr).append_left [token])
  | binary hop _ _ _ ihl ihr =>
    obtain ⟨hcall, hclosure⟩ := ne_of_infixOp? hop
    cases hs with
    | @binary token _ _ _ ls rs hsym hl hr =>
      have hright := ((ihr hr).append_left [token]).append_left ls
      exact .node hcall hclosure _ (.pair ((ihl hl).append_right _) hright)
  | dot hmeans _ ihl ihr =>
    cases hs with
    | binary hsym hl hr => exact ihr hr _ _ _ hl hmeans hsym rfl (ihl hl)
  -- What follows a dot also needs the tokens of the dot and of its target, which stand before its own.
  | keyName dot target name location =>
    intro left ls token hl hmeans hsym hdot hleft
    exact .node (by simp) (by simp) dot (.pair (hleft.append_right _) (allAmong_stringLeaf location name))
  | @keyApply _ target _ callee _ c _ hc ha ihc iha =>
    intro left ls token hl hmeans hsym hdot hleft
    cases hs with
    | @apply _ _ cs as first hcs has =>
      -- The callee is the access to the field, not the field alone.
      have hspells : Spells (ls ++ token :: cs) .term [c] :=
        ⟨_, .binary hsym hl hcs, .dot hmeans (hdot.symm ▸ hc)⟩
      simpa using AllAmong.call hspells (ihc hcs _ _ _ hl hmeans hsym hdot hleft) ⟨_, has, ha⟩ (iha has)
  | @keyTerm dot _ _ _ _ _ _ ih =>
    intro left ls token hl hmeans hsym hdot hleft
    have hright := ((ih hs).append_left [token]).append_left ls
    exact .node (by simp) (by simp) dot (.pair (hleft.append_right _) hright)
  | noArgs => exact allAmong_nil
  | item _ ih | one _ ih => exact ih hs
  | @assign location _ _ _ _ _ ih =>
    cases hs with
    | @binary token _ _ _ ls rs hsym hl hr =>
      have hright := ((ih hr).append_left [token]).append_left ls
      exact .node (by simp) (by simp) _ (.pair (allAmong_stringLeaf _ _) hright)
  | comma _ _ ihl ihr =>
    cases hs with
    | @binary token _ _ _ ls rs hsym hl hr =>
      have hright := ((ihr hr).append_left [token]).append_left ls
      exact allAmong_append_iff.2 ⟨(ihl hl).append_right _, hright⟩

/-! ## Source texts -/

/-- Each operator among the tokens of a text makes a tag that no other one makes. -/
theorem LaidOut.count_tag? {offset : Nat} {chars : List Char} {tokens : List Token} (h : LaidOut offset chars tokens)
    {token : Token} (ht : token ∈ tokens) {tag : Tag} (htag : token.tag? = some tag) :
    (tokens.filterMap Token.tag?).count tag = 1 := by
  have hnodup : (tokens.filterMap Token.tag?).Nodup := by
    refine List.Pairwise.filterMap _ (fun a b hlt x hx y hy hxy => ?_) h.pairwise_start
    rw [Token.location_of_tag? hx, Token.location_of_tag? hy, hxy] at hlt
    exact Nat.lt_irrefl _ hlt
  rw [hnodup.count, if_pos (List.mem_filterMap.2 ⟨token, ht, htag⟩)]

/-- The expression of a source text without faults is faithful to the text. Its leaves are the literals
and names of the text, and each other token that is no bracket and no comma is the tag of exactly one
node, whose location covers the operator. A call is placed at the bracket that opens its arguments, and
what a closure is placed at begins and ends with its brackets. -/
theorem canonical_tree_is_faithful {source : String} {parsed : Parsed} (h : parse source = .ok parsed)
    (hok : parsed.errors = []) :
    parsed.expr.walk.filter Expr.isLeaf = tokenLeaves false (tokenize source).1 ∧
    (∀ token ∈ (tokenize source).1, ∀ symbol, token.symbol? = some symbol → symbol.isBracket = false →
      symbol ≠ .comma → token.location.slice? source = some symbol.text ∧
        ∃ op, op.text = symbol.text ∧ (parsed.expr.walk.filterMap Expr.tag?).count ⟨op, token.location⟩ = 1) ∧
    (∀ e ∈ parsed.expr.walk, e.op? = some .call → CallAmong (tokenize source).1 e) ∧
    (∀ e ∈ parsed.expr.walk, ∀ location, e.tag? = some ⟨.closure, location⟩ →
      ∃ inside, location.slice? source = some ("\x7b" ++ inside ++ "\x7d")) := by
  obtain ⟨tree, hsource, hmeans⟩ := parse_eq_ok h hok
  obtain ⟨hlex, hspelled⟩ := RawTree.spelled_of_ofSource hsource
  have htidy := RawTree.tidy_of_ofSource hsource
  have hlaid := laidOut_lexemes hlex
  have hwalk : parsed.expr.walk = Expr.walkAll [parsed.expr] := by simp [Expr.walkAll]
  have hall : AllAmong (tokenize source).1 [parsed.expr] := hmeans.allAmong hspelled
  rw [hwalk]
  refine ⟨?_, ?_, fun e he => (hall e he).1, ?_⟩
  · have hleaves : tokenLeaves false ((tokenize source).1 ++ []) = leaves [parsed.expr] ++ [] :=
      hmeans.leaves htidy (by simp [RawTree.Place.afterDot]) hspelled rfl
    rw [List.append_nil, List.append_nil] at hleaves
    exact hleaves.symm
  · intro token ht symbol hs hb hc
    obtain ⟨op, hop, htext, hoperator⟩ := Symbol.exists_op hb hc
    have htag := Token.tag?_of_op? hs hop
    have hcount : tagged ⟨op, token.location⟩ [parsed.expr] = 0 + _ := hmeans.tagged hoperator hspelled
    rw [hlaid.count_tag? ht htag] at hcount
    refine ⟨?_, op, htext, hcount⟩
    rw [Symbol.text_of_ofText? hs]
    exact hlaid.slice?_token ht
  · intro e he location htag
    have hop : e.op? = some .closure := by rw [Expr.op?, htag]; rfl
    obtain ⟨place, items, before, first, inside, last, after, rfl, htokens, -, hf, hl, rfl⟩ := (hall e he).2 hop
    cases htag
    rw [htokens] at hlaid
    obtain ⟨middle, hmiddle⟩ := hlaid.slice?_span
    rw [← Symbol.text_of_ofText? hf, ← Symbol.text_of_ofText? hl] at hmiddle
    exact ⟨middle, hmiddle⟩

theorem field_call_is_faithful :
    ∃ parsed, parse "a.b({c})" = .ok parsed ∧ parsed.errors = [] ∧
      parsed.expr.walk.filter Expr.isLeaf = tokenLeaves false (tokenize "a.b({c})").1 := by
  obtain ⟨parsed, hparse, hok⟩ : ∃ parsed, parse "a.b({c})" = .ok parsed ∧ parsed.errors = [] := ⟨_, rfl, rfl⟩
  exact ⟨parsed, hparse, hok, (canonical_tree_is_faithful hparse hok).1⟩

end DynamicConfig

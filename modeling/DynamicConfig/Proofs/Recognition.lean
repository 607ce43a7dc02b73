import DynamicConfig.Proofs.Leaves
import DynamicConfig.Proofs.WhereClauses
/-!
# Patterns and tags

Where clauses and bindings are recognised by patterns, in which a tag reads as the text of its kind; so a text that spells
a kind can pass for a tag. In a canonical tree it cannot: the patterns recognise exactly the nodes whose tags say so, and
take them apart as the tags do (`Expr.Canonical.patternsAgree`). So a chain of bindings is the chain of its tags, and its
names are bound, unless one of them is bound already (`Expr.Canonical.bindsItsChain`).
-/

namespace DynamicConfig

open Treelike (asText?)

namespace Expr

variable {e value : Expr} {args : List Expr} {name : String}

/-! ## Reading the tags -/

/-- By its tags, a tree is a call of the name `where` with these arguments. -/
def CallsWhere (e : Expr) (args : List Expr) : Prop :=
  e.op? = some .call ∧ ∃ callee, e.children = callee :: args ∧ callee.asName? = some "where"

/-- By its tags, a tree binds a name, the text of its left leaf, to its right child. -/
def Assigns (e : Expr) (name : String) (value : Expr) : Prop :=
  e.isAssign = true ∧ ∃ target, e.children = [target, value] ∧ target.asStringLiteral? = some name

/-- By its tags, a tree is a chain of bindings of these names, at the end of which stands an expression that is no
binding. -/
inductive ChainOf : Expr → List String → Expr → Prop
  | shared {e : Expr} (h : e.isAssign = false) : ChainOf e [] e
  | binding {e value shared : Expr} {name : String} {names : List String} (h : e.Assigns name value)
    (hv : ChainOf value names shared) : ChainOf e (name :: names) shared

/-- Patterns and tags agree about a tree: it is taken for a where clause or a binding exactly if its tags say so, and it is
taken apart as they say. -/
structure PatternsAgree (e : Expr) : Prop where
  whereArgs (args : List Expr) : e.whereArgs? = some args ↔ e.CallsWhere args
  isBinding : e.asBinding?.isSome = e.isAssign
  asBinding (name : String) (value : Expr) : e.asBinding? = some (name, value) ↔ e.Assigns name value

/-- A tree binds the names of its chain in their order, the first one to the expression at the end of the chain and each
other one to the name before it. It is refused only for a name that is bound already. -/
def BindsItsChain (e : Expr) : Prop :=
  ∃ names shared location, e.ChainOf names shared ∧ shared.isAssign = false ∧ e.location? = some location ∧
    ∀ bindings : Bindings,
      (∀ bindings', bindings.bindChain e = .ok bindings' ↔
        names.Nodup ∧ (∀ name ∈ names, bindings.contains (.string name) = false) ∧
          bindings' = bindings ++ List.zipWith (fun name expr => ⟨.string name, .unevaluated expr⟩) names
            (shared :: names.map (.nameLeaf location))) ∧
      ∀ reason, bindings.bindChain e = .error reason → ∃ name ∈ names, reason = duplicateName name

theorem node_of_op? {op : Op} (h : e.op? = some op) : ∃ location, e = .node op location e.children := by
  obtain ⟨tag, htag, rfl⟩ := Option.map_eq_some_iff.1 h
  unfold tag? at htag
  split at htag
  · cases htag
    exact ⟨tag.location, rfl⟩
  · cases htag

theorem ChainOf.not_isAssign {names : List String} {shared : Expr} (h : e.ChainOf names shared) :
    shared.isAssign = false := by
  induction h with
  | shared h => exact h
  | binding _ _ ih => exact ih

/-! ## What the patterns recognise -/

/-- A call of the name `where` is recognised in any tree. -/
theorem CallsWhere.whereArgs? (h : e.CallsWhere args) : e.whereArgs? = some args := by
  obtain ⟨hop, callee, hchildren, hname⟩ := h
  obtain ⟨location, he⟩ := node_of_op? hop
  obtain ⟨place, rfl⟩ := asName?_eq_some hname
  rw [he, hchildren]
  exact whereArgs?_eq_some_iff.2 ⟨_, _, _, rfl, rfl, rfl, rfl⟩

/-- A binding is recognised in any tree. -/
theorem Assigns.asBinding? (h : e.Assigns name value) : e.asBinding? = some (name, value) := by
  obtain ⟨hassign, target, hchildren, htext⟩ := h
  obtain ⟨location, he⟩ := node_of_op? (beq_iff_eq.1 hassign)
  obtain ⟨place, rfl⟩ := asStringLiteral?_eq_some htext
  rw [he, hchildren]
  exact asBinding?_assign location place name value

theorem Canonical.exists_payload_of_name {location : Location} {children : List Expr}
    (h : (node .name location children).Canonical .term) : ∃ name, children = [.string name] := by
  generalize hnode : node .name location children = e at h
  cases h with
  | name place name =>
    cases hnode
    exact ⟨name, rfl⟩
  | operator hn _ =>
    cases hnode
    cases hn
  | _ => cases hnode

/-- A canonical pair that reads as a name is one. -/
theorem Canonical.asName?_of_texts {kind payload : Expr} (h : (list [kind, payload]).Canonical .term)
    (hkind : asText? kind = some "name") (hpayload : asText? payload = some name) :
    (list [kind, payload]).asName? = some name := by
  obtain ⟨op, location, children, hnode⟩ := h.exists_node
  cases hnode
  obtain rfl : op = .name := op_of_asText?_tag hkind
  obtain ⟨text, hchildren⟩ := h.exists_payload_of_name
  cases hchildren
  exact congrArg some (Option.some.inj hpayload)

/-- Where clauses of canonical trees are the calls of the name `where`. -/
theorem Canonical.whereArgs?_eq_some_iff (h : e.Canonical .item) : e.whereArgs? = some args ↔ e.CallsWhere args := by
  refine ⟨fun hwhere => ?_, CallsWhere.whereArgs?⟩
  obtain ⟨location, callee, rfl, hcallee, -⟩ := h.call_of_whereArgs? hwhere
  obtain ⟨head, kind, payload, hnode, -, hkind, hpayload⟩ := Expr.whereArgs?_eq_some_iff.1 hwhere
  cases hnode
  exact ⟨rfl, _, rfl, hcallee.asName?_of_texts hkind hpayload⟩

/-- Texts in the places of tags are taken for tags, but no canonical tree has them there. -/
example : (list [.string "call", .list [.string "name", .string "where"]]).whereArgs? = some [] ∧
    (list [.string "call", .list [.string "name", .string "where"]]).op? = none :=
  ⟨rfl, rfl⟩

/-- Bindings of canonical trees are the nodes of `=`. -/
theorem Canonical.asBinding?_eq_some_iff (h : e.Canonical .item) :
    e.asBinding? = some (name, value) ↔ e.Assigns name value := by
  refine ⟨fun hbinding => ?_, Assigns.asBinding?⟩
  cases h with
  | item h =>
    rw [h.asBinding?_eq_none] at hbinding
    cases hbinding
  | assign hv =>
    rw [asBinding?_assign] at hbinding
    cases hbinding
    exact ⟨rfl, _, rfl, rfl⟩

theorem Canonical.patternsAgree (h : e.Canonical .item) : e.PatternsAgree :=
  ⟨fun _ => h.whereArgs?_eq_some_iff, h.isSome_asBinding?, fun _ _ => h.asBinding?_eq_some_iff⟩

/-- What is refused as no binding has no tag of one. -/
theorem PatternsAgree.bindChain_eq_missing_iff (h : e.PatternsAgree) (bindings : Bindings) :
    bindings.bindChain e = .error "missing = in where" ↔ e.isAssign = false := by
  rw [Bindings.bindChain_eq_missing_iff, isBinding_iff, h.isBinding, Bool.not_eq_true]

/-! ## Chains -/

/-- The names of a chain and what they share are read off its tags. -/
theorem Canonical.chainOf_bindingChain (h : e.Canonical .item) : e.ChainOf e.bindingChain.1 e.bindingChain.2 := by
  generalize hrole : Role.item = role at h
  induction h with
  | item h =>
    rw [bindingChain_of_asBinding?_eq_none h.asBinding?_eq_none]
    exact .shared h.not_isAssign
  | assign _ ih =>
    rw [bindingChain_assign]
    exact .binding ⟨rfl, _, rfl, rfl⟩ (ih hrole)
  | _ => cases hrole

theorem bound_eq_zipWith {location : Location} (h : e.location? = some location) :
    e.bound = List.zipWith (fun name expr => ⟨.string name, .unevaluated expr⟩) e.bindingChain.1
      (e.bindingChain.2 :: e.bindingChain.1.map (.nameLeaf location)) := by
  rw [bound, h, Option.getD_some, aliases_eq_zip, List.map_zip_eq_zipWith]
  rfl

/-- A canonical binding binds the names of its chain. -/
theorem Canonical.bindsItsChain (h : e.Canonical .item) (ha : e.isAssign = true) : e.BindsItsChain := by
  obtain ⟨location, he⟩ := node_of_op? (beq_iff_eq.1 ha)
  have hlocation : e.location? = some location := by
    rw [he]
    rfl
  have hchain := h.chainOf_bindingChain
  have hbinding := h.isBinding_iff.2 ha
  refine ⟨_, _, location, hchain, hchain.not_isAssign, hlocation, fun bindings => ⟨fun bindings' => ?_, fun reason => ?_⟩⟩
  · rw [Bindings.bindChain_eq_ok_iff, bound_eq_zipWith hlocation]
    exact and_iff_right hbinding
  · exact Bindings.of_bindChain_eq_error hbinding

/-! ## The parts of a tree -/

/-- What stands in a leaf after its tag. -/
inductive IsPayload : Expr → Prop
  | string (text : String) : IsPayload (.string text)
  | number (value : Float) : IsPayload (.number value)
  | bool (value : Bool) : IsPayload (.bool value)

/-- A payload is recognised neither by its tag, as it has none, nor by a pattern. -/
theorem IsPayload.patternsAgree (h : e.IsPayload) : e.PatternsAgree := by
  have hnone : e.whereArgs? = none ∧ e.asBinding? = none ∧ e.op? = none := by
    cases h <;> exact ⟨rfl, rfl, rfl⟩
  obtain ⟨hwhere, hbinding, hop⟩ := hnone
  refine ⟨fun args => ⟨fun h => ?_, CallsWhere.whereArgs?⟩, ?_, fun name value => ⟨fun h => ?_, Assigns.asBinding?⟩⟩
  · rw [hwhere] at h
    cases h
  · rw [hbinding, isAssign, hop]
    rfl
  · rw [hbinding] at h
    cases h

theorem IsPayload.not_isAssign (h : e.IsPayload) : e.isAssign = false := by
  cases h <;> rfl

/-- Everything in a canonical tree is canonical, but for the payloads of its leaves. -/
theorem Canonical.of_mem_walk {role : Role} (h : e.Canonical role) :
    ∀ part ∈ e.walk, part.Canonical .item ∨ part.IsPayload := by
  have hleaf {op : Op} {location : Location} {payload : Expr} (hnode : (node op location [payload]).Canonical .term)
      (hpayload : payload.IsPayload) (hwalk : payload.walk = [payload]) :
      ∀ part ∈ (node op location [payload]).walk, part.Canonical .item ∨ part.IsPayload := by
    refine forall_walk_node_iff.2 ⟨.inl (.item hnode), List.forall_mem_singleton.2 ?_⟩
    rw [hwalk]
    exact List.forall_mem_singleton.2 (.inr hpayload)
  induction h with
  | string location text => exact hleaf (.string location text) (.string text) (by simp [walk])
  | number location x => exact hleaf (.number location x) (.number x) (by simp [walk])
  | bool location b => exact hleaf (.bool location b) (.bool b) (by simp [walk])
  | name location name => exact hleaf (.name location name) (.string name) (by simp [walk])
  | operator hn ho ih => exact forall_walk_node_iff.2 ⟨.inl (.item (.operator hn ho)), ih⟩
  | call hc ha ihc iha =>
    exact forall_walk_node_iff.2 ⟨.inl (.item (.call hc ha)), List.forall_mem_cons.2 ⟨ihc, iha⟩⟩
  | closure hne hi ih => exact forall_walk_node_iff.2 ⟨.inl (.item (.closure hne hi)), ih⟩
  | item _ ih => exact ih
  | @assign _ place name _ hv ih =>
    refine forall_walk_node_iff.2 ⟨.inl (.assign hv), List.forall_mem_cons.2 ⟨?_, List.forall_mem_singleton.2 ih⟩⟩
    exact hleaf (.string place name) (.string name) (by simp [walk])

end Expr

/-- Throughout the expression of a source text without faults, patterns and tags agree. A where clause is a call of the name
`where` and is taken for its arguments, a binding is a node of `=` and is taken for the text of its left leaf and its right
child. So only what is no node of `=` is refused as no binding, and each node of `=` binds exactly the names of its chain. -/
theorem patterns_recognise_what_tags_say {source : String} {parsed : Parsed} (h : parse source = .ok parsed)
    (hok : parsed.errors = []) :
    ∀ part ∈ parsed.expr.walk,
      part.PatternsAgree ∧
      (∀ bindings : Bindings, bindings.bindChain part = .error "missing = in where" ↔ part.isAssign = false) ∧
      (part.isAssign = true → part.BindsItsChain) := by
  intro part hpart
  rcases (canonical_of_parse h hok).of_mem_walk part hpart with hitem | hpayload
  · have hagree := hitem.patternsAgree
    exact ⟨hagree, hagree.bindChain_eq_missing_iff, hitem.bindsItsChain⟩
  · have hagree := hpayload.patternsAgree
    refine ⟨hagree, hagree.bindChain_eq_missing_iff, fun hassign => ?_⟩
    rw [hpayload.not_isAssign] at hassign
    cases hassign

/-- A string that reads `where` is no where clause, and one that reads `=` ends a chain. -/
theorem texts_are_not_taken_for_tags :
    let text : Expr := .stringLeaf ⟨2, 9⟩ "where"
    let shared : Expr := .stringLeaf ⟨25, 28⟩ "="
    let chain : Expr :=
      .node .assign ⟨19, 20⟩ [.stringLeaf ⟨17, 18⟩ "y", .node .assign ⟨23, 24⟩ [.stringLeaf ⟨21, 22⟩ "z", shared]]
    let clause : Expr := .node .call ⟨16, 16⟩ [.nameLeaf ⟨11, 16⟩ "where", chain]
    let e : Expr := .node .call ⟨1, 1⟩ [.nameLeaf ⟨0, 1⟩ "f", text, clause]
    parse "f(\"where\", where(y = z = \"=\"))" = .ok ⟨e, []⟩ ∧
      text ∈ e.walk ∧ text.whereArgs?.isSome = false ∧
      clause ∈ e.walk ∧ clause.whereArgs? = some [chain] ∧
      chain ∈ e.walk ∧ chain.asBinding?.isSome = true ∧ chain.BindsItsChain ∧
      chain.ChainOf ["y", "z"] shared ∧
      Bindings.bindChain [] chain =
        .ok [⟨.string "y", .unevaluated shared⟩, ⟨.string "z", .unevaluated (.nameLeaf ⟨19, 20⟩ "y")⟩] := by
  intro text shared chain clause e
  have hparse : parse "f(\"where\", where(y = z = \"=\"))" = .ok ⟨e, []⟩ := rfl
  have hagree := patterns_recognise_what_tags_say hparse rfl
  have htext : text ∈ e.walk := List.mem_of_getElem? (i := 3) rfl
  have hclause : clause ∈ e.walk := List.mem_of_getElem? (i := 5) rfl
  have hchain : chain ∈ e.walk := List.mem_of_getElem? (i := 8) rfl
  refine ⟨hparse, htext, ?_, hclause, ?_, hchain, ?_, ?_, ?_, rfl⟩
  · rw [Bool.eq_false_iff]
    intro hsome
    obtain ⟨args, hargs⟩ := Option.isSome_iff_exists.1 hsome
    cases (((hagree text htext).1.whereArgs args).1 hargs).1
  · exact ((hagree clause hclause).1.whereArgs [chain]).2 ⟨rfl, _, rfl, rfl⟩
  · exact (hagree chain hchain).1.isBinding
  · exact (hagree chain hchain).2.2 rfl
  · exact .binding ⟨rfl, _, rfl, rfl⟩ (.binding ⟨rfl, _, rfl, rfl⟩ (.shared rfl))

end DynamicConfig

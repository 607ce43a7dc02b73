import DynamicConfig.Evaluation
import DynamicConfig.Host.Builtin
import DynamicConfig.Proofs.Canonical
import DynamicConfig.Proofs.Clauses
import DynamicConfig.Proofs.Matching
/-!
# Machines with canonical expressions

A machine is clean if the expressions in its bindings and in the bodies of closures are canonical. Safe
work leaves a clean machine clean and does not fail, unless it is interrupted (`Eval.Safe`). Bindings
that are made of canonical items are clean (`canonicalItems`).
-/

namespace DynamicConfig

open DynamicConfig.Expr (Canonical)

/-! ## Values and machines with canonical expressions only -/

/-- Every closure in the value has a canonical body. -/
inductive Value.Clean : Value → Prop
  | bool (b : Bool) : Clean (.bool b)
  | number (x : Float) : Clean (.number x)
  | string (text : String) : Clean (.string text)
  | error (message : String) : Clean (.error message)
  | object {id : Nat} {fields : List (Value × Value)} (h : ∀ field ∈ fields, Clean field.2) : Clean (.object id fields)
  | scope (id : ScopeId) : Clean (.scope id)
  | function (code : String) : Clean (.function code)
  | lazyFunction (code : String) : Clean (.lazyFunction code)
  | closure {id : Nat} {body : Expr} {scope : ScopeId} (h : body.Canonical .term) : Clean (.closure id body scope)

/-- What is known of a binding has canonical expressions only. -/
def EntryState.Clean : EntryState → Prop
  | .unevaluated e => e.Canonical .term
  | .inProgress => True
  | .evaluated v => v.Clean

/-- All bindings have canonical expressions only. -/
def Bindings.Clean (bindings : Bindings) : Prop :=
  ∀ entry ∈ bindings, entry.state.Clean

/-- All scopes have canonical expressions only. -/
def Scopes.Clean (scopes : Scopes) : Prop :=
  ∀ scope ∈ scopes, scope.bindings.Clean

/-- Every expression that waits for its evaluation, and every body of a closure, is canonical. -/
def Machine.Clean (m : Machine) : Prop :=
  m.scopes.Clean

theorem Bindings.clean_nil : Bindings.Clean [] := by
  simp [Clean]

theorem Value.clean_fieldOf? {fields : List (Value × Value)} (h : ∀ field ∈ fields, field.2.Clean) {key v : Value}
    (hv : Value.fieldOf? fields key = some v) : v.Clean := by
  rw [Value.fieldOf?, Option.map_eq_some_iff] at hv
  obtain ⟨field, hfind, rfl⟩ := hv
  exact h field (List.mem_of_find?_eq_some hfind)

theorem Value.clean_insertField {fields : List (Value × Value)} (h : ∀ field ∈ fields, field.2.Clean) (key : Value)
    {v : Value} (hv : v.Clean) : ∀ field ∈ Value.insertField key v fields, field.2.Clean := by
  induction fields with
  | nil => simpa [Value.insertField] using hv
  | cons field rest ih =>
    obtain ⟨hfield, hrest⟩ := List.forall_mem_cons.1 h
    obtain ⟨k, w⟩ := field
    rw [Value.insertField]
    split
    · exact List.forall_mem_cons.2 ⟨hv, hrest⟩
    · exact List.forall_mem_cons.2 ⟨hfield, ih hrest⟩

namespace Scopes

variable {scopes : Scopes}

theorem Clean.get (h : scopes.Clean) (id : ScopeId) : (scopes.get id).bindings.Clean := by
  unfold Scopes.get Array.getD
  split
  · exact h _ (Array.getElem_mem _)
  · exact Bindings.clean_nil

theorem Clean.add (h : scopes.Clean) (parent : Option ScopeId) {bindings : Bindings} (hb : bindings.Clean) :
    (scopes.add parent bindings).2.Clean := by
  intro scope hscope
  rcases Array.mem_push.1 hscope with hold | rfl
  · exact h scope hold
  · exact hb

theorem Clean.setState (h : scopes.Clean) (id : ScopeId) (place : Nat) {state : EntryState} (hs : state.Clean) :
    (scopes.setState id place state).Clean := by
  intro scope hscope
  rw [Scopes.setState] at hscope
  obtain ⟨i, hi, rfl⟩ := Array.mem_iff_getElem.1 hscope
  rw [Array.size_modify] at hi
  rw [Array.getElem_modify]
  have hold : scopes[i].bindings.Clean := h _ (Array.getElem_mem _)
  split
  · intro entry hentry
    obtain ⟨j, hj, rfl⟩ := List.mem_iff_getElem.1 hentry
    rw [List.getElem_modify]
    split
    · exact hs
    · exact hold _ (List.getElem_mem _)
  · exact hold

theorem Clean.find? (h : scopes.Clean) {id : ScopeId} {name : Value} {holder : ScopeId} {place : Nat} {entry : Entry}
    (hfind : scopes.find? id name = some (holder, place, entry)) : entry.state.Clean :=
  h.get holder _ (List.mem_of_getElem? (getElem?_of_find? hfind))

end Scopes

/-! ## Work that keeps a machine clean -/

namespace Eval

variable {α β : Type} {Fine : α → Prop} {Good : β → Prop} {work : Eval α} {next : α → Eval β}

/-- An outcome that is fine, or an interruption. -/
def IsFine (Fine : α → Prop) : Except FatalError α → Prop
  | .ok a => Fine a
  | .error e => e = .interrupted

/-- From a clean machine the work goes to a clean one, with an outcome that is fine or an
interruption. -/
def Safe (Fine : α → Prop) (work : Eval α) : Prop :=
  ∀ m : Machine, m.Clean → IsFine Fine (work.run.run m).1 ∧ (work.run.run m).2.Clean

theorem safe_pure {a : α} (h : Fine a) : Safe Fine (pure a) :=
  fun _ hm => ⟨h, hm⟩

theorem Safe.bind (h : Safe Fine work) (hnext : ∀ a, Fine a → Safe Good (next a)) : Safe Good (work >>= next) := by
  intro m hm
  obtain ⟨hfine, hclean⟩ := h m hm
  rw [ExceptT.run_bind, StateT.run_bind]
  cases hw : work.run.run m with
  | mk outcome m' =>
    rw [hw] at hfine hclean
    cases outcome with
    | error e => exact ⟨hfine, hclean⟩
    | ok a => exact hnext a hfine m' hclean

/-- Work that hands on an error value at once. -/
theorem Safe.bindValue {work : Eval Value} {next : Value → Eval Value} (h : Safe Value.Clean work)
    (hnext : ∀ v, v.Clean → Safe Value.Clean (next v)) :
    Safe Value.Clean (do let v ← work; if v.isError then return v else next v) := by
  refine h.bind fun v hv => ?_
  split
  · exact safe_pure hv
  · exact hnext v hv

theorem safe_get : Safe Machine.Clean (get : Eval Machine) :=
  fun _ hm => ⟨hm, hm⟩

/-- A change of the machine that leaves the scopes clean. -/
theorem safe_modify {change : Machine → Machine} (h : ∀ m, m.Clean → (change m).Clean) :
    Safe (fun _ => True) (modify change : Eval Unit) :=
  fun m hm => ⟨trivial, h m hm⟩

theorem Safe.around {enter leave : Machine → Machine} (henter : ∀ m, m.Clean → (enter m).Clean)
    (hleave : ∀ m, m.Clean → (leave m).Clean) (h : Safe Fine work) : Safe Fine (around enter leave work) := by
  intro m hm
  obtain ⟨hfine, hclean⟩ := h (enter m) (henter m hm)
  exact ⟨hfine, hleave _ hclean⟩

theorem Safe.inside {enter leave : Context → Context} (h : Safe Fine work) : Safe Fine (inside enter leave work) :=
  h.around (fun _ hm => hm) fun _ hm => hm

theorem safe_checkInterrupt (host : Host) : Safe (fun _ => True) host.checkInterrupt := by
  intro m hm
  rw [host.run_checkInterrupt]
  refine ⟨?_, hm⟩
  cases host.stops m.context
  · exact trivial
  · exact rfl

theorem safe_refuse (reason : String) : Safe Value.Clean (refuse reason) :=
  (safe_modify fun _ hm => hm).bind fun _ _ => safe_pure (.error reason)

theorem safe_detectCircle (name : String) : Safe Value.Clean (detectCircle name) :=
  (safe_modify fun _ hm => hm).bind fun _ _ => safe_pure (.error _)

theorem Safe.inCallOr {refused work : Eval Value} (hrefused : Safe Value.Clean refused) (h : Safe Value.Clean work) :
    Safe Value.Clean (inCallOr refused work) := by
  refine safe_get.bind fun m _ => ?_
  dsimp only
  split
  · exact h.inside
  · exact hrefused

theorem Safe.inCall {work : Eval Value} (h : Safe Value.Clean work) : Safe Value.Clean (inCall work) :=
  Safe.inCallOr (safe_refuse _) h

theorem safe_setState (id : ScopeId) (place : Nat) {state : EntryState} (hs : state.Clean) :
    Safe (fun _ => True) (setState id place state) :=
  safe_modify fun _ hm => hm.setState id place hs

theorem safe_fresh (id : Fresh α) : Safe (fun _ => True) (fresh id) :=
  fun _ hm => ⟨trivial, hm⟩

theorem safe_newScope (parent : ScopeId) {bindings : Bindings} (hb : bindings.Clean) :
    Safe (fun _ => True) (newScope parent bindings) :=
  fun _ hm => ⟨trivial, hm.add (some parent) hb⟩

end Eval

/-- The evaluator is safe on every canonical term. -/
def Evaluator.Safe (run : Evaluator) : Prop :=
  ∀ e scope, e.Canonical .term → Eval.Safe Value.Clean (run e scope)

/-- The functions of the host are safe, too. -/
structure Host.Safe (host : Host) : Prop where
  function : ∀ code function args, host.function? code = some function → (∀ v ∈ args, v.Clean) →
    Eval.Safe Value.Clean (function args)
  lazyFunction : ∀ code function run args scope, host.lazyFunction? code = some function → Evaluator.Safe run →
    (∀ arg ∈ args, arg.Canonical .item) → Eval.Safe Value.Clean (function run args scope)

/-! ## Bindings among canonical items -/

open Treelike (asText?)

namespace Expr

variable {e : Expr}

/-- A canonical where clause is a call of items. -/
theorem Canonical.call_of_whereArgs? (h : e.Canonical .item) {clauses : List Expr} (hw : e.whereArgs? = some clauses) :
    ∃ location callee, e = .node .call location (callee :: clauses) ∧ callee.Canonical .term ∧
      ∀ clause ∈ clauses, clause.Canonical .item := by
  cases h with
  | assign => exact absurd (node_of_whereArgs? hw).1 (by simp)
  | item h =>
    cases h with
    | call hc ha =>
      obtain ⟨-, callee, hargs⟩ := node_of_whereArgs? hw
      cases hargs
      exact ⟨_, _, rfl, hc, ha⟩
    | operator hn _ =>
      obtain ⟨rfl, -⟩ := node_of_whereArgs? hw
      cases hn
    | _ => exact absurd (node_of_whereArgs? hw).1 (by simp)

/-- The clauses of a where clause are items. -/
theorem Canonical.whereArgs? (h : e.Canonical .item) {clauses : List Expr} (hw : e.whereArgs? = some clauses) :
    ∀ clause ∈ clauses, clause.Canonical .item := by
  obtain ⟨_, _, -, -, hclauses⟩ := h.call_of_whereArgs? hw
  exact hclauses

/-- A binding of a canonical item, its name and its value. -/
theorem asBinding?_assign (location nameLocation : Location) (name : String) (value : Expr) :
    (node .assign location [.stringLeaf nameLocation name, value]).asBinding? = some (name, value) :=
  asBinding?_eq_some_iff.2 ⟨_, _, _, rfl, rfl, rfl, rfl⟩

theorem Canonical.asBinding?_eq_none (h : e.Canonical .term) : e.asBinding? = none := by
  rw [Option.eq_none_iff_forall_ne_some]
  rintro ⟨name, value⟩ hb
  have hassign := h.not_isAssign
  obtain ⟨op, location, children, rfl⟩ := h.exists_node
  obtain rfl := op_of_asBinding? hb
  cases hassign

theorem bindingChain_of_asBinding?_eq_none (h : e.asBinding? = none) : e.bindingChain = ([], e) := by
  unfold bindingChain
  split
  · simp [h]
  · rfl

theorem bindingChain_assign (location nameLocation : Location) (name : String) (value : Expr) :
    (node .assign location [.stringLeaf nameLocation name, value]).bindingChain =
      (name :: value.bindingChain.1, value.bindingChain.2) := by
  have h := asBinding?_assign location nameLocation name value
  rw [node] at h ⊢
  rw [bindingChain, h]

/-- The value that a chain of bindings shares is a term. -/
theorem Canonical.bindingChain (h : e.Canonical .item) : e.bindingChain.2.Canonical .term := by
  generalize hrole : Role.item = role at h
  induction h with
  | item h => rwa [bindingChain_of_asBinding?_eq_none h.asBinding?_eq_none]
  | assign _ ih =>
    rw [bindingChain_assign]
    exact ih hrole
  | _ => cases hrole

end Expr

namespace Bindings

theorem canonical_aliases (location : Location) {value : Expr} (h : value.Canonical .term) (names : List String) :
    ∀ pair ∈ aliases location value names, pair.2.Canonical .term := by
  induction names generalizing value with
  | nil => simp [aliases]
  | cons name rest ih => exact List.forall_mem_cons.2 ⟨h, ih (.name location name)⟩

end Bindings

/-- Canonical items. Their expressions leave bindings clean. -/
def canonicalItems : ItemKind where
  Item e := e.Canonical .item
  Term e := e.Canonical .term
  State := EntryState.Clean
  clauses h hwhere := h.whereArgs? hwhere
  chain h location := Bindings.canonical_aliases location h.bindingChain _
  term h hassign := h.term_of_not_isAssign hassign

end DynamicConfig

import DynamicConfig.Host.Builtin
import DynamicConfig.Proofs.Clauses
/-!
# Contracts of evaluation

A contract relates the machine before some work and the machine afterwards, whatever the outcome. If it holds
of the basic changes that evaluation makes, it holds of evaluation (`Contract.meets_evaluate`), of looking
things up and of calls, on any tree. As for the rules (`Safety`), each is shown to meet the contract if the
evaluator that it is given does.
-/

namespace DynamicConfig

/-- No binding is being evaluated. -/
def Bindings.Idle (bindings : Bindings) : Prop :=
  bindings.All (· ≠ .inProgress)

/-- What holds before work where some room is left, and how the machine before the work is related to the
machine afterwards. The basic changes of evaluation are related in this way. -/
structure Contract where
  Ready : (room : Nat) → Machine → Prop
  Leads : Machine → Machine → Prop
  refl (m : Machine) : Leads m m
  trans {a b c : Machine} : Leads a b → Leads b c → Leads a c
  ready {room : Nat} {m m' : Machine} : Ready room m → Leads m m' → Ready room m'
  ready_room {room : Nat} {m : Machine} : Ready room m → Ready m.context.room m
  ready_scopes {room : Nat} {m : Machine} (scopes : Scopes) : Ready room m → Ready room { m with scopes }
  ready_node {room : Nat} {m : Machine} :
    Ready (room + 1) m → Ready room { m with context := m.context.enterNode }
  ready_call {room : Nat} {m : Machine} :
    Ready room m → m.context.depth < m.context.limits.maxCallDepth →
      Ready room { m with context := m.context.enterCall }
  node {room : Nat} {m m' : Machine} : Ready (room + 1) m →
    Leads { m with context := m.context.enterNode } m' → Leads m { m' with context := m'.context.leaveNode }
  call {room : Nat} {m m' : Machine} : Ready room m → m.context.depth < m.context.limits.maxCallDepth →
    Leads { m with context := m.context.enterCall } m' → Leads m { m' with context := m'.context.leaveCall }
  refuse (m : Machine) : Leads m { m with context := { m.context with refusals := m.context.refusals + 1 } }
  check (m : Machine) : Leads m { m with context := m.context.check }
  circle (m : Machine) : Leads m { m with context := { m.context with circles := m.context.circles + 1 } }
  fresh (m : Machine) : Leads m { m with nextId := m.nextId + 1 }
  newScope {bindings : Bindings} (m : Machine) (parent : Option ScopeId) : bindings.Idle →
    Leads m { m with scopes := (m.scopes.add parent bindings).2 }
  /-- A binding is done, or it is left as it was. -/
  entry {m m' : Machine} {id : ScopeId} {place : Nat} {name : Value} {expr : Expr} {state : EntryState} :
    (m.scopes.get id).bindings[place]? = some ⟨name, .unevaluated expr⟩ →
    (state = .unevaluated expr ∨ ∃ value, state = .evaluated value) →
    Leads { m with scopes := m.scopes.setState id place .inProgress } m' →
    Leads m { m' with scopes := m'.scopes.setState id place state }

/-! ## Work that meets a contract -/

namespace Eval

variable {α β : Type} {contract : Contract} {room : Nat} {Fine : α → Prop} {Good : β → Prop} {work : Eval α}
  {next : α → Eval β}

/-- The work leads from every machine that is ready to a related one, and its outcomes are fine. -/
def Meets (contract : Contract) (room : Nat) (Fine : α → Prop) (work : Eval α) : Prop :=
  ∀ m, contract.Ready room m →
    contract.Leads m (work.run.run m).2 ∧ ∀ a, (work.run.run m).1 = .ok a → Fine a

theorem meets_pure {a : α} (h : Fine a) : Meets contract room Fine (pure a) := by
  refine fun m _ => ⟨contract.refl m, fun b hb => ?_⟩
  cases hb
  exact h

theorem meets_throw (failure : FatalError) : Meets contract room Fine (throw failure) :=
  fun m _ => ⟨contract.refl m, fun _ hb => by cases hb⟩

theorem Meets.bind (h : Meets contract room Fine work) (hnext : ∀ a, Fine a → Meets contract room Good (next a)) :
    Meets contract room Good (work >>= next) := by
  intro m hm
  obtain ⟨hleads, hfine⟩ := h m hm
  rw [ExceptT.run_bind, StateT.run_bind]
  cases hw : work.run.run m with
  | mk outcome m' =>
    rw [hw] at hleads hfine
    cases outcome with
    | error failure => exact ⟨hleads, fun _ hb => by cases hb⟩
    | ok a =>
      obtain ⟨hrest, hgood⟩ := hnext a (hfine a rfl) m' (contract.ready hm hleads)
      exact ⟨contract.trans hleads hrest, hgood⟩

/-- Work that first reads the machine. -/
theorem meets_get {next : Machine → Eval α} (h : ∀ m, contract.Ready room m →
    contract.Leads m ((next m).run.run m).2 ∧ ∀ a, ((next m).run.run m).1 = .ok a → Fine a) :
    Meets contract room Fine (get >>= next) :=
  fun m hm => h m hm

theorem meets_checkInterrupt (host : Host) : Meets contract room (fun _ => True) host.checkInterrupt := by
  intro m _
  rw [host.run_checkInterrupt]
  exact ⟨contract.check m, fun _ _ => trivial⟩

theorem meets_refuse (reason : String) : Meets contract room (fun _ => True) (refuse reason) :=
  fun m _ => ⟨contract.refuse m, fun _ _ => trivial⟩

theorem meets_fresh : Meets contract room (fun _ => True) (fresh Fresh.id) :=
  fun m _ => ⟨contract.fresh m, fun _ _ => trivial⟩

theorem meets_newScope (parent : ScopeId) {bindings : Bindings} (h : bindings.Idle) :
    Meets contract room (fun _ => True) (newScope parent bindings) :=
  fun m _ => ⟨contract.newScope m (some parent) h, fun _ _ => trivial⟩

theorem Meets.inNode {work : Eval Value} (h : Meets contract room (fun _ => True) work) :
    Meets contract (room + 1) (fun _ => True) (inNode work) := by
  intro m hm
  obtain ⟨hleads, -⟩ := h _ (contract.ready_node hm)
  exact ⟨contract.node hm hleads, fun _ _ => trivial⟩

theorem leads_inCallOr {refused work : Eval Value} {before m : Machine}
    (hrefused : contract.Leads before (refused.run.run m).2)
    (h : m.context.depth < m.context.limits.maxCallDepth →
      contract.Leads before ((inside Context.enterCall Context.leaveCall work).run.run m).2) :
    contract.Leads before ((inCallOr refused work).run.run m).2 := by
  have hrun : (inCallOr refused work).run.run m =
      (if m.context.depth < m.context.limits.maxCallDepth then inside Context.enterCall Context.leaveCall work
        else refused).run.run m := rfl
  rw [hrun]
  split
  · rename_i hdepth
    exact h hdepth
  · exact hrefused

theorem Meets.inCall {work : Eval Value} (h : Meets contract room (fun _ => True) work) :
    Meets contract room (fun _ => True) (inCall work) := by
  refine fun m hm => ⟨leads_inCallOr (contract.refuse m) fun hdepth => ?_, fun _ _ => trivial⟩
  exact contract.call hm hdepth (h _ (contract.ready_call hm hdepth)).1

/-- Work that hands on an error value at once. -/
theorem Meets.bindValue {work : Eval Value} {next : Value → Eval Value} (h : Meets contract room (fun _ => True) work)
    (hnext : ∀ v, Meets contract room (fun _ => True) (next v)) :
    Meets contract room (fun _ => True) (do let v ← work; if v.isError then return v else next v) := by
  refine h.bind fun v _ => ?_
  split
  · exact meets_pure trivial
  · exact hnext v

end Eval

/-- The evaluator meets the contract on every tree. -/
def Evaluator.Meets (contract : Contract) (room : Nat) (run : Evaluator) : Prop :=
  ∀ e scope, Eval.Meets contract room (fun _ => True) (run e scope)

/-- The functions of the host meet the contract, lazy ones if the evaluator that they are given does. -/
structure Host.Meets (contract : Contract) (host : Host) : Prop where
  function : ∀ room code function args, host.function? code = some function →
    Eval.Meets contract room (fun _ => True) (function args)
  lazyFunction : ∀ room code function run args scope, host.lazyFunction? code = some function →
    Evaluator.Meets contract room run → Eval.Meets contract room (fun _ => True) (function run args scope)

/-- Any items. Bindings that they make are not in progress. -/
def anyItems : ItemKind where
  Item _ := True
  Term _ := True
  State state := state ≠ .inProgress
  clauses _ _ _ _ := trivial
  chain _ _ _ _ := EntryState.noConfusion
  term _ _ := trivial

namespace Evaluation

variable {contract : Contract} {room : Nat} {host : Host} {run : Evaluator}

/-! ## Bindings -/

/-- A binding that waits comes into progress, and its evaluation, the limit or a failure ends that. -/
theorem leads_resolve (hrun : run.Meets contract room) {m : Machine} (hm : contract.Ready room m) (name : Value)
    {id : ScopeId} {place : Nat} {entry : Entry} (hentry : (m.scopes.get id).bindings[place]? = some entry) :
    contract.Leads m ((resolve run name id place entry.state).run.run m).2 := by
  obtain ⟨key, state⟩ := entry
  cases state with
  | evaluated value => exact contract.refl m
  | inProgress => exact contract.circle m
  | unevaluated expr =>
    let started : Machine := { m with scopes := m.scopes.setState id place .inProgress }
    have hstarted : contract.Ready room started := contract.ready_scopes _ hm
    refine Eval.leads_inCallOr (m := started) ?_ fun hdepth => ?_
    · exact contract.trans (contract.entry hentry (.inl rfl) (contract.refl started)) (contract.refuse _)
    · have hready := contract.ready_call hstarted hdepth
      have hleads := contract.call hstarted hdepth (hrun expr id _ hready).1
      have hrule : (Eval.inside Context.enterCall Context.leaveCall (evaluateEntry run id place expr)).run.run started =
          let (outcome, m') := (evaluateEntry run id place expr).run.run
            { started with context := started.context.enterCall }
          (outcome, { m' with context := m'.context.leaveCall }) := rfl
      rw [hrule, evaluateEntry, ExceptT.run_mk]
      cases hr : (run expr id).run.run { started with context := started.context.enterCall } with
      | mk outcome m' =>
        rw [hr] at hleads
        rw [Eval.run_bind_of_run hr]
        cases outcome with
        | ok value => exact contract.entry hentry (.inr ⟨value, rfl⟩) hleads
        | error failure => exact contract.entry hentry (.inl rfl) hleads

theorem meets_lookupName (hrun : run.Meets contract room) (scope : ScopeId) (name : Value) :
    Eval.Meets contract room (fun _ => True) (lookupName run scope name) := by
  refine Eval.meets_get fun m hm => ⟨?_, fun _ _ => trivial⟩
  split
  · rename_i holder place entry hfind
    exact leads_resolve hrun hm name (Scopes.getElem?_of_find? hfind)
  · exact contract.refl m

theorem meets_lookup (hrun : run.Meets contract room) (target field : Value) :
    Eval.Meets contract room (fun _ => True) (lookup run target field) := by
  cases target with
  | scope id => exact meets_lookupName hrun id field
  | _ => exact Eval.meets_pure trivial

/-! ## Calls -/

theorem meets_invoke (hrun : run.Meets contract room) (body : Expr) (scope : ScopeId) (arg : Value) :
    Eval.Meets contract room (fun _ => True) (invoke run body scope arg) := by
  have hidle : Bindings.Idle [⟨.string closureArgument, .evaluated arg⟩] :=
    List.forall_mem_singleton.2 EntryState.noConfusion
  exact Eval.Meets.inCall ((Eval.meets_newScope scope hidle).bind fun inner _ => hrun body inner)

theorem meets_callValue (hhost : host.Meets contract) (hrun : run.Meets contract room) (callee : Value)
    (args : List Value) : Eval.Meets contract room (fun _ => True) (callValue host run callee args) := by
  refine (Eval.meets_checkInterrupt host).bind fun _ _ => ?_
  split
  · split
    · rename_i function hfunction
      exact hhost.function room _ function _ hfunction
    · exact Eval.meets_pure trivial
  · exact meets_invoke hrun _ _ _
  · exact Eval.meets_pure trivial
  · exact Eval.meets_pure trivial
  · exact Eval.meets_pure trivial
  · exact Eval.meets_pure trivial

theorem meets_callLazy (hhost : host.Meets contract) (hrun : run.Meets contract room) (code : String)
    (args : List Expr) (scope : ScopeId) :
    Eval.Meets contract room (fun _ => True) (callLazy host run code args scope) := by
  unfold callLazy
  split
  · rename_i function hfunction
    exact hhost.lazyFunction room _ function _ _ _ hfunction hrun
  · exact Eval.meets_pure trivial

/-- Bindings among arguments wait for their evaluation. -/
theorem meets_namedArgs (hrun : run.Meets contract room) (scope : ScopeId) (args : List Expr)
    (fields : List (Value × Value)) {inline : Bindings} (hi : inline.Idle) :
    Eval.Meets contract room (fun collected => ∀ all, collected = .ok all → all.2.Idle)
      (namedArgs run scope args fields inline) := by
  induction args generalizing fields inline with
  | nil =>
    refine Eval.meets_pure fun all hall => ?_
    cases hall
    exact hi
  | cons arg rest ih =>
    unfold namedArgs
    split
    -- A bare name, which may be given already.
    · split
      · exact Eval.meets_pure fun _ hall => by cases hall
      · exact (meets_lookupName hrun scope _).bind fun v _ => ih _ hi
    -- Only a binding may be the argument otherwise.
    · split
      · split
        · rename_i hchain
          exact ih _ (anyItems.bindChain hi trivial hchain)
        · exact Eval.meets_pure fun _ hall => by cases hall
      · exact Eval.meets_pure fun _ hall => by cases hall

theorem meets_inlineArgs (hrun : run.Meets contract room) (scope inner : ScopeId) (names : List Value)
    (fields : List (Value × Value)) :
    Eval.Meets contract room (fun _ => True) (inlineArgs run scope inner names fields) := by
  induction names generalizing fields with
  | nil => exact Eval.meets_pure trivial
  | cons name rest ih =>
    refine Eval.meets_get fun m hm => ?_
    dsimp only
    split
    · exact Eval.meets_pure trivial m hm
    · exact (meets_lookupName hrun inner name).bind (fun v _ => ih _) m hm

theorem meets_mergeArgs (hrun : run.Meets contract room) (args : List Expr) (scope : ScopeId) :
    Eval.Meets contract room (fun _ => True) (mergeArgs run args scope) := by
  refine (meets_namedArgs hrun scope args [] Bindings.all_nil).bind fun collected hcollected => ?_
  split
  · exact Eval.meets_pure trivial
  · refine (Eval.meets_newScope scope (hcollected _ rfl)).bind fun inner _ => ?_
    refine (meets_inlineArgs hrun scope inner _ _).bind fun all _ => ?_
    split
    · exact Eval.meets_pure trivial
    · exact Eval.meets_fresh.bind fun id _ => Eval.meets_pure trivial

theorem meets_evalArgs (hrun : run.Meets contract room) (args : List Expr) (scope : ScopeId) :
    Eval.Meets contract room (fun _ => True) (evalArgs run args scope) := by
  unfold evalArgs
  split
  · rename_i single
    split
    · exact meets_mergeArgs hrun _ scope
    · exact hrun single scope
  · exact meets_mergeArgs hrun _ scope

theorem meets_evalCall (hhost : host.Meets contract) (hrun : run.Meets contract room) (callee : Expr)
    (args : List Expr) (scope : ScopeId) :
    Eval.Meets contract room (fun _ => True) (evalCall host run callee args scope) := by
  refine (hrun callee scope).bindValue fun function => ?_
  split
  -- A where clause binds a name twice.
  · exact Eval.meets_pure trivial
  · rename_i others bindings hwhere
    obtain ⟨-, hidle⟩ := anyItems.takeWhere Bindings.all_nil (fun _ _ => trivial) hwhere
    refine (Eval.meets_newScope scope hidle).bind fun callScope _ => ?_
    split
    -- A lazy function gets the arguments themselves, anything else gets their value.
    · exact meets_callLazy hhost hrun _ others callScope
    · exact (meets_evalArgs hrun others callScope).bindValue fun arg => meets_callValue hhost hrun function _

/-! ## Other nodes -/

theorem meets_evalClosure (items : List Expr) (scope : ScopeId) :
    Eval.Meets contract room (fun _ => True) (evalClosure items scope) := by
  unfold evalClosure
  split
  · exact Eval.meets_pure trivial
  · rename_i body bindings hparts
    obtain ⟨-, hidle⟩ := anyItems.closureParts (fun _ _ => trivial) hparts
    refine (Eval.meets_newScope scope hidle).bind fun inner _ => ?_
    exact Eval.meets_fresh.bind fun id _ => Eval.meets_pure trivial

theorem meets_evalUnary (hrun : run.Meets contract room) (op : Op) (operand : Expr) (scope : ScopeId) :
    Eval.Meets contract room (fun _ => True) (evalUnary run op operand scope) :=
  (hrun operand scope).bindValue fun _ => Eval.meets_pure trivial

theorem meets_evalBinary (hrun : run.Meets contract room) (op : Op) (left right : Expr) (scope : ScopeId) :
    Eval.Meets contract room (fun _ => True) (evalBinary run op left right scope) := by
  refine (hrun left scope).bindValue fun a => ?_
  exact (hrun right scope).bindValue fun b => Eval.meets_pure trivial

theorem meets_evalLogic (hrun : run.Meets contract room) (op : Op) (left right : Expr) (scope : ScopeId) :
    Eval.Meets contract room (fun _ => True) (evalLogic run op left right scope) := by
  refine (hrun left scope).bind fun a _ => ?_
  split
  · exact Eval.meets_pure trivial
  · exact (hrun right scope).bind fun b _ => Eval.meets_pure trivial

theorem meets_evalField (hrun : run.Meets contract room) (left key : Expr) (scope : ScopeId) :
    Eval.Meets contract room (fun _ => True) (evalField run left key scope) := by
  refine (hrun left scope).bindValue fun target => ?_
  exact (hrun key scope).bindValue fun field => meets_lookup hrun target field

/-- Every rule meets the contract, and so does the failure on a tree that there is no rule for. -/
theorem meets_step (hhost : host.Meets contract) (hrun : run.Meets contract room) (e : Expr) (scope : ScopeId) :
    Eval.Meets contract room (fun _ => True) (step host run e scope) := by
  unfold step
  split
  · unfold evalNode
    split
    · exact Eval.meets_pure trivial
    · exact Eval.meets_pure trivial
    · exact Eval.meets_pure trivial
    · exact meets_lookupName hrun scope _
    · exact meets_evalUnary hrun _ _ scope
    · exact meets_evalUnary hrun _ _ scope
    · exact meets_evalUnary hrun _ _ scope
    · exact meets_evalLogic hrun _ _ _ scope
    · exact meets_evalLogic hrun _ _ _ scope
    · exact meets_evalField hrun _ _ scope
    · exact meets_evalCall hhost hrun _ _ scope
    · exact meets_evalClosure _ scope
    · split
      · exact meets_evalBinary hrun _ _ _ scope
      · exact Eval.meets_throw _
    · exact Eval.meets_throw _
  · exact Eval.meets_throw _

end Evaluation

/-! ## Evaluation -/

namespace Contract

variable {contract : Contract} {host : Host}

/-- Evaluation meets the contract, however much room is left. -/
theorem meets_evalWithin (hhost : host.Meets contract) (room : Nat) :
    Evaluator.Meets contract room (evalWithin host room) := by
  induction room with
  | zero => exact fun e scope => (Eval.meets_checkInterrupt host).bind fun _ _ => Eval.meets_refuse _
  | succ room ih =>
    intro e scope
    exact (Eval.meets_checkInterrupt host).bind fun _ _ => (Evaluation.meets_step hhost ih e scope).inNode

theorem meets_evaluate (hhost : host.Meets contract) (room : Nat) : Evaluator.Meets contract room (evaluate host) :=
  fun e scope => Eval.meets_get fun m hm => meets_evalWithin hhost m.context.room e scope m (contract.ready_room hm)

end Contract

namespace Host

variable {contract : Contract} {room : Nat}

theorem meets_chooseBranch {run : Evaluator} (hrun : run.Meets contract room) (args : List Expr) (scope : ScopeId) :
    Eval.Meets contract room (fun _ => True) (chooseBranch run args scope) := by
  unfold chooseBranch
  split
  · rename_i condition yes no
    split
    · exact Eval.meets_pure trivial
    · refine (hrun condition scope).bind fun v _ => ?_
      split
      · exact hrun yes scope
      · exact hrun no scope
      · exact Eval.meets_pure trivial
      · exact Eval.meets_pure trivial
  · exact Eval.meets_pure trivial

theorem meets_builtin : builtin.Meets contract where
  function room code function args hfunction := by
    simp only [builtin] at hfunction
    split at hfunction <;> cases hfunction
    · exact Eval.meets_pure trivial
    · exact Eval.meets_pure trivial
  lazyFunction room code function run args scope hfunction hrun := by
    simp only [builtin] at hfunction
    split at hfunction <;> cases hfunction
    exact meets_chooseBranch hrun args scope

theorem meets_interruptedBy (interrupts : Nat → Bool) : (interruptedBy interrupts).Meets contract :=
  ⟨meets_builtin.function, meets_builtin.lazyFunction⟩

end Host

end DynamicConfig

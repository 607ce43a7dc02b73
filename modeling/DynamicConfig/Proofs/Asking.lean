import DynamicConfig.Proofs.Growth
import DynamicConfig.Proofs.WhereClauses
/-!
# What a rule asks its evaluator

The rule of a node has its evaluator do three things: evaluate parts of the node, with the counts as they are, and
evaluate the bodies of closures and the expressions of bindings, with one closure or binding more counted, which the limit
has to admit (`Asked`). There is nothing else that it asks: if another evaluator does the same on these questions then
the rule does the same with it, whatever that evaluator does on others (`Evaluation.step_congr`).
-/

namespace DynamicConfig

/-! ## Counts -/

/-- Limits and counts are what they were, and so is whether evaluation has been asked to stop. -/
structure Context.Balanced (c c' : Context) : Prop where
  limits : c'.limits = c.limits
  nesting : c'.nesting = c.nesting
  depth : c'.depth = c.depth
  interrupted : c'.interrupted = c.interrupted

theorem Context.Balanced.refl (c : Context) : c.Balanced c :=
  ⟨rfl, rfl, rfl, rfl⟩

theorem Context.Balanced.trans {a b c : Context} (hab : a.Balanced b) (hbc : b.Balanced c) : a.Balanced c :=
  ⟨hbc.limits.trans hab.limits, hbc.nesting.trans hab.nesting, hbc.depth.trans hab.depth,
    hbc.interrupted.trans hab.interrupted⟩

/-- Whatever is counted gives its count back. -/
def balanceContract : Contract where
  Ready _ _ := True
  Leads m m' := m.context.Balanced m'.context
  refl m := .refl m.context
  trans := .trans
  ready _ _ := trivial
  ready_room _ := trivial
  ready_scopes _ _ := trivial
  ready_node _ := trivial
  ready_call _ _ := trivial
  node _ h := ⟨h.limits, congrArg (· - 1) h.nesting, h.depth, h.interrupted⟩
  call _ _ h := ⟨h.limits, h.nesting, congrArg (· - 1) h.depth, h.interrupted⟩
  refuse _ := ⟨rfl, rfl, rfl, rfl⟩
  circle _ := ⟨rfl, rfl, rfl, rfl⟩
  check _ := ⟨rfl, rfl, rfl, rfl⟩
  fresh _ := ⟨rfl, rfl, rfl, rfl⟩
  newScope _ _ _ := ⟨rfl, rfl, rfl, rfl⟩
  entry _ _ h := h

/-! ## Questions -/

/-- What a rule may ask in some context, and in which context it asks: a part of its node with the counts as they are, or
anything as the body of a closure or the expression of a binding, which counts and is within the limit. -/
structure Asked (parts : List Expr) (c : Context) (e : Expr) (c' : Context) : Prop where
  limits : c'.limits = c.limits
  nesting : c'.nesting = c.nesting
  counted : e ∈ parts ∧ c'.depth = c.depth ∨ c.depth < c.limits.maxCallDepth ∧ c'.depth = c.depth + 1

/-- Two evaluators do the same with what a rule may ask. -/
def Evaluator.AgreesOn (parts : List Expr) (c : Context) (run run' : Evaluator) : Prop :=
  ∀ e scope m, Asked parts c e m.context → (run e scope).run.run m = (run' e scope).run.run m

namespace Eval

variable {α β : Type} {c : Context} {work work' : Eval α} {next next' : α → Eval β}

/-- Two pieces of work do the same where limits and counts are those of a context. -/
def AgreesAt (c : Context) (work work' : Eval α) : Prop :=
  ∀ m, c.Balanced m.context → work.run.run m = work'.run.run m

theorem AgreesAt.refl (work : Eval α) : AgreesAt c work work :=
  fun _ _ => rfl

/-- The second piece of work starts with the counts that the first one has given back. -/
theorem AgreesAt.bind {Fine : α → Prop} (h : AgreesAt c work work') (hbalanced : Meets balanceContract 0 Fine work)
    (hnext : ∀ a, AgreesAt c (next a) (next' a)) : AgreesAt c (work >>= next) (work' >>= next') := by
  intro m hm
  have hafter := (hbalanced m trivial).1
  rw [ExceptT.run_bind, ExceptT.run_bind, StateT.run_bind, StateT.run_bind, ← h m hm]
  generalize work.run.run m = ended at hafter
  obtain ⟨outcome, m'⟩ := ended
  cases outcome with
  | error failure => rfl
  | ok a => exact hnext a m' (hm.trans hafter)

/-- Work that first reads the machine. -/
theorem agreesAt_get {next next' : Machine → Eval α} (h : ∀ m, AgreesAt c (next m) (next' m)) :
    AgreesAt c (get >>= next) (get >>= next') :=
  fun m hm => h m m hm

theorem balanced_newScope (parent : ScopeId) (bindings : Bindings) :
    Meets balanceContract 0 (fun _ => True) (newScope parent bindings) :=
  fun m _ => ⟨.refl m.context, fun _ _ => trivial⟩

/-- Work that hands on an error value at once. -/
theorem AgreesAt.bindValue {work work' : Eval Value} {next next' : Value → Eval Value} (h : AgreesAt c work work')
    (hbalanced : Meets balanceContract 0 (fun _ => True) work) (hnext : ∀ v, AgreesAt c (next v) (next' v)) :
    AgreesAt c (do let v ← work; if v.isError then return v else next v)
      (do let v ← work'; if v.isError then return v else next' v) := by
  refine h.bind hbalanced fun v => ?_
  split
  · exact .refl _
  · exact hnext v

end Eval

/-- The lazy functions of the host ask their evaluator what a rule may ask: their arguments, which are parts of the node
of their call. -/
def Host.Asks (host : Host) : Prop :=
  ∀ code function, host.lazyFunction? code = some function → ∀ {parts c run run'}, Evaluator.AgreesOn parts c run run' →
    run.Meets balanceContract 0 → ∀ args, (∀ arg ∈ args, arg ∈ parts) → ∀ scope,
      Eval.AgreesAt c (function run args scope) (function run' args scope)

namespace Evaluation

open Eval

variable {host : Host} {parts : List Expr} {c : Context} {run run' : Evaluator} (h : run.AgreesOn parts c run')
  (hrun : run.Meets balanceContract 0)

include h

/-! ## Bindings and closures -/

theorem agreesAt_part {e : Expr} (he : e ∈ parts) (scope : ScopeId) : AgreesAt c (run e scope) (run' e scope) :=
  fun m hm => h e scope m ⟨hm.limits, hm.nesting, .inl ⟨he, hm.depth⟩⟩

/-- What is evaluated in a call is counted. -/
theorem run_eq_of_counted {m : Machine} (hm : c.Balanced m.context)
    (hdepth : m.context.depth < m.context.limits.maxCallDepth) (m' : Machine) (hm' : m'.context = m.context.enterCall)
    (e : Expr) (scope : ScopeId) : (run e scope).run.run m' = (run' e scope).run.run m' := by
  rw [hm.limits, hm.depth] at hdepth
  refine h e scope m' ⟨?_, ?_, .inr ⟨hdepth, ?_⟩⟩ <;> rw [hm']
  · exact hm.limits
  · exact hm.nesting
  · exact congrArg (· + 1) hm.depth

theorem agreesAt_lookupName (scope : ScopeId) (name : Value) :
    AgreesAt c (lookupName run scope name) (lookupName run' scope name) := by
  intro m hm
  rw [run_lookupName, run_lookupName]
  cases m.scopes.find? scope name with
  | none => rfl
  | some found =>
    obtain ⟨holder, place, key, state⟩ := found
    cases state with
    | unevaluated expr =>
      dsimp only
      rw [run_resolve_waiting, run_resolve_waiting]
      dsimp only
      split
      · rename_i hdepth
        rw [run_eq_of_counted h hm hdepth ((m.updated holder place .inProgress).within Context.enterCall) rfl]
      · rfl
    | _ => rfl

theorem agreesAt_lookup (target field : Value) : AgreesAt c (lookup run target field) (lookup run' target field) := by
  cases target with
  | scope id => exact agreesAt_lookupName h id field
  | _ => exact .refl _

theorem agreesAt_invoke (body : Expr) (scope : ScopeId) (arg : Value) :
    AgreesAt c (invoke run body scope arg) (invoke run' body scope arg) := by
  intro m hm
  rw [invoke, invoke, run_inCall, run_inCall]
  split
  · rename_i hdepth
    rw [run_newScope_bind, run_newScope_bind,
      run_eq_of_counted h hm hdepth ((m.within Context.enterCall).extended scope _) rfl]
  · rfl

/-! ## Calls -/

theorem agreesAt_callValue (callee : Value) (args : List Value) :
    AgreesAt c (callValue host run callee args) (callValue host run' callee args) := by
  refine (AgreesAt.refl _).bind (meets_checkInterrupt _) fun _ => ?_
  split
  · exact .refl _
  · exact agreesAt_invoke h _ _ _
  · exact .refl _
  · exact .refl _
  · exact .refl _
  · exact .refl _

include hrun

theorem agreesAt_chooseBranch {args : List Expr} (hargs : ∀ arg ∈ args, arg ∈ parts) (scope : ScopeId) :
    AgreesAt c (Host.chooseBranch run args scope) (Host.chooseBranch run' args scope) := by
  unfold Host.chooseBranch
  split
  · rename_i condition yes no
    split
    · exact .refl _
    · simp only [List.forall_mem_cons] at hargs
      obtain ⟨hcondition, hyes, hno, -⟩ := hargs
      refine (agreesAt_part h hcondition scope).bind (hrun condition scope) fun v => ?_
      split
      · exact agreesAt_part h hyes scope
      · exact agreesAt_part h hno scope
      · exact .refl _
      · exact .refl _
  · exact .refl _

theorem agreesAt_callLazy (hhost : host.Asks) (code : String) {args : List Expr} (hargs : ∀ arg ∈ args, arg ∈ parts)
    (scope : ScopeId) : AgreesAt c (callLazy host run code args scope) (callLazy host run' code args scope) := by
  unfold callLazy
  cases hfunction : host.lazyFunction? code with
  | none => exact .refl _
  | some function => exact hhost code function hfunction h hrun args hargs scope

theorem agreesAt_namedArgs (scope : ScopeId) (args : List Expr) (fields : List (Value × Value)) (inline : Bindings) :
    AgreesAt c (namedArgs run scope args fields inline) (namedArgs run' scope args fields inline) := by
  induction args generalizing fields inline with
  | nil => exact .refl _
  | cons arg rest ih =>
    unfold namedArgs
    split
    · split
      · exact .refl _
      · exact (agreesAt_lookupName h scope _).bind (meets_lookupName hrun scope _) fun v => ih _ _
    · split
      · split
        · exact ih _ _
        · exact .refl _
      · exact .refl _

theorem agreesAt_inlineArgs (scope inner : ScopeId) (names : List Value) (fields : List (Value × Value)) :
    AgreesAt c (inlineArgs run scope inner names fields) (inlineArgs run' scope inner names fields) := by
  induction names generalizing fields with
  | nil => exact .refl _
  | cons name rest ih =>
    refine agreesAt_get fun m => ?_
    dsimp only
    split
    · exact .refl _
    · exact (agreesAt_lookupName h inner name).bind (meets_lookupName hrun inner name) fun v => ih _

theorem agreesAt_mergeArgs (args : List Expr) (scope : ScopeId) :
    AgreesAt c (mergeArgs run args scope) (mergeArgs run' args scope) := by
  refine (agreesAt_namedArgs h hrun scope args [] []).bind (meets_namedArgs hrun scope args [] Bindings.all_nil) fun _ => ?_
  split
  · exact .refl _
  · refine (AgreesAt.refl _).bind (balanced_newScope scope _) fun inner => ?_
    refine (agreesAt_inlineArgs h hrun scope inner _ _).bind (meets_inlineArgs hrun scope inner _ _) fun _ => ?_
    exact .refl _

theorem agreesAt_evalArgs {args : List Expr} (hargs : ∀ arg ∈ args, arg ∈ parts) (scope : ScopeId) :
    AgreesAt c (evalArgs run args scope) (evalArgs run' args scope) := by
  unfold evalArgs
  split
  · rename_i single
    split
    · exact agreesAt_mergeArgs h hrun _ scope
    · exact agreesAt_part h (hargs single (List.mem_singleton_self _)) scope
  · exact agreesAt_mergeArgs h hrun _ scope

theorem agreesAt_evalCall (hhost : host.Asks) {callee : Expr} {args : List Expr}
    (hparts : ∀ part ∈ callee :: args, part ∈ parts) (scope : ScopeId) :
    AgreesAt c (evalCall host run callee args scope) (evalCall host run' callee args scope) := by
  obtain ⟨hcallee, hargs⟩ := List.forall_mem_cons.1 hparts
  refine (agreesAt_part h hcallee scope).bindValue (hrun callee scope) fun function => ?_
  split
  · exact .refl _
  · rename_i others bindings hwhere
    obtain ⟨-, -, rfl, -⟩ := (Bindings.takeWhere_nil_eq_ok_iff args).1 hwhere
    have hothers : ∀ arg ∈ Expr.otherArgs args, arg ∈ parts := fun arg harg => hargs arg (List.mem_of_mem_filter harg)
    refine (AgreesAt.refl _).bind (balanced_newScope scope _) fun callScope => ?_
    split
    · exact agreesAt_callLazy h hrun hhost _ hothers callScope
    · refine (agreesAt_evalArgs h hrun hothers callScope).bindValue (meets_evalArgs hrun _ callScope) fun arg => ?_
      exact agreesAt_callValue h function _

/-! ## Nodes -/

theorem agreesAt_evalUnary (op : Op) {operand : Expr} (hoperand : operand ∈ parts) (scope : ScopeId) :
    AgreesAt c (evalUnary run op operand scope) (evalUnary run' op operand scope) :=
  (agreesAt_part h hoperand scope).bindValue (hrun operand scope) fun _ => .refl _

theorem agreesAt_evalBinary (op : Op) {left right : Expr} (hleft : left ∈ parts) (hright : right ∈ parts)
    (scope : ScopeId) : AgreesAt c (evalBinary run op left right scope) (evalBinary run' op left right scope) := by
  refine (agreesAt_part h hleft scope).bindValue (hrun left scope) fun a => ?_
  exact (agreesAt_part h hright scope).bindValue (hrun right scope) fun b => .refl _

theorem agreesAt_evalLogic (op : Op) {left right : Expr} (hleft : left ∈ parts) (hright : right ∈ parts)
    (scope : ScopeId) : AgreesAt c (evalLogic run op left right scope) (evalLogic run' op left right scope) := by
  refine (agreesAt_part h hleft scope).bind (hrun left scope) fun a => ?_
  split
  · exact .refl _
  · exact (agreesAt_part h hright scope).bind (hrun right scope) fun b => .refl _

theorem agreesAt_evalField {left key : Expr} (hleft : left ∈ parts) (hkey : key ∈ parts) (scope : ScopeId) :
    AgreesAt c (evalField run left key scope) (evalField run' left key scope) := by
  refine (agreesAt_part h hleft scope).bindValue (hrun left scope) fun target => ?_
  exact (agreesAt_part h hkey scope).bindValue (hrun key scope) fun field => agreesAt_lookup h target field

theorem agreesAt_evalNode (hhost : host.Asks) (e : Expr) (op : Op) (scope : ScopeId) :
    AgreesAt c (evalNode host run e op parts scope) (evalNode host run' e op parts scope) := by
  unfold evalNode
  split
  · exact .refl _
  · exact .refl _
  · exact .refl _
  · exact agreesAt_lookupName h scope _
  · exact agreesAt_evalUnary h hrun _ (by simp) scope
  · exact agreesAt_evalUnary h hrun _ (by simp) scope
  · exact agreesAt_evalUnary h hrun _ (by simp) scope
  · exact agreesAt_evalLogic h hrun _ (by simp) (by simp) scope
  · exact agreesAt_evalLogic h hrun _ (by simp) (by simp) scope
  · exact agreesAt_evalField h hrun (by simp) (by simp) scope
  · exact agreesAt_evalCall h hrun hhost (fun _ hpart => hpart) scope
  · exact .refl _
  · split
    · exact agreesAt_evalBinary h hrun _ (by simp) (by simp) scope
    · exact .refl _
  · exact .refl _

omit h hrun in
/-- An evaluator that does the same as another one on what the rule of a node may ask is as good for the rule, whatever
else it does. -/
theorem step_congr (hhost : host.Asks) {e : Expr} {m : Machine} (hrun : run.Meets balanceContract 0)
    (h : run.AgreesOn e.children m.context run') (scope : ScopeId) :
    (step host run e scope).run.run m = (step host run' e scope).run.run m := by
  have hagrees : AgreesAt m.context (step host run e scope) (step host run' e scope) := by
    unfold step
    split
    · exact agreesAt_evalNode h hrun hhost e _ scope
    · exact .refl _
  exact hagrees m (.refl _)

end Evaluation

theorem Host.asks_builtin : builtin.Asks := by
  intro code function hfunction _ _ _ _ h hrun args hargs scope
  simp only [builtin] at hfunction
  split at hfunction <;> cases hfunction
  exact Evaluation.agreesAt_chooseBranch h hrun hargs scope

end DynamicConfig

import DynamicConfig.Proofs.Asking
import Mathlib.Logic.Function.Iterate
/-!
# Evaluation ends within its budgets

Bindings and closures may refer to themselves without end. What ends evaluation is that each expression node under
evaluation takes up some of the nesting limit. So the recursion of the evaluator, whose only guard is that limit
(`guarded`), need not be unfolded deeper than there is room for nodes: what is below does not matter
(`agreeAt_iterate_guarded`). In the course of an evaluation the counts are those of what is under evaluation, they stay
within their limits, and afterwards they are what they were before (`evaluation_keeps_its_budgets`).
-/

namespace DynamicConfig

/-! ## Counts -/

/-- The counts have not been above the limits since. -/
structure Context.PeaksWithin (c c' : Context) : Prop extends c.Balanced c' where
  peakNesting : c'.peakNesting ≤ max c.peakNesting c.limits.maxNesting
  peakDepth : c'.peakDepth ≤ max c.peakDepth c.limits.maxCallDepth

/-- Where the limits leave room for the nodes that may still come, the counts stay within the limits. -/
def budgetContract : Contract where
  Ready room m := m.context.nesting + room ≤ m.context.limits.maxNesting
  Leads m m' := m.context.PeaksWithin m'.context
  refl _ := ⟨⟨rfl, rfl, rfl, rfl⟩, Nat.le_max_left _ _, Nat.le_max_left _ _⟩
  trans hab hbc := by
    refine ⟨balanceContract.trans hab.toBalanced hbc.toBalanced, ?_, ?_⟩
    · have hnesting := hab.peakNesting
      have hnesting' := hbc.peakNesting
      rw [hab.limits] at hnesting'
      omega
    · have hdepth := hab.peakDepth
      have hdepth' := hbc.peakDepth
      rw [hab.limits] at hdepth'
      omega
  ready hm h := by rwa [h.nesting, h.limits]
  ready_room hm := by
    unfold Context.room
    omega
  ready_scopes _ hm := hm
  ready_node hm := by
    simp only [Context.enterNode]
    omega
  ready_call hm _ := hm
  node hm h := by
    refine ⟨⟨h.limits, congrArg (· - 1) h.nesting, h.depth, h.interrupted⟩, ?_, h.peakDepth⟩
    have hpeak := h.peakNesting
    simp only [Context.enterNode] at hpeak
    simp only [Context.leaveNode]
    omega
  call _ hdepth h := by
    refine ⟨⟨h.limits, h.nesting, congrArg (· - 1) h.depth, h.interrupted⟩, h.peakNesting, ?_⟩
    have hpeak := h.peakDepth
    simp only [Context.enterCall] at hpeak
    simp only [Context.leaveCall]
    omega
  refuse _ := ⟨⟨rfl, rfl, rfl, rfl⟩, Nat.le_max_left _ _, Nat.le_max_left _ _⟩
  circle _ := ⟨⟨rfl, rfl, rfl, rfl⟩, Nat.le_max_left _ _, Nat.le_max_left _ _⟩
  check _ := ⟨⟨rfl, rfl, rfl, rfl⟩, Nat.le_max_left _ _, Nat.le_max_left _ _⟩
  fresh _ := ⟨⟨rfl, rfl, rfl, rfl⟩, Nat.le_max_left _ _, Nat.le_max_left _ _⟩
  newScope _ _ _ := ⟨⟨rfl, rfl, rfl, rfl⟩, Nat.le_max_left _ _, Nat.le_max_left _ _⟩
  entry _ _ h := h

/-! ## The recursion of the evaluator -/

/-- One level of evaluation, which only the nesting limit guards. The parts of a node, bindings and the bodies of
closures are left to `run`. -/
def guarded (host : Host) (run : Evaluator) : Evaluator := fun e scope => do
  host.checkInterrupt
  let c := (← get).context
  if c.nesting < c.limits.maxNesting then Eval.inNode (Evaluation.step host run e scope)
  else Eval.refuseNode

variable {host : Host}

theorem run_inNode (work : Eval Value) (m : Machine) :
    (Eval.inNode work).run.run m = ((work.run.run (m.within Context.enterNode)).1,
      (work.run.run (m.within Context.enterNode)).2.within Context.leaveNode) := rfl

/-- A node is evaluated by its rule, unless evaluation is to stop. -/
theorem run_evalWithin_succ (room : Nat) (e : Expr) (scope : ScopeId) (m : Machine) :
    (evalWithin host (room + 1) e scope).run.run m =
      if host.stops m.context then (.error .interrupted, m.within Context.check)
      else (((Evaluation.step host (evalWithin host room) e scope).run.run m.entered).1,
        ((Evaluation.step host (evalWithin host room) e scope).run.run m.entered).2.within Context.leaveNode) := by
  rw [evalWithin, Eval.run_checkInterrupt_bind, run_inNode]
  rfl

theorem run_guarded (run : Evaluator) (e : Expr) (scope : ScopeId) (m : Machine) :
    (guarded host run e scope).run.run m =
      if host.stops m.context then (.error .interrupted, m.within Context.check)
      else if m.context.nesting < m.context.limits.maxNesting then
        (Eval.inNode (Evaluation.step host run e scope)).run.run (m.within Context.check)
      else Eval.refuseNode.run.run (m.within Context.check) := by
  have hwork : (do
      let c := (← get).context
      if c.nesting < c.limits.maxNesting then Eval.inNode (Evaluation.step host run e scope)
      else Eval.refuseNode : Eval Value).run.run (m.within Context.check) =
        (if m.context.nesting < m.context.limits.maxNesting then Eval.inNode (Evaluation.step host run e scope)
          else Eval.refuseNode).run.run (m.within Context.check) := rfl
  rw [guarded, Eval.run_checkInterrupt_bind, hwork]
  congr 1
  split <;> rfl

/-- Two evaluators do the same where a given number of nodes may still come. -/
def AgreeAt (room : Nat) (run run' : Evaluator) : Prop :=
  ∀ e scope m, m.context.room = room → (run e scope).run.run m = (run' e scope).run.run m

/-- Evaluation gives back what it counts, however much room there is. -/
theorem balances_evalWithin (hhost : host.Meets balanceContract) (room : Nat) :
    (evalWithin host room).Meets balanceContract 0 :=
  fun e scope m _ => Contract.meets_evalWithin hhost room e scope m trivial

/-- With an evaluator that does the same on what is asked of it, a level of evaluation does the same. Where there is no room
for a node, nothing is asked. -/
theorem guarded_congr (hasks : host.Asks) {run run' : Evaluator} (hrun : run.Meets balanceContract 0) {e : Expr}
    {m : Machine}
    (h : m.context.nesting < m.context.limits.maxNesting → run.AgreesOn e.children m.context.enterNode run')
    (scope : ScopeId) : (guarded host run e scope).run.run m = (guarded host run' e scope).run.run m := by
  rw [run_guarded, run_guarded]
  split
  · rfl
  · split
    · rename_i hnesting
      -- A check changes no limit and none of the counts that are asked about.
      have hagrees : run.AgreesOn e.children m.context.check.enterNode run' := fun part inside now hasked =>
        h hnesting part inside now ⟨hasked.limits, hasked.nesting, hasked.counted⟩
      rw [run_inNode, run_inNode, Evaluation.step_congr hasks hrun hagrees scope]
    · rfl

/-- One more level gives one more node. -/
theorem agreeAt_guarded (hhost : host.Meets balanceContract) (hasks : host.Asks) {room : Nat} {run : Evaluator}
    (h : AgreeAt room (evalWithin host room) run) : AgreeAt (room + 1) (evalWithin host (room + 1)) (guarded host run) := by
  intro e scope m hroom
  have hnesting : m.context.nesting < m.context.limits.maxNesting := by
    unfold Context.room at hroom
    omega
  have hlevel : (evalWithin host (room + 1) e scope).run.run m =
      (guarded host (evalWithin host room) e scope).run.run m := by
    rw [run_guarded, if_pos hnesting, evalWithin, Eval.run_checkInterrupt_bind]
  rw [hlevel]
  refine guarded_congr hasks (balances_evalWithin hhost room) (fun _ e' scope' m' hasked => ?_) scope
  refine h e' scope' m' ?_
  simp only [Context.room, hasked.limits, hasked.nesting, Context.enterNode] at hroom ⊢
  omega

/-- Without room for a node nothing is asked of the evaluator for what comes next. -/
theorem agreeAt_guarded_zero (run : Evaluator) : AgreeAt 0 (evalWithin host 0) (guarded host run) := by
  intro e scope m hroom
  have hfull : ¬ m.context.nesting < m.context.limits.maxNesting := by
    unfold Context.room at hroom
    omega
  rw [run_guarded, if_neg hfull, evalWithin, Eval.run_checkInterrupt_bind]

/-- Unfolded once more than there is room for nodes, the recursion comes to its end, whatever is below. -/
theorem agreeAt_iterate_guarded (hhost : host.Meets balanceContract) (hasks : host.Asks) (run : Evaluator) (room : Nat) :
    AgreeAt room (evalWithin host room) ((guarded host)^[room + 1] run) := by
  induction room with
  | zero => exact agreeAt_guarded_zero run
  | succ room ih =>
    rw [Function.iterate_succ_apply']
    exact agreeAt_guarded hhost hasks ih

theorem agreeAt_evaluate (room : Nat) : AgreeAt room (evalWithin host room) (evaluate host) := by
  rintro e scope m rfl
  rfl

/-- Evaluation solves the recursion. -/
theorem evaluate_guarded (hhost : host.Meets balanceContract) (hasks : host.Asks) :
    guarded host (evaluate host) = evaluate host := by
  funext e scope
  refine ExceptT.ext (StateT.ext fun m => ?_)
  have hagree : AgreeAt m.context.room (evalWithin host m.context.room) (guarded host (evaluate host)) := by
    cases m.context.room with
    | zero => exact agreeAt_guarded_zero _
    | succ room => exact agreeAt_guarded hhost hasks (agreeAt_evaluate room)
  exact (hagree e scope m rfl).symm

/-! ## Budgets -/

/-- The counts are within their limits. -/
structure Context.WithinLimits (c : Context) : Prop where
  nesting : c.nesting ≤ c.limits.maxNesting
  depth : c.depth ≤ c.limits.maxCallDepth

/-- The context with peaks that are of the present counts, and so show the most that comes from now on. -/
def Context.measured (c : Context) : Context :=
  { c with peakNesting := c.nesting, peakDepth := c.depth }

/-- Evaluation solves its recursion, which comes to its end within the room for nodes, whatever is put below. At every
level it asks for nothing but parts of a node, and for bodies of closures and expressions of bindings with one more of
them counted: with any evaluator that does the same on these questions, each within the limits, it does the same. So all
the while the counts are those of what is under evaluation and within their limits, and in the end they are what they
were, whatever the outcome, also if evaluation is asked to stop at one of its checks. -/
theorem evaluation_keeps_its_budgets (interrupts : Nat → Bool) (e : Expr) (scope : ScopeId) (m : Machine)
    (h : m.context.WithinLimits) :
    let host := Host.interruptedBy interrupts
    let measured := ((evaluate host e scope).run.run (m.within Context.measured)).2.context
    let after := ((evaluate host e scope).run.run m).2.context
    guarded host (evaluate host) = evaluate host ∧
    (∀ run : Evaluator, ((guarded host)^[m.context.room + 1] run e scope).run.run m =
      (evaluate host e scope).run.run m) ∧
    (∀ (below : Expr) (inside : ScopeId) (now : Machine) (run : Evaluator),
      (now.context.nesting < now.context.limits.maxNesting →
        Evaluator.AgreesOn below.children now.context.enterNode (evaluate host) run) →
      (guarded host run below inside).run.run now = (evaluate host below inside).run.run now) ∧
    measured.peakNesting ≤ m.context.limits.maxNesting ∧ measured.peakDepth ≤ m.context.limits.maxCallDepth ∧
    after.nesting = m.context.nesting ∧ after.depth = m.context.depth := by
  intro host
  have hhost : ∀ contract, host.Meets contract := fun _ => Host.meets_interruptedBy interrupts
  have hasks : host.Asks := Host.asks_builtin
  have hready : budgetContract.Ready 0 (m.within Context.measured) := h.nesting
  have hpeaks := (Contract.meets_evaluate (hhost budgetContract) 0 e scope _ hready).1
  have hbalances := Contract.meets_evaluate (hhost balanceContract) 0
  have hbalanced := (hbalances e scope m trivial).1
  refine ⟨evaluate_guarded (hhost balanceContract) hasks, fun run => ?_, fun below inside now run hagrees => ?_, ?_, ?_,
    hbalanced.nesting, hbalanced.depth⟩
  · exact (agreeAt_iterate_guarded (hhost balanceContract) hasks run m.context.room e scope m rfl).symm
  · rw [← guarded_congr hasks hbalances hagrees inside, evaluate_guarded (hhost balanceContract) hasks]
  · exact Nat.le_trans hpeaks.peakNesting (Nat.max_le.2 ⟨h.nesting, Nat.le_refl _⟩)
  · exact Nat.le_trans hpeaks.peakDepth (Nat.max_le.2 ⟨h.depth, Nat.le_refl _⟩)

/-- A closure that calls itself without end, by the name that it is bound to, is ended by the limit on calls once that is
reached, and the counts are given back. So they are if evaluation is asked to stop while the limit is reached. -/
theorem endless_closure_keeps_its_budgets :
    let again : Expr := .node .call ⟨0, 1⟩ [.nameLeaf ⟨0, 1⟩ "f", .nameLeaf ⟨0, 1⟩ "it"]
    let binding : Expr := .node .assign ⟨0, 1⟩ [.stringLeaf ⟨0, 1⟩ "f", .node .closure ⟨0, 1⟩ [again]]
    let clause : Expr := .node .call ⟨0, 1⟩ [.nameLeaf ⟨0, 1⟩ "where", binding]
    let e : Expr := .node .call ⟨0, 1⟩ [.node .closure ⟨0, 1⟩ [again, clause], .boolLeaf ⟨0, 1⟩ true]
    let m := Machine.initial { limits := ⟨3, 16⟩ }
    let quiet := Host.interruptedBy fun _ => false
    let run := (evaluate quiet e globalScope).run.run m
    let stopped := (evaluate (Host.interruptedBy (· == 16)) e globalScope).run.run m
    m.context.WithinLimits ∧ run.1.toOption.bind Value.asError? = some "maximum call depth exceeded" ∧
      run.2.context.peakDepth = m.context.limits.maxCallDepth ∧
      ((evaluate quiet e globalScope).run.run (m.within Context.measured)).2.context.peakDepth ≤
        m.context.limits.maxCallDepth ∧
      (run.2.context.nesting = m.context.nesting ∧ run.2.context.depth = m.context.depth) ∧
      stopped.1.toOption.isNone ∧ stopped.2.context.peakDepth = m.context.limits.maxCallDepth ∧
      stopped.2.context.nesting = m.context.nesting ∧ stopped.2.context.depth = m.context.depth := by
  have hwithin : (Machine.initial { limits := ⟨3, 16⟩ }).context.WithinLimits := ⟨by decide, by decide⟩
  refine ⟨hwithin, by decide +kernel, by decide +kernel, ?_, ?_, by decide +kernel, by decide +kernel, ?_⟩
  · exact (evaluation_keeps_its_budgets (fun _ => false) _ globalScope _ hwithin).2.2.2.2.1
  · exact (evaluation_keeps_its_budgets (fun _ => false) _ globalScope _ hwithin).2.2.2.2.2
  · exact (evaluation_keeps_its_budgets (· == 16) _ globalScope _ hwithin).2.2.2.2.2

end DynamicConfig

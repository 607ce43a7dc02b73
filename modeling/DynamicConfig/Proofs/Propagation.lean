import DynamicConfig.Proofs.Budgets
import DynamicConfig.Proofs.Safety
/-!
# Errors stop evaluation

An expression may have a hole at any depth. While the nodes around the hole are evaluated, other parts of them may come
first (`Position.Reaches`); once the hole is reached, an error value in it is handed on by every node around it, and
nothing is evaluated any more (`error_in_hole_is_outcome`). So whoever meets an error value meets the first one.
-/

namespace DynamicConfig

/-! ## Expressions with a hole -/

/-- A place in a node for one of its parts. -/
inductive Position
  /-- The only operand of an operator. -/
  | operand (op : Op) (location : Location)
  /-- The left operand, or the target of a dot. -/
  | left (op : Op) (location : Location) (other : Expr)
  /-- The right operand, or the key of a dot. -/
  | right (op : Op) (location : Location) (other : Expr)
  | callee (location : Location) (args : List Expr)
  | argument (location : Location) (function : Expr) (before after : List Expr)

namespace Position

/-- The node with an expression in the place. -/
def fill (e : Expr) : Position → Expr
  | operand op location => .node op location [e]
  | left op location other => .node op location [e, other]
  | right op location other => .node op location [other, e]
  | callee location args => .node .call location (e :: args)
  | argument location function before after => .node .call location (function :: (before ++ e :: after))

/-- Places one inside the other, the outermost one first, with an expression in the innermost one. -/
def fillAll (e : Expr) (positions : List Position) : Expr :=
  positions.foldr (fun position inner => position.fill inner) e

/-- The operators on two operands that hand on an error of the left one. -/
def handsOn (op : Op) : Bool :=
  op.isStrictBinary || op == .and || op == .or || op == .field

/-- The rule of the node comes to evaluate what is in the place, in a scope and on a machine, after the parts that come
before it. -/
inductive Reaches (host : Host) (run : Evaluator) (e : Expr) : Position → ScopeId → Machine → ScopeId → Machine → Prop
  | operand {op : Op} {location : Location} {s : ScopeId} {m : Machine} (hop : op = .add ∨ op = .sub ∨ op = .not) :
    Reaches host run e (.operand op location) s m s m
  | left {op : Op} {location : Location} {right : Expr} {s : ScopeId} {m : Machine} (hop : handsOn op = true) :
    Reaches host run e (.left op location right) s m s m
  /-- The left operand is no error. -/
  | right {op : Op} {location : Location} {left : Expr} {s : ScopeId} {m m₁ : Machine} {v : Value}
    (hop : op.isStrictBinary = true ∨ op = .field) (hleft : (run left s).run.run m = (.ok v, m₁))
    (hv : v.isError = false) : Reaches host run e (.right op location left) s m s m₁
  /-- The left operand leaves the outcome to the right one. -/
  | and {location : Location} {left : Expr} {s : ScopeId} {m m₁ : Machine}
    (hleft : (run left s).run.run m = (.ok (.bool true), m₁)) : Reaches host run e (.right .and location left) s m s m₁
  | or {location : Location} {left : Expr} {s : ScopeId} {m m₁ : Machine}
    (hleft : (run left s).run.run m = (.ok (.bool false), m₁)) : Reaches host run e (.right .or location left) s m s m₁
  | callee {location : Location} {args : List Expr} {s : ScopeId} {m : Machine} :
    Reaches host run e (.callee location args) s m s m
  /-- The only argument beside where clauses, in the scope of the call. -/
  | argument {location : Location} {callee : Expr} {before after : List Expr} {s : ScopeId} {m m₁ : Machine} {v : Value}
    {bindings : Bindings} (hcallee : (run callee s).run.run m = (.ok v, m₁)) (hv : v.isError = false)
    (hstrict : ∀ code, v ≠ .lazyFunction code)
    (hwhere : Bindings.takeWhere [] (before ++ e :: after) = .ok ([e], bindings)) (hassign : e.isAssign = false) :
    Reaches host run e (.argument location callee before after) s m m₁.scopes.size (m₁.extended s bindings)
  /-- The condition where a branch is chosen. -/
  | condition {location : Location} {callee yes no : Expr} {before after : List Expr} {s : ScopeId} {m m₁ : Machine}
    {code : String} {bindings : Bindings} (hcallee : (run callee s).run.run m = (.ok (.lazyFunction code), m₁))
    (hif : host.lazyFunction? code = some Host.chooseBranch)
    (hwhere : Bindings.takeWhere [] (before ++ e :: after) = .ok ([e, yes, no], bindings))
    (hassign : [e, yes, no].any Expr.isAssign = false) :
    Reaches host run e (.argument location callee before after) s m m₁.scopes.size (m₁.extended s bindings)

end Position

/-! ## One node -/

namespace Evaluation

variable {host : Host} {run : Evaluator} {e : Expr} {s s' : ScopeId} {m m' after : Machine} {message : String}

theorem run_bindValue_of_error {work : Eval Value} {next : Value → Eval Value}
    (h : work.run.run m = (.ok (.error message), after)) :
    (do let v ← work; if v.isError then return v else next v : Eval Value).run.run m = (.ok (.error message), after) := by
  rw [Eval.run_bind_of_ok h]
  rfl

theorem run_bindValue_of_ok {work : Eval Value} {next : Value → Eval Value} {v : Value} (h : work.run.run m = (.ok v, m'))
    (hv : v.isError = false) :
    (do let v ← work; if v.isError then return v else next v : Eval Value).run.run m = (next v).run.run m' := by
  rw [Eval.run_bind_of_ok h, hv]
  rfl

theorem run_evalLogic_of_error {op : Op} {right : Expr} (h : (run e s).run.run m = (.ok (.error message), after)) :
    (evalLogic run op e right s).run.run m = (.ok (.error message), after) := by
  unfold evalLogic
  rw [Eval.run_bind_of_ok h]
  cases op <;> rfl

theorem run_evalLogic_of_undecided {op : Op} {left : Expr} {b : Bool} (hleft : (run left s).run.run m = (.ok (.bool b), m'))
    (hb : op.decidedBy (.bool b) = none) (h : (run e s).run.run m' = (.ok (.error message), after)) :
    (evalLogic run op left e s).run.run m = (.ok (.error message), after) := by
  unfold evalLogic
  rw [Eval.run_bind_of_ok hleft, hb, Eval.run_bind_of_ok h]
  rfl

variable (host) in
/-- A call up to its arguments. -/
theorem run_evalCall {callee : Expr} {args others : List Expr} {bindings : Bindings} {v : Value}
    (hcallee : (run callee s).run.run m = (.ok v, m')) (hv : v.isError = false)
    (hwhere : Bindings.takeWhere [] args = .ok (others, bindings)) :
    (evalCall host run callee args s).run.run m =
      (match v with
        | .lazyFunction code => callLazy host run code others m'.scopes.size
        | _ => do
          let arg ← evalArgs run others m'.scopes.size
          if arg.isError then return arg
          callValue host run v [arg]).run.run (m'.extended s bindings) := by
  unfold evalCall
  rw [run_bindValue_of_ok hcallee hv, hwhere]
  rfl

theorem evalNode_left {op : Op} (hop : Position.handsOn op = true) (node right : Expr)
    (h : (run e s).run.run m = (.ok (.error message), after)) :
    (evalNode host run node op [e, right] s).run.run m = (.ok (.error message), after) := by
  have hstrict : (evalBinary run op e right s).run.run m = (.ok (.error message), after) := run_bindValue_of_error h
  have hfield : (evalField run e right s).run.run m = (.ok (.error message), after) := run_bindValue_of_error h
  have hlogic : (evalLogic run op e right s).run.run m = (.ok (.error message), after) := run_evalLogic_of_error h
  cases op <;> first | exact hstrict | exact hfield | exact hlogic | cases hop

/-- An error value in a place that is reached is the outcome of the rule, on the machine as it is left. -/
theorem run_step_of_reaches {position : Position} (hreach : position.Reaches host run e s m s' m')
    (h : (run e s').run.run m' = (.ok (.error message), after)) :
    (step host run (position.fill e) s).run.run m = (.ok (.error message), after) := by
  cases hreach with
  | operand hop =>
    have hunary (op : Op) : (evalUnary run op e s).run.run m = (.ok (.error message), after) := run_bindValue_of_error h
    rcases hop with rfl | rfl | rfl
    · exact hunary .add
    · exact hunary .sub
    · exact hunary .not
  | left hop => exact evalNode_left hop _ _ h
  | @right op location left _ _ _ v hop hleft hv =>
    rcases hop with hop | rfl
    · have hbinary : (evalBinary run op left e s).run.run m = (.ok (.error message), after) :=
        (run_bindValue_of_ok hleft hv).trans (run_bindValue_of_error h)
      have hnode : evalNode host run (.node op location [left, e]) op [left, e] s = evalBinary run op left e s :=
        evalNode_of_isStrictBinary hop ..
      rw [← hnode] at hbinary
      exact hbinary
    · have hfield : (evalField run left e s).run.run m = (.ok (.error message), after) :=
        (run_bindValue_of_ok hleft hv).trans (run_bindValue_of_error h)
      exact hfield
  | @and location left _ _ _ hleft =>
    have hlogic : (evalLogic run .and left e s).run.run m = (.ok (.error message), after) :=
      run_evalLogic_of_undecided hleft rfl h
    exact hlogic
  | @or location left _ _ _ hleft =>
    have hlogic : (evalLogic run .or left e s).run.run m = (.ok (.error message), after) :=
      run_evalLogic_of_undecided hleft rfl h
    exact hlogic
  | callee => exact run_bindValue_of_error h
  | @argument location callee before afterwards _ _ m₁ v bindings hcallee hv hstrict hwhere hassign =>
    have hargs : (evalArgs run [e] m₁.scopes.size).run.run (m₁.extended s bindings) = (.ok (.error message), after) := by
      unfold evalArgs
      dsimp only
      rw [hassign]
      exact h
    have hcall := run_evalCall host hcallee hv hwhere
    refine hcall.trans ?_
    cases v with
    | lazyFunction code => exact absurd rfl (hstrict code)
    | _ => exact run_bindValue_of_error hargs
  | @condition location callee yes no before afterwards _ _ m₁ code bindings hcallee hif hwhere hassign =>
    have hcall := run_evalCall host hcallee rfl hwhere
    refine hcall.trans ?_
    dsimp only
    unfold callLazy
    rw [hif]
    dsimp only [Host.chooseBranch]
    rw [hassign, if_neg (by simp), Eval.run_bind_of_ok h]
    rfl

end Evaluation

/-! ## Nodes around the hole -/

/-- The evaluation of an expression in places one inside the other, where some room for nodes is left, comes to evaluate
the expression: no node around it is refused or interrupted, and each one comes to its part. -/
inductive Reaches (host : Host) (e : Expr) :
    (room : Nat) → List Position → ScopeId → Machine → (room : Nat) → ScopeId → Machine → Prop
  | here {room : Nat} {s : ScopeId} {m : Machine} : Reaches host e room [] s m room s m
  | inside {room room' : Nat} {position : Position} {rest : List Position} {s s₁ s' : ScopeId} {m m₁ m' : Machine}
    (hm : host.stops m.context = false)
    (hposition : position.Reaches host (evalWithin host room) (Position.fillAll e rest) s m.entered s₁ m₁)
    (hrest : Reaches host e room rest s₁ m₁ room' s' m') : Reaches host e (room + 1) (position :: rest) s m room' s' m'

/-- The machine after nodes have been left. -/
def Machine.leaving (m : Machine) (nodes : Nat) : Machine :=
  { m with context := { m.context with nesting := m.context.nesting - nodes } }

variable {host : Host} {e : Expr} {positions : List Position} {scope scope' : ScopeId} {m m' after : Machine}
  {message : String}

/-- By induction on the nodes around the hole, the outermost one first. -/
theorem Reaches.run_fillAll {room room' : Nat} (hreach : Reaches host e room positions scope m room' scope' m')
    (herror : (evalWithin host room' e scope').run.run m' = (.ok (.error message), after)) :
    (evalWithin host room (Position.fillAll e positions) scope).run.run m =
      (.ok (.error message), after.leaving positions.length) := by
  induction hreach with
  | here => exact herror
  | @inside room _ position rest s _ _ m _ _ hm hposition _ ih =>
    have hstep := Evaluation.run_step_of_reaches hposition (ih herror)
    change (evalWithin host (room + 1) (position.fill (Position.fillAll e rest)) s).run.run m = _
    rw [run_evalWithin_succ, hm, if_neg (by simp), hstep]
    rfl

/-- Where the evaluation of an expression comes to evaluate a part of it that has an error value, this error value is the
outcome, and the machine is as the part has left it, apart from the nodes that are no more under evaluation. -/
theorem error_in_hole_is_outcome {room : Nat} (hreach : Reaches host e m.context.room positions scope m room scope' m')
    (herror : (evalWithin host room e scope').run.run m' = (.ok (.error message), after)) :
    (evaluate host (Position.fillAll e positions) scope).run.run m =
      (.ok (.error message), after.leaving positions.length) :=
  hreach.run_fillAll herror

/-- A name that is bound nowhere, three nodes deep in the condition of `if(!{ true }(true & y), true, false)`. -/
theorem unbound_name_in_condition_is_outcome :
    let yes : Expr := .boolLeaf ⟨0, 4⟩ true
    let closure : Expr := .node .closure ⟨0, 6⟩ [yes]
    let positions : List Position := [.argument ⟨2, 2⟩ (.nameLeaf ⟨0, 2⟩ "if") [] [yes, .boolLeaf ⟨0, 5⟩ false],
      .operand .not ⟨3, 4⟩, .argument ⟨4, 4⟩ closure [] [], .right .and ⟨5, 6⟩ yes]
    let e : Expr := .nameLeaf ⟨0, 1⟩ "y"
    let m := Machine.initial { limits := ⟨4, 8⟩ }
    ∃ room scope' m' after, Reaches Host.builtin e m.context.room positions globalScope m room scope' m' ∧
      (evalWithin Host.builtin room e scope').run.run m' = (.ok (.error "name not found: y"), after) ∧
      (evaluate Host.builtin (Position.fillAll e positions) globalScope).run.run m =
        (.ok (.error "name not found: y"), after.leaving 4) := by
  intro yes closure positions e m
  have hreach : ∃ scope' m', Reaches Host.builtin e m.context.room positions globalScope m 4 scope' m' ∧
      ∃ after, (evalWithin Host.builtin 4 e scope').run.run m' = (.ok (.error "name not found: y"), after) := by
    refine ⟨_, _, .inside rfl (.condition rfl rfl rfl rfl) (.inside rfl (.operand (.inr (.inr rfl))) (.inside rfl
      (.argument rfl rfl (fun _ => Value.noConfusion) rfl rfl) (.inside rfl (.and rfl) .here))), ?_⟩
    exact ⟨_, rfl⟩
  obtain ⟨scope', m', hreach, after, herror⟩ := hreach
  exact ⟨4, scope', m', after, hreach, herror, error_in_hole_is_outcome hreach herror⟩

end DynamicConfig

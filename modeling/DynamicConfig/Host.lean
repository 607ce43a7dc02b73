import DynamicConfig.Machine
/-!
# Hosts

What a function value does is known to the host alone; the value itself is only its name. There are
two kinds: a function gets values, a lazy function gets the argument expressions themselves, with the
scope of the call and a way to evaluate them.

Other threads of a host may ask evaluation to stop while it goes on. It checks that again and again, and
which of its checks find that it is to stop is all that it gets to know of these threads.
-/

namespace DynamicConfig

/-- A way to evaluate expressions inside a scope. -/
abbrev Evaluator := Expr → ScopeId → Eval Value

/-- What the functions of each name do, and when other threads ask evaluation to stop. -/
structure Host where
  function? : String → Option (List Value → Eval Value)
  lazyFunction? : String → Option (Evaluator → List Expr → ScopeId → Eval Value)
  /-- Whether another thread has asked evaluation to stop when it checks that after so many checks. -/
  interrupts : (checks : Nat) → Bool := fun _ => false

/-- The functions of one host, and those of another one where the first has none. The threads of both may ask
evaluation to stop. -/
def Host.or (first second : Host) : Host where
  function? code := (first.function? code).or (second.function? code)
  lazyFunction? code := (first.lazyFunction? code).or (second.lazyFunction? code)
  interrupts checks := first.interrupts checks || second.interrupts checks

/-- Whether evaluation is to stop: it has been asked to before, or it is now. -/
def Host.stops (host : Host) (c : Context) : Bool :=
  c.interrupted || host.interrupts c.checks

/-- Fails if evaluation is to stop. -/
def Host.checkInterrupt (host : Host) : Eval Unit := do
  let c := (← get).context
  Eval.modifyContext Context.check
  if host.stops c then throw .interrupted

theorem Host.run_checkInterrupt (host : Host) (m : Machine) :
    host.checkInterrupt.run.run m =
      (if host.stops m.context then .error .interrupted else .ok (), { m with context := m.context.check }) := by
  have hrun : host.checkInterrupt.run.run m = (if host.stops m.context then throw .interrupted
      else pure () : Eval Unit).run.run { m with context := m.context.check } := rfl
  rw [hrun]
  split <;> rfl

/-- The answer for a name that the host has no function for. -/
def Host.unknown (code : String) : Value :=
  .error ("unknown function: " ++ code)

end DynamicConfig

import DynamicConfig.Failure
import DynamicConfig.Scope
/-!
# The state of evaluation

Evaluation works under two limits: how many expression nodes may be under evaluation at once, and how
many closures and bindings. A context counts both, and can be asked to stop. The machine holds the
context, every scope, the identities that are still free and what host functions have logged.

Work that is counted gives its count back whatever its outcome (`Eval.around`).
-/

namespace DynamicConfig

/-- How much may be under evaluation at once. -/
structure Limits where
  /-- Closures and bindings. -/
  maxCallDepth : Nat := 128
  /-- Expression nodes. -/
  maxNesting : Nat := 512
deriving Repr, DecidableEq

/-- What is under evaluation, and what has been at most. -/
structure Context where
  limits : Limits := {}
  /-- Closures and bindings under evaluation. -/
  depth : Nat := 0
  /-- Expression nodes under evaluation. -/
  nesting : Nat := 0
  /-- Whether evaluation has been asked to stop. -/
  interrupted : Bool := false
  /-- The most closures and bindings that have been under evaluation at once. -/
  peakDepth : Nat := 0
  /-- The most expression nodes that have been under evaluation at once. -/
  peakNesting : Nat := 0
  /-- How often a limit has refused something. -/
  refusals : Nat := 0
  /-- How often a binding has been asked for that was being evaluated. -/
  circles : Nat := 0
  /-- How often it has been checked whether evaluation is to stop. -/
  checks : Nat := 0
deriving Repr, DecidableEq

namespace Context

/-- One more closure or binding. -/
def enterCall (c : Context) : Context :=
  { c with depth := c.depth + 1, peakDepth := max c.peakDepth (c.depth + 1) }

/-- One closure or binding less. -/
def leaveCall (c : Context) : Context :=
  { c with depth := c.depth - 1 }

/-- One more expression node. -/
def enterNode (c : Context) : Context :=
  { c with nesting := c.nesting + 1, peakNesting := max c.peakNesting (c.nesting + 1) }

/-- One expression node less. -/
def leaveNode (c : Context) : Context :=
  { c with nesting := c.nesting - 1 }

/-- One more check whether evaluation is to stop. -/
def check (c : Context) : Context :=
  { c with checks := c.checks + 1 }

/-- How many more expression nodes may come under evaluation. -/
def room (c : Context) : Nat :=
  c.limits.maxNesting - c.nesting

end Context

/-- Everything that evaluation may read or change. -/
structure Machine where
  context : Context := {}
  scopes : Scopes
  /-- The least identity that no object and no closure has. -/
  nextId : Nat
  /-- What host functions have logged, in order. -/
  log : Array String := #[]

namespace Machine

/-- Work that needs new identities. -/
def fresh {α : Type} (work : Fresh α) : StateM Machine α :=
  modifyGet fun m =>
    let (result, nextId) := work.run m.nextId
    (result, { m with nextId })

/-- Makes a scope inside another one, or inside none. -/
def newScope (parent : Option ScopeId) (bindings : Bindings) : StateM Machine ScopeId :=
  modifyGet fun m =>
    let (id, scopes) := m.scopes.add parent bindings
    (id, { m with scopes })

end Machine

/-- Evaluation: a failure or an outcome, and the machine afterwards in both cases. -/
abbrev Eval := ExceptT FatalError (StateM Machine)

namespace Eval

theorem run_bind_of_run {α β : Type} {x : StateM Machine α} {f : α → StateM Machine β} {m m' : Machine} {a : α}
    (h : x.run m = (a, m')) : (x >>= f).run m = (f a).run m' := by
  rw [StateT.run_bind, h]
  rfl

theorem run_bind_of_ok {α β : Type} {work : Eval α} {next : α → Eval β} {m m' : Machine} {a : α}
    (h : work.run.run m = (.ok a, m')) : (work >>= next).run.run m = (next a).run.run m' := by
  rw [ExceptT.run_bind, StateT.run_bind, h]
  rfl

theorem run_bind_of_error {α β : Type} {work : Eval α} {next : α → Eval β} {m m' : Machine} {failure : FatalError}
    (h : work.run.run m = (.error failure, m')) : (work >>= next).run.run m = (.error failure, m') := by
  rw [ExceptT.run_bind, StateT.run_bind, h]
  rfl

/-- Changes the context. -/
def modifyContext (change : Context → Context) : Eval Unit :=
  modify fun m => { m with context := change m.context }

/-- Work between two changes of the machine. The second change comes after a failure too. -/
def around {α : Type} (enter leave : Machine → Machine) (work : Eval α) : Eval α :=
  ExceptT.mk do
    modify enter
    let outcome ← work.run
    modify leave
    return outcome

/-- Work in the context as changed by `enter`, which `leave` then changes again. -/
def inside {α : Type} (enter leave : Context → Context) (work : Eval α) : Eval α :=
  around (fun m => { m with context := enter m.context }) (fun m => { m with context := leave m.context }) work

/-- Work in another context, after which the present one is back as it was. -/
def inContext {α : Type} (context : Context) (work : Eval α) : Eval α := do
  let present := (← get).context
  inside (fun _ => context) (fun _ => present) work

/-- What a limit answers: an error value with its reason. -/
def refuse (reason : String) : Eval Value := do
  modifyContext fun c => { c with refusals := c.refusals + 1 }
  return .error reason

/-- What a binding answers that is being evaluated: an error value with its name. -/
def detectCircle (name : String) : Eval Value := do
  modifyContext fun c => { c with circles := c.circles + 1 }
  return .error ("recursion detected: " ++ name)

/-- The answer where no more expression nodes may come under evaluation. -/
def refuseNode : Eval Value :=
  refuse "maximum nesting depth exceeded"

/-- Work that counts as an expression node. -/
def inNode (work : Eval Value) : Eval Value :=
  inside Context.enterNode Context.leaveNode work

/-- The answer where no more closures and bindings may come under evaluation. -/
def refuseCall : Eval Value :=
  refuse "maximum call depth exceeded"

/-- Work that counts as a closure or a binding, or what is to be done where the limit refuses it. -/
def inCallOr (refused work : Eval Value) : Eval Value := do
  let c := (← get).context
  if c.depth < c.limits.maxCallDepth then inside Context.enterCall Context.leaveCall work
  else refused

/-- Work that counts as a closure or a binding, unless the limit refuses it. -/
def inCall (work : Eval Value) : Eval Value :=
  inCallOr refuseCall work

/-- Work that needs new identities. -/
def fresh {α : Type} (work : Fresh α) : Eval α :=
  ExceptT.lift (Machine.fresh work)

/-- Makes a scope inside another one. -/
def newScope (parent : ScopeId) (bindings : Bindings) : Eval ScopeId :=
  ExceptT.lift (Machine.newScope (some parent) bindings)

/-- Changes the state of a binding. -/
def setState (id : ScopeId) (place : Nat) (state : EntryState) : Eval Unit :=
  modify fun m => { m with scopes := m.scopes.setState id place state }

end Eval

end DynamicConfig

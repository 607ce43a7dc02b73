import DynamicConfig.Proofs.Lockstep
/-!
# Limits that nothing has hit

A limit shows only where it refuses something. So an evaluation that no limit refuses anything comes out the same
where the limits are raised, and leaves everything else in the same state
(`raised_limits_change_nothing`). The proof is a simulation of two machines that differ in their limits.
-/

namespace DynamicConfig

/-! ## Machines in parallel -/

/-- How two machines are related that have the same scopes and the same identities, on which a run is followed
change by change. -/
structure Parallel where
  Related : Machine → Machine → Prop
  Final : Machine → Prop
  final {m m' : Machine} : m.Settles m' → Final m' → Final m
  scopes {m m' : Machine} : Related m m' → m.scopes = m'.scopes
  nextId {m m' : Machine} : Related m m' → m.nextId = m'.nextId
  interrupted {m m' : Machine} : Related m m' → m.context.interrupted = m'.context.interrupted
  admits {m m' : Machine} : Related m m' → m.context.depth < m.context.limits.maxCallDepth →
    m'.context.depth < m'.context.limits.maxCallDepth
  denies {m m' : Machine} : Related m m' → Final m.refused → ¬ m.context.depth < m.context.limits.maxCallDepth →
    ¬ m'.context.depth < m'.context.limits.maxCallDepth
  refused {m m' : Machine} : Related m m' → Final m.refused → Related m.refused m'.refused
  circled {m m' : Machine} : Related m m' → Final m.circled → Related m.circled m'.circled
  enterCall {m m' : Machine} : Related m m' → Related (m.within Context.enterCall) (m'.within Context.enterCall)
  leaveCall {m m' : Machine} : Related m m' → Related (m.within Context.leaveCall) (m'.within Context.leaveCall)
  checked {m m' : Machine} : Related m m' → Related (m.within Context.check) (m'.within Context.check)
  named {m m' : Machine} : Related m m' → Related m.named m'.named
  extended {m m' : Machine} (parent : ScopeId) (bindings : Bindings) :
    Related m m' → Related (m.extended parent bindings) (m'.extended parent bindings)
  updated {m m' : Machine} (s : ScopeId) (place : Nat) (state : EntryState) :
    Related m m' → Related (m.updated s place state) (m'.updated s place state)

namespace Parallel

/-- Everything stands for itself, and everything is in step. -/
def simulation (parallel : Parallel) : Simulation where
  Linked p m m' := p = .same ∧ parallel.Related m m'
  Final := parallel.Final
  InStep _ _ := True
  failing := True
  final := parallel.final
  oneToOne h := h.1 ▸ .of_le_same (le_refl _)
  interrupted h := parallel.interrupted h.2
  admits h := parallel.admits h.2
  denies h := parallel.denies h.2
  refused h hfinal := ⟨h.1, parallel.refused h.2 hfinal⟩
  circled h hfinal := ⟨h.1, parallel.circled h.2 hfinal⟩
  enterCall h := ⟨h.1, parallel.enterCall h.2⟩
  leaveCall h := ⟨h.1, parallel.leaveCall h.2⟩
  checked h := ⟨h.1, parallel.checked h.2⟩
  named := by
    rintro p m m' ⟨rfl, h⟩
    exact ⟨.same, le_refl _, parallel.nextId h, rfl, parallel.named h⟩
  extended := by
    rintro p m m' parent parent' bindings bindings' ⟨rfl, h⟩ rfl hbindings
    obtain rfl := hbindings.eq (le_refl _)
    exact ⟨.same, le_refl _, congrArg Array.size (parallel.scopes h), rfl, parallel.extended parent bindings h⟩
  enclosing := by
    rintro p m m' s s' ⟨rfl, h⟩ rfl
    rw [parallel.scopes h]
    exact List.forall₂_same.2 fun _ _ => rfl
  contains := by
    rintro p m m' s s' name ⟨rfl, h⟩ rfl
    rw [parallel.scopes h]
  bindings := by
    rintro p m m' s s' place entry ⟨rfl, h⟩ rfl _ hentry
    rw [← parallel.scopes h]
    exact ⟨entry, hentry, .refl Pairing.reflexive_same entry⟩
  updated := by
    rintro p m m' s s' state state' place ⟨rfl, h⟩ rfl _ _ hstate
    obtain rfl := hstate.eq (le_refl _)
    exact ⟨rfl, parallel.updated s place state h⟩

/-- Work that is matched by other work has the same outcome, and leads to machines that are related again. -/
theorem agrees {parallel : Parallel} {work work' : Eval Value} (h : parallel.simulation.Matched .same Value.Alike work work')
    {m m' : Machine} (hm : parallel.Related m m') (hfinal : parallel.Final (work.run.run m).2) :
    parallel.Related (work.run.run m).2 (work'.run.run m').2 ∧ (work.run.run m).1 = (work'.run.run m').1 := by
  obtain ⟨q, -, ⟨rfl, hrelated⟩, houtcome⟩ := h.follows m m' ⟨rfl, hm⟩ hfinal (.inl trivial)
  exact ⟨hrelated, houtcome.eq⟩

end Parallel

/-- Where everything is in step, all names are looked up in step. -/
theorem Parallel.looksUp (parallel : Parallel) (run run' : Evaluator) (hrun : parallel.simulation.Evaluates run run') :
    parallel.simulation.LooksUp run run' := by
  refine Simulation.looksUp_of_evaluates hrun ?_ fun _ _ _ _ _ _ _ _ _ _ _ _ hstep => absurd trivial hstep
  rintro p m m' s s' ⟨rfl, h⟩ rfl
  rw [parallel.scopes h]
  exact (Bindings.Alike.refl Pairing.reflexive_same _).names

/-! ## Raised limits -/

/-- The machine with other limits. -/
def Machine.withLimits (m : Machine) (limits : Limits) : Machine :=
  { m with context := { m.context with limits } }

/-- Machines that differ in their limits only, where a run is followed as long as nothing is refused. -/
def raisedLimits (limits : Limits) (refusals : Nat) : Parallel where
  Related m m' := m.withLimits limits = m' ∧ m.context.limits.maxCallDepth ≤ limits.maxCallDepth ∧
    refusals ≤ m.context.refusals
  Final m := m.context.refusals ≤ refusals
  final hsettles hfinal := Nat.le_trans hsettles.refusals hfinal
  scopes := by rintro m m' ⟨rfl, -⟩; rfl
  nextId := by rintro m m' ⟨rfl, -⟩; rfl
  interrupted := by rintro m m' ⟨rfl, -⟩; rfl
  admits := by
    rintro m m' ⟨rfl, hlimits, -⟩ hdepth
    exact Nat.lt_of_lt_of_le hdepth hlimits
  denies h hfinal _ := absurd h.2.2 (Nat.not_le_of_lt hfinal)
  refused h hfinal := absurd h.2.2 (Nat.not_le_of_lt hfinal)
  circled := by rintro m m' ⟨rfl, h⟩ _; exact ⟨rfl, h⟩
  enterCall := by rintro m m' ⟨rfl, h⟩; exact ⟨rfl, h⟩
  leaveCall := by rintro m m' ⟨rfl, h⟩; exact ⟨rfl, h⟩
  checked := by rintro m m' ⟨rfl, h⟩; exact ⟨rfl, h⟩
  named := by rintro m m' ⟨rfl, h⟩; exact ⟨rfl, h⟩
  extended := by rintro m m' parent bindings ⟨rfl, h⟩; exact ⟨rfl, h⟩
  updated := by rintro m m' s place state ⟨rfl, h⟩; exact ⟨rfl, h⟩

theorem nests_raisedLimits (limits : Limits) (refusals : Nat) : (raisedLimits limits refusals).simulation.Nests where
  enterNode := by rintro p m m' ⟨hp, rfl, h⟩; exact ⟨hp, rfl, h⟩
  leaveNode := by rintro p m m' ⟨hp, rfl, h⟩; exact ⟨hp, rfl, h⟩

theorem never_refused_raisedLimits {limits : Limits} {refusals : Nat} (p : Pairing) (m m' : Machine)
    (h : (raisedLimits limits refusals).simulation.Linked p m m') :
    ¬ (raisedLimits limits refusals).simulation.Final m.refused :=
  Nat.not_le_of_lt (Nat.lt_succ_of_le h.2.2.2)

/-- Machines with other limits have checked as often. -/
theorem matched_raisedLimits (interrupts : Nat → Bool) (limits : Limits) (refusals : Nat) :
    (Host.interruptedBy interrupts).Matched (raisedLimits limits refusals).simulation :=
  Host.matched_interruptedBy (by rintro p m m' ⟨-, rfl, -⟩; rfl) interrupts

/-- Where nothing is refused, evaluation does the same with limits that are no lower and as much room for nodes. -/
theorem run_evalWithin_withLimits {host : Host} (m : Machine) (limits : Limits)
    (hhost : host.Matched (raisedLimits limits m.context.refusals).simulation) {room room' : Nat} (hroom : room ≤ room')
    (e : Expr) (scope : ScopeId) (hdepth : m.context.limits.maxCallDepth ≤ limits.maxCallDepth)
    (hrefusals : ((evalWithin host room e scope).run.run m).2.context.refusals ≤ m.context.refusals) :
    (evalWithin host room' e scope).run.run (m.withLimits limits) =
      (((evalWithin host room e scope).run.run m).1, ((evalWithin host room e scope).run.run m).2.withLimits limits) := by
  let parallel := raisedLimits limits m.context.refusals
  have hmatched : parallel.simulation.Evaluates (evalWithin host room) (evalWithin host room') :=
    Simulation.evaluates_evalWithin hhost (nests_raisedLimits limits _)
      (fun _ _ => parallel.looksUp _ _) hroom (.inr never_refused_raisedLimits)
  have hrelated : parallel.Related m (m.withLimits limits) := ⟨rfl, hdepth, Nat.le_refl _⟩
  obtain ⟨⟨hafter, -⟩, houtcome⟩ := Parallel.agrees (hmatched .same e scope scope rfl) hrelated hrefusals
  exact Prod.ext houtcome.symm hafter.symm

/-- Where limits refuse nothing, an evaluation with limits that are no lower has the same outcome and leaves
everything else of the machine the same: the states of all bindings, the counts and the identities. If evaluation is asked
to stop at one of its checks, it is so in both cases. -/
theorem raised_limits_change_nothing (interrupts : Nat → Bool) (e : Expr) (scope : ScopeId) (m : Machine) (limits : Limits)
    (hdepth : m.context.limits.maxCallDepth ≤ limits.maxCallDepth)
    (hnesting : m.context.limits.maxNesting ≤ limits.maxNesting)
    (hrefusals : ((evaluate (Host.interruptedBy interrupts) e scope).run.run m).2.context.refusals = m.context.refusals) :
    let run := (evaluate (Host.interruptedBy interrupts) e scope).run.run m
    (evaluate (Host.interruptedBy interrupts) e scope).run.run (m.withLimits limits) = (run.1, run.2.withLimits limits) := by
  have hroom : m.context.room ≤ (m.withLimits limits).context.room := Nat.sub_le_sub_right hnesting m.context.nesting
  have hhost := matched_raisedLimits interrupts limits m.context.refusals
  exact run_evalWithin_withLimits m limits hhost hroom e scope hdepth (Nat.le_of_eq hrefusals)

/-- A call of a closure that takes up its limits entirely, under the default limits. -/
theorem call_within_limits_under_default :
    let closure : Expr := .node .closure ⟨0, 1⟩ [.nameLeaf ⟨2, 4⟩ "it"]
    let e : Expr := .node .call ⟨6, 7⟩ [closure, .boolLeaf ⟨7, 11⟩ true]
    let m := Machine.initial { limits := ⟨1, 2⟩ }
    let run := (evaluate Host.builtin e globalScope).run.run m
    run.1 = .ok (.bool true) ∧ run.2.context.refusals = m.context.refusals ∧
      (evaluate Host.builtin e globalScope).run.run (m.withLimits {}) = (run.1, run.2.withLimits {}) := by
  intro closure e m run
  have hrefusals : run.2.context.refusals = m.context.refusals := rfl
  exact ⟨rfl, hrefusals, raised_limits_change_nothing (fun _ => false) e globalScope m {} (by decide) (by decide) hrefusals⟩

end DynamicConfig

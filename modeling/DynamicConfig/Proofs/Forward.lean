import DynamicConfig.Proofs.Contract
/-!
# Bindings change forward only

A binding that is evaluated keeps its value, one that is in progress stays so, and one that waits is left as it
was or is evaluated in the end (`EntryState.Forward`). No binding of a scope that an operation makes is left in
progress. This holds of every operation, whatever its outcome, on machines in any state; so between operations
nothing is in progress (`bindings_change_forward_only`).
-/

namespace DynamicConfig

/-! ## Forward changes -/

/-- How the state of a binding may change. -/
def EntryState.Forward : (before after : EntryState) → Prop
  | .unevaluated expr, after => after = .unevaluated expr ∨ ∃ value, after = .evaluated value
  | .inProgress, after => after = .inProgress
  | .evaluated value, after => after = .evaluated value

/-- The same names are bound at the same places, and their states have changed forward. -/
structure Bindings.Forward (before after : Bindings) : Prop where
  length : after.length = before.length
  entry : ∀ (place : Nat) (entry : Entry), before[place]? = some entry →
    ∃ state, after[place]? = some { entry with state } ∧ entry.state.Forward state

/-- The scopes that there were are inside the same scopes, and their bindings have changed forward. In new
scopes nothing is in progress. -/
structure Scopes.Forward (before after : Scopes) : Prop where
  size : before.size ≤ after.size
  old : ∀ id < before.size, (after.get id).enclosing = (before.get id).enclosing ∧
    (before.get id).bindings.Forward (after.get id).bindings
  new : ∀ id, before.size ≤ id → (after.get id).bindings.Idle

theorem EntryState.Forward.refl (state : EntryState) : state.Forward state := by
  cases state with
  | unevaluated expr => exact .inl rfl
  | inProgress => rfl
  | evaluated value => rfl

theorem EntryState.Forward.trans {a b c : EntryState} (hab : a.Forward b) (hbc : b.Forward c) : a.Forward c := by
  cases a with
  | unevaluated expr =>
    rcases hab with rfl | ⟨value, rfl⟩
    · exact hbc
    · exact .inr ⟨value, hbc⟩
  | inProgress =>
    cases hab
    exact hbc
  | evaluated value =>
    cases hab
    exact hbc

/-- What is not in progress does not come to be so. -/
theorem EntryState.Forward.idle {before after : EntryState} (h : before.Forward after)
    (hb : before ≠ .inProgress) : after ≠ .inProgress := by
  cases before with
  | unevaluated expr =>
    rcases h with rfl | ⟨value, rfl⟩
    · exact EntryState.noConfusion
    · exact EntryState.noConfusion
  | inProgress => exact absurd rfl hb
  | evaluated value =>
    cases h
    exact EntryState.noConfusion

namespace Bindings

theorem Forward.refl (bindings : Bindings) : bindings.Forward bindings where
  length := rfl
  entry _ entry h := ⟨entry.state, h, .refl _⟩

theorem Forward.trans {a b c : Bindings} (hab : a.Forward b) (hbc : b.Forward c) : a.Forward c where
  length := hbc.length.trans hab.length
  entry place entry h := by
    obtain ⟨between, hb, hforward⟩ := hab.entry place entry h
    obtain ⟨state, hc, hforward'⟩ := hbc.entry place _ hb
    exact ⟨state, hc, hforward.trans hforward'⟩

theorem Idle.forward {before after : Bindings} (hb : before.Idle) (h : before.Forward after) : after.Idle := by
  intro entry hmem
  obtain ⟨place, hplace⟩ := List.mem_iff_getElem?.1 hmem
  have hlt : place < before.length := h.length ▸ (List.getElem?_eq_some_iff.1 hplace).1
  obtain ⟨state, hafter, hforward⟩ := h.entry place _ (List.getElem?_eq_getElem hlt)
  rw [hplace] at hafter
  cases hafter
  exact hforward.idle (hb _ (List.getElem_mem hlt))

end Bindings

namespace Scopes

theorem get_of_size_le {scopes : Scopes} {id : ScopeId} (h : scopes.size ≤ id) : scopes.get id = ⟨[], []⟩ := by
  rw [get, Array.getD_eq_getD_getElem?, Array.getElem?_eq_none h]
  rfl

theorem lt_size_of_getElem? {scopes : Scopes} {id : ScopeId} {place : Nat} {entry : Entry}
    (h : (scopes.get id).bindings[place]? = some entry) : id < scopes.size := by
  refine Nat.lt_of_not_le fun hle => ?_
  rw [get_of_size_le hle] at h
  cases h

theorem get_add (scopes : Scopes) (parent : Option ScopeId) (bindings : Bindings) {id : ScopeId}
    (h : id < scopes.size) : (scopes.add parent bindings).2.get id = scopes.get id := by
  simp [add, get, Array.getElem?_push_lt h, h]

theorem bindings_get_add (scopes : Scopes) (parent : Option ScopeId) (bindings : Bindings) :
    ((scopes.add parent bindings).2.get scopes.size).bindings = bindings := by
  simp [add, get]

theorem get_setState (scopes : Scopes) (id other : ScopeId) (place : Nat) (state : EntryState) :
    (scopes.setState id place state).get other =
      if id = other then { scopes.get other with
        bindings := (scopes.get other).bindings.modify place fun entry => { entry with state } }
      else scopes.get other := by
  simp only [setState, get, Array.getD_eq_getD_getElem?, Array.getElem?_modify]
  split
  · cases scopes[other]? with
    | some scope => rfl
    | none => simp
  · rfl

theorem size_setState (scopes : Scopes) (id : ScopeId) (place : Nat) (state : EntryState) :
    (scopes.setState id place state).size = scopes.size :=
  Array.size_modify

theorem Forward.refl (scopes : Scopes) : scopes.Forward scopes where
  size := Nat.le_refl _
  old id _ := ⟨rfl, .refl _⟩
  new id hid := by
    rw [get_of_size_le hid]
    exact Bindings.all_nil

theorem Forward.trans {a b c : Scopes} (hab : a.Forward b) (hbc : b.Forward c) : a.Forward c where
  size := Nat.le_trans hab.size hbc.size
  old id hid := by
    obtain ⟨hin, hbindings⟩ := hab.old id hid
    obtain ⟨hin', hbindings'⟩ := hbc.old id (Nat.lt_of_lt_of_le hid hab.size)
    exact ⟨hin'.trans hin, hbindings.trans hbindings'⟩
  new id hid := by
    by_cases hmade : id < b.size
    · exact (hab.new id hid).forward (hbc.old id hmade).2
    · exact hbc.new id (Nat.le_of_not_lt hmade)

theorem forward_add (scopes : Scopes) (parent : Option ScopeId) {bindings : Bindings} (h : bindings.Idle) :
    scopes.Forward (scopes.add parent bindings).2 where
  size := by simp [add]
  old id hid := by
    rw [get_add scopes parent bindings hid]
    exact ⟨rfl, .refl _⟩
  new id hid := by
    rcases Nat.eq_or_lt_of_le hid with rfl | hlt
    · rw [bindings_get_add]
      exact h
    · rw [get_of_size_le (by simpa [add] using Nat.succ_le_of_lt hlt)]
      exact Bindings.all_nil

end Scopes

/-- A binding that waits has changed forward if it is given back or done after it was in progress. -/
theorem Bindings.Forward.finish {before after : Bindings} {place : Nat} {name : Value} {expr : Expr} {state : EntryState}
    (hentry : before[place]? = some ⟨name, .unevaluated expr⟩) (hstate : (EntryState.unevaluated expr).Forward state)
    (h : Bindings.Forward (before.modify place fun entry => { entry with state := .inProgress }) after) :
    before.Forward (after.modify place fun entry => { entry with state }) where
  length := by simpa using h.length
  entry other entry hother := by
    by_cases hplace : place = other
    · subst hplace
      rw [hentry] at hother
      cases hother
      have hstarted : (before.modify place fun entry => { entry with state := .inProgress })[place]? =
          some ⟨name, .inProgress⟩ := by
        rw [List.getElem?_modify_eq, hentry]
        rfl
      obtain ⟨_, hafter, rfl⟩ := h.entry place _ hstarted
      refine ⟨state, ?_, hstate⟩
      rw [List.getElem?_modify_eq, hafter]
      rfl
    · rw [List.getElem?_modify_ne _ _ hplace]
      refine h.entry other entry ?_
      rw [List.getElem?_modify_ne _ _ hplace]
      exact hother

theorem Scopes.Forward.finish {before after : Scopes} {id : ScopeId} {place : Nat} {name : Value} {expr : Expr}
    {state : EntryState} (hentry : (before.get id).bindings[place]? = some ⟨name, .unevaluated expr⟩)
    (hstate : (EntryState.unevaluated expr).Forward state)
    (h : (before.setState id place .inProgress).Forward after) : before.Forward (after.setState id place state) where
  size := by
    have hsize := h.size
    rwa [size_setState] at hsize ⊢
  old other hother := by
    obtain ⟨hin, hbindings⟩ := h.old other (by rwa [size_setState])
    rw [get_setState] at hin hbindings ⊢
    by_cases hid : id = other
    · subst hid
      rw [if_pos rfl] at hin hbindings ⊢
      exact ⟨hin, hbindings.finish hentry hstate⟩
    · rw [if_neg hid] at hin hbindings ⊢
      exact ⟨hin, hbindings⟩
  new other hother := by
    have hidle := h.new other (by rwa [size_setState])
    have hid : id ≠ other := Nat.ne_of_lt (Nat.lt_of_lt_of_le (lt_size_of_getElem? hentry) hother)
    rwa [get_setState, if_neg hid]

/-- Bindings change forward, whatever is counted and whatever the identities are. -/
def forwardContract : Contract where
  Ready _ _ := True
  Leads before after := before.scopes.Forward after.scopes
  refl m := .refl m.scopes
  trans := .trans
  ready _ _ := trivial
  ready_room _ := trivial
  ready_scopes _ _ := trivial
  ready_node _ := trivial
  ready_call _ _ := trivial
  node _ h := h
  call _ _ h := h
  refuse m := .refl m.scopes
  circle m := .refl m.scopes
  check m := .refl m.scopes
  fresh m := .refl m.scopes
  newScope m parent h := m.scopes.forward_add parent h
  entry hentry hstate h := .finish hentry hstate h

/-! ## Operations -/

/-- What a caller may do with a machine. -/
inductive Operation
  | evaluate (e : Expr) (scope : ScopeId)
  | lookupName (scope : ScopeId) (name : Value)
  | lookupField (target field : Value)
  | call (callee : Value) (args : List Value)
  /-- Bindings that a caller makes wait for their evaluation or have values. -/
  | newScope (parent : Option ScopeId) (bindings : Bindings) (idle : bindings.Idle)
  | setContext (context : Context)

/-- The machine after an operation, whatever its outcome. -/
def Machine.perform (host : Host) (m : Machine) : Operation → Machine
  | .evaluate e scope => ((DynamicConfig.evaluate host e scope).run.run m).2
  | .lookupName scope name => ((DynamicConfig.lookupName host scope name).run.run m).2
  | .lookupField target field => ((DynamicConfig.lookupField host target field).run.run m).2
  | .call callee args => ((DynamicConfig.call host callee args).run.run m).2
  | .newScope parent bindings _ => ((Machine.newScope parent bindings).run m).2
  | .setContext context => { m with context }

/-- No binding of any scope is in progress. -/
def Machine.Idle (m : Machine) : Prop :=
  ∀ id, (m.scopes.get id).bindings.Idle

theorem forward_perform {host : Host} (hhost : host.Meets forwardContract) (m : Machine) (operation : Operation) :
    m.scopes.Forward (m.perform host operation).scopes := by
  have hevaluate := Contract.meets_evaluate hhost 0
  cases operation with
  | evaluate e scope => exact (hevaluate e scope m trivial).1
  | lookupName scope name => exact (Evaluation.meets_lookupName hevaluate scope name m trivial).1
  | lookupField target field => exact (Evaluation.meets_lookup hevaluate target field m trivial).1
  | call callee args => exact (Evaluation.meets_callValue hhost hevaluate callee args m trivial).1
  | newScope parent bindings idle => exact m.scopes.forward_add parent idle
  | setContext context => exact .refl m.scopes

theorem Machine.Idle.forward {before after : Machine} (hb : before.Idle) (h : before.scopes.Forward after.scopes) :
    after.Idle := by
  intro id
  by_cases hid : id < before.scopes.size
  · exact (hb id).forward (h.old id hid).2
  · exact h.new id (Nat.le_of_not_lt hid)

theorem Machine.idle_initial (context : Context) : (Machine.initial context).Idle := by
  intro id
  rcases id with _ | id
  · intro entry hentry
    have hglobal : entry ∈ globals := hentry
    simp only [globals, List.mem_cons, List.not_mem_nil, or_false] at hglobal
    rcases hglobal with rfl | rfl | rfl | rfl <;> exact EntryState.noConfusion
  · rw [Scopes.get_of_size_le (by simp [Machine.initial])]
    exact Bindings.all_nil

/-- An operation changes bindings forward only, on a machine in any state, and in scopes that it makes nothing
is left in progress. Where nothing is in progress at first, nothing is so between operations. The functions are the
built-in ones, and evaluation may be asked to stop at any of its checks. -/
theorem bindings_change_forward_only (interrupts : Nat → Bool) :
    (∀ (m : Machine) (operation : Operation),
      m.scopes.Forward (m.perform (Host.interruptedBy interrupts) operation).scopes) ∧
    ∀ (m : Machine) (operations : List Operation), m.Idle →
      (operations.foldl (Machine.perform (Host.interruptedBy interrupts)) m).Idle := by
  have hforward := forward_perform (Host.meets_interruptedBy interrupts)
  refine ⟨hforward, fun m operations hm => ?_⟩
  induction operations generalizing m with
  | nil => exact hm
  | cons operation rest ih => exact ih _ (hm.forward (hforward m operation))

/-- The lookup of a name that refers to itself is interrupted while its binding is being evaluated. Nothing is left in
progress: the binding waits again. Looked up once more, it is evaluated to an error. -/
theorem interrupted_lookup_leaves_nothing_in_progress :
    let host := Host.interruptedBy (· == 0)
    let binding : Entry := ⟨.string "x", .unevaluated (.nameLeaf ⟨4, 5⟩ "x")⟩
    let operations : List Operation :=
      [.newScope (some globalScope) [binding] (List.forall_mem_singleton.2 EntryState.noConfusion),
        .lookupName 1 (.string "x")]
    let interrupted := operations.foldl (Machine.perform host) (.initial {})
    (Machine.initial {}).Idle ∧ interrupted.Idle ∧ (interrupted.scopes.get 1).bindings = [binding] ∧
      ((interrupted.perform host (.lookupName 1 (.string "x"))).scopes.get 1).bindings =
        [⟨.string "x", .evaluated (.error "recursion detected: x")⟩] := by
  intro host binding operations interrupted
  have hidle := Machine.idle_initial {}
  exact ⟨hidle, (bindings_change_forward_only (· == 0)).2 _ operations hidle, rfl, rfl⟩

end DynamicConfig

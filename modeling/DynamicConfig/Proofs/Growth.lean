import DynamicConfig.Proofs.Forward
/-!
# How machines grow

Evaluation changes a machine step by step: a scope is made, an identity is used up, a binding gets another state, a
limit refuses something. Every run makes the machine grow (`growthContract`): it changes bindings forward, uses up
identities and takes no refusal back. In particular what is known stays known (`Machine.Settles`), also while bindings
are in progress.
-/

namespace DynamicConfig

theorem Bindings.Waiting.idle {bindings : Bindings} (h : bindings.Waiting) : bindings.Idle := by
  intro entry hentry
  obtain ⟨name, expr, rfl⟩ := h entry hentry
  exact EntryState.noConfusion

theorem Bindings.names_modify (bindings : Bindings) (place : Nat) (state : EntryState) :
    (bindings.modify place fun entry => { entry with state }).map Entry.name = bindings.map Entry.name :=
  List.ext_getElem? fun i => by grind

/-! ## Scopes -/

namespace Scopes

theorem size_add (scopes : Scopes) (parent : Option ScopeId) (bindings : Bindings) :
    (scopes.add parent bindings).2.size = scopes.size + 1 :=
  Array.size_push _

theorem enclosing_get_add (scopes : Scopes) (parent : ScopeId) (bindings : Bindings) :
    ((scopes.add (some parent) bindings).2.get scopes.size).enclosing = parent :: (scopes.get parent).enclosing := by
  simp [add, get]

/-- A state of a binding is all that changes. -/
theorem enclosing_get_setState (scopes : Scopes) (id other : ScopeId) (place : Nat) (state : EntryState) :
    ((scopes.setState id place state).get other).enclosing = (scopes.get other).enclosing := by
  rw [get_setState]
  split <;> rfl

theorem get_setState_of_ne {scopes : Scopes} {id other : ScopeId} (h : id ≠ other) (place : Nat) (state : EntryState) :
    (scopes.setState id place state).get other = scopes.get other := by
  rw [get_setState, if_neg h]

/-- A binding at another place is as it was. -/
theorem getElem?_setState_of_ne {scopes : Scopes} {id other : ScopeId} {place i : Nat} (h : ¬ (id = other ∧ place = i))
    (state : EntryState) :
    ((scopes.setState id place state).get other).bindings[i]? = (scopes.get other).bindings[i]? := by
  by_cases hid : id = other
  · subst hid
    rw [get_setState, if_pos rfl]
    exact List.getElem?_modify_ne _ _ fun hplace => h ⟨rfl, hplace⟩
  · rw [get_setState_of_ne hid]

/-- The binding at the place itself has got the state. -/
theorem getElem?_setState {scopes : Scopes} {id : ScopeId} {place : Nat} {entry : Entry}
    (hentry : (scopes.get id).bindings[place]? = some entry) (state : EntryState) :
    ((scopes.setState id place state).get id).bindings[place]? = some ⟨entry.name, state⟩ := by
  rw [get_setState, if_pos rfl, List.getElem?_modify_eq, hentry]
  rfl

/-- Only the last state counts. -/
theorem get_setState_again {before after : Scopes} {id other : ScopeId} {place : Nat} {between : EntryState}
    (h : after.get other = (before.setState id place between).get other) (state : EntryState) :
    (after.setState id place state).get other = (before.setState id place state).get other := by
  rw [get_setState] at h
  rw [get_setState, get_setState, h]
  split
  · simp [List.modify_modify_eq, Function.comp_def]
  · rfl

theorem names_get_setState (scopes : Scopes) (id other : ScopeId) (place : Nat) (state : EntryState) :
    ((scopes.setState id place state).get other).bindings.map Entry.name =
      (scopes.get other).bindings.map Entry.name := by
  rw [get_setState]
  split
  · exact Bindings.names_modify ..
  · rfl

end Scopes

/-! ## Basic changes of a machine -/

namespace Machine

/-- A limit has refused something. -/
def refused (m : Machine) : Machine :=
  { m with context := { m.context with refusals := m.context.refusals + 1 } }

/-- A binding has been asked for that was being evaluated. -/
def circled (m : Machine) : Machine :=
  { m with context := { m.context with circles := m.context.circles + 1 } }

/-- An identity is used up. -/
def named (m : Machine) : Machine :=
  { m with nextId := m.nextId + 1 }

/-- There is a new scope inside another one. -/
def extended (m : Machine) (parent : ScopeId) (bindings : Bindings) : Machine :=
  { m with scopes := (m.scopes.add (some parent) bindings).2 }

/-- A binding has got another state. -/
def updated (m : Machine) (id : ScopeId) (place : Nat) (state : EntryState) : Machine :=
  { m with scopes := m.scopes.setState id place state }

/-- The machine in a changed context. -/
def within (m : Machine) (change : Context → Context) : Machine :=
  { m with context := change m.context }

/-- The rule of a node begins: evaluation goes on after a check, and the node is counted. -/
def entered (m : Machine) : Machine :=
  (m.within Context.check).within Context.enterNode

variable (m : Machine) (parent id other : ScopeId) (bindings : Bindings) (place : Nat) (state : EntryState)

theorem size_extended : (m.extended parent bindings).scopes.size = m.scopes.size + 1 :=
  Scopes.size_add m.scopes (some parent) bindings

/-- The scopes that there were are as they were. -/
theorem get_extended (hother : other < m.scopes.size) :
    (m.extended parent bindings).scopes.get other = m.scopes.get other :=
  Scopes.get_add m.scopes (some parent) bindings hother

theorem get_extended_new :
    (m.extended parent bindings).scopes.get m.scopes.size = ⟨parent :: (m.scopes.get parent).enclosing, bindings⟩ := by
  simp [extended, Scopes.add, Scopes.get]

/-- Only the new scope is different. -/
theorem get_extended_of_ne (hother : other ≠ m.scopes.size) :
    (m.extended parent bindings).scopes.get other = m.scopes.get other := by
  rcases Nat.lt_or_gt_of_ne hother with hlt | hgt
  · exact m.get_extended parent other bindings hlt
  · rw [Scopes.get_of_size_le (m.size_extended parent bindings ▸ hgt), Scopes.get_of_size_le (Nat.le_of_lt hgt)]

theorem enclosing_extended : ((m.extended parent bindings).scopes.get m.scopes.size).enclosing =
    parent :: (m.scopes.get parent).enclosing :=
  Scopes.enclosing_get_add m.scopes parent bindings

theorem bindings_extended : ((m.extended parent bindings).scopes.get m.scopes.size).bindings = bindings :=
  Scopes.bindings_get_add m.scopes (some parent) bindings

theorem size_updated : (m.updated id place state).scopes.size = m.scopes.size :=
  Scopes.size_setState ..

theorem enclosing_updated :
    ((m.updated id place state).scopes.get other).enclosing = (m.scopes.get other).enclosing :=
  Scopes.enclosing_get_setState ..

theorem names_updated : ((m.updated id place state).scopes.get other).bindings.map Entry.name =
    (m.scopes.get other).bindings.map Entry.name :=
  Scopes.names_get_setState ..

/-- Only the scope of the binding changes. -/
theorem get_updated_of_ne (hother : id ≠ other) :
    (m.updated id place state).scopes.get other = m.scopes.get other :=
  Scopes.get_setState_of_ne hother ..

end Machine

/-- Where evaluation checks whether it is to stop, that is counted, also if it stops. -/
theorem Eval.run_checkInterrupt_bind {α : Type} (host : Host) (work : Eval α) (m : Machine) :
    (host.checkInterrupt >>= fun _ => work).run.run m =
      if host.stops m.context then (.error .interrupted, m.within Context.check)
      else work.run.run (m.within Context.check) := by
  rw [ExceptT.run_bind, StateT.run_bind, host.run_checkInterrupt]
  split <;> rfl

theorem Eval.run_newScope_bind {α : Type} (parent : ScopeId) (bindings : Bindings) (next : ScopeId → Eval α) (m : Machine) :
    (Eval.newScope parent bindings >>= next).run.run m = (next m.scopes.size).run.run (m.extended parent bindings) := rfl

theorem Eval.run_inCall (work : Eval Value) (m : Machine) :
    (inCall work).run.run m =
      if m.context.depth < m.context.limits.maxCallDepth then
        ((work.run.run (m.within Context.enterCall)).1,
          (work.run.run (m.within Context.enterCall)).2.within Context.leaveCall)
      else (.ok (.error "maximum call depth exceeded"), m.refused) := by
  have hrun : (inCall work).run.run m =
      (if m.context.depth < m.context.limits.maxCallDepth then inside Context.enterCall Context.leaveCall work
        else refuseCall).run.run m := rfl
  rw [hrun]
  split <;> rfl

/-! ## Growth -/

namespace Machine

/-- Bindings change forward, identities are used up, and refusals and circles are counted. -/
structure Grows (m m' : Machine) : Prop where
  scopes : m.scopes.Forward m'.scopes
  ids : m.nextId ≤ m'.nextId
  refusals : m.context.refusals ≤ m'.context.refusals
  circles : m.context.circles ≤ m'.context.circles

theorem Grows.refl (m : Machine) : m.Grows m :=
  ⟨.refl _, Nat.le_refl _, Nat.le_refl _, Nat.le_refl _⟩

theorem Grows.trans {a b c : Machine} (hab : a.Grows b) (hbc : b.Grows c) : a.Grows c :=
  ⟨hab.scopes.trans hbc.scopes, Nat.le_trans hab.ids hbc.ids, Nat.le_trans hab.refusals hbc.refusals,
    Nat.le_trans hab.circles hbc.circles⟩

end Machine

/-- Every run makes the machine grow. -/
def growthContract : Contract where
  Ready _ _ := True
  Leads := Machine.Grows
  refl := .refl
  trans := .trans
  ready _ _ := trivial
  ready_room _ := trivial
  ready_scopes _ _ := trivial
  ready_node _ := trivial
  ready_call _ _ := trivial
  node _ h := ⟨h.scopes, h.ids, h.refusals, h.circles⟩
  call _ _ h := ⟨h.scopes, h.ids, h.refusals, h.circles⟩
  refuse _ := ⟨.refl _, Nat.le_refl _, Nat.le_succ _, Nat.le_refl _⟩
  circle _ := ⟨.refl _, Nat.le_refl _, Nat.le_refl _, Nat.le_succ _⟩
  check _ := ⟨.refl _, Nat.le_refl _, Nat.le_refl _, Nat.le_refl _⟩
  fresh _ := ⟨.refl _, Nat.le_succ _, Nat.le_refl _, Nat.le_refl _⟩
  newScope m parent h := ⟨m.scopes.forward_add parent h, Nat.le_refl _, Nat.le_refl _, Nat.le_refl _⟩
  entry hentry hstate h := ⟨.finish hentry hstate h.scopes, h.ids, h.refusals, h.circles⟩

/-! ## What is known stays known -/

/-- The same names are bound at the same places of the same scopes, and bindings with values keep them. -/
structure Scopes.Settles (before after : Scopes) : Prop where
  size : before.size ≤ after.size
  enclosing : ∀ id < before.size, (after.get id).enclosing = (before.get id).enclosing
  names : ∀ id < before.size, (after.get id).bindings.map Entry.name = (before.get id).bindings.map Entry.name
  known : ∀ (id place : Nat) (name value : Value), (before.get id).bindings[place]? = some ⟨name, .evaluated value⟩ →
    (after.get id).bindings[place]? = some ⟨name, .evaluated value⟩

/-- Nothing that is known is lost. In contrast to growth it leaves out what is in progress. -/
structure Machine.Settles (m m' : Machine) : Prop where
  scopes : m.scopes.Settles m'.scopes
  ids : m.nextId ≤ m'.nextId
  refusals : m.context.refusals ≤ m'.context.refusals
  circles : m.context.circles ≤ m'.context.circles

theorem Bindings.Forward.names {before after : Bindings} (h : before.Forward after) :
    after.map Entry.name = before.map Entry.name := by
  refine List.ext_getElem? fun place => ?_
  rw [List.getElem?_map, List.getElem?_map]
  cases hentry : before[place]? with
  | none =>
    have hle : after.length ≤ place := h.length ▸ List.getElem?_eq_none_iff.1 hentry
    rw [List.getElem?_eq_none hle]
  | some entry =>
    obtain ⟨state, hafter, -⟩ := h.entry place entry hentry
    rw [hafter]
    rfl

namespace Scopes

theorem Settles.refl (scopes : Scopes) : scopes.Settles scopes where
  size := Nat.le_refl _
  enclosing _ _ := rfl
  names _ _ := rfl
  known _ _ _ _ h := h

theorem Forward.settles {before after : Scopes} (h : before.Forward after) : before.Settles after where
  size := h.size
  enclosing id hid := (h.old id hid).1
  names id hid := (h.old id hid).2.names
  known id place name value hvalue := by
    obtain ⟨state, hafter, hstate⟩ := (h.old id (lt_size_of_getElem? hvalue)).2.entry place _ hvalue
    cases hstate
    exact hafter

/-- A new scope leaves the others as they are. -/
theorem settles_add (scopes : Scopes) (parent : Option ScopeId) (bindings : Bindings) :
    scopes.Settles (scopes.add parent bindings).2 where
  size := by simp [add]
  enclosing id hid := by rw [get_add scopes parent bindings hid]
  names id hid := by rw [get_add scopes parent bindings hid]
  known id place name value hvalue := by rwa [get_add scopes parent bindings (lt_size_of_getElem? hvalue)]

/-- There is a binding whose value is not known. -/
def Unknown (scopes : Scopes) (id : ScopeId) (place : Nat) : Prop :=
  ∃ name state, (scopes.get id).bindings[place]? = some ⟨name, state⟩ ∧ ∀ value, state ≠ .evaluated value

theorem Unknown.setState {scopes : Scopes} {id : ScopeId} {place : Nat} (h : scopes.Unknown id place)
    {state : EntryState} (hstate : ∀ value, state ≠ .evaluated value) :
    (scopes.setState id place state).Unknown id place := by
  obtain ⟨name, before, hentry, -⟩ := h
  exact ⟨name, state, getElem?_setState hentry state, hstate⟩

/-- A binding that is not known yet may get any state. -/
theorem Unknown.settles {scopes : Scopes} {id : ScopeId} {place : Nat} (h : scopes.Unknown id place)
    (after : EntryState) : scopes.Settles (scopes.setState id place after) where
  size := Nat.le_of_eq (size_setState ..).symm
  enclosing other _ := enclosing_get_setState scopes id other place after
  names other _ := names_get_setState scopes id other place after
  known other i key value hvalue := by
    obtain ⟨name, state, hentry, hstate⟩ := h
    rwa [getElem?_setState_of_ne]
    rintro ⟨rfl, rfl⟩
    rw [hentry] at hvalue
    cases hvalue
    exact hstate value rfl

end Scopes

theorem Machine.Grows.settles {m m' : Machine} (h : m.Grows m') : m.Settles m' :=
  ⟨h.scopes.settles, h.ids, h.refusals, h.circles⟩

theorem Machine.settles_within (m : Machine) (change : Context → Context)
    (hrefusals : ∀ c, (change c).refusals = c.refusals) (hcircles : ∀ c, (change c).circles = c.circles) :
    m.Settles (m.within change) :=
  ⟨.refl _, Nat.le_refl _, Nat.le_of_eq (hrefusals m.context).symm, Nat.le_of_eq (hcircles m.context).symm⟩

/-! ## Lookups -/

namespace Evaluation

theorem run_resolve_waiting (run : Evaluator) (name : Value) (s : ScopeId) (place : Nat) (expr : Expr) (m : Machine) :
    (resolve run name s place (.unevaluated expr)).run.run m =
      let started := m.updated s place .inProgress
      if m.context.depth < m.context.limits.maxCallDepth then
        let ended := (run expr s).run.run (started.within Context.enterCall)
        match ended.1 with
        | .ok value => (.ok value, (ended.2.updated s place (.evaluated value)).within Context.leaveCall)
        | .error failure => (.error failure, (ended.2.updated s place (.unevaluated expr)).within Context.leaveCall)
      else (.ok (.error "maximum call depth exceeded"), (started.updated s place (.unevaluated expr)).refused) := by
  have hrun : (resolve run name s place (.unevaluated expr)).run.run m =
      (if m.context.depth < m.context.limits.maxCallDepth then
        Eval.inside Context.enterCall Context.leaveCall (evaluateEntry run s place expr)
        else do
          Eval.setState s place (.unevaluated expr)
          Eval.refuseCall).run.run (m.updated s place .inProgress) := rfl
  rw [hrun]
  dsimp only
  split
  · have hrule : (Eval.inside Context.enterCall Context.leaveCall (evaluateEntry run s place expr)).run.run
        (m.updated s place .inProgress) =
          (((evaluateEntry run s place expr).run.run
            ((m.updated s place .inProgress).within Context.enterCall)).1,
          ((evaluateEntry run s place expr).run.run
            ((m.updated s place .inProgress).within Context.enterCall)).2.within Context.leaveCall) := rfl
    rw [hrule, evaluateEntry, ExceptT.run_mk]
    cases hr : (run expr s).run.run ((m.updated s place .inProgress).within Context.enterCall) with
    | mk outcome m' =>
      rw [Eval.run_bind_of_run hr]
      cases outcome <;> rfl
  · rfl

/-- A binding whose evaluation comes to a value gets it. -/
theorem leads_done {contract : Contract} {room : Nat} {run : Evaluator} (hrun : run.Meets contract room) {m : Machine}
    (hm : contract.Ready room m) {s : ScopeId} {place : Nat} {key : Value} {expr : Expr}
    (hentry : (m.scopes.get s).bindings[place]? = some ⟨key, .unevaluated expr⟩)
    (hdepth : m.context.depth < m.context.limits.maxCallDepth) {value : Value} {after : Machine}
    (hended : (run expr s).run.run ((m.updated s place .inProgress).within Context.enterCall) = (.ok value, after)) :
    contract.Leads m ((after.updated s place (.evaluated value)).within Context.leaveCall) := by
  have hleads := leads_resolve hrun hm key hentry
  rw [run_resolve_waiting] at hleads
  dsimp only at hleads
  rwa [if_pos hdepth, hended] at hleads

/-- A lookup asks the binding that is found, if there is one. -/
theorem run_lookupName (run : Evaluator) (scope : ScopeId) (name : Value) (m : Machine) :
    (lookupName run scope name).run.run m = (match m.scopes.find? scope name with
      | some (holder, place, entry) => resolve run name holder place entry.state
      | none => return .error ("name not found: " ++ name.displayName)).run.run m := rfl

end Evaluation

/-- A lookup has as much room for nodes as the machine. -/
theorem run_lookupName (host : Host) (scope : ScopeId) (name : Value) (m : Machine) :
    (lookupName host scope name).run.run m =
      (Evaluation.lookupName (evalWithin host m.context.room) scope name).run.run m := by
  rw [lookupName, Evaluation.run_lookupName, Evaluation.run_lookupName]
  cases m.scopes.find? scope name with
  | none => rfl
  | some found =>
    obtain ⟨holder, place, key, state⟩ := found
    cases state with
    | unevaluated expr =>
      dsimp only
      rw [Evaluation.run_resolve_waiting, Evaluation.run_resolve_waiting]
      rfl
    | _ => rfl

/-- A binding that is being evaluated stays so until the evaluation is over. -/
theorem Machine.unknown_ended {m m' : Machine} {s : ScopeId} {place : Nat} {entry : Entry}
    (hentry : (m.scopes.get s).bindings[place]? = some entry)
    (h : ((m.updated s place .inProgress).within Context.enterCall).Grows m') : m'.scopes.Unknown s place := by
  have hstarted := Scopes.getElem?_setState hentry .inProgress
  obtain ⟨_, hended, rfl⟩ := (h.scopes.old s (Scopes.lt_size_of_getElem? hstarted)).2.entry place _ hstarted
  exact ⟨_, _, hended, fun _ => EntryState.noConfusion⟩

theorem Machine.settles_done {m : Machine} {s : ScopeId} {place : Nat} (h : m.scopes.Unknown s place)
    (state : EntryState) : m.Settles ((m.updated s place state).within Context.leaveCall) :=
  ⟨h.settles state, Nat.le_refl _, Nat.le_refl _, Nat.le_refl _⟩

/-- A binding whose evaluation is over has the value under its name. -/
theorem Machine.known_done {m m' : Machine} {s : ScopeId} {place : Nat} {entry : Entry} {value : Value}
    (hentry : (m.scopes.get s).bindings[place]? = some entry)
    (h : m.scopes.Forward (m'.scopes.setState s place (.evaluated value))) :
    ((m'.scopes.setState s place (.evaluated value)).get s).bindings[place]? = some ⟨entry.name, .evaluated value⟩ := by
  obtain ⟨key, before⟩ := entry
  obtain ⟨state, hdone, -⟩ := (h.old s (Scopes.lt_size_of_getElem? hentry)).2.entry place _ hentry
  rw [Scopes.get_setState, if_pos rfl, List.getElem?_modify_eq] at hdone ⊢
  obtain ⟨_, hfound, heq⟩ := Option.map_eq_some_iff.1 hdone
  cases heq
  rw [hfound]
  rfl

end DynamicConfig

import DynamicConfig.Proofs.Alike
import DynamicConfig.Proofs.Growth
/-!
# Two machines that do the same

A simulation relates the machines of two runs under a pairing of their scopes and identities. If the basic changes
of evaluation keep machines linked, then what is done on one machine is followed by what is done on the other one, and
the outcomes are alike (`Simulation.Matched`). This is kept where work is put together from basic work.

A run may be followed only if the first machine ends well, say without a refusal by a limit. That this holds at the
end and so held before takes that every run makes the machine grow.
-/

namespace DynamicConfig

/-! ## Names -/

/-- A name is found at the same place of scopes that stand for each other. -/
theorem Scopes.findIn_alike {p : Pairing} (hp : p.OneToOne) {scopes scopes' : Scopes}
    (hscopes : ∀ s s', p.SameScope s s' → (scopes.get s).bindings.NamesAlike p (scopes'.get s').bindings)
    {name name' : Value} (hname : name.Alike p name') {ids ids' : List ScopeId}
    (hids : List.Forall₂ p.SameScope ids ids') :
    Option.Rel (fun found found' => p.SameScope found.1 found'.1 ∧ found.2.1 = found'.2.1)
      (scopes.findIn? name ids) (scopes'.findIn? name' ids') := by
  induction hids with
  | nil => exact .none
  | @cons s s' _ _ hscope hrest ih =>
    have hfind := (hscopes s s' hscope).find_eq hp hname
    rw [findIn?, findIn?]
    cases hs : (scopes.get s).bindings.find? name with
    | none =>
      cases hs' : (scopes'.get s').bindings.find? name' with
      | none => exact ih
      | some found' => rw [hs, hs'] at hfind; cases hfind
    | some found =>
      cases hs' : (scopes'.get s').bindings.find? name' with
      | none => rw [hs, hs'] at hfind; cases hfind
      | some found' =>
        rw [hs, hs', Option.map_some, Option.map_some, Option.some.injEq] at hfind
        exact .some ⟨hscope, hfind⟩

theorem isSome_eq_of_rel {α β : Type} {R : α → β → Prop} {a : Option α} {b : Option β} (h : Option.Rel R a b) :
    a.isSome = b.isSome := by
  cases h <;> rfl

/-- Bindings that are alike still are if one of them changes on both sides. -/
theorem Machine.bindings_updated {m m' : Machine} {p : Pairing} (hp : p.OneToOne) {s s' t t' : ScopeId}
    (hs : p.SameScope s s') (ht : p.SameScope t t') (place : Nat) {state state' : EntryState}
    (hstate : state.Alike p state') (h : (m.scopes.get t).bindings.Alike p (m'.scopes.get t').bindings) :
    ((m.updated s place state).scopes.get t).bindings.Alike p ((m'.updated s' place state').scopes.get t').bindings := by
  by_cases hsame : s = t
  · subst hsame
    obtain rfl : s' = t' := hp.scopes.2 hs ht
    rw [Machine.updated, Machine.updated, Scopes.get_setState, Scopes.get_setState, if_pos rfl, if_pos rfl]
    exact h.modify place hstate
  · have hother : s' ≠ t' := fun heq => hsame (hp.scopes.1 hs (heq ▸ ht))
    rw [Machine.get_updated_of_ne m s t place state hsame, Machine.get_updated_of_ne m' s' t' place state' hother]
    exact h

/-! ## Simulations -/

/-- How the machines of two runs are linked, under a pairing of their scopes and identities. In scopes that stand for
each other the bindings at places that are in step are in the same states. -/
structure Simulation where
  Linked : Pairing → Machine → Machine → Prop
  /-- Where a run may end that is followed. -/
  Final : Machine → Prop
  InStep : ScopeId → (place : Nat) → Prop
  /-- Whether runs that fail are followed too. -/
  failing : Prop
  final {m m' : Machine} : m.Settles m' → Final m' → Final m
  oneToOne {p : Pairing} {m m' : Machine} : Linked p m m' → p.OneToOne
  interrupted {p : Pairing} {m m' : Machine} :
    Linked p m m' → m.context.interrupted = m'.context.interrupted
  /-- Where one machine may call, so may the other one. -/
  admits {p : Pairing} {m m' : Machine} : Linked p m m' → m.context.depth < m.context.limits.maxCallDepth →
    m'.context.depth < m'.context.limits.maxCallDepth
  denies {p : Pairing} {m m' : Machine} : Linked p m m' → Final m.refused →
    ¬ m.context.depth < m.context.limits.maxCallDepth → ¬ m'.context.depth < m'.context.limits.maxCallDepth
  refused {p : Pairing} {m m' : Machine} : Linked p m m' → Final m.refused → Linked p m.refused m'.refused
  circled {p : Pairing} {m m' : Machine} : Linked p m m' → Final m.circled → Linked p m.circled m'.circled
  enterCall {p : Pairing} {m m' : Machine} :
    Linked p m m' → Linked p (m.within Context.enterCall) (m'.within Context.enterCall)
  leaveCall {p : Pairing} {m m' : Machine} :
    Linked p m m' → Linked p (m.within Context.leaveCall) (m'.within Context.leaveCall)
  checked {p : Pairing} {m m' : Machine} :
    Linked p m m' → Linked p (m.within Context.check) (m'.within Context.check)
  named {p : Pairing} {m m' : Machine} : Linked p m m' →
    ∃ q, p ≤ q ∧ q.SameId m.nextId m'.nextId ∧ Linked q m.named m'.named
  extended {p : Pairing} {m m' : Machine} {parent parent' : ScopeId} {bindings bindings' : Bindings} :
    Linked p m m' → p.SameScope parent parent' → bindings.Alike p bindings' →
      ∃ q, p ≤ q ∧ q.SameScope m.scopes.size m'.scopes.size ∧
        Linked q (m.extended parent bindings) (m'.extended parent' bindings')
  enclosing {p : Pairing} {m m' : Machine} {s s' : ScopeId} : Linked p m m' → p.SameScope s s' →
    List.Forall₂ p.SameScope (m.scopes.get s).enclosing (m'.scopes.get s').enclosing
  /-- Scopes that stand for each other bind the same texts, if maybe at other places. -/
  contains {p : Pairing} {m m' : Machine} {s s' : ScopeId} (name : String) : Linked p m m' → p.SameScope s s' →
    (m.scopes.get s).bindings.contains (.string name) = (m'.scopes.get s').bindings.contains (.string name)
  bindings {p : Pairing} {m m' : Machine} {s s' : ScopeId} {place : Nat} {entry : Entry} :
    Linked p m m' → p.SameScope s s' → InStep s' place → (m.scopes.get s).bindings[place]? = some entry →
      ∃ entry', (m'.scopes.get s').bindings[place]? = some entry' ∧ entry.Alike p entry'
  updated {p : Pairing} {m m' : Machine} {s s' : ScopeId} {state state' : EntryState} (place : Nat) :
    Linked p m m' → p.SameScope s s' → InStep s' place → m.scopes.Unknown s place → state.Alike p state' →
      Linked p (m.updated s place state) (m'.updated s' place state')

/-- Two failures that are the same, or two results that are alike. -/
inductive SameOutcome {ε α : Type} (Same : α → α → Prop) : Except ε α → Except ε α → Prop
  | ok {a a' : α} (h : Same a a') : SameOutcome Same (.ok a) (.ok a')
  | error (e : ε) : SameOutcome Same (.error e) (.error e)

theorem SameOutcome.refl {ε α : Type} {Same : α → α → Prop} (h : ∀ a, Same a a) :
    (outcome : Except ε α) → SameOutcome Same outcome outcome
  | .ok a => .ok (h a)
  | .error e => .error e

/-- Where everything stands for itself, outcomes that are alike are the same. -/
theorem SameOutcome.eq {outcome outcome' : Except FatalError Value} (h : SameOutcome (Value.Alike .same) outcome outcome') :
    outcome = outcome' := by
  cases h with
  | ok hv => rw [hv.eq (le_refl _)]
  | error failure => rfl

namespace Simulation

variable {α β : Type} (sim : Simulation) {p q : Pairing} {m m' : Machine}

/-- The second run does what the first one does, if the first one is one to follow. -/
def Follows (p : Pairing) (Same : Pairing → α → α → Prop) (work work' : Eval α) (m m' : Machine) : Prop :=
  sim.Final (work.run.run m).2 → (sim.failing ∨ ∃ a, (work.run.run m).1 = .ok a) →
    ∃ q, p ≤ q ∧ sim.Linked q (work.run.run m).2 (work'.run.run m').2 ∧
      SameOutcome (Same q) (work.run.run m).1 (work'.run.run m').1

/-- The second work does on every linked machine what the first one does. The first one makes the machine grow,
and its results are alike to themselves where everything stands for everything. -/
structure Matched (p : Pairing) (Same : Pairing → α → α → Prop) (work work' : Eval α) : Prop where
  grows : Eval.Meets growthContract 0 (fun a => Same ⊤ a a) work
  follows : ∀ m m', sim.Linked p m m' → sim.Follows p Same work work' m m'

variable {sim} {Same : Pairing → α → α → Prop} {Alike : Pairing → β → β → Prop} {work work' : Eval α}
  {next next' : α → Eval β}

/-! ## Basic work -/

theorem matched_pure {a a' : α} (hself : Same ⊤ a a) (h : p.OneToOne → Same p a a') :
    sim.Matched p Same (pure a) (pure a') where
  grows := Eval.meets_pure hself
  follows _ _ hm _ _ := ⟨p, le_refl p, hm, .ok (h (sim.oneToOne hm))⟩

theorem matched_value {v v' : Value} (h : p.OneToOne → v.Alike p v') :
    sim.Matched p Value.Alike (pure v) (pure v') :=
  matched_pure (.refl Pairing.reflexive_top v) h

theorem matched_throw (failure : FatalError) : sim.Matched p Same (throw failure : Eval α) (throw failure) where
  grows := Eval.meets_throw failure
  follows _ _ hm _ _ := ⟨p, le_refl p, hm, .error failure⟩

/-- One piece of work after the other. That the first machine may be in its present state in a run that is followed
is known at the end only. -/
theorem Matched.bind (h : sim.Matched p Same work work')
    (hnext : ∀ q, p ≤ q → ∀ a a', Same q a a' → sim.Matched q Alike (next a) (next' a')) :
    sim.Matched p Alike (work >>= next) (work' >>= next') where
  grows := h.grows.bind fun a ha => (hnext ⊤ le_top a a ha).grows
  follows m m' hm := by
    obtain ⟨-, hself⟩ := h.grows m trivial
    have hfollows := h.follows m m' hm
    unfold Follows at hfollows ⊢
    rw [ExceptT.run_bind, ExceptT.run_bind, StateT.run_bind, StateT.run_bind]
    generalize work.run.run m = first at *
    generalize work'.run.run m' = first' at *
    obtain ⟨outcome, m₁⟩ := first
    obtain ⟨outcome', m₁'⟩ := first'
    intro hfinal hok
    cases outcome with
    | error failure =>
      obtain ⟨q, hpq, hlinked, houtcome⟩ := hfollows hfinal (hok.imp_right fun ⟨_, h⟩ => by cases h)
      cases houtcome
      exact ⟨q, hpq, hlinked, .error failure⟩
    | ok a =>
      have hgrows := (hnext ⊤ le_top a a (hself a rfl)).grows m₁ trivial
      obtain ⟨q, hpq, hlinked, houtcome⟩ := hfollows (sim.final hgrows.1.settles hfinal) (.inr ⟨a, rfl⟩)
      cases houtcome with
      | ok hsame =>
        obtain ⟨r, hqr, hrest⟩ := (hnext q hpq a _ hsame).follows m₁ m₁' hlinked hfinal hok
        exact ⟨r, hpq.trans hqr, hrest⟩

/-- Work that hands on an error value at once. -/
theorem Matched.bindValue {work work' : Eval Value} {next next' : Value → Eval Value}
    (h : sim.Matched p Value.Alike work work')
    (hnext : ∀ q, p ≤ q → ∀ v v', v.Alike q v' → sim.Matched q Value.Alike (next v) (next' v')) :
    sim.Matched p Value.Alike (do let v ← work; if v.isError then return v else next v)
      (do let v ← work'; if v.isError then return v else next' v) := by
  refine h.bind fun q hpq v v' hv => ?_
  rw [hv.isError_eq]
  split
  · exact matched_value fun _ => hv
  · exact hnext q hpq v v' hv

/-- A choice by what is asked of the machine. -/
theorem matched_choice {test test' : Machine → Bool} (htest : ∀ m m', sim.Linked p m m' → test m = test' m')
    {yes yes' no no' : Eval α} (hyes : sim.Matched p Same yes yes') (hno : sim.Matched p Same no no') :
    sim.Matched p Same (get >>= fun m => if test m then yes else no)
      (get >>= fun m => if test' m then yes' else no') := by
  have hchosen : ∀ b : Bool, sim.Matched p Same (if b then yes else no) (if b then yes' else no') := by
    intro b
    cases b with
    | true => exact hyes
    | false => exact hno
  refine ⟨Eval.meets_get fun m hm => (hchosen (test m)).grows m hm, fun m m' hm => ?_⟩
  have hfollows := (hchosen (test m)).follows m m' hm
  rw [htest m m' hm] at hfollows
  have hrun : (get >>= fun m => if test m then yes else no : Eval α).run.run m =
      (if test' m' then yes else no : Eval α).run.run m := by
    rw [← htest m m' hm]
    rfl
  unfold Follows
  rw [hrun]
  exact hfollows

/-- A check, where either both machines are to stop or none. -/
theorem matched_checkInterrupt {host : Host}
    (hstops : ∀ m m', sim.Linked p m m' → host.stops m.context = host.stops m'.context) :
    sim.Matched p (fun _ _ _ => True) host.checkInterrupt host.checkInterrupt where
  grows := Eval.meets_checkInterrupt host
  follows m m' hm := by
    unfold Follows
    rw [host.run_checkInterrupt, host.run_checkInterrupt, hstops m m' hm]
    refine fun _ _ => ⟨p, le_refl p, sim.checked hm, ?_⟩
    split
    · exact .error FatalError.interrupted
    · exact .ok trivial

theorem matched_refuse (reason : String) : sim.Matched p Value.Alike (Eval.refuse reason) (Eval.refuse reason) where
  grows m _ := ⟨growthContract.refuse m, fun v _ => .refl Pairing.reflexive_top v⟩
  follows _ _ hm hfinal _ := ⟨p, le_refl p, sim.refused hm hfinal, .ok (.error reason)⟩

theorem matched_fresh : sim.Matched p Pairing.SameId (Eval.fresh Fresh.id) (Eval.fresh Fresh.id) where
  grows m _ := ⟨growthContract.fresh m, fun _ _ => trivial⟩
  follows m m' hm _ _ := by
    obtain ⟨q, hpq, hid, hlinked⟩ := sim.named hm
    exact ⟨q, hpq, hlinked, .ok hid⟩

theorem matched_newScope {parent parent' : ScopeId} (hparent : p.SameScope parent parent') {bindings bindings' : Bindings}
    (hidle : bindings.Idle) (h : bindings.Alike p bindings') :
    sim.Matched p Pairing.SameScope (Eval.newScope parent bindings) (Eval.newScope parent' bindings') where
  grows m _ := ⟨growthContract.newScope m (some parent) hidle, fun _ _ => trivial⟩
  follows m m' hm _ _ := by
    obtain ⟨q, hpq, hscope, hlinked⟩ := sim.extended hm hparent h
    exact ⟨q, hpq, hlinked, .ok hscope⟩

/-! ## Calls -/

/-- Any value is alike to itself where everything stands for everything. -/
theorem grows_value {work : Eval Value} (h : Eval.Meets growthContract 0 (fun _ => True) work) :
    Eval.Meets growthContract 0 (fun v => v.Alike ⊤ v) work :=
  fun m hm => ⟨(h m hm).1, fun v _ => .refl Pairing.reflexive_top v⟩

theorem grows_any {work : Eval Value} (h : Eval.Meets growthContract 0 (fun v => v.Alike ⊤ v) work) :
    Eval.Meets growthContract 0 (fun _ => True) work :=
  fun m hm => ⟨(h m hm).1, fun _ _ => trivial⟩

theorem Matched.inCall {work work' : Eval Value} (h : sim.Matched p Value.Alike work work') :
    sim.Matched p Value.Alike (Eval.inCall work) (Eval.inCall work') where
  grows := grows_value (grows_any h.grows).inCall
  follows m m' hm := by
    unfold Follows
    rw [Eval.run_inCall, Eval.run_inCall]
    by_cases hdepth : m.context.depth < m.context.limits.maxCallDepth
    · rw [if_pos hdepth, if_pos (sim.admits hm hdepth)]
      intro hfinal hok
      obtain ⟨q, hpq, hlinked, houtcome⟩ := h.follows _ _ (sim.enterCall hm)
        (sim.final (Machine.settles_within _ Context.leaveCall (fun _ => rfl) fun _ => rfl) hfinal) hok
      exact ⟨q, hpq, sim.leaveCall hlinked, houtcome⟩
    · rw [if_neg hdepth]
      intro hfinal _
      rw [if_neg (sim.denies hm hfinal hdepth)]
      exact ⟨p, le_refl p, sim.refused hm hfinal, .ok (.error _)⟩

end Simulation

end DynamicConfig

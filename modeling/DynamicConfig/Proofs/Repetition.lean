import Mathlib
import DynamicConfig.Proofs.Budgets
import DynamicConfig.Proofs.Seclusion
/-!
# Evaluating once more

The second evaluation of an expression takes other paths than the first one: the bindings that the first one has
evaluated are known by then, and scopes for calls and closures are made once more. Still it has an outcome that is
alike, and changes no binding that there was (`evaluation_repeats`).

The proof is a simulation of the first run by the second one (`Repeats`). A scope that the first run makes for itself
has a counterpart in the second one, and their bindings are in step. All other scopes stand for themselves: on the
second machine they are as the first run leaves them in the end. Where the first run evaluates one of their bindings,
the second one has its value already; that this value refers to nothing that the first run has made for itself is
because it cannot be reached from there (`Secluded`).
-/

namespace DynamicConfig

theorem Scopes.Settles.trans {a b c : Scopes} (hab : a.Settles b) (hbc : b.Settles c) : a.Settles c where
  size := Nat.le_trans hab.size hbc.size
  enclosing id hid := (hbc.enclosing id (Nat.lt_of_lt_of_le hid hab.size)).trans (hab.enclosing id hid)
  names id hid := (hbc.names id (Nat.lt_of_lt_of_le hid hab.size)).trans (hab.names id hid)
  known id place name value h := hbc.known id place name value (hab.known id place name value h)

theorem Machine.Settles.trans {a b c : Machine} (hab : a.Settles b) (hbc : b.Settles c) : a.Settles c :=
  ⟨hab.scopes.trans hbc.scopes, Nat.le_trans hab.ids hbc.ids, Nat.le_trans hab.refusals hbc.refusals,
    Nat.le_trans hab.circles hbc.circles⟩

namespace Pairing

/-- What has a counterpart that there has been before. -/
def shared (p : Pairing) (σ : Machine) : Pairing where
  SameScope s s' := p.SameScope s s' ∧ s' < σ.scopes.size
  SameId i i' := p.SameId i i' ∧ i' < σ.nextId

theorem shared_le (p : Pairing) (σ : Machine) : p.shared σ ≤ p :=
  ⟨fun _ _ h => h.1, fun _ _ h => h.1⟩

theorem shared_mono {p q : Pairing} (h : p ≤ q) (σ : Machine) : p.shared σ ≤ q.shared σ :=
  ⟨fun s s' hs => ⟨h.1 s s' hs.1, hs.2⟩, fun i i' hi => ⟨h.2 i i' hi.1, hi.2⟩⟩

/-- What has been made since then has no counterpart from before. -/
theorem shared_withScope (p : Pairing) {σ : Machine} (s : ScopeId) {s' : ScopeId} (h : σ.scopes.size ≤ s') :
    (p.withScope s s').shared σ ≤ p.shared σ := by
  refine ⟨?_, fun _ _ hi => hi⟩
  rintro t t' ⟨ht | ⟨rfl, rfl⟩, hlt⟩
  · exact ⟨ht, hlt⟩
  · exact absurd hlt (Nat.not_lt_of_le h)

theorem shared_union_le {p q : Pairing} {σ : Machine} (h : p.shared σ ≤ q) : (p.union q).shared σ ≤ q := by
  constructor
  · rintro s s' ⟨hs | hs, hlt⟩
    · exact h.1 s s' ⟨hs, hlt⟩
    · exact hs
  · rintro i i' ⟨hi | hi, hlt⟩
    · exact h.2 i i' ⟨hi, hlt⟩
    · exact hi

theorem shared_withId (p : Pairing) {σ : Machine} (i : Nat) {i' : Nat} (h : σ.nextId ≤ i') :
    (p.withId i i').shared σ ≤ p.shared σ := by
  refine ⟨fun _ _ hs => hs, ?_⟩
  rintro j j' ⟨hj | ⟨rfl, rfl⟩, hlt⟩
  · exact ⟨hj, hlt⟩
  · exact absurd hlt (Nat.not_lt_of_le h)

end Pairing

/-- What a context allows. Peaks, refusals and the number of checks are left out. -/
structure Context.Alike (c c' : Context) : Prop where
  limits : c.limits = c'.limits
  depth : c.depth = c'.depth
  nesting : c.nesting = c'.nesting
  interrupted : c.interrupted = c'.interrupted

namespace Context.Alike

variable {c c' : Context}

theorem enterCall (h : c.Alike c') : c.enterCall.Alike c'.enterCall :=
  ⟨h.limits, congrArg (· + 1) h.depth, h.nesting, h.interrupted⟩

theorem leaveCall (h : c.Alike c') : c.leaveCall.Alike c'.leaveCall :=
  ⟨h.limits, congrArg (· - 1) h.depth, h.nesting, h.interrupted⟩

theorem enterNode (h : c.Alike c') : c.enterNode.Alike c'.enterNode :=
  ⟨h.limits, h.depth, congrArg (· + 1) h.nesting, h.interrupted⟩

theorem leaveNode (h : c.Alike c') : c.leaveNode.Alike c'.leaveNode :=
  ⟨h.limits, h.depth, congrArg (· - 1) h.nesting, h.interrupted⟩

theorem check (h : c.Alike c') : c.check.Alike c'.check :=
  ⟨h.limits, h.depth, h.nesting, h.interrupted⟩

end Context.Alike

/-- The machine `m` of a run that will end on the machine `σ`, and the machine `m'` of a second run that has begun
there. What has been made since then stands for what the first run makes for itself. -/
structure Repeats (σ : Machine) (p : Pairing) (m m' : Machine) : Prop where
  context : m.context.Alike m'.context
  refusals : σ.context.refusals ≤ m.context.refusals
  oneToOne : p.OneToOne
  scopes : ∀ s s', p.SameScope s s' → s < m.scopes.size ∧ s' < m'.scopes.size
  ids : ∀ i i', p.SameId i i' → i < m.nextId ∧ i' < m'.nextId
  /-- The second run has not changed what there was. -/
  size : σ.scopes.size ≤ m'.scopes.size
  nextId : σ.nextId ≤ m'.nextId
  kept : ∀ s < σ.scopes.size, m'.scopes.get s = σ.scopes.get s
  /-- What there was stands for itself, and refers to nothing else. -/
  shared_le_same : p.shared σ ≤ .same
  closed : m.scopes.ClosedUnder (p.shared σ)
  idle : ∀ s, (p.shared σ).SameScope s s → (m.scopes.get s).bindings.Idle
  settled : ∀ s, (p.shared σ).SameScope s s → (m.scopes.get s).enclosing = (σ.scopes.get s).enclosing ∧
    (m.scopes.get s).bindings.map Entry.name = (σ.scopes.get s).bindings.map Entry.name
  /-- What has been made since then is in step. -/
  enclosing : ∀ s s', p.SameScope s s' → σ.scopes.size ≤ s' →
    List.Forall₂ p.SameScope (m.scopes.get s).enclosing (m'.scopes.get s').enclosing
  bindings : ∀ s s', p.SameScope s s' → σ.scopes.size ≤ s' →
    (m.scopes.get s).bindings.Alike p (m'.scopes.get s').bindings

namespace Repeats

variable {σ m m' : Machine} {p : Pairing}

theorem shared_self (h : Repeats σ p m m') {s s' : ScopeId} (hs : p.SameScope s s') (hlt : s' < σ.scopes.size) :
    s = s' ∧ (p.shared σ).SameScope s s := by
  have hsame : s = s' := h.shared_le_same.1 s s' ⟨hs, hlt⟩
  subst hsame
  exact ⟨rfl, hs, hlt⟩

/-- The scopes of the first run's own have counterparts of the second run's own. -/
theorem not_shared (h : Repeats σ p m m') {s s' : ScopeId} (hs : p.SameScope s s') (hle : σ.scopes.size ≤ s') :
    ¬ (p.shared σ).SameScope s s := by
  rintro ⟨hself, hlt⟩
  have hsame : s' = s := h.oneToOne.scopes.2 hs hself
  exact absurd hlt (Nat.not_lt_of_le (hsame ▸ hle))

theorem refused_never (h : Repeats σ p m m') : ¬ m.refused.Settles σ :=
  fun hfinal => absurd h.refusals (Nat.not_le_of_lt (Nat.lt_of_lt_of_le (Nat.lt_succ_self _) hfinal.refusals))

/-- The contexts change in the same way. -/
theorem within (h : Repeats σ p m m') (change : Context → Context)
    (hcontext : (change m.context).Alike (change m'.context))
    (hrefusals : (change m.context).refusals = m.context.refusals) : Repeats σ p (m.within change) (m'.within change) :=
  ⟨hcontext, Nat.le_trans h.refusals (Nat.le_of_eq hrefusals.symm), h.oneToOne, h.scopes, h.ids, h.size, h.nextId, h.kept,
    h.shared_le_same, h.closed, h.idle, h.settled, h.enclosing, h.bindings⟩

theorem enterCall (h : Repeats σ p m m') : Repeats σ p (m.within Context.enterCall) (m'.within Context.enterCall) :=
  h.within Context.enterCall h.context.enterCall rfl

theorem leaveCall (h : Repeats σ p m m') : Repeats σ p (m.within Context.leaveCall) (m'.within Context.leaveCall) :=
  h.within Context.leaveCall h.context.leaveCall rfl

theorem enterNode (h : Repeats σ p m m') : Repeats σ p (m.within Context.enterNode) (m'.within Context.enterNode) :=
  h.within Context.enterNode h.context.enterNode rfl

theorem leaveNode (h : Repeats σ p m m') : Repeats σ p (m.within Context.leaveNode) (m'.within Context.leaveNode) :=
  h.within Context.leaveNode h.context.leaveNode rfl

theorem checked (h : Repeats σ p m m') : Repeats σ p (m.within Context.check) (m'.within Context.check) :=
  h.within Context.check h.context.check rfl

theorem circled (h : Repeats σ p m m') : Repeats σ p m.circled m'.circled :=
  h.within (fun c => { c with circles := c.circles + 1 })
    ⟨h.context.limits, h.context.depth, h.context.nesting, h.context.interrupted⟩ rfl

theorem forall_enclosing (h : Repeats σ p m m') {s s' : ScopeId} (hs : p.SameScope s s') :
    List.Forall₂ p.SameScope (m.scopes.get s).enclosing (m'.scopes.get s').enclosing := by
  by_cases hlt : s' < σ.scopes.size
  · obtain ⟨rfl, hshared⟩ := h.shared_self hs hlt
    rw [h.kept s hlt, ← (h.settled s hshared).1]
    exact List.forall₂_same.2 fun t ht => (h.closed.enclosing s hshared t ht).1
  · exact h.enclosing s s' hs (Nat.le_of_not_lt hlt)

theorem names_alike (h : Repeats σ p m m') {s s' : ScopeId} (hs : p.SameScope s s') :
    (m.scopes.get s).bindings.NamesAlike p (m'.scopes.get s').bindings := by
  by_cases hlt : s' < σ.scopes.size
  · obtain ⟨rfl, hshared⟩ := h.shared_self hs hlt
    have hself := ((h.closed.bindings s hshared).mono (p.shared_le σ)).names
    rw [h.kept s hlt]
    exact hself.of_map_eq rfl (h.settled s hshared).2.symm
  · exact (h.bindings s s' hs (Nat.le_of_not_lt hlt)).names

theorem named (h : Repeats σ p m m') : Repeats σ (p.withId m.nextId m'.nextId) m.named m'.named where
  context := h.context
  refusals := h.refusals
  oneToOne := h.oneToOne.withId h.ids
  scopes := h.scopes
  ids := lt_succ_of_or_bound h.ids
  size := h.size
  nextId := Nat.le_succ_of_le h.nextId
  kept := h.kept
  shared_le_same := (p.shared_withId _ h.nextId).trans h.shared_le_same
  closed := ⟨h.closed.enclosing, fun s hs => (h.closed.bindings s hs).mono (Pairing.shared_mono (p.le_withId _ _) σ)⟩
  idle := h.idle
  settled := h.settled
  enclosing := h.enclosing
  bindings s s' hs hle := (h.bindings s s' hs hle).mono (p.le_withId _ _)

theorem extended (h : Repeats σ p m m') {parent parent' : ScopeId} (hparent : p.SameScope parent parent')
    {bindings bindings' : Bindings} (hbindings : bindings.Alike p bindings') :
    Repeats σ (p.withScope m.scopes.size m'.scopes.size) (m.extended parent bindings)
      (m'.extended parent' bindings') := by
  have hold : ∀ s s', p.SameScope s s' → (m.extended parent bindings).scopes.get s = m.scopes.get s ∧
      (m'.extended parent' bindings').scopes.get s' = m'.scopes.get s' := fun s s' hs =>
    ⟨m.get_extended parent s bindings (h.scopes s s' hs).1, m'.get_extended parent' s' bindings' (h.scopes s s' hs).2⟩
  have hshared := (p.shared_withScope m.scopes.size h.size).1
  have hmono := Pairing.shared_mono (p.le_withScope m.scopes.size m'.scopes.size) σ
  refine
    { context := h.context
      refusals := h.refusals
      oneToOne := h.oneToOne.withScope h.scopes
      scopes := ?_
      ids := h.ids
      size := ?_
      nextId := h.nextId
      kept := fun s hs => ?_
      shared_le_same := (p.shared_withScope _ h.size).trans h.shared_le_same
      closed := ⟨fun s hs t ht => ?_, fun s hs => ?_⟩
      idle := fun s hs => ?_
      settled := fun s hs => ?_
      enclosing := ?_
      bindings := ?_ }
  · rw [Machine.size_extended, Machine.size_extended]
    exact lt_succ_of_or_bound h.scopes
  · rw [Machine.size_extended]
    exact Nat.le_succ_of_le h.size
  · rw [Machine.get_extended _ _ _ _ (Nat.lt_of_lt_of_le hs h.size)]
    exact h.kept s hs
  · rw [(hold s s (hshared s s hs).1).1] at ht
    exact hmono.1 t t (h.closed.enclosing s (hshared s s hs) t ht)
  · rw [(hold s s (hshared s s hs).1).1]
    exact (h.closed.bindings s (hshared s s hs)).mono hmono
  · rw [(hold s s (hshared s s hs).1).1]
    exact h.idle s (hshared s s hs)
  · rw [(hold s s (hshared s s hs).1).1]
    exact h.settled s (hshared s s hs)
  · rintro s s' (hs | ⟨rfl, rfl⟩) hle
    · rw [(hold s s' hs).1, (hold s s' hs).2]
      exact (h.enclosing s s' hs hle).imp fun _ _ => .inl
    · rw [Machine.enclosing_extended, Machine.enclosing_extended]
      exact .cons (.inl hparent) ((h.forall_enclosing hparent).imp fun _ _ => .inl)
  · rintro s s' (hs | ⟨rfl, rfl⟩) hle
    · rw [(hold s s' hs).1, (hold s s' hs).2]
      exact (h.bindings s s' hs hle).mono (p.le_withScope _ _)
    · rw [Machine.bindings_extended, Machine.bindings_extended]
      exact hbindings.mono (p.le_withScope _ _)

/-- The state of a binding changes on both sides, in scopes of the two runs' own. -/
theorem updated (h : Repeats σ p m m') {s s' : ScopeId} (hs : p.SameScope s s') (hle : σ.scopes.size ≤ s') (place : Nat)
    {state state' : EntryState} (hstate : state.Alike p state') :
    Repeats σ p (m.updated s place state) (m'.updated s' place state') := by
  have hshared : ∀ t, (p.shared σ).SameScope t t → (m.updated s place state).scopes.get t = m.scopes.get t := by
    intro t ht
    have hne : s ≠ t := by
      rintro rfl
      exact h.not_shared hs hle ht
    exact Machine.get_updated_of_ne _ _ _ _ _ hne
  refine
    { context := h.context
      refusals := h.refusals
      oneToOne := h.oneToOne
      scopes := ?_
      ids := h.ids
      size := ?_
      nextId := h.nextId
      kept := fun t ht => ?_
      shared_le_same := h.shared_le_same
      closed := ⟨fun t ht u hu => ?_, fun t ht => ?_⟩
      idle := fun t ht => ?_
      settled := fun t ht => ?_
      enclosing := fun t t' ht hle' => ?_
      bindings := fun t t' ht hle' => ?_ }
  · rw [Machine.size_updated, Machine.size_updated]
    exact h.scopes
  · rw [Machine.size_updated]
    exact h.size
  · rw [Machine.get_updated_of_ne _ _ _ _ _ (Nat.ne_of_gt (Nat.lt_of_lt_of_le ht hle))]
    exact h.kept t ht
  · rw [hshared t ht] at hu
    exact h.closed.enclosing t ht u hu
  · rw [hshared t ht]
    exact h.closed.bindings t ht
  · rw [hshared t ht]
    exact h.idle t ht
  · rw [hshared t ht]
    exact h.settled t ht
  · rw [Machine.enclosing_updated, Machine.enclosing_updated]
    exact h.enclosing t t' ht hle'
  · exact Machine.bindings_updated h.oneToOne hs ht place hstate (h.bindings t t' ht hle')

section Absorb

variable {q : Pairing} {ended : Machine} (hsecluded : Secluded (p.shared σ) m q ended) (hfinal : ended.Settles σ)
include hsecluded hfinal

/-- What an evaluation apart has reached stands for itself, and is there in the end. -/
theorem reached_scope {s s' : ScopeId} (hs : q.SameScope s s') : s = s' ∧ s' < σ.scopes.size := by
  obtain rfl := hsecluded.le_same.1 s s' hs
  exact ⟨rfl, Nat.lt_of_lt_of_le (hsecluded.scopes s hs) hfinal.scopes.size⟩

theorem reached_id {i i' : Nat} (hi : q.SameId i i') : i = i' ∧ i' < σ.nextId := by
  obtain rfl := hsecluded.le_same.2 i i' hi
  exact ⟨rfl, Nat.lt_of_lt_of_le (hsecluded.ids i hi) hfinal.ids⟩

theorem le_shared_union : q ≤ (p.union q).shared σ :=
  ⟨fun _ _ hs => ⟨.inr hs, (reached_scope hsecluded hfinal hs).2⟩,
    fun _ _ hi => ⟨.inr hi, (reached_id hsecluded hfinal hi).2⟩⟩

/-- It has no counterpart of its own, so that it still has one at most. -/
theorem oneToOne_union (h : Repeats σ p m m') : (p.union q).OneToOne := by
  have hone : q.OneToOne := .of_le_same hsecluded.le_same
  constructor
  · refine biUnique_union h.oneToOne.scopes hone.scopes fun s s' hs => ?_
    obtain ⟨rfl, hlt⟩ := reached_scope hsecluded hfinal hs
    by_cases hself : p.SameScope s s
    · exact .inl hself
    · refine .inr ⟨fun t ht => hself (hsecluded.oldScopes s (h.scopes s t ht).1 hs).1, fun t ht => hself ?_⟩
      obtain rfl : t = s := h.shared_le_same.1 t s ⟨ht, hlt⟩
      exact ht
  · refine biUnique_union h.oneToOne.ids hone.ids fun i i' hi => ?_
    obtain ⟨rfl, hlt⟩ := reached_id hsecluded hfinal hi
    by_cases hself : p.SameId i i
    · exact .inl hself
    · refine .inr ⟨fun j hj => hself (hsecluded.oldIds i (h.ids i j hj).1 hi).1, fun j hj => hself ?_⟩
      obtain rfl : j = i := h.shared_le_same.2 j i ⟨hj, hlt⟩
      exact hj

/-- What has been made for the first run itself has been left alone. -/
theorem own_of_union (h : Repeats σ p m m') {s s' : ScopeId} (hs : (p.union q).SameScope s s')
    (hle : σ.scopes.size ≤ s') : p.SameScope s s' ∧ ended.scopes.get s = m.scopes.get s := by
  rcases hs with hs | hs
  · exact ⟨hs, hsecluded.apart s (h.scopes s s' hs).1 (h.not_shared hs hle)⟩
  · exact absurd (reached_scope hsecluded hfinal hs).2 (Nat.not_lt_of_le hle)

/-- The first run has evaluated something apart from what it has made for itself. All that it has made meanwhile is
there on the second machine. -/
theorem absorb (h : Repeats σ p m m') (hle : p.shared σ ≤ q) (hgrows : m.Grows ended)
    (hbalanced : m.context.Balanced ended.context) : Repeats σ (p.union q) ended m' := by
  have hup := le_shared_union hsecluded hfinal
  have hdown := Pairing.shared_union_le hle
  refine
    { context := ⟨hbalanced.limits.trans h.context.limits, hbalanced.depth.trans h.context.depth,
        hbalanced.nesting.trans h.context.nesting, hbalanced.interrupted.trans h.context.interrupted⟩
      refusals := Nat.le_trans h.refusals hgrows.refusals
      oneToOne := oneToOne_union hsecluded hfinal h
      scopes := ?_
      ids := ?_
      size := h.size
      nextId := h.nextId
      kept := h.kept
      shared_le_same := hdown.trans hsecluded.le_same
      closed := ⟨fun s hs t ht => ?_, fun s hs => ?_⟩
      idle := fun s hs => ?_
      settled := fun s hs => ?_
      enclosing := fun s s' hs hle' => ?_
      bindings := fun s s' hs hle' => ?_ }
  · rintro s s' (hs | hs)
    · exact ⟨Nat.lt_of_lt_of_le (h.scopes s s' hs).1 hgrows.scopes.size, (h.scopes s s' hs).2⟩
    · obtain ⟨rfl, hlt⟩ := reached_scope hsecluded hfinal hs
      exact ⟨hsecluded.scopes s hs, Nat.lt_of_lt_of_le hlt h.size⟩
  · rintro i i' (hi | hi)
    · exact ⟨Nat.lt_of_lt_of_le (h.ids i i' hi).1 hgrows.ids, (h.ids i i' hi).2⟩
    · obtain ⟨rfl, hlt⟩ := reached_id hsecluded hfinal hi
      exact ⟨hsecluded.ids i hi, Nat.lt_of_lt_of_le hlt h.nextId⟩
  · exact hup.1 t t (hsecluded.closed.enclosing s (hdown.1 s s hs) t ht)
  · exact (hsecluded.closed.bindings s (hdown.1 s s hs)).mono hup
  · by_cases hlt : s < m.scopes.size
    · have hbefore := h.idle s (hsecluded.oldScopes s hlt (hdown.1 s s hs))
      exact hbefore.forward (hgrows.scopes.old s hlt).2
    · exact hgrows.scopes.new s (Nat.le_of_not_lt hlt)
  · have hlt := hsecluded.scopes s (hdown.1 s s hs)
    exact ⟨(hfinal.scopes.enclosing s hlt).symm, (hfinal.scopes.names s hlt).symm⟩
  · obtain ⟨hs', hsame⟩ := own_of_union hsecluded hfinal h hs hle'
    rw [hsame]
    exact (h.enclosing s s' hs' hle').imp fun _ _ => .inl
  · obtain ⟨hs', hsame⟩ := own_of_union hsecluded hfinal h hs hle'
    rw [hsame]
    exact (h.bindings s s' hs' hle').mono (p.le_union_left q)

end Absorb

end Repeats

/-- A run that will end on the machine `σ` and is not refused anything, by a second run from there. -/
def repetition (σ : Machine) : Simulation where
  Linked := Repeats σ
  Final m := m.Settles σ
  InStep s' _ := σ.scopes.size ≤ s'
  failing := False
  final := .trans
  oneToOne h := h.oneToOne
  interrupted h := h.context.interrupted
  admits h hdepth := h.context.depth ▸ h.context.limits ▸ hdepth
  denies h _ hdepth := h.context.depth ▸ h.context.limits ▸ hdepth
  refused h hfinal := absurd hfinal h.refused_never
  circled h _ := h.circled
  enterCall h := h.enterCall
  leaveCall h := h.leaveCall
  checked h := h.checked
  named h := ⟨_, Pairing.le_withId _ _ _, .inr ⟨rfl, rfl⟩, h.named⟩
  extended h hparent hbindings := ⟨_, Pairing.le_withScope _ _ _, .inr ⟨rfl, rfl⟩, h.extended hparent hbindings⟩
  enclosing h hs := h.forall_enclosing hs
  contains name h hs := (h.names_alike hs).contains_eq name
  bindings h hs hle hentry := (h.bindings _ _ hs hle).getElem? hentry
  updated place h hs hle _ hstate := h.updated hs hle place hstate

/-- A binding that there was is known to the second run, and what the first run makes of it is alike. -/
theorem follows_resolve_shared {σ m m' : Machine} {p : Pairing} (h : Repeats σ p m m') {s s' : ScopeId}
    (hs : p.SameScope s s') (hlt : s' < σ.scopes.size) {name name' : Value} {place : Nat} {entry entry' : Entry}
    (hentry : (m.scopes.get s).bindings[place]? = some entry)
    (hentry' : (m'.scopes.get s').bindings[place]? = some entry') (room : Nat) (run' : Evaluator) :
    (repetition σ).Follows p Value.Alike
      (Evaluation.resolve (evalWithin Host.builtin room) name s place entry.state)
      (Evaluation.resolve run' name' s' place entry'.state) m m' := by
  obtain ⟨rfl, hshared⟩ := h.shared_self hs hlt
  rw [h.kept s hlt] at hentry'
  obtain ⟨key, state⟩ := entry
  cases state with
  | inProgress => exact absurd rfl (h.idle s hshared _ (List.mem_of_getElem? hentry))
  | evaluated value =>
    intro hfinal _
    have hknown := hfinal.scopes.known s place key value hentry
    rw [hentry'] at hknown
    cases hknown
    obtain ⟨entry', hsame, halike⟩ := (h.closed.bindings s hshared).getElem? hentry
    rw [hentry] at hsame
    cases hsame
    cases halike.state with
    | evaluated hvalue => exact ⟨p, le_refl p, h, .ok (hvalue.mono (p.shared_le σ))⟩
  | unevaluated expr =>
    refine Simulation.follows_resolve_waiting name (fun hfinal => ?_) (fun _ _ _ _ hfailing => hfailing)
      fun value after hdepth hended hfinal => ?_
    · exact absurd h.refusals (Nat.not_le_of_lt (Nat.lt_of_lt_of_le (Nat.lt_succ_self _) hfinal.refusals))
    · have hhost : ∀ contract, Host.builtin.Meets contract := fun _ => Host.meets_builtin
      have hrun : ∀ contract, (evalWithin Host.builtin room).Meets contract room := fun contract =>
        Contract.meets_evalWithin (hhost contract) room
      have hgrows := Evaluation.leads_done (hrun growthContract) trivial hentry hdepth hended
      have hbalanced := Evaluation.leads_done (hrun balanceContract) trivial hentry hdepth hended
      have hstart : Secluded (p.shared σ) m (p.shared σ) m :=
        .start h.shared_le_same h.closed (fun t ht => (h.scopes t t ht.1).1) fun i hi => (h.ids i i hi.1).1
      have hself := (secluded_evalWithin (p.shared σ) m room (p.shared σ) expr s s hshared).follows _ _
        ⟨rfl, (hstart.updated hshared place .inProgress).within Context.enterCall⟩ trivial (.inl trivial)
      rw [hended] at hself
      obtain ⟨q, hle, ⟨-, hsecluded⟩, houtcome⟩ := hself
      cases houtcome with
      | ok hvalue =>
        have hdone := (hsecluded.updated (hle.1 s s hshared) place (.evaluated hvalue)).within Context.leaveCall
        have hsettled := hfinal.scopes.known s place key value (Machine.known_done hentry hgrows.scopes)
        rw [hentry'] at hsettled
        cases hsettled
        exact ⟨p.union q, p.le_union_left q, h.absorb hdone hfinal hle hgrows hbalanced,
          .ok (hvalue.mono (p.le_union_right q))⟩

theorem repeats_evalWithin (σ : Machine) (room : Nat) :
    (repetition σ).Evaluates (evalWithin Host.builtin room) (evalWithin Host.builtin room) := by
  have hnests : (repetition σ).Nests := ⟨Repeats.enterNode, Repeats.leaveNode⟩
  refine Simulation.evaluates_evalWithin (Host.matched_builtin _) hnests (fun room room' hrun => ?_) (Nat.le_refl room)
    (.inl rfl)
  refine Simulation.looksUp_of_evaluates hrun (fun p m m' s s' hm hs => hm.names_alike hs)
    fun p m m' s s' name name' place entry entry' hm hs hstep hname hentry hentry' => ?_
  exact follows_resolve_shared hm hs (Nat.lt_of_not_le hstep) hentry hentry' room _

/-- At first all scopes and identities stand for themselves. -/
theorem Repeats.start {m σ : Machine} (hclosed : m.Closed) (hidle : m.Idle) (hgrows : m.Grows σ)
    (hrefusals : σ.context.refusals = m.context.refusals) :
    Repeats σ m.existing m { σ with context := m.context } := by
  have hscope : ∀ s s', m.existing.SameScope s s' → s < m.scopes.size ∧ s' < σ.scopes.size := by
    rintro s s' ⟨rfl, hs⟩
    exact ⟨hs, Nat.lt_of_lt_of_le hs hgrows.scopes.size⟩
  have hid : ∀ i i', m.existing.SameId i i' → i < m.nextId ∧ i' < σ.nextId := by
    rintro i i' ⟨rfl, hi⟩
    exact ⟨hi, Nat.lt_of_lt_of_le hi hgrows.ids⟩
  have hup : m.existing ≤ m.existing.shared σ :=
    ⟨fun s s' hs => ⟨hs, (hscope s s' hs).2⟩, fun i i' hi => ⟨hi, (hid i i' hi).2⟩⟩
  exact
    { context := ⟨rfl, rfl, rfl, rfl⟩
      refusals := Nat.le_of_eq hrefusals
      oneToOne := .of_le_same m.existing_le_same
      scopes := hscope
      ids := hid
      size := Nat.le_refl _
      nextId := Nat.le_refl _
      kept := fun _ _ => rfl
      shared_le_same := (Pairing.shared_le _ σ).trans m.existing_le_same
      closed := ⟨fun s hs t ht => hup.1 t t (hclosed.enclosing s hs.1 t ht), fun s hs => (hclosed.bindings s hs.1).mono hup⟩
      idle := fun s _ => hidle s
      settled := fun s hs => ⟨(hgrows.scopes.settles.enclosing s hs.1.2).symm, (hgrows.scopes.settles.names s hs.1.2).symm⟩
      enclosing := fun s s' hs hle => absurd (hscope s s' hs).2 (Nat.not_lt_of_le hle)
      bindings := fun s s' hs hle => absurd (hscope s s' hs).2 (Nat.not_lt_of_le hle) }

/-- Where nothing is in progress and no limit refuses anything, evaluating an expression again has a value with the same
source text, an equal one if it is plain data, and changes no binding that the first evaluation has left. -/
theorem evaluation_repeats (e : Expr) (scope : ScopeId) (m : Machine) (hclosed : m.Closed) (hidle : m.Idle)
    (hscope : scope < m.scopes.size) (value : Value) (between : Machine)
    (hrun : (evaluate Host.builtin e scope).run.run m = (.ok value, between))
    (hrefusals : between.context.refusals = m.context.refusals) :
    ∃ again after, (evaluate Host.builtin e scope).run.run { between with context := m.context } = (.ok again, after) ∧
      again.code = value.code ∧ (value.IsPlain → (again == value) = true) ∧
      ∀ s < between.scopes.size, after.scopes.get s = between.scopes.get s := by
  have hhost : Host.builtin.Meets growthContract := Host.meets_builtin
  have hgrows : m.Grows ((evaluate Host.builtin e scope).run.run m).2 :=
    (Contract.meets_evaluate hhost 0 e scope m trivial).1
  rw [hrun] at hgrows
  have hfollows := (repeats_evalWithin between m.context.room m.existing e scope scope ⟨rfl, hscope⟩).follows _ _
    (Repeats.start hclosed hidle hgrows hrefusals)
  have hfirst : (evalWithin Host.builtin m.context.room e scope).run.run m = (.ok value, between) := hrun
  unfold Simulation.Follows at hfollows
  rw [hfirst] at hfollows
  obtain ⟨q, -, hlinked, houtcome⟩ := hfollows (Machine.Grows.refl between).settles (.inr ⟨value, rfl⟩)
  have hagain : (evaluate Host.builtin e scope).run.run { between with context := m.context } =
      (evalWithin Host.builtin m.context.room e scope).run.run { between with context := m.context } := rfl
  rw [hagain]
  generalize (evalWithin Host.builtin m.context.room e scope).run.run { between with context := m.context } = ended at *
  obtain ⟨outcome, after⟩ := ended
  cases houtcome with
  | ok halike => exact ⟨_, after, rfl, halike.code_eq.symm, fun hplain => halike.beq_of_isPlain hplain, hlinked.kept⟩

/-- A call of a closure that is bound to a name: at first the closure is made, then it is known. -/
theorem call_of_bound_closure_repeats :
    let f : Expr := .node .closure ⟨0, 1⟩ [.nameLeaf ⟨2, 4⟩ "it"]
    let e : Expr := .node .call ⟨1, 2⟩ [.nameLeaf ⟨0, 1⟩ "f", .boolLeaf ⟨2, 6⟩ true]
    let m := (Machine.initial { limits := ⟨1, 3⟩ }).extended globalScope [⟨.string "f", .unevaluated f⟩]
    let between := ((evaluate Host.builtin e 1).run.run m).2
    (evaluate Host.builtin e 1).run.run m = (.ok (.bool true), between) ∧
    ∃ again after, (evaluate Host.builtin e 1).run.run { between with context := m.context } = (.ok again, after) ∧
      again.code = (Value.bool true).code ∧ ((Value.bool true).IsPlain → (again == Value.bool true) = true) ∧
      ∀ s < between.scopes.size, after.scopes.get s = between.scopes.get s := by
  intro f e m between
  have hwaiting : Bindings.Waiting [⟨.string "f", .unevaluated f⟩] :=
    List.forall_mem_singleton.2 ⟨"f", f, rfl⟩
  have hclosed : m.Closed := (Machine.closed_initial _).extended Nat.zero_lt_one hwaiting
  have hforward := (Machine.initial { limits := ⟨1, 3⟩ }).scopes.forward_add (some globalScope) hwaiting.idle
  have hidle : m.Idle := (Machine.idle_initial _).forward hforward
  have hvalue : ((evaluate Host.builtin e 1).run.run m).1 = .ok (.bool true) := by cbv
  have hrefusals : between.context.refusals = m.context.refusals := by cbv
  have hrun : (evaluate Host.builtin e 1).run.run m = (.ok (.bool true), between) := Prod.ext hvalue rfl
  exact ⟨hrun, evaluation_repeats e 1 m hclosed hidle (by decide) (.bool true) between hrun hrefusals⟩

end DynamicConfig

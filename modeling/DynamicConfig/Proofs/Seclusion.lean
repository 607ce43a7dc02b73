import DynamicConfig.Proofs.Lockstep
/-!
# What evaluation can reach

Evaluation forges no scope and no identity: it meets those that its scope and the bindings there refer to, and those
that it makes. So it keeps apart what was apart before. The scopes that it can reach, with those that it makes, stay
closed under reference, and all other scopes are left as they were (`Secluded`); in particular a machine without
dangling references has none afterwards (`Machine.Closed.evaluate`).

A set of scopes and identities is written as a pairing of these with themselves, and the proof is a simulation of a
run by itself.
-/

namespace DynamicConfig

/-! ## Closed sets of scopes -/

/-- The scopes of a pairing and what is bound in them refer to nothing outside of it. -/
structure Scopes.ClosedUnder (scopes : Scopes) (p : Pairing) : Prop where
  enclosing : ∀ s, p.SameScope s s → ∀ t ∈ (scopes.get s).enclosing, p.SameScope t t
  bindings : ∀ s, p.SameScope s s → (scopes.get s).bindings.Alike p (scopes.get s).bindings

/-- What was apart from some scopes and identities still is. Since then these have got new ones, and nothing else has
changed. -/
structure Secluded (p : Pairing) (before : Machine) (q : Pairing) (after : Machine) : Prop where
  le_same : q ≤ .same
  closed : after.scopes.ClosedUnder q
  scopes : ∀ s, q.SameScope s s → s < after.scopes.size
  ids : ∀ i, q.SameId i i → i < after.nextId
  /-- Of the scopes that there were none has been reached in addition. -/
  oldScopes : ∀ s < before.scopes.size, q.SameScope s s → p.SameScope s s
  oldIds : ∀ i < before.nextId, q.SameId i i → p.SameId i i
  /-- All new scopes have been made here. -/
  newScopes : ∀ s < after.scopes.size, before.scopes.size ≤ s → q.SameScope s s
  size : before.scopes.size ≤ after.scopes.size
  nextId : before.nextId ≤ after.nextId
  apart : ∀ s < before.scopes.size, ¬ p.SameScope s s → after.scopes.get s = before.scopes.get s

namespace Secluded

variable {p q : Pairing} {before m : Machine}

/-- At first. -/
theorem start (hle : p ≤ .same) (hclosed : before.scopes.ClosedUnder p)
    (hscopes : ∀ s, p.SameScope s s → s < before.scopes.size) (hids : ∀ i, p.SameId i i → i < before.nextId) :
    Secluded p before p before where
  le_same := hle
  closed := hclosed
  scopes := hscopes
  ids := hids
  oldScopes _ _ h := h
  oldIds _ _ h := h
  newScopes _ hlt hle := absurd hlt (Nat.not_lt_of_le hle)
  size := Nat.le_refl _
  nextId := Nat.le_refl _
  apart _ _ _ := rfl

/-- The context does not matter. -/
theorem within (h : Secluded p before q m) (change : Context → Context) : Secluded p before q (m.within change) :=
  ⟨h.le_same, h.closed, h.scopes, h.ids, h.oldScopes, h.oldIds, h.newScopes, h.size, h.nextId, h.apart⟩

theorem named (h : Secluded p before q m) : Secluded p before (q.withId m.nextId m.nextId) m.named where
  le_same := Pairing.withId_le_same h.le_same _
  closed := ⟨h.closed.enclosing, fun s hs => (h.closed.bindings s hs).mono (q.le_withId _ _)⟩
  scopes := h.scopes
  ids i hi := hi.elim (fun hi => Nat.lt_succ_of_lt (h.ids i hi)) fun hi => Nat.lt_succ_of_le (Nat.le_of_eq hi.1)
  oldScopes := h.oldScopes
  oldIds i hlt hi := hi.elim (h.oldIds i hlt) fun hi => absurd (hi.1 ▸ hlt) (Nat.not_lt_of_le h.nextId)
  newScopes := h.newScopes
  size := h.size
  nextId := Nat.le_succ_of_le h.nextId
  apart := h.apart

theorem extended (h : Secluded p before q m) {parent : ScopeId} (hparent : q.SameScope parent parent)
    {bindings : Bindings} (hbindings : bindings.Alike q bindings) :
    Secluded p before (q.withScope m.scopes.size m.scopes.size) (m.extended parent bindings) where
  le_same := Pairing.withScope_le_same h.le_same _
  closed := by
    constructor
    · rintro s (hs | ⟨rfl, -⟩) t ht
      · rw [Machine.get_extended _ _ _ _ (h.scopes s hs)] at ht
        exact .inl (h.closed.enclosing s hs t ht)
      · rw [Machine.enclosing_extended] at ht
        rcases List.mem_cons.1 ht with rfl | ht
        · exact .inl hparent
        · exact .inl (h.closed.enclosing parent hparent t ht)
    · rintro s (hs | ⟨rfl, -⟩)
      · rw [Machine.get_extended _ _ _ _ (h.scopes s hs)]
        exact (h.closed.bindings s hs).mono (q.le_withScope _ _)
      · rw [Machine.bindings_extended]
        exact hbindings.mono (q.le_withScope _ _)
  scopes s hs := by
    rw [Machine.size_extended]
    exact hs.elim (fun hs => Nat.lt_succ_of_lt (h.scopes s hs)) fun hs => Nat.lt_succ_of_le (Nat.le_of_eq hs.1)
  ids := h.ids
  oldScopes s hlt hs := hs.elim (h.oldScopes s hlt) fun hs => absurd (hs.1 ▸ hlt) (Nat.not_lt_of_le h.size)
  oldIds := h.oldIds
  newScopes s hlt hle := by
    rw [Machine.size_extended] at hlt
    rcases Nat.lt_succ_iff_lt_or_eq.1 hlt with hlt | rfl
    · exact .inl (h.newScopes s hlt hle)
    · exact .inr ⟨rfl, rfl⟩
  size := by
    rw [Machine.size_extended]
    exact Nat.le_succ_of_le h.size
  nextId := h.nextId
  apart s hlt hs := by
    rw [Machine.get_extended _ _ _ _ (Nat.lt_of_lt_of_le hlt h.size)]
    exact h.apart s hlt hs

theorem updated (h : Secluded p before q m) {s : ScopeId} (hs : q.SameScope s s) (place : Nat) {state : EntryState}
    (hstate : state.Alike q state) : Secluded p before q (m.updated s place state) where
  le_same := h.le_same
  closed := by
    constructor
    · intro t ht
      rw [Machine.enclosing_updated]
      exact h.closed.enclosing t ht
    · intro t ht
      rw [Machine.updated, Scopes.get_setState]
      split
      · exact (h.closed.bindings t ht).modify place hstate
      · exact h.closed.bindings t ht
  scopes t ht := by
    rw [Machine.size_updated]
    exact h.scopes t ht
  ids := h.ids
  oldScopes := h.oldScopes
  oldIds := h.oldIds
  newScopes t hlt := by
    rw [Machine.size_updated] at hlt
    exact h.newScopes t hlt
  size := by
    rw [Machine.size_updated]
    exact h.size
  nextId := h.nextId
  apart t hlt ht := by
    have hne : s ≠ t := by
      rintro rfl
      exact ht (h.oldScopes s hlt hs)
    rw [Machine.get_updated_of_ne _ _ _ _ _ hne]
    exact h.apart t hlt ht

end Secluded

/-- A run on a machine that reaches only what belongs together, by itself. -/
def seclusion (p : Pairing) (before : Machine) : Simulation where
  Linked q m m' := m = m' ∧ Secluded p before q m
  Final _ := True
  InStep _ _ := True
  failing := True
  final _ _ := trivial
  oneToOne h := .of_le_same h.2.le_same
  interrupted h := congrArg (·.context.interrupted) h.1
  admits h hdepth := h.1 ▸ hdepth
  denies h _ hdepth := h.1 ▸ hdepth
  refused := by rintro q m m' ⟨rfl, h⟩ _; exact ⟨rfl, h.within fun c => { c with refusals := c.refusals + 1 }⟩
  circled := by rintro q m m' ⟨rfl, h⟩ _; exact ⟨rfl, h.within fun c => { c with circles := c.circles + 1 }⟩
  enterCall := by rintro q m m' ⟨rfl, h⟩; exact ⟨rfl, h.within _⟩
  leaveCall := by rintro q m m' ⟨rfl, h⟩; exact ⟨rfl, h.within _⟩
  checked := by rintro q m m' ⟨rfl, h⟩; exact ⟨rfl, h.within _⟩
  named := by
    rintro q m m' ⟨rfl, h⟩
    exact ⟨_, q.le_withId _ _, .inr ⟨rfl, rfl⟩, rfl, h.named⟩
  extended := by
    rintro q m m' parent parent' bindings bindings' ⟨rfl, h⟩ hparent hbindings
    obtain rfl := h.le_same.1 _ _ hparent
    obtain rfl := hbindings.eq h.le_same
    exact ⟨_, q.le_withScope _ _, .inr ⟨rfl, rfl⟩, rfl, h.extended hparent hbindings⟩
  enclosing := by
    rintro q m m' s s' ⟨rfl, h⟩ hs
    obtain rfl := h.le_same.1 _ _ hs
    exact List.forall₂_same.2 fun t ht => h.closed.enclosing s hs t ht
  contains := by
    rintro q m m' s s' name ⟨rfl, h⟩ hs
    obtain rfl := h.le_same.1 _ _ hs
    rfl
  bindings := by
    rintro q m m' s s' place entry ⟨rfl, h⟩ hs _ hentry
    obtain rfl := h.le_same.1 _ _ hs
    exact (h.closed.bindings s hs).getElem? hentry
  updated := by
    rintro q m m' s s' state state' place ⟨rfl, h⟩ hs _ _ hstate
    obtain rfl := h.le_same.1 _ _ hs
    obtain rfl := hstate.eq h.le_same
    exact ⟨rfl, h.updated hs place hstate⟩

/-- Evaluation keeps apart what is apart. -/
theorem secluded_evalWithin (p : Pairing) (before : Machine) (room : Nat) :
    (seclusion p before).Evaluates (evalWithin Host.builtin room) (evalWithin Host.builtin room) := by
  have hnests : (seclusion p before).Nests := by
    constructor
    · rintro q m m' ⟨rfl, h⟩
      exact ⟨rfl, h.within _⟩
    · rintro q m m' ⟨rfl, h⟩
      exact ⟨rfl, h.within _⟩
  refine Simulation.evaluates_evalWithin (Host.matched_builtin _) hnests (fun _ _ hrun => ?_) (Nat.le_refl room) (.inl rfl)
  refine Simulation.looksUp_of_evaluates hrun ?_ fun _ _ _ _ _ _ _ _ _ _ _ _ hstep => absurd trivial hstep
  rintro q m m' s s' ⟨rfl, h⟩ hs
  obtain rfl := h.le_same.1 _ _ hs
  exact (h.closed.bindings s hs).names

/-! ## Machines without dangling references -/

namespace Machine

/-- The scopes and identities that have been given. -/
def existing (m : Machine) : Pairing where
  SameScope s s' := s = s' ∧ s < m.scopes.size
  SameId i i' := i = i' ∧ i < m.nextId

/-- Whatever scopes and bindings refer to exists. -/
def Closed (m : Machine) : Prop :=
  m.scopes.ClosedUnder m.existing

theorem existing_le_same (m : Machine) : m.existing ≤ .same :=
  ⟨fun _ _ h => h.1, fun _ _ h => h.1⟩

theorem Closed.start {m : Machine} (h : m.Closed) : Secluded m.existing m m.existing m :=
  .start m.existing_le_same h (fun _ h => h.2) fun _ h => h.2

/-- The built-in names refer to nothing but the object that holds the numbers without a literal. -/
theorem closed_initial (context : Context) : (Machine.initial context).Closed := by
  have honly : ∀ s, s < (Machine.initial context).scopes.size → s = 0 := fun s hs => Nat.lt_one_iff.1 hs
  constructor
  · rintro s ⟨-, hs⟩ t ht
    obtain rfl := honly s hs
    cases ht
  · rintro s ⟨-, hs⟩
    obtain rfl := honly s hs
    have hmath : (Machine.initial context).existing.SameId 0 0 := ⟨rfl, Nat.zero_lt_one⟩
    refine .cons ⟨.string _, .evaluated (.lazyFunction _)⟩ (.cons ⟨.string _, .evaluated (.function _)⟩
      (.cons ⟨.string _, .evaluated (.function _)⟩ (.cons ⟨.string _, .evaluated (.object hmath (.inl rfl) ?_)⟩ .nil)))
    exact .cons (.string _) (.number _) (.cons (.string _) (.number _) .nil)

theorem Closed.of_secluded {before after : Machine} {q : Pairing} (hle : before.existing ≤ q)
    (h : Secluded before.existing before q after) : after.Closed := by
  have hq : q ≤ after.existing := by
    constructor
    · intro s s' hs
      obtain rfl := h.le_same.1 s s' hs
      exact ⟨rfl, h.scopes s hs⟩
    · intro i i' hi
      obtain rfl := h.le_same.2 i i' hi
      exact ⟨rfl, h.ids i hi⟩
  have hall : ∀ s < after.scopes.size, q.SameScope s s := by
    intro s hs
    by_cases hold : s < before.scopes.size
    · exact hle.1 s s ⟨rfl, hold⟩
    · exact h.newScopes s hs (Nat.le_of_not_lt hold)
  constructor
  · rintro s ⟨-, hs⟩ t ht
    exact hq.1 t t (h.closed.enclosing s (hall s hs) t ht)
  · rintro s ⟨-, hs⟩
    exact (h.closed.bindings s (hall s hs)).mono hq

/-- A scope may be made inside one that there is, with bindings that are still to be evaluated. -/
theorem Closed.extended {m : Machine} (h : m.Closed) {parent : ScopeId} (hparent : parent < m.scopes.size)
    {bindings : Bindings} (hbindings : bindings.Waiting) : (m.extended parent bindings).Closed :=
  .of_secluded (m.existing.le_withScope _ _) (h.start.extended ⟨rfl, hparent⟩ hbindings.alike)

/-- Evaluation leaves no dangling reference behind. -/
theorem Closed.evaluate {m : Machine} (h : m.Closed) (e : Expr) {scope : ScopeId} (hscope : scope < m.scopes.size) :
    ((DynamicConfig.evaluate Host.builtin e scope).run.run m).2.Closed := by
  have hrun := secluded_evalWithin m.existing m m.context.room m.existing e scope scope ⟨rfl, hscope⟩
  obtain ⟨q, hle, ⟨-, hsecluded⟩, -⟩ := hrun.follows m m ⟨rfl, h.start⟩ trivial (.inl trivial)
  exact .of_secluded hle hsecluded

end Machine

end DynamicConfig

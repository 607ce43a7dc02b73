import DynamicConfig.Value
import Mathlib.Logic.Relation
import Mathlib.Logic.Relator
import Mathlib.Order.BoundedOrder.Basic
/-!
# Pairings

Two machines may give their scopes, objects and closures different identities. A pairing says which of one machine
stands for which of the other one. It may grow, and it may be one to one.
-/

namespace DynamicConfig

/-- Which scopes and which identities of one machine stand for which of another one. -/
structure Pairing where
  SameScope : ScopeId → ScopeId → Prop
  SameId : Nat → Nat → Prop

namespace Pairing

/-- A pairing may grow. -/
instance : Preorder Pairing where
  le p q := (∀ s s', p.SameScope s s' → q.SameScope s s') ∧ ∀ i i', p.SameId i i' → q.SameId i i'
  le_refl p := ⟨fun _ _ h => h, fun _ _ h => h⟩
  le_trans p q r hpq hqr := ⟨fun s s' h => hqr.1 s s' (hpq.1 s s' h), fun i i' h => hqr.2 i i' (hpq.2 i i' h)⟩

/-- Everything stands for everything. -/
instance : OrderTop Pairing where
  top := ⟨fun _ _ => True, fun _ _ => True⟩
  le_top _ := ⟨fun _ _ _ => trivial, fun _ _ _ => trivial⟩

/-- Everything stands for itself. -/
def same : Pairing where
  SameScope := Eq
  SameId := Eq

/-- No two stand for one, and none stands for two. -/
structure OneToOne (p : Pairing) : Prop where
  scopes : Relator.BiUnique p.SameScope
  ids : Relator.BiUnique p.SameId

/-- The other way round. -/
def swap (p : Pairing) : Pairing where
  SameScope s s' := p.SameScope s' s
  SameId i i' := p.SameId i' i

/-- One pairing after the other. -/
def comp (p q : Pairing) : Pairing where
  SameScope := Relation.Comp p.SameScope q.SameScope
  SameId := Relation.Comp p.SameId q.SameId

/-- A scope of the one machine that stands for one of the other one, in addition. -/
def withScope (p : Pairing) (s s' : ScopeId) : Pairing where
  SameScope t t' := p.SameScope t t' ∨ t = s ∧ t' = s'
  SameId := p.SameId

/-- An identity of the one machine that stands for one of the other one, in addition. -/
def withId (p : Pairing) (i i' : Nat) : Pairing where
  SameScope := p.SameScope
  SameId j j' := p.SameId j j' ∨ j = i ∧ j' = i'

/-- What either of two pairings says. -/
def union (p q : Pairing) : Pairing where
  SameScope s s' := p.SameScope s s' ∨ q.SameScope s s'
  SameId i i' := p.SameId i i' ∨ q.SameId i i'

/-- Everything stands for itself at least. -/
structure Reflexive (p : Pairing) : Prop where
  scope (s : ScopeId) : p.SameScope s s
  id (i : Nat) : p.SameId i i

variable {p : Pairing}

theorem reflexive_top : Reflexive ⊤ where
  scope _ := trivial
  id _ := trivial

theorem reflexive_same : same.Reflexive where
  scope _ := rfl
  id _ := rfl

theorem OneToOne.of_le_same (h : p ≤ same) : p.OneToOne where
  scopes := ⟨fun a b c hac hbc => (h.1 a c hac).trans (h.1 b c hbc).symm,
    fun a b c hab hac => (h.1 a b hab).symm.trans (h.1 a c hac)⟩
  ids := ⟨fun a b c hac hbc => (h.2 a c hac).trans (h.2 b c hbc).symm,
    fun a b c hab hac => (h.2 a b hab).symm.trans (h.2 a c hac)⟩

theorem OneToOne.swap (h : p.OneToOne) : p.swap.OneToOne where
  scopes := ⟨fun _ _ _ hac hbc => h.scopes.2 hac hbc, fun _ _ _ hab hac => h.scopes.1 hab hac⟩
  ids := ⟨fun _ _ _ hac hbc => h.ids.2 hac hbc, fun _ _ _ hab hac => h.ids.1 hab hac⟩

theorem OneToOne.beq_scope (hp : p.OneToOne) {s s' t t' : ScopeId} (hs : p.SameScope s s') (ht : p.SameScope t t') :
    (s == t) = (s' == t') := by
  rw [Bool.eq_iff_iff, beq_iff_eq, beq_iff_eq]
  constructor
  · rintro rfl
    exact hp.scopes.2 hs ht
  · rintro rfl
    exact hp.scopes.1 hs ht

theorem OneToOne.beq_id (hp : p.OneToOne) {i i' j j' : Nat} (hi : p.SameId i i') (hj : p.SameId j j') :
    (i == j) = (i' == j') := by
  rw [Bool.eq_iff_iff, beq_iff_eq, beq_iff_eq]
  constructor
  · rintro rfl
    exact hp.ids.2 hi hj
  · rintro rfl
    exact hp.ids.1 hi hj

theorem le_withScope (p : Pairing) (s s' : ScopeId) : p ≤ p.withScope s s' :=
  ⟨fun _ _ => .inl, fun _ _ h => h⟩

theorem le_withId (p : Pairing) (i i' : Nat) : p ≤ p.withId i i' :=
  ⟨fun _ _ h => h, fun _ _ => .inl⟩

theorem withScope_le_same (hp : p ≤ same) (s : ScopeId) : p.withScope s s ≤ same :=
  ⟨fun t t' h => h.elim (hp.1 t t') fun ⟨h, h'⟩ => h.trans h'.symm, hp.2⟩

theorem withId_le_same (hp : p ≤ same) (i : Nat) : p.withId i i ≤ same :=
  ⟨hp.1, fun j j' h => h.elim (hp.2 j j') fun ⟨h, h'⟩ => h.trans h'.symm⟩

theorem le_union_left (p q : Pairing) : p ≤ p.union q :=
  ⟨fun _ _ => .inl, fun _ _ => .inl⟩

theorem le_union_right (p q : Pairing) : q ≤ p.union q :=
  ⟨fun _ _ => .inr, fun _ _ => .inr⟩

end Pairing

/-- More pairs, each of which is there already or of what has had no counterpart. -/
theorem biUnique_union {R Q : Nat → Nat → Prop} (hR : Relator.BiUnique R) (hQ : Relator.BiUnique Q)
    (h : ∀ x y, Q x y → R x y ∨ (∀ z, ¬ R x z) ∧ ∀ z, ¬ R z y) : Relator.BiUnique fun x y => R x y ∨ Q x y := by
  constructor
  · rintro x y z (hx | hx) (hy | hy)
    · exact hR.1 hx hy
    · rcases h y z hy with hy | ⟨-, hnone⟩
      · exact hR.1 hx hy
      · exact absurd hx (hnone x)
    · rcases h x z hx with hx | ⟨-, hnone⟩
      · exact hR.1 hx hy
      · exact absurd hy (hnone y)
    · exact hQ.1 hx hy
  · rintro x y z (hy | hy) (hz | hz)
    · exact hR.2 hy hz
    · rcases h x z hz with hz | ⟨hnone, -⟩
      · exact hR.2 hy hz
      · exact absurd hy (hnone y)
    · rcases h x y hy with hy | ⟨hnone, -⟩
      · exact hR.2 hy hz
      · exact absurd hz (hnone z)
    · exact hQ.2 hy hz

/-- What is below two bounds, and the bounds themselves. -/
theorem biUnique_or_bound {R : Nat → Nat → Prop} (hR : Relator.BiUnique R) {n n' : Nat}
    (h : ∀ x y, R x y → x < n ∧ y < n') : Relator.BiUnique fun x y => R x y ∨ x = n ∧ y = n' := by
  refine biUnique_union hR ⟨?_, ?_⟩ ?_
  · rintro x y z ⟨rfl, -⟩ ⟨rfl, -⟩
    rfl
  · rintro x y z ⟨-, rfl⟩ ⟨-, rfl⟩
    rfl
  · rintro x y ⟨rfl, rfl⟩
    exact .inr ⟨fun z hz => Nat.lt_irrefl _ (h _ z hz).1, fun z hz => Nat.lt_irrefl _ (h z _ hz).2⟩

theorem lt_succ_of_or_bound {R : Nat → Nat → Prop} {n n' : Nat} (h : ∀ x y, R x y → x < n ∧ y < n') (x y : Nat)
    (hxy : R x y ∨ x = n ∧ y = n') : x < n + 1 ∧ y < n' + 1 := by
  rcases hxy with hxy | ⟨rfl, rfl⟩
  · exact ⟨Nat.lt_succ_of_lt (h x y hxy).1, Nat.lt_succ_of_lt (h x y hxy).2⟩
  · exact ⟨Nat.lt_succ_self _, Nat.lt_succ_self _⟩

namespace Pairing

variable {p : Pairing} {n n' : Nat}

/-- A new scope on each side. -/
theorem OneToOne.withScope (hp : p.OneToOne) (h : ∀ s s', p.SameScope s s' → s < n ∧ s' < n') :
    (p.withScope n n').OneToOne :=
  ⟨biUnique_or_bound hp.scopes h, hp.ids⟩

/-- A new identity on each side. -/
theorem OneToOne.withId (hp : p.OneToOne) (h : ∀ i i', p.SameId i i' → i < n ∧ i' < n') : (p.withId n n').OneToOne :=
  ⟨hp.scopes, biUnique_or_bound hp.ids h⟩

end Pairing

end DynamicConfig

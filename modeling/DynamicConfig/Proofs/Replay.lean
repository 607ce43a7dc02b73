import DynamicConfig.Proofs.Limits
import DynamicConfig.Proofs.Seclusion
/-!
# A binding evaluated somewhere else

The evaluation of a binding may find other bindings known, in progress or waiting. If it goes round in no circle and no
other binding becomes known by it, then all that it has asked for was known before. So it comes out alike on every
machine where as much is known (`Replay.follows`), whatever else has been made there and is in progress.

What has been made before both evaluations stands for itself, and what they make stands for each other in the order of
its making (`Pairing.shift`).
-/

namespace DynamicConfig

/-! ## What becomes known -/

namespace Scopes

/-- Of the bindings that there were none has become known. -/
def NoNews (before after : Scopes) : Prop :=
  ∀ id < before.size, ∀ (place : Nat) (name value : Value),
    (after.get id).bindings[place]? = some ⟨name, .evaluated value⟩ →
      (before.get id).bindings[place]? = some ⟨name, .evaluated value⟩

variable {before between after : Scopes}

theorem noNews_refl (scopes : Scopes) : scopes.NoNews scopes :=
  fun _ _ _ _ _ h => h

theorem NoNews.of_settles (h : before.NoNews after) (hsettles : between.Settles after) : before.NoNews between :=
  fun id hid place name value hvalue => h id hid place name value (hsettles.known id place name value hvalue)

/-- Where the bindings that there were are the same. -/
theorem NoNews.of_get (h : before.NoNews between) (hget : ∀ id < before.size, after.get id = between.get id) :
    before.NoNews after := by
  intro id hid place name value hvalue
  rw [hget id hid] at hvalue
  exact h id hid place name value hvalue

/-- A binding that is not known may come into progress or wait again. -/
theorem NoNews.setState (h : before.NoNews after) (id : ScopeId) (place : Nat) {state : EntryState}
    (hstate : ∀ value, state ≠ .evaluated value) : before.NoNews (after.setState id place state) := by
  intro other hother i name value hvalue
  by_cases hplace : id = other ∧ place = i
  · obtain ⟨rfl, rfl⟩ := hplace
    rw [get_setState, if_pos rfl, List.getElem?_modify_eq] at hvalue
    obtain ⟨entry, -, heq⟩ := Option.map_eq_some_iff.1 hvalue
    cases heq
    exact absurd rfl (hstate value)
  · rw [getElem?_setState_of_ne hplace] at hvalue
    exact h other hother i name value hvalue

end Scopes

/-! ## What is made in the same order -/

/-- Numbers below a bound stand for themselves, and those between `start` and `stop` for the ones that follow
`start'`. -/
def Shifted (bound start start' stop : Nat) (i j : Nat) : Prop :=
  i = j ∧ i < bound ∨ start ≤ i ∧ i < stop ∧ i + start' = j + start

theorem biUnique_shifted {bound start start' : Nat} (h : bound ≤ start) (h' : bound ≤ start') (stop : Nat) :
    Relator.BiUnique (Shifted bound start start' stop) := by
  constructor
  · intro i j k hi hj
    unfold Shifted at hi hj
    omega
  · intro i j k hi hj
    unfold Shifted at hi hj
    omega

/-- What there is on the machine `s` stands for itself, and what has been made between `α` and `m` stands for what has
been made since `β`. -/
def Pairing.shift (s α β m : Machine) : Pairing where
  SameScope := Shifted s.scopes.size α.scopes.size β.scopes.size m.scopes.size
  SameId := Shifted s.nextId α.nextId β.nextId m.nextId

theorem Pairing.shift_mono (s α β : Machine) {m n : Machine} (hsize : m.scopes.size ≤ n.scopes.size)
    (hids : m.nextId ≤ n.nextId) : shift s α β m ≤ shift s α β n :=
  ⟨fun _ _ h => h.imp_right fun ⟨hle, hlt, heq⟩ => ⟨hle, Nat.lt_of_lt_of_le hlt hsize, heq⟩,
    fun _ _ h => h.imp_right fun ⟨hle, hlt, heq⟩ => ⟨hle, Nat.lt_of_lt_of_le hlt hids, heq⟩⟩

theorem Pairing.existing_le_shift (s α β m : Machine) : s.existing ≤ shift s α β m :=
  ⟨fun _ _ h => .inl h, fun _ _ h => .inl h⟩

/-! ## Two places for an evaluation -/

/-- Two machines on which all is known that is known on `s`. On the first one nothing more is known of the bindings
of `s`. -/
structure Replay (s α β : Machine) : Prop where
  closed : s.Closed
  first : s.scopes.Settles α.scopes
  second : s.scopes.Settles β.scopes
  firstIds : s.nextId ≤ α.nextId
  secondIds : s.nextId ≤ β.nextId
  noNews : s.scopes.NoNews α.scopes

/-- Two runs from there that have done the same so far. The second one may have `slack` more closures and bindings
under evaluation. -/
structure Abreast (s α β : Machine) (slack : Nat) (m m' : Machine) : Prop where
  interrupted : m.context.interrupted = m'.context.interrupted
  depth : m'.context.depth ≤ m.context.depth + slack
  limits : m.context.limits.maxCallDepth + slack ≤ m'.context.limits.maxCallDepth
  refusals : α.context.refusals ≤ m.context.refusals
  circles : α.context.circles ≤ m.context.circles
  refusals' : m'.context.refusals = β.context.refusals
  circles' : m'.context.circles = β.context.circles
  scopes : α.scopes.size ≤ m.scopes.size
  ids : α.nextId ≤ m.nextId
  size : m.scopes.size + β.scopes.size = m'.scopes.size + α.scopes.size
  nextId : m.nextId + β.nextId = m'.nextId + α.nextId
  /-- What there was before has not been changed. -/
  kept : ∀ x < α.scopes.size, m.scopes.get x = α.scopes.get x
  kept' : ∀ y < β.scopes.size, m'.scopes.get y = β.scopes.get y
  enclosing : ∀ x y, (Pairing.shift s α β m).SameScope x y → β.scopes.size ≤ y →
    List.Forall₂ (Pairing.shift s α β m).SameScope (m.scopes.get x).enclosing (m'.scopes.get y).enclosing
  bindings : ∀ x y, (Pairing.shift s α β m).SameScope x y → β.scopes.size ≤ y →
    (m.scopes.get x).bindings.Alike (.shift s α β m) (m'.scopes.get y).bindings

namespace Replay

variable {s α β m m' : Machine} {slack : Nat}

theorem oneToOne (h : Replay s α β) (m : Machine) : (Pairing.shift s α β m).OneToOne :=
  ⟨biUnique_shifted h.first.size h.second.size _, biUnique_shifted h.firstIds h.secondIds _⟩

/-- A scope that there was on the second machine stands for one of `s`. -/
theorem self_of_lt (h : Replay s α β) {x y : Nat} (hxy : (Pairing.shift s α β m).SameScope x y)
    (hy : y < β.scopes.size) : x = y ∧ x < s.scopes.size := by
  have hsecond := h.second.size
  rcases hxy with hself | ⟨hle, -, heq⟩
  · exact hself
  · omega

/-- At first nothing has been made yet. -/
theorem lt_of_start (h : Replay s α β) {x y : Nat} (hxy : (Pairing.shift s α β α).SameScope x y) :
    y < β.scopes.size := by
  rcases hxy with ⟨rfl, hlt⟩ | ⟨hle, hlt, -⟩
  · exact Nat.lt_of_lt_of_le hlt h.second.size
  · exact absurd hlt (Nat.not_lt_of_le hle)

end Replay

namespace Abreast

variable {s α β m m' : Machine} {slack : Nat}

/-- A scope of the second run's own stands for one of the first run's own. -/
theorem bounds (h : Abreast s α β slack m m') (hreplay : Replay s α β) {x y : Nat}
    (hxy : (Pairing.shift s α β m).SameScope x y) :
    x < m.scopes.size ∧ y < m'.scopes.size ∧ (β.scopes.size ≤ y → α.scopes.size ≤ x) := by
  have hfirst := hreplay.first.size
  have hsecond := hreplay.second.size
  have hsize := h.size
  have hscopes := h.scopes
  rcases hxy with ⟨rfl, hlt⟩ | ⟨hle, hlt, heq⟩ <;> omega

theorem forall_enclosing (h : Abreast s α β slack m m') (hreplay : Replay s α β) {x y : Nat}
    (hxy : (Pairing.shift s α β m).SameScope x y) :
    List.Forall₂ (Pairing.shift s α β m).SameScope (m.scopes.get x).enclosing (m'.scopes.get y).enclosing := by
  by_cases hlt : y < β.scopes.size
  · obtain ⟨rfl, hx⟩ := hreplay.self_of_lt hxy hlt
    rw [h.kept' x hlt, h.kept x (Nat.lt_of_lt_of_le hx hreplay.first.size), hreplay.first.enclosing x hx,
      hreplay.second.enclosing x hx]
    exact List.forall₂_same.2 fun t ht => .inl (hreplay.closed.enclosing x ⟨rfl, hx⟩ t ht)
  · exact h.enclosing x y hxy (Nat.le_of_not_lt hlt)

theorem names_alike (h : Abreast s α β slack m m') (hreplay : Replay s α β) {x y : Nat}
    (hxy : (Pairing.shift s α β m).SameScope x y) :
    (m.scopes.get x).bindings.NamesAlike (.shift s α β m) (m'.scopes.get y).bindings := by
  by_cases hlt : y < β.scopes.size
  · obtain ⟨rfl, hx⟩ := hreplay.self_of_lt hxy hlt
    have hself := (hreplay.closed.bindings x ⟨rfl, hx⟩).mono (Pairing.existing_le_shift s α β m)
    rw [h.kept' x hlt, h.kept x (Nat.lt_of_lt_of_le hx hreplay.first.size)]
    exact hself.names.of_map_eq (hreplay.first.names x hx) (hreplay.second.names x hx)
  · exact (h.bindings x y hxy (Nat.le_of_not_lt hlt)).names

/-- The contexts change in the same way. -/
theorem within (h : Abreast s α β slack m m') (change : Context → Context)
    (hinterrupted : (change m.context).interrupted = (change m'.context).interrupted)
    (hdepth : (change m'.context).depth ≤ (change m.context).depth + slack)
    (hlimits : (change m.context).limits.maxCallDepth + slack ≤ (change m'.context).limits.maxCallDepth)
    (hrefusals : ∀ c, (change c).refusals = c.refusals) (hcircles : ∀ c, (change c).circles = c.circles) :
    Abreast s α β slack (m.within change) (m'.within change) :=
  ⟨hinterrupted, hdepth, hlimits, Nat.le_trans h.refusals (Nat.le_of_eq (hrefusals m.context).symm),
    Nat.le_trans h.circles (Nat.le_of_eq (hcircles m.context).symm), (hrefusals m'.context).trans h.refusals',
    (hcircles m'.context).trans h.circles', h.scopes, h.ids, h.size, h.nextId, h.kept, h.kept', h.enclosing, h.bindings⟩

theorem enterCall (h : Abreast s α β slack m m') :
    Abreast s α β slack (m.within Context.enterCall) (m'.within Context.enterCall) := by
  refine h.within Context.enterCall h.interrupted ?_ h.limits (fun _ => rfl) fun _ => rfl
  have hdepth := h.depth
  simp only [Context.enterCall]
  omega

theorem leaveCall (h : Abreast s α β slack m m') :
    Abreast s α β slack (m.within Context.leaveCall) (m'.within Context.leaveCall) := by
  refine h.within Context.leaveCall h.interrupted ?_ h.limits (fun _ => rfl) fun _ => rfl
  have hdepth := h.depth
  simp only [Context.leaveCall]
  omega

theorem enterNode (h : Abreast s α β slack m m') :
    Abreast s α β slack (m.within Context.enterNode) (m'.within Context.enterNode) :=
  h.within Context.enterNode h.interrupted h.depth h.limits (fun _ => rfl) fun _ => rfl

theorem leaveNode (h : Abreast s α β slack m m') :
    Abreast s α β slack (m.within Context.leaveNode) (m'.within Context.leaveNode) :=
  h.within Context.leaveNode h.interrupted h.depth h.limits (fun _ => rfl) fun _ => rfl

theorem checked (h : Abreast s α β slack m m') :
    Abreast s α β slack (m.within Context.check) (m'.within Context.check) :=
  h.within Context.check h.interrupted h.depth h.limits (fun _ => rfl) fun _ => rfl

theorem admits (h : Abreast s α β slack m m') (hdepth : m.context.depth < m.context.limits.maxCallDepth) :
    m'.context.depth < m'.context.limits.maxCallDepth := by
  have hless := h.depth
  have hmore := h.limits
  omega

theorem shift_le_named (m : Machine) : Pairing.shift s α β m ≤ .shift s α β m.named :=
  Pairing.shift_mono s α β (Nat.le_refl _) (Nat.le_succ _)

theorem named (h : Abreast s α β slack m m') : Abreast s α β slack m.named m'.named where
  interrupted := h.interrupted
  depth := h.depth
  limits := h.limits
  refusals := h.refusals
  circles := h.circles
  refusals' := h.refusals'
  circles' := h.circles'
  scopes := h.scopes
  ids := Nat.le_succ_of_le h.ids
  size := h.size
  nextId := by
    have hids := h.nextId
    simp only [Machine.named]
    omega
  kept := h.kept
  kept' := h.kept'
  enclosing := h.enclosing
  bindings x y hxy hle := (h.bindings x y hxy hle).mono (shift_le_named m)

theorem shift_le_extended (m : Machine) (parent : ScopeId) (bindings : Bindings) :
    Pairing.shift s α β m ≤ .shift s α β (m.extended parent bindings) := by
  refine Pairing.shift_mono s α β ?_ (Nat.le_refl _)
  rw [Machine.size_extended]
  exact Nat.le_succ _

/-- A new scope of the first machine stands for a new one of the second machine. -/
theorem sameScope_extended (h : Abreast s α β slack m m') (parent : ScopeId) (bindings : Bindings) :
    (Pairing.shift s α β (m.extended parent bindings)).SameScope m.scopes.size m'.scopes.size := by
  refine .inr ⟨h.scopes, ?_, h.size⟩
  rw [Machine.size_extended]
  exact Nat.lt_succ_self _

/-- The scopes that stand for each other are those from before and the two new ones. -/
theorem eq_of_sameScope_extended (h : Abreast s α β slack m m') {parent : ScopeId} {bindings : Bindings} {x y : Nat}
    (hxy : (Pairing.shift s α β (m.extended parent bindings)).SameScope x y) :
    (Pairing.shift s α β m).SameScope x y ∨ x = m.scopes.size ∧ y = m'.scopes.size := by
  rcases hxy with hself | ⟨hle, hlt, heq⟩
  · exact .inl (.inl hself)
  · rw [Machine.size_extended] at hlt
    have hsize := h.size
    rcases Nat.lt_succ_iff_lt_or_eq.1 hlt with hlt | rfl
    · exact .inl (.inr ⟨hle, hlt, heq⟩)
    · exact .inr ⟨rfl, by omega⟩

theorem extended (h : Abreast s α β slack m m') (hreplay : Replay s α β) {parent parent' : ScopeId}
    (hparent : (Pairing.shift s α β m).SameScope parent parent') {bindings bindings' : Bindings}
    (hbindings : bindings.Alike (.shift s α β m) bindings') :
    Abreast s α β slack (m.extended parent bindings) (m'.extended parent' bindings') := by
  have hmono : Pairing.shift s α β m ≤ .shift s α β (m.extended parent bindings) := shift_le_extended m parent bindings
  have hsize := h.size
  have hscopes := h.scopes
  have hold : ∀ x y, (Pairing.shift s α β m).SameScope x y →
      (m.extended parent bindings).scopes.get x = m.scopes.get x ∧
        (m'.extended parent' bindings').scopes.get y = m'.scopes.get y := fun x y hxy =>
    ⟨m.get_extended parent x bindings (h.bounds hreplay hxy).1,
      m'.get_extended parent' y bindings' (h.bounds hreplay hxy).2.1⟩
  refine
    { interrupted := h.interrupted
      depth := h.depth
      limits := h.limits
      refusals := h.refusals
      circles := h.circles
      refusals' := h.refusals'
      circles' := h.circles'
      scopes := ?_
      ids := h.ids
      size := ?_
      nextId := h.nextId
      kept := fun x hx => ?_
      kept' := fun y hy => ?_
      enclosing := fun x y hxy hle => ?_
      bindings := fun x y hxy hle => ?_ }
  · rw [Machine.size_extended]
    exact Nat.le_succ_of_le h.scopes
  · rw [Machine.size_extended, Machine.size_extended]
    omega
  · rw [Machine.get_extended _ _ _ _ (Nat.lt_of_lt_of_le hx h.scopes)]
    exact h.kept x hx
  · rw [Machine.get_extended _ _ _ _ (Nat.lt_of_lt_of_le hy (by omega))]
    exact h.kept' y hy
  · rcases h.eq_of_sameScope_extended hxy with hxy | ⟨rfl, rfl⟩
    · rw [(hold x y hxy).1, (hold x y hxy).2]
      exact (h.enclosing x y hxy hle).imp hmono.1
    · rw [Machine.enclosing_extended, Machine.enclosing_extended]
      exact .cons (hmono.1 _ _ hparent) ((h.forall_enclosing hreplay hparent).imp hmono.1)
  · rcases h.eq_of_sameScope_extended hxy with hxy | ⟨rfl, rfl⟩
    · rw [(hold x y hxy).1, (hold x y hxy).2]
      exact (h.bindings x y hxy hle).mono hmono
    · rw [Machine.bindings_extended, Machine.bindings_extended]
      exact hbindings.mono hmono

theorem shift_updated (s α β m : Machine) (x : ScopeId) (place : Nat) (state : EntryState) :
    Pairing.shift s α β (m.updated x place state) = .shift s α β m := by
  rw [Pairing.shift, Pairing.shift, Machine.size_updated]
  rfl

/-- The state of a binding changes on both sides, in scopes of the two runs' own. -/
theorem updated (h : Abreast s α β slack m m') (hreplay : Replay s α β) {x y : Nat}
    (hxy : (Pairing.shift s α β m).SameScope x y) (hle : β.scopes.size ≤ y) (place : Nat) {state state' : EntryState}
    (hstate : state.Alike (.shift s α β m) state') :
    Abreast s α β slack (m.updated x place state) (m'.updated y place state') := by
  have hbounds := h.bounds hreplay hxy
  refine
    { interrupted := h.interrupted
      depth := h.depth
      limits := h.limits
      refusals := h.refusals
      circles := h.circles
      refusals' := h.refusals'
      circles' := h.circles'
      scopes := ?_
      ids := h.ids
      size := ?_
      nextId := h.nextId
      kept := fun t ht => ?_
      kept' := fun t ht => ?_
      enclosing := fun t t' ht hle' => ?_
      bindings := fun t t' ht hle' => ?_ }
  · rw [Machine.size_updated]
    exact h.scopes
  · rw [Machine.size_updated, Machine.size_updated]
    exact h.size
  · rw [Machine.get_updated_of_ne _ _ _ _ _ (Nat.ne_of_gt (Nat.lt_of_lt_of_le ht (hbounds.2.2 hle)))]
    exact h.kept t ht
  · rw [Machine.get_updated_of_ne _ _ _ _ _ (Nat.ne_of_gt (Nat.lt_of_lt_of_le ht hle))]
    exact h.kept' t ht
  · rw [shift_updated] at ht ⊢
    rw [Machine.enclosing_updated, Machine.enclosing_updated]
    exact h.enclosing t t' ht hle'
  · rw [shift_updated] at ht ⊢
    exact Machine.bindings_updated (hreplay.oneToOne m) hxy ht place hstate (h.bindings t t' ht hle')

end Abreast

/-! ## The replay -/

/-- The first run asks for nothing that is not known, and no limit refuses it anything. The second run has no less
room. -/
def replaying {s α β : Machine} (hreplay : Replay s α β) (slack : Nat) : Simulation where
  Linked p m m' := p = .shift s α β m ∧ Abreast s α β slack m m'
  Final m := m.context.refusals ≤ α.context.refusals ∧ m.context.circles ≤ α.context.circles ∧ s.scopes.NoNews m.scopes
  InStep y _ := β.scopes.size ≤ y
  failing := False
  final hsettles hfinal := ⟨Nat.le_trans hsettles.refusals hfinal.1, Nat.le_trans hsettles.circles hfinal.2.1,
    hfinal.2.2.of_settles hsettles.scopes⟩
  oneToOne h := h.1 ▸ hreplay.oneToOne _
  interrupted h := h.2.interrupted
  admits h := h.2.admits
  denies h hfinal := absurd h.2.refusals (Nat.not_le_of_lt hfinal.1)
  refused h hfinal := absurd h.2.refusals (Nat.not_le_of_lt hfinal.1)
  circled h hfinal := absurd h.2.circles (Nat.not_le_of_lt hfinal.2.1)
  enterCall h := ⟨h.1, h.2.enterCall⟩
  leaveCall h := ⟨h.1, h.2.leaveCall⟩
  checked h := ⟨h.1, h.2.checked⟩
  named := by
    rintro p m m' ⟨rfl, h⟩
    exact ⟨_, Abreast.shift_le_named m, .inr ⟨h.ids, Nat.lt_succ_self _, h.nextId⟩, rfl, h.named⟩
  extended := by
    rintro p m m' parent parent' bindings bindings' ⟨rfl, h⟩ hparent hbindings
    exact ⟨_, Abreast.shift_le_extended m parent bindings, h.sameScope_extended parent bindings, rfl,
      h.extended hreplay hparent hbindings⟩
  enclosing := by
    rintro p m m' x y ⟨rfl, h⟩ hxy
    exact h.forall_enclosing hreplay hxy
  contains := by
    rintro p m m' x y name ⟨rfl, h⟩ hxy
    exact (h.names_alike hreplay hxy).contains_eq name
  bindings := by
    rintro p m m' x y place entry ⟨rfl, h⟩ hxy hle hentry
    exact (h.bindings x y hxy hle).getElem? hentry
  updated := by
    rintro p m m' x y state state' place ⟨rfl, h⟩ hxy hle - hstate
    exact ⟨(Abreast.shift_updated ..).symm, h.updated hreplay hxy hle place hstate⟩

/-- A binding that there was before is known to both runs, or else the first run is none to follow. -/
theorem follows_resolve_known {s α β : Machine} (hreplay : Replay s α β) {slack : Nat} {m m' : Machine}
    (h : Abreast s α β slack m m') {x y : Nat} (hxy : (Pairing.shift s α β m).SameScope x y) (hlt : y < β.scopes.size)
    {name name' : Value} {place : Nat} {entry entry' : Entry} (hentry : (m.scopes.get x).bindings[place]? = some entry)
    (hentry' : (m'.scopes.get y).bindings[place]? = some entry') (room : Nat) (run' : Evaluator) :
    (replaying hreplay slack).Follows (.shift s α β m) Value.Alike
      (Evaluation.resolve (evalWithin Host.builtin room) name x place entry.state)
      (Evaluation.resolve run' name' y place entry'.state) m m' := by
  obtain ⟨rfl, hx⟩ := hreplay.self_of_lt hxy hlt
  rw [h.kept' x hlt] at hentry'
  have hbefore := hentry
  rw [h.kept x (Nat.lt_of_lt_of_le hx hreplay.first.size)] at hbefore
  obtain ⟨key, state⟩ := entry
  cases state with
  | inProgress =>
    intro hfinal _
    exact absurd h.circles (Nat.not_le_of_lt hfinal.2.1)
  | evaluated value =>
    intro _ _
    have hknown := hreplay.noNews x hx place key value hbefore
    rw [hreplay.second.known x place key value hknown] at hentry'
    cases hentry'
    obtain ⟨_, hsame, halike⟩ := (hreplay.closed.bindings x ⟨rfl, hx⟩).getElem? hknown
    rw [hknown] at hsame
    cases hsame
    cases halike.state with
    | evaluated hvalue => exact ⟨_, le_refl _, ⟨rfl, h⟩, .ok (hvalue.mono (Pairing.existing_le_shift s α β m))⟩
  | unevaluated expr =>
    refine Simulation.follows_resolve_waiting name (fun hfinal => absurd h.refusals (Nat.not_le_of_lt hfinal.1))
      (fun _ _ _ _ hfailing => hfailing) fun value after hdepth hended hfinal => ?_
    -- The binding would be known in the end, so it has been known before.
    have hhost : Host.builtin.Meets growthContract := Host.meets_builtin
    have hgrows := Evaluation.leads_done (Contract.meets_evalWithin hhost room) trivial hentry hdepth hended
    have hknown := hfinal.2.2 x hx place key value (Machine.known_done hentry hgrows.scopes)
    rw [hreplay.first.known x place key value hknown] at hbefore
    cases hbefore

/-- What evaluates to a value without a circle, a refusal or any news evaluates to the same elsewhere, where as much is
known and there is as much room. -/
theorem Replay.follows {s α β : Machine} (hreplay : Replay s α β) (slack : Nat) {room room' : Nat}
    (hroom : room ≤ room') (hinterrupted : α.context.interrupted = β.context.interrupted)
    (hdepth : β.context.depth ≤ α.context.depth + slack)
    (hlimits : α.context.limits.maxCallDepth + slack ≤ β.context.limits.maxCallDepth) {e : Expr} {scope : ScopeId}
    (hscope : scope < s.scopes.size) {value : Value} {ended : Machine}
    (hrun : (evalWithin Host.builtin room e scope).run.run α = (.ok value, ended))
    (hrefusals : ended.context.refusals ≤ α.context.refusals) (hcircles : ended.context.circles ≤ α.context.circles)
    (hnews : s.scopes.NoNews ended.scopes) :
    ∃ value' ended', (evalWithin Host.builtin room' e scope).run.run β = (.ok value', ended') ∧
      Abreast s α β slack ended ended' ∧ value.Alike (.shift s α β ended) value' := by
  have hnests : (replaying hreplay slack).Nests :=
    ⟨fun h => ⟨h.1, h.2.enterNode⟩, fun h => ⟨h.1, h.2.leaveNode⟩⟩
  have hmatched : (replaying hreplay slack).Evaluates (evalWithin Host.builtin room) (evalWithin Host.builtin room') := by
    refine Simulation.evaluates_evalWithin (Host.matched_builtin _) hnests (fun room room' hrun => ?_) hroom (.inr ?_)
    · refine Simulation.looksUp_of_evaluates hrun ?_ ?_
      · rintro p m m' x y ⟨rfl, h⟩ hxy
        exact h.names_alike hreplay hxy
      · rintro p m m' x y name name' place entry entry' ⟨rfl, h⟩ hxy hstep hname hentry hentry'
        exact follows_resolve_known hreplay h hxy (Nat.lt_of_not_le hstep) hentry hentry' room _
    · exact fun p m m' hm hfinal => absurd hm.2.refusals (Nat.not_le_of_lt hfinal.1)
  have hstart : Abreast s α β slack α β := by
    refine
      { interrupted := hinterrupted
        depth := hdepth
        limits := hlimits
        refusals := Nat.le_refl _
        circles := Nat.le_refl _
        refusals' := rfl
        circles' := rfl
        scopes := Nat.le_refl _
        ids := Nat.le_refl _
        size := Nat.add_comm ..
        nextId := Nat.add_comm ..
        kept := fun _ _ => rfl
        kept' := fun _ _ => rfl
        enclosing := fun x y hxy hle => ?_
        bindings := fun x y hxy hle => ?_ }
    · exact absurd hle (Nat.not_le_of_lt (hreplay.lt_of_start hxy))
    · exact absurd hle (Nat.not_le_of_lt (hreplay.lt_of_start hxy))
  have hfollows := (hmatched (.shift s α β α) e scope scope (.inl ⟨rfl, hscope⟩)).follows α β ⟨rfl, hstart⟩
  unfold Simulation.Follows at hfollows
  rw [hrun] at hfollows
  obtain ⟨q, -, ⟨rfl, hlinked⟩, houtcome⟩ := hfollows ⟨hrefusals, hcircles, hnews⟩ (.inr ⟨value, rfl⟩)
  generalize (evalWithin Host.builtin room' e scope).run.run β = ended' at *
  obtain ⟨outcome, after⟩ := ended'
  cases houtcome with
  | ok halike => exact ⟨_, after, rfl, hlinked, halike⟩

end DynamicConfig

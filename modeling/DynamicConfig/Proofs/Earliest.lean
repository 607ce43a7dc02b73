import DynamicConfig.Proofs.Ahead
/-!
# The first binding to be known

Among the bindings that a run evaluates, one is the first to be known. If the run goes round in no circle, then the
evaluation of that one depends on nothing but what was known before the run (`exists_early`).
-/

namespace DynamicConfig

/-! ## Bindings in progress -/

/-- The bindings that there were are as they were, except that some may have come into progress. -/
structure Scopes.Steady (before after : Scopes) : Prop extends before.Settles after where
  states : ∀ id < before.size, ∀ (place : Nat) (entry : Entry), (after.get id).bindings[place]? = some entry →
    entry.state = .inProgress ∨ (before.get id).bindings[place]? = some entry

namespace Scopes

variable {before between after : Scopes}

theorem Steady.refl (scopes : Scopes) : scopes.Steady scopes where
  toSettles := .refl scopes
  states _ _ _ _ h := .inr h

theorem Steady.noNews (h : before.Steady after) : before.NoNews after := by
  intro id hid place name value hvalue
  rcases h.states id hid place _ hvalue with hstate | hbefore
  · cases hstate
  · exact hbefore

/-- Where nothing happens to the bindings that there were. -/
theorem Steady.of_get (h : before.Steady between) (hsettles : between.Settles after)
    (hget : ∀ id < before.size, after.get id = between.get id) : before.Steady after where
  toSettles := h.toSettles.trans hsettles
  states id hid place entry hentry := by
    rw [hget id hid] at hentry
    exact h.states id hid place entry hentry

theorem Steady.begin (h : before.Steady after) {id : ScopeId} {place : Nat} (hunknown : after.Unknown id place) :
    before.Steady (after.setState id place .inProgress) where
  toSettles := h.toSettles.trans (hunknown.settles _)
  states other hother i entry hentry := by
    by_cases hhere : id = other ∧ place = i
    · obtain ⟨rfl, rfl⟩ := hhere
      obtain ⟨name, state, hbefore, -⟩ := hunknown
      rw [getElem?_setState hbefore] at hentry
      cases hentry
      exact .inl rfl
    · rw [getElem?_setState_of_ne hhere] at hentry
      exact h.states other hother i entry hentry

end Scopes

/-! ## The search -/

variable {s E : Machine}

/-- There is a binding whose evaluation depends on nothing but what is known, and it is known in the end. -/
def HasEarly (s E : Machine) : Prop :=
  ∃ early : Early s, ∃ value, (E.scopes.get early.id).bindings[early.place]? = some ⟨early.key, .evaluated value⟩

/-- A run from `s` that has found such a binding, or has not made any binding of `s` known so far. -/
structure Searches (s E : Machine) (q : Pairing) (m : Machine) : Prop where
  secluded : Secluded s.existing s q m
  interrupted : m.context.interrupted = s.context.interrupted
  refusals : s.context.refusals ≤ m.context.refusals
  circles : s.context.circles ≤ m.context.circles
  found : HasEarly s E ∨ s.scopes.Steady m.scopes

namespace Searches

variable {q : Pairing} {m : Machine}

theorem within (h : Searches s E q m) (change : Context → Context)
    (hinterrupted : (change m.context).interrupted = m.context.interrupted)
    (hrefusals : m.context.refusals ≤ (change m.context).refusals)
    (hcircles : m.context.circles ≤ (change m.context).circles) : Searches s E q (m.within change) :=
  ⟨h.secluded.within change, hinterrupted.trans h.interrupted, Nat.le_trans h.refusals hrefusals,
    Nat.le_trans h.circles hcircles, h.found⟩

theorem extended (h : Searches s E q m) {parent : ScopeId} (hparent : q.SameScope parent parent) {bindings : Bindings}
    (hbindings : bindings.Alike q bindings) :
    Searches s E (q.withScope m.scopes.size m.scopes.size) (m.extended parent bindings) where
  secluded := h.secluded.extended hparent hbindings
  interrupted := h.interrupted
  refusals := h.refusals
  circles := h.circles
  found := h.found.imp_right fun hsteady =>
    hsteady.of_get (m.scopes.settles_add (some parent) bindings) fun _ hid =>
      Scopes.get_add m.scopes (some parent) bindings (Nat.lt_of_lt_of_le hid hsteady.size)

theorem updated (h : Searches s E q m) {x : ScopeId} (hx : q.SameScope x x) (hle : s.scopes.size ≤ x) {place : Nat}
    (hunknown : m.scopes.Unknown x place) {state : EntryState} (hstate : state.Alike q state) :
    Searches s E q (m.updated x place state) where
  secluded := h.secluded.updated hx place hstate
  interrupted := h.interrupted
  refusals := h.refusals
  circles := h.circles
  found := h.found.imp_right fun hsteady =>
    hsteady.of_get (hunknown.settles state) fun _ hid =>
      Scopes.get_setState_of_ne (Nat.ne_of_gt (Nat.lt_of_lt_of_le hid hle)) place state

/-- A binding that there was comes into progress. -/
theorem begin (h : Searches s E q m) {x : ScopeId} (hx : q.SameScope x x) {place : Nat}
    (hunknown : m.scopes.Unknown x place) : Searches s E q (m.updated x place .inProgress) where
  secluded := h.secluded.updated hx place .inProgress
  interrupted := h.interrupted
  refusals := h.refusals
  circles := h.circles
  found := h.found.imp_right fun hsteady => hsteady.begin hunknown

end Searches

/-- A run that ends on the machine `E`, by itself. -/
def search (s E : Machine) : Simulation where
  Linked q m m' := m = m' ∧ Searches s E q m
  Final m := m.Settles E
  InStep y _ := s.scopes.size ≤ y
  failing := False
  final := .trans
  oneToOne h := .of_le_same h.2.secluded.le_same
  interrupted h := congrArg (·.context.interrupted) h.1
  admits h hdepth := h.1 ▸ hdepth
  denies h _ hdepth := h.1 ▸ hdepth
  refused := by
    rintro q m m' ⟨rfl, h⟩ _
    exact ⟨rfl, h.within (fun c => { c with refusals := c.refusals + 1 }) rfl (Nat.le_succ _) (Nat.le_refl _)⟩
  circled := by
    rintro q m m' ⟨rfl, h⟩ _
    exact ⟨rfl, h.within (fun c => { c with circles := c.circles + 1 }) rfl (Nat.le_refl _) (Nat.le_succ _)⟩
  enterCall := by rintro q m m' ⟨rfl, h⟩; exact ⟨rfl, h.within _ rfl (Nat.le_refl _) (Nat.le_refl _)⟩
  leaveCall := by rintro q m m' ⟨rfl, h⟩; exact ⟨rfl, h.within _ rfl (Nat.le_refl _) (Nat.le_refl _)⟩
  checked := by rintro q m m' ⟨rfl, h⟩; exact ⟨rfl, h.within _ rfl (Nat.le_refl _) (Nat.le_refl _)⟩
  named := by
    rintro q m m' ⟨rfl, h⟩
    exact ⟨_, q.le_withId _ _, .inr ⟨rfl, rfl⟩, rfl, h.secluded.named, h.interrupted, h.refusals, h.circles, h.found⟩
  extended := by
    rintro q m m' parent parent' bindings bindings' ⟨rfl, h⟩ hparent hbindings
    obtain rfl := h.secluded.le_same.1 _ _ hparent
    obtain rfl := hbindings.eq h.secluded.le_same
    exact ⟨_, q.le_withScope _ _, .inr ⟨rfl, rfl⟩, rfl, h.extended hparent hbindings⟩
  enclosing := by
    rintro q m m' x y ⟨rfl, h⟩ hx
    obtain rfl := h.secluded.le_same.1 _ _ hx
    exact List.forall₂_same.2 fun t ht => h.secluded.closed.enclosing x hx t ht
  contains := by
    rintro q m m' x y name ⟨rfl, h⟩ hx
    obtain rfl := h.secluded.le_same.1 _ _ hx
    rfl
  bindings := by
    rintro q m m' x y place entry ⟨rfl, h⟩ hx _ hentry
    obtain rfl := h.secluded.le_same.1 _ _ hx
    exact (h.secluded.closed.bindings x hx).getElem? hentry
  updated := by
    rintro q m m' x y state state' place ⟨rfl, h⟩ hx hle hunknown hstate
    obtain rfl := h.secluded.le_same.1 _ _ hx
    obtain rfl := hstate.eq h.secluded.le_same
    exact ⟨rfl, h.updated hx hle hunknown hstate⟩

/-- A binding of `s` whose evaluation has made no other binding of `s` known might have been evaluated on `s` at once. -/
theorem Searches.exists_early (hclosed : s.Closed) (hrefusals : E.context.refusals ≤ s.context.refusals)
    (hcircles : E.context.circles ≤ s.context.circles) {q : Pairing} {m : Machine} (h : Searches s E q m)
    (hsteady : s.scopes.Steady m.scopes) {x : ScopeId} (hx : x < s.scopes.size) {place : Nat} {key : Value} {expr : Expr}
    (hentry : (m.scopes.get x).bindings[place]? = some ⟨key, .unevaluated expr⟩) {room : Nat} {value : Value}
    {after : Machine}
    (hrun : (evalWithin Host.builtin room expr x).run.run ((m.updated x place .inProgress).within Context.enterCall) =
      (.ok value, after))
    (hfinal : after.Settles E) (hafter : s.scopes.NoNews after.scopes) :
    ∃ early : Early s, early.id = x ∧ early.place = place ∧ early.key = key := by
  let started : Machine := (m.updated x place .inProgress).within Context.enterCall
  have hunknown : m.scopes.Unknown x place := ⟨key, _, hentry, fun _ => EntryState.noConfusion⟩
  have hbefore : (s.scopes.get x).bindings[place]? = some ⟨key, .unevaluated expr⟩ :=
    (hsteady.states x hx place _ hentry).resolve_left EntryState.noConfusion
  have hstarted := hsteady.begin hunknown
  let β : Machine := { s with context := started.context }.updated x place .inProgress
  have hreplay : Replay s started β :=
    { closed := hclosed
      first := hstarted.toSettles
      second := Scopes.Unknown.settles ⟨_, _, hbefore, fun _ => EntryState.noConfusion⟩ _
      firstIds := h.secluded.nextId
      secondIds := Nat.le_refl _
      noNews := hstarted.noNews }
  obtain ⟨value', ended, hrun', habreast, -⟩ := hreplay.follows 0 (Nat.le_refl room) rfl (Nat.le_refl _)
    (Nat.le_refl _) hx hrun (Nat.le_trans hfinal.refusals (Nat.le_trans hrefusals h.refusals))
    (Nat.le_trans hfinal.circles (Nat.le_trans hcircles h.circles)) hafter
  let early : Early s :=
    { id := x
      place
      key
      expr
      entry := hbefore
      context := started.context
      room
      value := value'
      ended
      run := hrun'
      refusals := Nat.le_of_eq habreast.refusals'
      circles := Nat.le_of_eq habreast.circles'
      alone := fun y hy => habreast.kept' y (hy.trans_eq (Scopes.size_setState ..).symm)
      interrupted := h.interrupted }
  exact ⟨early, rfl, rfl, rfl⟩

/-- Where the run evaluates a binding that there was, the search comes to its end at the latest. -/
theorem follows_resolve_search (hclosed : s.Closed) (hrefusals : E.context.refusals ≤ s.context.refusals)
    (hcircles : E.context.circles ≤ s.context.circles) {room room' : Nat}
    (hrun : (search s E).Evaluates (evalWithin Host.builtin room) (evalWithin Host.builtin room')) {q : Pairing}
    {m : Machine} (h : Searches s E q m) {x : ScopeId} (hself : q.SameScope x x) (hx : x < s.scopes.size)
    {name name' : Value} (hname : name.Alike q name') {place : Nat} {entry : Entry}
    (hentry : (m.scopes.get x).bindings[place]? = some entry) :
    (search s E).Follows q Value.Alike
      (Evaluation.resolve (evalWithin Host.builtin room) name x place entry.state)
      (Evaluation.resolve (evalWithin Host.builtin room') name' x place entry.state) m m := by
  obtain rfl := hname.eq h.secluded.le_same
  obtain ⟨key, state⟩ := entry
  cases state with
  | evaluated value =>
    obtain ⟨_, hsame, halike⟩ := (h.secluded.closed.bindings x hself).getElem? hentry
    rw [hentry] at hsame
    cases hsame
    cases halike.state with
    | evaluated hvalue => exact fun _ _ => ⟨q, le_refl q, ⟨rfl, h⟩, .ok hvalue⟩
  | inProgress => exact fun hfinal _ => ⟨q, le_refl q, (search s E).circled ⟨rfl, h⟩ hfinal, .ok (.error _)⟩
  | unevaluated expr =>
    have hunknown : m.scopes.Unknown x place := ⟨key, _, hentry, fun _ => EntryState.noConfusion⟩
    refine Simulation.follows_resolve_waiting name (fun hfinal => ?_) (fun _ _ _ _ hfailing => hfailing)
      fun value after hdepth hended hfinal => ?_
    · exact absurd (Nat.le_trans hfinal.refusals (Nat.le_trans hrefusals h.refusals)) (Nat.not_succ_le_self _)
    · have hstarted := (h.begin hself hunknown).within Context.enterCall rfl (Nat.le_refl _) (Nat.le_refl _)
      have hgrows := (hrun.grows expr x ((m.updated x place .inProgress).within Context.enterCall) trivial).1
      have hfollows := (hrun q expr x x hself).follows _ _ ⟨rfl, hstarted⟩
      unfold Simulation.Follows at hfollows
      rw [hended] at hgrows hfollows
      have hafter : after.Settles E := (Machine.settles_done (Machine.unknown_ended hentry hgrows) _).trans hfinal
      obtain ⟨r, hqr, ⟨hsame, hsearched⟩, houtcome⟩ := hfollows hafter (.inr ⟨value, rfl⟩)
      rw [Evaluation.run_resolve_waiting]
      dsimp only
      rw [if_pos hdepth]
      generalize (evalWithin Host.builtin room' expr x).run.run _ = ended' at *
      obtain ⟨outcome', after'⟩ := ended'
      cases houtcome with
      | ok halike =>
        obtain rfl := hsame
        obtain rfl := halike.eq hsearched.secluded.le_same
        have hdone := (hsearched.secluded.updated (hqr.1 _ _ hself) place (.evaluated halike)).within Context.leaveCall
        refine ⟨r, hqr, ⟨rfl, hdone, hsearched.interrupted, hsearched.refusals, hsearched.circles, .inl ?_⟩, .ok halike⟩
        rcases h.found with hfound | hbefore
        · exact hfound
        · rcases hsearched.found with hfound | hsteady
          · exact hfound
          · obtain ⟨early, rfl, rfl, rfl⟩ := h.exists_early hclosed hrefusals hcircles hbefore hx hentry hended hafter
              hsteady.noNews
            have hgrown := Evaluation.leads_done hrun.grows trivial hentry hdepth hended
            exact ⟨early, value, hfinal.scopes.known _ _ _ _ (Machine.known_done hentry hgrown.scopes)⟩

/-- A lookup that goes round in no circle and is refused nothing makes no binding known, or there is one whose evaluation
depends on nothing but what was known before. -/
theorem exists_early (hclosed : s.Closed) {scope : ScopeId} (hscope : scope < s.scopes.size) (name : String)
    {value : Value} (hrun : (lookupName Host.builtin scope (.string name)).run.run s = (.ok value, E))
    (hrefusals : E.context.refusals ≤ s.context.refusals) (hcircles : E.context.circles ≤ s.context.circles) :
    HasEarly s E ∨ s.scopes.NoNews E.scopes := by
  have hstart : Searches s E s.existing s :=
    ⟨hclosed.start, rfl, Nat.le_refl _, Nat.le_refl _, .inr (.refl s.scopes)⟩
  have hlook : ∀ room room', (search s E).Evaluates (evalWithin Host.builtin room) (evalWithin Host.builtin room') →
      (search s E).LooksUp (evalWithin Host.builtin room) (evalWithin Host.builtin room') := by
    refine fun room room' hevaluates => Simulation.looksUp_of_evaluates hevaluates ?_ ?_
    · rintro q m m' x y ⟨rfl, h⟩ hxy
      obtain rfl := h.secluded.le_same.1 _ _ hxy
      exact (h.secluded.closed.bindings x hxy).names
    · rintro q m m' x y name name' place entry entry' ⟨rfl, h⟩ hxy hstep hname hentry hentry'
      obtain rfl := h.secluded.le_same.1 _ _ hxy
      rw [hentry] at hentry'
      cases hentry'
      exact follows_resolve_search hclosed hrefusals hcircles hevaluates h hxy (Nat.lt_of_not_le hstep) hname hentry
  have hnests : (search s E).Nests := by
    constructor
    · rintro q m m' ⟨rfl, h⟩
      exact ⟨rfl, h.within _ rfl (Nat.le_refl _) (Nat.le_refl _)⟩
    · rintro q m m' ⟨rfl, h⟩
      exact ⟨rfl, h.within _ rfl (Nat.le_refl _) (Nat.le_refl _)⟩
  have hevaluates := Simulation.evaluates_evalWithin (Host.matched_builtin _) hnests hlook (Nat.le_refl s.context.room)
    (.inl rfl)
  have hfollows := (hlook _ _ hevaluates s.existing scope scope _ _ ⟨rfl, hscope⟩ (.string name)).follows s s
    ⟨rfl, hstart⟩
  unfold Simulation.Follows at hfollows
  rw [← run_lookupName, hrun] at hfollows
  obtain ⟨q, -, ⟨-, hsearched⟩, -⟩ := hfollows (Machine.Grows.refl E).settles (.inr ⟨value, rfl⟩)
  exact hsearched.found.imp_right fun hsteady => hsteady.noNews

end DynamicConfig

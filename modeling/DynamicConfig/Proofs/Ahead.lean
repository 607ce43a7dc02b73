import DynamicConfig.Proofs.Repetition
import DynamicConfig.Proofs.Replay
/-!
# A binding evaluated ahead of everything else

Where the evaluation of a binding depends on nothing but what is known (`Early`), it may as well come first: whatever is
evaluated then has the outcome that it has without (`Ahead`). The proof is a simulation of a machine where the binding
waits by one where it has been evaluated ahead. When the first machine comes to evaluate the binding, this is a replay
of what has been done ahead, and what it makes gets its counterparts only then.
-/

namespace DynamicConfig

/-- The evaluation of a waiting binding that comes to a value, goes round in no circle and changes no other binding that
there is. It may take place deep inside other evaluations: in another context and with less room for nodes. -/
structure Early (s : Machine) where
  id : ScopeId
  place : Nat
  key : Value
  expr : Expr
  entry : (s.scopes.get id).bindings[place]? = some ⟨key, .unevaluated expr⟩
  context : Context
  room : Nat
  value : Value
  ended : Machine
  run : (evalWithin Host.builtin room expr id).run.run ({ s with context }.updated id place .inProgress) =
    (.ok value, ended)
  refusals : ended.context.refusals ≤ context.refusals
  circles : ended.context.circles ≤ context.circles
  alone : ∀ x < s.scopes.size, ended.scopes.get x = (s.scopes.setState id place .inProgress).get x
  interrupted : context.interrupted = s.context.interrupted

namespace Early

variable {s : Machine}

/-- The machine where the evaluation begins. -/
def start (early : Early s) : Machine :=
  { s with context := early.context }.updated early.id early.place .inProgress

/-- The machine when the evaluation is over, in the context of before. -/
def done (early : Early s) : Machine :=
  { early.ended.updated early.id early.place (.evaluated early.value) with context := s.context }

theorem id_lt (early : Early s) : early.id < s.scopes.size :=
  Scopes.lt_size_of_getElem? early.entry

theorem size_start (early : Early s) : early.start.scopes.size = s.scopes.size :=
  Scopes.size_setState ..

theorem size_done (early : Early s) : early.done.scopes.size = early.ended.scopes.size :=
  Scopes.size_setState ..

theorem grows (early : Early s) : early.start.Grows early.ended := by
  have hhost : Host.builtin.Meets growthContract := Host.meets_builtin
  have h := (Contract.meets_evalWithin hhost early.room early.expr early.id early.start trivial).1
  rwa [start, early.run] at h

theorem size_le (early : Early s) : s.scopes.size ≤ early.ended.scopes.size :=
  early.size_start ▸ early.grows.scopes.size

theorem nextId_le (early : Early s) : s.nextId ≤ early.ended.nextId :=
  early.grows.ids

/-- Of the bindings that there were, the one has got its value. -/
theorem get_done (early : Early s) {x : ScopeId} (hx : x < s.scopes.size) :
    early.done.scopes.get x = (s.scopes.setState early.id early.place (.evaluated early.value)).get x :=
  Scopes.get_setState_again (early.alone x hx) _

/-- What has been made ahead stays as it is in the end. -/
theorem get_done_of_le (early : Early s) {x : ScopeId} (hx : s.scopes.size ≤ x) :
    early.done.scopes.get x = early.ended.scopes.get x :=
  Scopes.get_setState_of_ne (Nat.ne_of_lt (Nat.lt_of_lt_of_le early.id_lt hx)) ..

/-- The binding waits no more. -/
theorem entry_done (early : Early s) :
    (early.done.scopes.get early.id).bindings[early.place]? = some ⟨early.key, .evaluated early.value⟩ := by
  rw [early.get_done early.id_lt]
  exact Scopes.getElem?_setState early.entry _

theorem forward_done (early : Early s) : s.scopes.Forward early.done.scopes :=
  .finish early.entry (.inr ⟨_, rfl⟩) early.grows.scopes

theorem idle_done (early : Early s) (hidle : s.Idle) : early.done.Idle :=
  hidle.forward early.forward_done

theorem closed_done (early : Early s) (hclosed : s.Closed) : early.done.Closed := by
  have hself : s.existing.SameScope early.id early.id := ⟨rfl, early.id_lt⟩
  have hstart := (hclosed.start.within fun _ => early.context).updated hself early.place .inProgress
  have hrun := (secluded_evalWithin s.existing s early.room s.existing early.expr early.id early.id hself).follows
    early.start early.start ⟨rfl, hstart⟩ trivial (.inl trivial)
  rw [start, early.run] at hrun
  obtain ⟨q, hle, ⟨-, hended⟩, houtcome⟩ := hrun
  cases houtcome with
  | ok hvalue =>
    have hdone := (hended.updated (hle.1 _ _ hself) early.place (.evaluated hvalue)).within fun _ => s.context
    exact .of_secluded hle hdone

/-- The machine where a run comes to evaluate the binding. -/
def reached (early : Early s) (m : Machine) : Machine :=
  (m.updated early.id early.place .inProgress).within Context.enterCall

theorem size_reached (early : Early s) (m : Machine) : (early.reached m).scopes.size = m.scopes.size :=
  Scopes.size_setState ..

/-- Where a run comes to evaluate the binding while it still waits, the evaluation is a replay, if it is refused
nothing. As it may have less room, this is shown with limits that are high enough for both. -/
theorem again (early : Early s) (hclosed : s.Closed) {m : Machine} (hscopes : s.scopes.Settles m.scopes)
    (hids : s.nextId ≤ m.nextId) (hinterrupted : m.context.interrupted = s.context.interrupted)
    (hwaiting : (m.scopes.get early.id).bindings[early.place]? = some ⟨early.key, .unevaluated early.expr⟩) {room : Nat}
    {outcome : Except FatalError Value} {after : Machine}
    (hrun : (evalWithin Host.builtin room early.expr early.id).run.run (early.reached m) = (outcome, after))
    (hrefusals : after.context.refusals ≤ m.context.refusals) :
    ∃ value limits slack, outcome = .ok value ∧
      Abreast s early.start ((early.reached m).withLimits limits) slack early.ended (after.withLimits limits) ∧
        early.value.Alike (.shift s early.start ((early.reached m).withLimits limits) early.ended) value := by
  let slack := m.context.depth + 1
  let limits : Limits := ⟨m.context.limits.maxCallDepth + (early.context.limits.maxCallDepth + slack), 0⟩
  have hreplay : Replay s early.start ((early.reached m).withLimits limits) :=
    { closed := hclosed
      first := Scopes.Unknown.settles ⟨_, _, early.entry, fun _ => EntryState.noConfusion⟩ _
      second := hscopes.trans (Scopes.Unknown.settles ⟨_, _, hwaiting, fun _ => EntryState.noConfusion⟩ _)
      firstIds := Nat.le_refl _
      secondIds := hids
      noNews := (Scopes.noNews_refl _).setState _ _ fun _ => EntryState.noConfusion }
  have hnews : s.scopes.NoNews early.ended.scopes :=
    ((Scopes.noNews_refl s.scopes).setState early.id early.place fun _ => EntryState.noConfusion).of_get early.alone
  obtain ⟨value, after', hrun', habreast, halike⟩ := hreplay.follows slack (Nat.le_max_left early.room room)
    (early.interrupted.trans hinterrupted.symm) (Nat.le_add_left slack early.context.depth) (Nat.le_add_left _ _)
    early.id_lt early.run early.refusals early.circles hnews
  have hraised := run_evalWithin_withLimits (early.reached m) limits (Host.matched_builtin _)
    (Nat.le_max_right early.room room) early.expr early.id (Nat.le_add_right _ _) (by rw [hrun]; exact hrefusals)
  rw [hrun] at hraised
  rw [hraised] at hrun'
  cases hrun'
  exact ⟨value, limits, slack, rfl, habreast, halike⟩

end Early

/-! ## Two machines, one of them ahead -/

/-- The same contexts but for the peaks and the number of checks. -/
structure Context.Even (c c' : Context) : Prop extends c.Alike c' where
  refusals : c.refusals = c'.refusals
  circles : c.circles = c'.circles

namespace Context.Even

variable {c c' : Context}

theorem enterCall (h : c.Even c') : c.enterCall.Even c'.enterCall :=
  ⟨h.toAlike.enterCall, h.refusals, h.circles⟩

theorem leaveCall (h : c.Even c') : c.leaveCall.Even c'.leaveCall :=
  ⟨h.toAlike.leaveCall, h.refusals, h.circles⟩

theorem enterNode (h : c.Even c') : c.enterNode.Even c'.enterNode :=
  ⟨h.toAlike.enterNode, h.refusals, h.circles⟩

theorem leaveNode (h : c.Even c') : c.leaveNode.Even c'.leaveNode :=
  ⟨h.toAlike.leaveNode, h.refusals, h.circles⟩

theorem check (h : c.Even c') : c.check.Even c'.check :=
  ⟨h.toAlike.check, h.refusals, h.circles⟩

end Context.Even

variable {s : Machine}

/-- Scopes that are alike but for the binding, of which the second one has the identity `y`. -/
structure Early.ScopesAlike (early : Early s) (p : Pairing) (y : ScopeId) (scope scope' : Scope) : Prop where
  enclosing : List.Forall₂ p.SameScope scope.enclosing scope'.enclosing
  names : scope.bindings.NamesAlike p scope'.bindings
  bindings : ∀ place, ¬ (y = early.id ∧ place = early.place) → ∀ entry, scope.bindings[place]? = some entry →
    ∃ entry', scope'.bindings[place]? = some entry' ∧ entry.Alike p entry'

/-- The binding waits on the first machine. What has been made ahead on the second machine is as it was left, and it has
no counterparts. -/
structure Early.Pending (early : Early s) (p : Pairing) (m m' : Machine) : Prop where
  settles : s.scopes.Settles m.scopes
  ids : s.nextId ≤ m.nextId
  existing : s.existing ≤ p
  waiting : (m.scopes.get early.id).bindings[early.place]? = some ⟨early.key, .unevaluated early.expr⟩
  known : (m'.scopes.get early.id).bindings[early.place]? = some ⟨early.key, .evaluated early.value⟩
  apart : ∀ x y, p.SameScope x y → s.scopes.size ≤ y → early.ended.scopes.size ≤ y
  apartIds : ∀ i j, p.SameId i j → s.nextId ≤ j → early.ended.nextId ≤ j
  kept : ∀ y, s.scopes.size ≤ y → y < early.ended.scopes.size → m'.scopes.get y = early.ended.scopes.get y
  size : m.scopes.size + early.ended.scopes.size = m'.scopes.size + s.scopes.size

/-- The binding has been evaluated on the first machine too. -/
structure Early.Caught (early : Early s) (p : Pairing) (m m' : Machine) : Prop where
  known : ∃ value value', (m.scopes.get early.id).bindings[early.place]? = some ⟨early.key, .evaluated value⟩ ∧
    (m'.scopes.get early.id).bindings[early.place]? = some ⟨early.key, .evaluated value'⟩ ∧ value.Alike p value'
  size : m.scopes.size = m'.scopes.size

/-- Two machines that have done the same since `s`, except that the second one has evaluated the binding ahead. -/
structure Ahead (early : Early s) (p : Pairing) (m m' : Machine) : Prop where
  context : m.context.Even m'.context
  interrupted : m.context.interrupted = s.context.interrupted
  refusals : s.context.refusals ≤ m.context.refusals
  oneToOne : p.OneToOne
  scopes : ∀ x y, p.SameScope x y → x < m.scopes.size ∧ y < m'.scopes.size
  ids : ∀ i j, p.SameId i j → i < m.nextId ∧ j < m'.nextId
  size : early.ended.scopes.size ≤ m'.scopes.size
  nextId : early.ended.nextId ≤ m'.nextId
  self : p.SameScope early.id early.id
  alike : ∀ x y, p.SameScope x y → early.ScopesAlike p y (m.scopes.get x) (m'.scopes.get y)
  progress : early.Pending p m m' ∨ early.Caught p m m'

namespace Early

variable {early : Early s} {p q : Pairing} {m m' : Machine} {y : ScopeId} {scope scope' : Scope}

theorem scopesAlike (henclosing : List.Forall₂ p.SameScope scope.enclosing scope'.enclosing)
    (hbindings : scope.bindings.Alike p scope'.bindings) : early.ScopesAlike p y scope scope' :=
  ⟨henclosing, hbindings.names, fun _ _ _ hentry => hbindings.getElem? hentry⟩

theorem ScopesAlike.mono (hpq : p ≤ q) (h : early.ScopesAlike p y scope scope') :
    early.ScopesAlike q y scope scope' where
  enclosing := h.enclosing.imp hpq.1
  names := h.names.mono hpq
  bindings place hplace entry hentry := by
    obtain ⟨entry', hentry', halike⟩ := h.bindings place hplace entry hentry
    exact ⟨entry', hentry', halike.mono hpq⟩

theorem Caught.mono (hpq : p ≤ q) (h : early.Caught p m m') : early.Caught q m m' where
  known := by
    obtain ⟨value, value', hvalue, hvalue', halike⟩ := h.known
    exact ⟨value, value', hvalue, hvalue', halike.mono hpq⟩
  size := h.size

end Early

namespace Ahead

variable {early : Early s} {p : Pairing} {m m' : Machine}

/-- The contexts change in the same way. -/
theorem within (h : Ahead early p m m') (change : Context → Context)
    (hcontext : (change m.context).Even (change m'.context))
    (hinterrupted : (change m.context).interrupted = m.context.interrupted)
    (hrefusals : m.context.refusals ≤ (change m.context).refusals) :
    Ahead early p (m.within change) (m'.within change) :=
  ⟨hcontext, hinterrupted.trans h.interrupted, Nat.le_trans h.refusals hrefusals, h.oneToOne, h.scopes, h.ids, h.size,
    h.nextId, h.self, h.alike, h.progress.imp
      (fun hp => ⟨hp.settles, hp.ids, hp.existing, hp.waiting, hp.known, hp.apart, hp.apartIds, hp.kept, hp.size⟩)
      fun hc => ⟨hc.known, hc.size⟩⟩

theorem enterCall (h : Ahead early p m m') :
    Ahead early p (m.within Context.enterCall) (m'.within Context.enterCall) :=
  h.within Context.enterCall h.context.enterCall rfl (Nat.le_refl _)

theorem leaveCall (h : Ahead early p m m') :
    Ahead early p (m.within Context.leaveCall) (m'.within Context.leaveCall) :=
  h.within Context.leaveCall h.context.leaveCall rfl (Nat.le_refl _)

theorem enterNode (h : Ahead early p m m') :
    Ahead early p (m.within Context.enterNode) (m'.within Context.enterNode) :=
  h.within Context.enterNode h.context.enterNode rfl (Nat.le_refl _)

theorem leaveNode (h : Ahead early p m m') :
    Ahead early p (m.within Context.leaveNode) (m'.within Context.leaveNode) :=
  h.within Context.leaveNode h.context.leaveNode rfl (Nat.le_refl _)

theorem checked (h : Ahead early p m m') : Ahead early p (m.within Context.check) (m'.within Context.check) :=
  h.within Context.check h.context.check rfl (Nat.le_refl _)

theorem circled (h : Ahead early p m m') : Ahead early p m.circled m'.circled :=
  h.within (fun c => { c with circles := c.circles + 1 }) ⟨⟨h.context.limits, h.context.depth, h.context.nesting,
    h.context.interrupted⟩, h.context.refusals, congrArg (· + 1) h.context.circles⟩ rfl (Nat.le_refl _)

theorem named (h : Ahead early p m m') : Ahead early (p.withId m.nextId m'.nextId) m.named m'.named where
  context := h.context
  interrupted := h.interrupted
  refusals := h.refusals
  oneToOne := h.oneToOne.withId h.ids
  scopes := h.scopes
  ids := lt_succ_of_or_bound h.ids
  size := h.size
  nextId := Nat.le_succ_of_le h.nextId
  self := h.self
  alike x y hxy := (h.alike x y hxy).mono (p.le_withId _ _)
  progress := by
    refine h.progress.imp (fun hp => ?_) fun hc => ⟨(hc.mono (p.le_withId _ _)).known, hc.size⟩
    refine ⟨hp.settles, Nat.le_succ_of_le hp.ids, hp.existing.trans (p.le_withId _ _), hp.waiting, hp.known, hp.apart,
      ?_, hp.kept, hp.size⟩
    rintro i j (hi | ⟨rfl, rfl⟩) hle
    · exact hp.apartIds i j hi hle
    · exact h.nextId

theorem extended (h : Ahead early p m m') {parent parent' : ScopeId} (hparent : p.SameScope parent parent')
    {bindings bindings' : Bindings} (hbindings : bindings.Alike p bindings') :
    Ahead early (p.withScope m.scopes.size m'.scopes.size) (m.extended parent bindings)
      (m'.extended parent' bindings') := by
  have hmono := p.le_withScope m.scopes.size m'.scopes.size
  have hold : ∀ x y, p.SameScope x y → (m.extended parent bindings).scopes.get x = m.scopes.get x ∧
      (m'.extended parent' bindings').scopes.get y = m'.scopes.get y := fun x y hxy =>
    ⟨m.get_extended parent x bindings (h.scopes x y hxy).1, m'.get_extended parent' y bindings' (h.scopes x y hxy).2⟩
  refine
    { context := h.context
      interrupted := h.interrupted
      refusals := h.refusals
      oneToOne := h.oneToOne.withScope h.scopes
      scopes := ?_
      ids := h.ids
      size := ?_
      nextId := h.nextId
      self := .inl h.self
      alike := ?_
      progress := h.progress.imp (fun hp => ?_) fun hc => ?_ }
  · rw [Machine.size_extended, Machine.size_extended]
    exact lt_succ_of_or_bound h.scopes
  · rw [Machine.size_extended]
    exact Nat.le_succ_of_le h.size
  · rintro x y (hxy | ⟨rfl, rfl⟩)
    · rw [(hold x y hxy).1, (hold x y hxy).2]
      exact (h.alike x y hxy).mono hmono
    · refine Early.scopesAlike ?_ ?_
      · rw [Machine.enclosing_extended, Machine.enclosing_extended]
        exact .cons (.inl hparent) ((h.alike _ _ hparent).enclosing.imp hmono.1)
      · rw [Machine.bindings_extended, Machine.bindings_extended]
        exact hbindings.mono hmono
  · refine ⟨hp.settles.trans (m.scopes.settles_add (some parent) bindings), hp.ids, hp.existing.trans hmono, ?_, ?_, ?_,
      hp.apartIds, fun y hle hlt => ?_, ?_⟩
    · rw [(hold _ _ h.self).1]
      exact hp.waiting
    · rw [(hold _ _ h.self).2]
      exact hp.known
    · rintro x y (hxy | ⟨rfl, rfl⟩) hle
      · exact hp.apart x y hxy hle
      · exact h.size
    · rw [Machine.get_extended _ _ _ _ (Nat.lt_of_lt_of_le hlt h.size)]
      exact hp.kept y hle hlt
    · have hsize := hp.size
      rw [Machine.size_extended, Machine.size_extended]
      omega
  · obtain ⟨value, value', hvalue, hvalue', halike⟩ := hc.known
    refine ⟨⟨value, value', ?_, ?_, halike.mono hmono⟩, ?_⟩
    · rw [(hold _ _ h.self).1]
      exact hvalue
    · rw [(hold _ _ h.self).2]
      exact hvalue'
    · rw [Machine.size_extended, Machine.size_extended, hc.size]

/-- What has the same scopes as before, with other states of bindings that are in step. -/
theorem updated (h : Ahead early p m m') {x y : Nat} (hxy : p.SameScope x y) {place : Nat}
    (hplace : ¬ (y = early.id ∧ place = early.place)) (hunknown : m.scopes.Unknown x place) {state state' : EntryState}
    (hstate : state.Alike p state') : Ahead early p (m.updated x place state) (m'.updated y place state') := by
  have hother : ¬ (x = early.id ∧ place = early.place) := by
    rintro ⟨rfl, hsame⟩
    exact hplace ⟨h.oneToOne.scopes.2 hxy h.self, hsame⟩
  have hentry : ((m.updated x place state).scopes.get early.id).bindings[early.place]? =
      (m.scopes.get early.id).bindings[early.place]? := Scopes.getElem?_setState_of_ne hother state
  have hentry' : ((m'.updated y place state').scopes.get early.id).bindings[early.place]? =
      (m'.scopes.get early.id).bindings[early.place]? := Scopes.getElem?_setState_of_ne hplace state'
  refine
    { context := h.context
      interrupted := h.interrupted
      refusals := h.refusals
      oneToOne := h.oneToOne
      scopes := ?_
      ids := h.ids
      size := ?_
      nextId := h.nextId
      self := h.self
      alike := fun t t' ht => ⟨?_, ?_, fun i hi entry hin => ?_⟩
      progress := h.progress.imp (fun hp => ?_) fun hc => ⟨?_, ?_⟩ }
  · rw [Machine.size_updated, Machine.size_updated]
    exact h.scopes
  · rw [Machine.size_updated]
    exact h.size
  · rw [Machine.enclosing_updated, Machine.enclosing_updated]
    exact (h.alike t t' ht).enclosing
  · exact (h.alike t t' ht).names.of_map_eq (Machine.names_updated ..) (Machine.names_updated ..)
  · by_cases hhere : x = t ∧ place = i
    · obtain ⟨rfl, rfl⟩ := hhere
      obtain rfl : y = t' := h.oneToOne.scopes.2 hxy ht
      obtain ⟨name, before, hbefore, -⟩ := hunknown
      obtain ⟨before', hbefore', halike⟩ := (h.alike x y hxy).bindings place hplace _ hbefore
      rw [Machine.updated, Scopes.getElem?_setState hbefore] at hin
      cases hin
      exact ⟨_, Scopes.getElem?_setState hbefore' state', halike.name, hstate⟩
    · have hthere : ¬ (y = t' ∧ place = i) := by
        rintro ⟨rfl, rfl⟩
        exact hhere ⟨h.oneToOne.scopes.1 hxy ht, rfl⟩
      rw [Machine.updated, Scopes.getElem?_setState_of_ne hhere] at hin
      rw [Machine.updated, Scopes.getElem?_setState_of_ne hthere]
      exact (h.alike t t' ht).bindings i hi entry hin
  · refine ⟨hp.settles.trans (hunknown.settles state), hp.ids, hp.existing, hentry.trans hp.waiting,
      hentry'.trans hp.known, hp.apart, hp.apartIds, fun t hle hlt => ?_, ?_⟩
    · have hne : y ≠ t := by
        rintro rfl
        exact absurd hlt (Nat.not_lt_of_le (hp.apart x y hxy hle))
      rw [Machine.get_updated_of_ne _ _ _ _ _ hne]
      exact hp.kept t hle hlt
    · rw [Machine.size_updated, Machine.size_updated]
      exact hp.size
  · rw [hentry, hentry']
    exact hc.known
  · rw [Machine.size_updated, Machine.size_updated]
    exact hc.size

/-- What the replay of the binding's evaluation makes, for what has been made ahead. -/
def replayed (early : Early s) (m : Machine) (limits : Limits) : Pairing :=
  Pairing.swap (.shift s early.start ((early.reached m).withLimits limits) early.ended)

theorem oneToOne_replayed (hp : early.Pending p m m') (limits : Limits) : (replayed early m limits).OneToOne := by
  have hone : Pairing.OneToOne (.shift s early.start ((early.reached m).withLimits limits) early.ended) :=
    ⟨biUnique_shifted (Nat.le_of_eq early.size_start.symm)
      (Nat.le_trans hp.settles.size (Nat.le_of_eq (early.size_reached m).symm)) _,
      biUnique_shifted (Nat.le_refl _) hp.ids _⟩
  exact hone.swap

/-- The first machine after it has evaluated the binding. -/
def caughtUp (early : Early s) (after : Machine) (value : Value) : Machine :=
  (after.updated early.id early.place (.evaluated value)).within Context.leaveCall

section CatchUp

variable {limits : Limits} {slack : Nat} {after : Machine}
  (habreast : Abreast s early.start ((early.reached m).withLimits limits) slack early.ended (after.withLimits limits))
include habreast

/-- A scope that the replay makes has had no counterpart, and what it stands for has been none. -/
theorem replayed_scope (hp : early.Pending p m m') {x y : Nat} (hxy : (replayed early m limits).SameScope x y) :
    p.SameScope x y ∨ (m.scopes.size ≤ x ∧ x < after.scopes.size) ∧ s.scopes.size ≤ y ∧ y < early.ended.scopes.size := by
  have hstart := early.size_start
  have hreached := early.size_reached m
  have hsize := habreast.size
  rcases hxy with ⟨rfl, hlt⟩ | ⟨hle, hlt, heq⟩
  · exact .inl (hp.existing.1 _ _ ⟨rfl, hlt⟩)
  · simp only [Machine.withLimits] at heq hsize
    exact .inr ⟨⟨by omega, by omega⟩, by omega, hlt⟩

theorem replayed_id (hp : early.Pending p m m') {i j : Nat} (hij : (replayed early m limits).SameId i j) :
    p.SameId i j ∨ (m.nextId ≤ i ∧ i < after.nextId) ∧ s.nextId ≤ j ∧ j < early.ended.nextId := by
  have hnext : early.ended.nextId + m.nextId = after.nextId + s.nextId := habreast.nextId
  rcases hij with ⟨rfl, hlt⟩ | ⟨hle, hlt, heq⟩
  · exact .inl (hp.existing.2 _ _ ⟨rfl, hlt⟩)
  · have heq : j + m.nextId = i + s.nextId := heq
    have hle : s.nextId ≤ j := hle
    exact .inr ⟨⟨by omega, by omega⟩, hle, hlt⟩

theorem oneToOne_union (h : Ahead early p m m') (hp : early.Pending p m m') :
    (p.union (replayed early m limits)).OneToOne := by
  have hone := oneToOne_replayed hp limits
  constructor
  · refine biUnique_union h.oneToOne.scopes hone.scopes fun x y hxy => ?_
    refine (replayed_scope habreast hp hxy).imp_right fun ⟨⟨hx, _⟩, hy, hlt⟩ => ⟨fun z hz => ?_, fun z hz => ?_⟩
    · exact absurd (h.scopes x z hz).1 (Nat.not_lt_of_le hx)
    · exact absurd (hp.apart z y hz hy) (Nat.not_le_of_lt hlt)
  · refine biUnique_union h.oneToOne.ids hone.ids fun i j hij => ?_
    refine (replayed_id habreast hp hij).imp_right fun ⟨⟨hi, _⟩, hj, hlt⟩ => ⟨fun k hk => ?_, fun k hk => ?_⟩
    · exact absurd (h.ids i k hk).1 (Nat.not_lt_of_le hi)
    · exact absurd (hp.apartIds k j hk hj) (Nat.not_le_of_lt hlt)

theorem get_caughtUp (value : Value) {x : ScopeId} (hx : x < m.scopes.size) :
    (caughtUp early after value).scopes.get x =
      (m.scopes.setState early.id early.place (.evaluated value)).get x :=
  Scopes.get_setState_again (habreast.kept' x (Nat.lt_of_lt_of_le hx (Nat.le_of_eq (early.size_reached m).symm))) _

/-- Scopes that have been alike before still are. -/
theorem scopesAlike_caughtUp (h : Ahead early p m m') (value : Value) {x y : Nat} (hxy : p.SameScope x y) :
    early.ScopesAlike p y ((caughtUp early after value).scopes.get x) (m'.scopes.get y) := by
  rw [get_caughtUp habreast value (h.scopes x y hxy).1]
  refine ⟨?_, (h.alike x y hxy).names.of_map_eq (Scopes.names_get_setState ..) rfl, fun i hi entry hentry => ?_⟩
  · rw [Scopes.enclosing_get_setState]
    exact (h.alike x y hxy).enclosing
  · rw [Scopes.getElem?_setState_of_ne] at hentry
    · exact (h.alike x y hxy).bindings i hi entry hentry
    · rintro ⟨rfl, rfl⟩
      exact hi ⟨h.oneToOne.scopes.2 hxy h.self, rfl⟩

/-- What the replay has made is alike to what has been made ahead. -/
theorem scopesAlike_replayed (h : Ahead early p m m') (hp : early.Pending p m m') (value : Value) {x y : Nat}
    (hxy : (replayed early m limits).SameScope x y) (hx : m.scopes.size ≤ x) (hy : s.scopes.size ≤ y)
    (hlt : y < early.ended.scopes.size) :
    early.ScopesAlike (replayed early m limits) y ((caughtUp early after value).scopes.get x) (m'.scopes.get y) := by
  have hid : early.id ≠ x := Nat.ne_of_lt (Nat.lt_of_lt_of_le (h.scopes _ _ h.self).1 hx)
  have hleft : (caughtUp early after value).scopes.get x = after.scopes.get x := Scopes.get_setState_of_ne hid ..
  have hle : (early.reached m).scopes.size ≤ x := Nat.le_trans (Nat.le_of_eq (early.size_reached m)) hx
  rw [hleft, hp.kept y hy hlt]
  exact Early.scopesAlike (habreast.enclosing y x hxy hle).flip (habreast.bindings y x hxy hle).symm

/-- Scopes that stand for each other are there on both machines. -/
theorem lt_of_union_scope (h : Ahead early p m m') (hp : early.Pending p m m')
    (hgrown : m.scopes.size ≤ after.scopes.size) {x y : Nat} (hxy : (p.union (replayed early m limits)).SameScope x y) :
    x < after.scopes.size ∧ y < m'.scopes.size := by
  have hold : p.SameScope x y → x < after.scopes.size ∧ y < m'.scopes.size := fun hxy =>
    ⟨Nat.lt_of_lt_of_le (h.scopes x y hxy).1 hgrown, (h.scopes x y hxy).2⟩
  rcases hxy with hxy | hxy
  · exact hold hxy
  · rcases replayed_scope habreast hp hxy with hxy | ⟨⟨-, hlt⟩, -, hlt'⟩
    · exact hold hxy
    · exact ⟨hlt, Nat.lt_of_lt_of_le hlt' h.size⟩

theorem lt_of_union_id (h : Ahead early p m m') (hp : early.Pending p m m') (hgrown : m.nextId ≤ after.nextId)
    {i j : Nat} (hij : (p.union (replayed early m limits)).SameId i j) : i < after.nextId ∧ j < m'.nextId := by
  have hold : p.SameId i j → i < after.nextId ∧ j < m'.nextId := fun hij =>
    ⟨Nat.lt_of_lt_of_le (h.ids i j hij).1 hgrown, (h.ids i j hij).2⟩
  rcases hij with hij | hij
  · exact hold hij
  · rcases replayed_id habreast hp hij with hij | ⟨⟨-, hlt⟩, -, hlt'⟩
    · exact hold hij
    · exact ⟨hlt, Nat.lt_of_lt_of_le hlt' h.nextId⟩

end CatchUp

/-- When the first machine has evaluated the binding, it has caught up. -/
theorem catchUp (h : Ahead early p m m') (hp : early.Pending p m m') (hclosed : s.Closed) {room : Nat}
    {outcome : Except FatalError Value} {after : Machine}
    (hrun : (evalWithin Host.builtin room early.expr early.id).run.run (early.reached m) = (outcome, after))
    (hrefusals : after.context.refusals ≤ m.context.refusals) :
    ∃ value q, outcome = .ok value ∧ p ≤ q ∧ Ahead early q (caughtUp early after value) m' ∧
      value.Alike q early.value := by
  obtain ⟨value, limits, slack, rfl, habreast, halike⟩ := early.again hclosed hp.settles hp.ids h.interrupted hp.waiting
    hrun hrefusals
  have hhost : ∀ contract, Host.builtin.Meets contract := fun _ => Host.meets_builtin
  have hmeets : ∀ contract, (evalWithin Host.builtin room).Meets contract room := fun contract =>
    Contract.meets_evalWithin (hhost contract) room
  have hbalanced := (hmeets balanceContract early.expr early.id (early.reached m) trivial).1
  have hgrows := (hmeets growthContract early.expr early.id (early.reached m) trivial).1
  rw [hrun] at hbalanced hgrows
  have hkept := p.le_union_left (replayed early m limits)
  have hmade := p.le_union_right (replayed early m limits)
  have hsizes : early.ended.scopes.size + m.scopes.size = after.scopes.size + s.scopes.size := by
    have hsize := habreast.size
    simp only [Machine.withLimits] at hsize
    rwa [early.size_reached, early.size_start] at hsize
  have hgrown : m.scopes.size ≤ after.scopes.size := early.size_reached m ▸ hgrows.scopes.size
  have hsize : (caughtUp early after value).scopes.size = after.scopes.size := Scopes.size_setState ..
  refine ⟨value, p.union (replayed early m limits), rfl, hkept, ?_, halike.symm.mono hmade⟩
  refine
    { context := ?_
      interrupted := hbalanced.interrupted.trans h.interrupted
      refusals := Nat.le_trans h.refusals hgrows.refusals
      oneToOne := h.oneToOne_union habreast hp
      scopes := fun x y hxy => ?_
      ids := fun i j hij => ?_
      size := h.size
      nextId := h.nextId
      self := hkept.1 _ _ h.self
      alike := fun x y hxy => ?_
      progress := .inr ⟨⟨value, early.value, ?_, hp.known, halike.symm.mono hmade⟩, ?_⟩ }
  · have hdepth : after.context.depth - 1 = m.context.depth := congrArg (· - 1) hbalanced.depth
    exact ⟨⟨hbalanced.limits.trans h.context.limits, hdepth.trans h.context.depth,
      hbalanced.nesting.trans h.context.nesting, hbalanced.interrupted.trans h.context.interrupted⟩,
      (Nat.le_antisymm hrefusals hgrows.refusals).trans h.context.refusals, habreast.circles'.trans h.context.circles⟩
  · rw [hsize]
    exact h.lt_of_union_scope habreast hp hgrown hxy
  · exact h.lt_of_union_id habreast hp hgrows.ids hij
  · rcases hxy with hxy | hxy
    · exact (h.scopesAlike_caughtUp habreast value hxy).mono hkept
    · rcases replayed_scope habreast hp hxy with hold | ⟨⟨hle, -⟩, hle', hlt'⟩
      · exact (h.scopesAlike_caughtUp habreast value hold).mono hkept
      · exact (h.scopesAlike_replayed habreast hp value hxy hle hle' hlt').mono hmade
  · rw [get_caughtUp habreast value (h.scopes _ _ h.self).1]
    exact Scopes.getElem?_setState hp.waiting _
  · have hbefore := hp.size
    rw [hsize]
    omega

end Ahead

/-! ## Evaluation with a binding known ahead -/

/-- A run that is refused nothing, by one on a machine that is ahead. -/
def foresight (early : Early s) : Simulation where
  Linked := Ahead early
  Final m := m.context.refusals ≤ s.context.refusals
  InStep y place := ¬ (y = early.id ∧ place = early.place)
  failing := True
  final hsettles hfinal := Nat.le_trans hsettles.refusals hfinal
  oneToOne h := h.oneToOne
  interrupted h := h.context.interrupted
  admits h hdepth := h.context.depth ▸ h.context.limits ▸ hdepth
  denies h hfinal := absurd h.refusals (Nat.not_le_of_lt hfinal)
  refused h hfinal := absurd h.refusals (Nat.not_le_of_lt hfinal)
  circled h _ := h.circled
  enterCall h := h.enterCall
  leaveCall h := h.leaveCall
  checked h := h.checked
  named h := ⟨_, Pairing.le_withId _ _ _, .inr ⟨rfl, rfl⟩, h.named⟩
  extended h hparent hbindings := ⟨_, Pairing.le_withScope _ _ _, .inr ⟨rfl, rfl⟩, h.extended hparent hbindings⟩
  enclosing h hxy := (h.alike _ _ hxy).enclosing
  contains name h hxy := (h.alike _ _ hxy).names.contains_eq name
  bindings h hxy hplace hentry := (h.alike _ _ hxy).bindings _ hplace _ hentry
  updated _ h hxy hplace hunknown hstate := h.updated hxy hplace hunknown hstate

/-- The first machine evaluates the binding if it still waits, the second one knows it. -/
theorem follows_resolve_early {early : Early s} (hclosed : s.Closed) {p : Pairing} {m m' : Machine}
    (h : Ahead early p m m') {name name' : Value} {entry entry' : Entry}
    (hentry : (m.scopes.get early.id).bindings[early.place]? = some entry)
    (hentry' : (m'.scopes.get early.id).bindings[early.place]? = some entry') (room : Nat) (run' : Evaluator) :
    (foresight early).Follows p Value.Alike
      (Evaluation.resolve (evalWithin Host.builtin room) name early.id early.place entry.state)
      (Evaluation.resolve run' name' early.id early.place entry'.state) m m' := by
  rcases h.progress with hp | hc
  · rw [hp.waiting] at hentry
    rw [hp.known] at hentry'
    cases hentry
    cases hentry'
    refine Simulation.follows_resolve_waiting name (fun hfinal => absurd h.refusals (Nat.not_le_of_lt hfinal))
      (fun failure after hended hfinal => ?_) fun value after _ hended hfinal => ?_
    · obtain ⟨value, q, hvalue, -⟩ := h.catchUp hp hclosed hended (Nat.le_trans hfinal h.refusals)
      cases hvalue
    · obtain ⟨_, q, hvalue, hpq, hahead, halike⟩ := h.catchUp hp hclosed hended (Nat.le_trans hfinal h.refusals)
      cases hvalue
      exact ⟨q, hpq, hahead, .ok halike⟩
  · obtain ⟨value, value', hvalue, hvalue', halike⟩ := hc.known
    rw [hvalue] at hentry
    rw [hvalue'] at hentry'
    cases hentry
    cases hentry'
    exact fun _ _ => ⟨p, le_refl p, h, .ok halike⟩

theorem foresees_looksUp (early : Early s) (hclosed : s.Closed) {room room' : Nat}
    (hrun : (foresight early).Evaluates (evalWithin Host.builtin room) (evalWithin Host.builtin room')) :
    (foresight early).LooksUp (evalWithin Host.builtin room) (evalWithin Host.builtin room') := by
  refine Simulation.looksUp_of_evaluates hrun (fun p m m' x y hm hxy => (hm.alike x y hxy).names)
    fun p m m' x y name name' place entry entry' hm hxy hstep hname hentry hentry' => ?_
  obtain ⟨rfl, rfl⟩ := not_not.1 hstep
  obtain rfl : x = early.id := hm.oneToOne.scopes.1 hxy hm.self
  exact follows_resolve_early hclosed hm hentry hentry' room _

theorem foresees_evalWithin (early : Early s) (hclosed : s.Closed) (room : Nat) :
    (foresight early).Evaluates (evalWithin Host.builtin room) (evalWithin Host.builtin room) := by
  have hnests : (foresight early).Nests := ⟨Ahead.enterNode, Ahead.leaveNode⟩
  exact Simulation.evaluates_evalWithin (Host.matched_builtin _) hnests (fun _ _ => foresees_looksUp early hclosed)
    (Nat.le_refl room) (.inl rfl)

namespace Ahead

variable {early : Early s} {p : Pairing} {m m' : Machine}

/-- A name has values that are alike on both machines, if the first lookup is refused nothing. -/
theorem lookupName (h : Ahead early p m m') (hclosed : s.Closed) {scope scope' : ScopeId}
    (hscope : p.SameScope scope scope') (name : String)
    (hrefusals : ((lookupName Host.builtin scope (.string name)).run.run m).2.context.refusals ≤ s.context.refusals) :
    ∃ q, p ≤ q ∧ Ahead early q ((lookupName Host.builtin scope (.string name)).run.run m).2
        ((lookupName Host.builtin scope' (.string name)).run.run m').2 ∧
      SameOutcome (Value.Alike q) ((lookupName Host.builtin scope (.string name)).run.run m).1
        ((lookupName Host.builtin scope' (.string name)).run.run m').1 := by
  have hroom : m'.context.room = m.context.room := by
    rw [Context.room, Context.room, h.context.limits, h.context.nesting]
  have hlook := foresees_looksUp early hclosed (foresees_evalWithin early hclosed m.context.room) p scope scope'
    (.string name) (.string name) hscope (.string name)
  rw [run_lookupName] at hrefusals ⊢
  rw [run_lookupName _ _ _ m', hroom]
  exact hlook.follows m m' h hrefusals (.inl trivial)

/-- At first only the binding itself is different. -/
theorem start (early : Early s) (hclosed : s.Closed) : Ahead early s.existing s early.done := by
  have hsize := early.size_done
  have hself : s.existing.SameScope early.id early.id := ⟨rfl, early.id_lt⟩
  refine
    { context := ⟨⟨rfl, rfl, rfl, rfl⟩, rfl, rfl⟩
      interrupted := rfl
      refusals := Nat.le_refl _
      oneToOne := .of_le_same s.existing_le_same
      scopes := ?_
      ids := ?_
      size := Nat.le_of_eq hsize.symm
      nextId := Nat.le_refl _
      self := hself
      alike := ?_
      progress := .inl ?_ }
  · rintro x y ⟨rfl, hx⟩
    exact ⟨hx, hsize ▸ Nat.lt_of_lt_of_le hx early.size_le⟩
  · rintro i j ⟨rfl, hi⟩
    exact ⟨hi, Nat.lt_of_lt_of_le hi early.nextId_le⟩
  · rintro x y ⟨rfl, hx⟩
    have halike := hclosed.bindings x ⟨rfl, hx⟩
    rw [early.get_done hx]
    refine ⟨?_, halike.names.of_map_eq rfl (Scopes.names_get_setState ..), fun i hi entry hentry => ?_⟩
    · rw [Scopes.enclosing_get_setState]
      exact List.forall₂_same.2 fun t ht => hclosed.enclosing x ⟨rfl, hx⟩ t ht
    · rw [Scopes.getElem?_setState_of_ne]
      · exact halike.getElem? hentry
      · rintro ⟨rfl, rfl⟩
        exact hi ⟨rfl, rfl⟩
  · refine ⟨.refl _, Nat.le_refl _, le_refl _, early.entry, early.entry_done, ?_, ?_, fun y hle hlt => ?_, ?_⟩
    · rintro x y ⟨rfl, hx⟩ hle
      exact absurd hx (Nat.not_lt_of_le hle)
    · rintro i j ⟨rfl, hi⟩ hle
      exact absurd hi (Nat.not_lt_of_le hle)
    · exact early.get_done_of_le hle
    · rw [hsize]
      exact Nat.add_comm ..

end Ahead

end DynamicConfig

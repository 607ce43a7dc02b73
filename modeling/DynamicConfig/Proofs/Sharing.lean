import DynamicConfig.Proofs.Bindings
/-!
# Chains of bindings share one value

In a chain of bindings, `n₁ = n₂ = ... = nₖ = e`, the first name is bound to `e` and each other one to the name before it.
A name that is looked up asks the names before it, back to one that is known or to the first one, and on the way back all
of them get the same value (`NameLookup.Unhindered.exists_settles`). So in whatever order the names are looked up, they
have one value. The first lookup runs `e` once and leaves what that run leaves, up to the bindings on the way; the other
ones leave the machine as it is (`chained_names_share_value`).
-/

namespace DynamicConfig

open DynamicConfig.Expr (IsBinding bound boundBy whereItems otherArgs inlineItems)

/-! ## Names that refer to the names before them -/

namespace Machine

variable {m m' : Machine} {scope : ScopeId} {name : String}

/-- What is known of the names of a chain, from one of them back to the first name, which has the state `first`. Each
other name refers to the name before it, unless the value of the first one is known and is its value too. -/
inductive Linked (m : Machine) (scope : ScopeId) (first : EntryState) : List String → Prop
  | first {name : String} (h : m.state? scope name = some first) : Linked m scope first [name]
  | known {name before : String} {rest : List String} {v : Value} (hfirst : first = .evaluated v)
    (h : m.state? scope name = some (.evaluated v)) (hrest : Linked m scope first (before :: rest)) :
    Linked m scope first (name :: before :: rest)
  | refers {name before : String} {rest : List String} {location : Location}
    (h : m.state? scope name = some (.unevaluated (.nameLeaf location before)))
    (hrest : Linked m scope first (before :: rest)) : Linked m scope first (name :: before :: rest)

variable {first : EntryState} {names : List String}

theorem Linked.congr (h : m.Linked scope first names)
    (hsame : ∀ name ∈ names, m'.state? scope name = m.state? scope name) : m'.Linked scope first names := by
  induction h with
  | first h => exact .first ((hsame _ List.mem_cons_self).trans h)
  | known hfirst h _ ih =>
    obtain ⟨hname, hrest⟩ := List.forall_mem_cons.1 hsame
    exact .known hfirst (hname.trans h) (ih hrest)
  | refers h _ ih =>
    obtain ⟨hname, hrest⟩ := List.forall_mem_cons.1 hsame
    exact .refers (hname.trans h) (ih hrest)

/-- Names further down the chain need not be looked up. -/
theorem Linked.of_append {later : List String} (h : m.Linked scope first (later ++ names)) (hnames : names ≠ []) :
    m.Linked scope first names := by
  induction later with
  | nil => exact h
  | cons name rest ih =>
    refine ih ?_
    rw [List.cons_append] at h
    generalize hall : rest ++ names = all at h ⊢
    cases h with
    | first => exact absurd (List.append_eq_nil_iff.1 hall).2 hnames
    | known _ _ hrest | refers _ hrest => exact hrest

/-- Where names down to one of them come to be known, the names after it may be as they were. -/
theorem Linked.append {later : List String} {v : Value} (h : m.Linked scope first (later ++ names))
    (hfirst : ∀ w, first = .evaluated w → w = v) (hlater : ∀ name ∈ later, m'.state? scope name = m.state? scope name)
    (hnames : m'.Linked scope (.evaluated v) names) : m'.Linked scope (.evaluated v) (later ++ names) := by
  induction later with
  | nil => exact hnames
  | cons name rest ih =>
    obtain ⟨hname, hrest⟩ := List.forall_mem_cons.1 hlater
    rw [List.cons_append] at h ⊢
    generalize hall : rest ++ names = all at h ih ⊢
    cases h with
    | first => exact absurd hnames (by rw [(List.append_eq_nil_iff.1 hall).2]; nofun)
    | known hknown h hlinked =>
      cases hfirst _ hknown
      exact .known rfl (hname.trans h) (ih hlinked hrest)
    | refers h hlinked => exact .refers (hname.trans h) (ih hlinked hrest)

/-- The bindings that a chain makes are linked. By induction on the names that are left. -/
theorem linked_aliases {location : Location} {last : String} {done : List String}
    (hdone : m.Linked scope first (last :: done))
    (h : ∀ pair ∈ aliases location (.nameLeaf location last) names, m.state? scope pair.1 = some (.unevaluated pair.2)) :
    m.Linked scope first (names.reverse ++ last :: done) := by
  induction names generalizing last done with
  | nil => exact hdone
  | cons name rest ih =>
    obtain ⟨hname, hrest⟩ := List.forall_mem_cons.1 h
    rw [List.reverse_cons, List.append_assoc]
    exact ih (.refers hname hdone) hrest

theorem Linked.exists_binding {rest : List String} (h : m.Linked scope first (name :: rest)) :
    ∃ place entry, m.binding? scope name = some (place, entry) := by
  have hstate : ∃ state, m.state? scope name = some state := by
    cases h with
    | first h | known _ h _ | refers h _ => exact ⟨_, h⟩
  obtain ⟨state, hstate⟩ := hstate
  obtain ⟨⟨place, entry⟩, hbinding, -⟩ := Option.map_eq_some_iff.1 hstate
  exact ⟨place, entry, hbinding⟩

/-! ## Where a lookup comes to evaluate what a chain shares -/

/-- The machine on which a binding that waits is evaluated, if the limit on calls admits it. -/
def started? (m : Machine) (scope : ScopeId) (name : String) : Option Machine :=
  match m.binding? scope name with
  | some (place, ⟨_, .unevaluated _⟩) =>
    if m.context.depth < m.context.limits.maxCallDepth then
      some ((m.updated scope place .inProgress).within Context.enterCall)
    else none
  | _ => none

/-- Where looking up the first one of some names, each of which refers to the next one, comes to evaluate what the last
one is bound to: the room that is left there and the machine. A lookup does not come there if one of the names is known,
a limit refuses something on the way, or evaluation is to stop. -/
def reached? (host : Host) (scope : ScopeId) : List String → (room : Nat) → Machine → Option (Nat × Machine)
  | [], _, _ => none
  | [name], room, m => (m.started? scope name).map (room, ·)
  | name :: before :: rest, room, m =>
    match room, m.started? scope name with
    | room + 1, some started =>
      if host.stops started.context then none else reached? host scope (before :: rest) room started.entered
    | _, _ => none

/-- A binding comes under evaluation. -/
def beginning (m : Machine) (scope : ScopeId) (name : String) : Machine :=
  match m.binding? scope name with
  | some (place, _) => (m.updated scope place .inProgress).within Context.enterCall
  | none => m

/-- A binding that was under evaluation keeps its value. -/
def finishing (m : Machine) (scope : ScopeId) (name : String) (v : Value) : Machine :=
  match m.binding? scope name with
  | some (place, _) => (m.updated scope place (.evaluated v)).within Context.leaveCall
  | none => m

/-- The way down a chain: each of some names comes under evaluation, and with it the name that it refers to. -/
def asking (scope : ScopeId) (names : List String) (m : Machine) : Machine :=
  names.foldl (fun m name => (m.beginning scope name).entered) m

/-- The way back: each of some names keeps the value of the name that it refers to, the last one first. -/
def answering (scope : ScopeId) (v : Value) (names : List String) (m : Machine) : Machine :=
  names.foldr (fun name m => (m.within Context.leaveNode).finishing scope name v) m

section

variable {place : Nat} {entry : Entry}

theorem beginning_of_binding? (h : m.binding? scope name = some (place, entry)) :
    m.beginning scope name = (m.updated scope place .inProgress).within Context.enterCall := by
  rw [beginning, h]

theorem finishing_of_binding? (h : m.binding? scope name = some (place, entry)) (v : Value) :
    m.finishing scope name v = (m.updated scope place (.evaluated v)).within Context.leaveCall := by
  rw [finishing, h]

end

theorem started?_of_known {v : Value} (h : m.state? scope name = some (.evaluated v)) : m.started? scope name = none := by
  rw [state?, Option.map_eq_some_iff] at h
  obtain ⟨⟨place, key, state⟩, hbinding, hstate⟩ := h
  cases hstate
  rw [started?, hbinding]

theorem reached?_of_known {host : Host} {v : Value} {rest : List String} (h : m.state? scope name = some (.evaluated v))
    (room : Nat) : reached? host scope (name :: rest) room m = none := by
  cases rest with
  | nil => rw [reached?, started?_of_known h, Option.map_none]
  | cons before rest => cases room <;> simp [reached?, started?_of_known h]

theorem reached?_refers {host : Host} {started : Machine} {before : String} {rest : List String} {room : Nat}
    (hstarted : m.started? scope name = some started) (hgoing : host.stops started.context = false) :
    reached? host scope (name :: before :: rest) (room + 1) m =
      reached? host scope (before :: rest) room started.entered := by
  simp [reached?, hstarted, hgoing]

end Machine

namespace Evaluation

variable {host : Host} {run : Evaluator} {m : Machine} {origin scope : ScopeId} {name : String} {place : Nat}
  {key : Value}

/-- A name that is known is looked up at once. -/
theorem run_lookupName_known {v : Value}
    (hfind : m.scopes.find? origin (.string name) = some (scope, place, ⟨key, .evaluated v⟩)) :
    (lookupName run origin (.string name)).run.run m = (.ok v, m) := by
  rw [run_lookupName, hfind]
  rfl

/-- A name that waits is evaluated, unless the limit refuses that, and gets the value that there is. -/
theorem run_lookupName_waiting {expr : Expr} {outcome : Except FatalError Value} {after : Machine}
    (hfind : m.scopes.find? origin (.string name) = some (scope, place, ⟨key, .unevaluated expr⟩))
    (hrun : (lookupName run origin (.string name)).run.run m = (outcome, after))
    (hrefusals : after.context.refusals = m.context.refusals) :
    ∃ started ended, m.started? scope name = some started ∧
      started = (m.updated scope place .inProgress).within Context.enterCall ∧
      (run expr scope).run.run started = (outcome, ended) ∧ ended.context.refusals = m.context.refusals ∧
      ∀ v, outcome = .ok v → after = (ended.updated scope place (.evaluated v)).within Context.leaveCall := by
  have hbinding : m.binding? scope name = some (place, ⟨key, .unevaluated expr⟩) := Scopes.find?_of_holder hfind
  rw [run_lookupName, hfind] at hrun
  dsimp only at hrun
  rw [run_resolve_waiting] at hrun
  dsimp only at hrun
  by_cases hdepth : m.context.depth < m.context.limits.maxCallDepth
  · rw [if_pos hdepth] at hrun
    have hstarted : m.started? scope name = some ((m.updated scope place .inProgress).within Context.enterCall) := by
      rw [Machine.started?, hbinding]
      exact if_pos hdepth
    rcases hended : (run expr scope).run.run ((m.updated scope place .inProgress).within Context.enterCall) with
      ⟨outcome', ended⟩
    rw [hended] at hrun
    refine ⟨_, ended, hstarted, rfl, ?_⟩
    cases outcome' with
    | ok value =>
      cases hrun
      refine ⟨hended, hrefusals, fun v hv => ?_⟩
      cases hv
      rfl
    | error failure =>
      cases hrun
      exact ⟨hended, hrefusals, fun v hv => by cases hv⟩
  · rw [if_neg hdepth] at hrun
    cases hrun
    exact absurd hrefusals (Nat.succ_ne_self _)

/-- To evaluate a bare name is to look it up, where one more node is under evaluation. -/
theorem run_nameLeaf (room : Nat) (location : Location) (name : String) (scope : ScopeId) (m : Machine) :
    (evalWithin host (room + 1) (.nameLeaf location name) scope).run.run m =
      if host.stops m.context then (.error .interrupted, m.within Context.check)
      else
        let ended := (lookupName (evalWithin host room) scope (.string name)).run.run m.entered
        (ended.1, ended.2.within Context.leaveNode) :=
  run_evalWithin_succ room _ scope m

end Evaluation

/-! ## Chains and lookups of their names -/

/-- A chain of bindings in a scope: the names that it binds, the first one first, and the expression that they share. -/
structure BindingChain where
  scope : ScopeId
  names : List String
  shared : Expr
  nodup : names.Nodup

namespace BindingChain

variable {c : BindingChain} {name before : String} {rest : List String}

/-- A name of the chain and the names before it, back to the first one. -/
def downFrom (c : BindingChain) (name : String) : List String :=
  c.names.reverse.dropWhile (· != name)

/-- The names after a name and those down from it. -/
theorem exists_later (c : BindingChain) (name : String) : ∃ later, c.names.reverse = later ++ c.downFrom name :=
  ⟨_, List.takeWhile_append_dropWhile.symm⟩

theorem downFrom_eq {later : List String} (h : c.names.reverse = later ++ name :: rest) :
    c.downFrom name = name :: rest := by
  have hlater : ∀ other ∈ later, (other != name) = true := by
    intro other hother
    have hdistinct := List.nodup_reverse.2 c.nodup
    rw [h] at hdistinct
    exact bne_iff_ne.2 fun heq => (List.nodup_append'.1 hdistinct).2.2 (heq ▸ hother) List.mem_cons_self
  rw [downFrom, h, List.dropWhile_append_of_pos hlater, List.dropWhile_cons_of_neg (by simp)]

theorem exists_downFrom (h : name ∈ c.names) : ∃ rest, c.downFrom name = name :: rest := by
  obtain ⟨later, rest, hall⟩ := List.append_of_mem (List.mem_reverse.2 h)
  exact ⟨rest, downFrom_eq hall⟩

theorem mem_of_downFrom (h : c.downFrom name = name :: before :: rest) : before ∈ c.names := by
  obtain ⟨later, hall⟩ := c.exists_later name
  rw [h] at hall
  have hmem : before ∈ c.names.reverse := by simp [hall]
  exact List.mem_reverse.1 hmem

theorem downFrom_before (h : c.downFrom name = name :: before :: rest) : c.downFrom before = before :: rest := by
  obtain ⟨later, hall⟩ := c.exists_later name
  rw [h] at hall
  have hsplit : c.names.reverse = (later ++ [name]) ++ before :: rest := by
    rw [hall, List.append_assoc]
    rfl
  exact downFrom_eq hsplit

theorem not_mem_of_downFrom (h : c.downFrom name = name :: rest) : name ∉ rest := by
  obtain ⟨later, hall⟩ := c.exists_later name
  have hdistinct := List.nodup_reverse.2 c.nodup
  rw [hall, h] at hdistinct
  exact (List.nodup_cons.1 (List.nodup_append'.1 hdistinct).2.1).1

end BindingChain

/-- A lookup in the course of an evaluation: where `room` more nodes may come under evaluation, a name is looked up from a
scope. -/
structure NameLookup where
  machine : Machine
  room : Nat
  origin : ScopeId
  name : String

namespace NameLookup

/-- The outcome of a lookup, and the machine afterwards. -/
def run (l : NameLookup) (host : Host) : Except FatalError Value × Machine :=
  (Evaluation.lookupName (evalWithin host l.room) l.origin (.string l.name)).run.run l.machine

/-- Where a lookup of a name of a chain comes to evaluate the shared expression: the room that is left there and the
machine. -/
def reached? (l : NameLookup) (host : Host) (c : BindingChain) : Option (Nat × Machine) :=
  Machine.reached? host c.scope (c.downFrom l.name) l.room l.machine

/-- A lookup of a name that the scope of a chain binds, on a machine with canonical expressions only. No limit refuses
anything, evaluation is not interrupted, and where the shared expression is evaluated, the bindings of the chain are left
as they are, as they always are if none of its names is looked up there. -/
structure Unhindered (l : NameLookup) (host : Host) (c : BindingChain) : Prop where
  mem : l.name ∈ c.names
  found : (l.machine.scopes.find? l.origin (.string l.name)).map Prod.fst = some c.scope
  clean : l.machine.Clean
  not_interrupted : (l.run host).1 ≠ .error .interrupted
  refusals : (l.run host).2.context.refusals = l.machine.context.refusals
  leaves : ∀ room reached, l.reached? host c = some (room, reached) → ∀ name ∈ c.names,
    ((evalWithin host room c.shared c.scope).run.run reached).2.binding? c.scope name = reached.binding? c.scope name

/-- A lookup that comes to evaluate what a chain shares runs it once. It asks the names before its own one, down to the
first, and nothing happens but the way down, that run and the way back. -/
def EvaluatesOnce (l : NameLookup) (host : Host) (c : BindingChain) (v : Value) : Prop :=
  ∃ asked first room ended, c.downFrom l.name = asked ++ [first] ∧
    l.reached? host c = some (room, (l.machine.asking c.scope asked).beginning c.scope first) ∧
    (evalWithin host room c.shared c.scope).run.run ((l.machine.asking c.scope asked).beginning c.scope first) =
      (.ok v, ended) ∧
    (l.run host).2 = (ended.finishing c.scope first v).answering c.scope v asked

/-- A lookup that runs nothing. It asks names before its own one, down to one that is known, and comes back. -/
def EvaluatesNothing (l : NameLookup) (host : Host) (c : BindingChain) (v : Value) : Prop :=
  ∃ asked known before, c.downFrom l.name = asked ++ known :: before ∧
    l.machine.state? c.scope known = some (.evaluated v) ∧ l.reached? host c = none ∧
    (l.run host).2 = (l.machine.asking c.scope asked).answering c.scope v asked

/-- What a lookup leaves of a chain: the name and those before it are linked, and the first one is known; the other names
are as they were. The value is that of the first name, if that was known before, and else that of the shared expression,
which the lookup has evaluated. -/
structure Settles (l : NameLookup) (host : Host) (c : BindingChain) (first : EntryState) (v : Value) : Prop where
  outcome : (l.run host).1 = .ok v
  linked : (l.run host).2.Linked c.scope (.evaluated v) (c.downFrom l.name)
  others : ∀ name ∈ c.names, name ∉ c.downFrom l.name →
    (l.run host).2.binding? c.scope name = l.machine.binding? c.scope name
  source : first = .evaluated v ∧ l.EvaluatesNothing host c v ∨ first = .unevaluated c.shared ∧ l.EvaluatesOnce host c v

variable {l : NameLookup} {host : Host} {c : BindingChain} {first : EntryState} {place : Nat} {key : Value}

theorem Unhindered.exists_found (h : l.Unhindered host c) : ∃ place key state,
    l.machine.scopes.find? l.origin (.string l.name) = some (c.scope, place, ⟨key, state⟩) := by
  obtain ⟨⟨_, place, key, state⟩, hfind, rfl⟩ := Option.map_eq_some_iff.1 h.found
  exact ⟨place, key, state, hfind⟩

/-- A name that is known. -/
theorem settles_known {v : Value} {rest : List String} (hdown : c.downFrom l.name = l.name :: rest)
    (hlinked : l.machine.Linked c.scope (.evaluated v) (l.name :: rest))
    (hfind : l.machine.scopes.find? l.origin (.string l.name) = some (c.scope, place, ⟨key, .evaluated v⟩)) :
    l.Settles host c (.evaluated v) v := by
  have hrun : l.run host = (.ok v, l.machine) := Evaluation.run_lookupName_known hfind
  have hstate := Machine.state?_of_binding? (Scopes.find?_of_holder hfind)
  refine ⟨by rw [hrun], by rwa [hrun, hdown], fun _ _ _ => by rw [hrun], .inl ⟨rfl, [], l.name, rest, hdown, hstate, ?_, ?_⟩⟩
  · rw [reached?, hdown]
    exact Machine.reached?_of_known hstate l.room
  · rw [hrun]
    rfl

/-- The first name of the chain, if it waits, is evaluated. -/
theorem Unhindered.settles_first (h : l.Unhindered host c) (hsafe : host.Safe) (hdown : c.downFrom l.name = [l.name])
    (hfind : l.machine.scopes.find? l.origin (.string l.name) = some (c.scope, place, ⟨key, .unevaluated c.shared⟩)) :
    ∃ v, l.Settles host c (.unevaluated c.shared) v := by
  have hbinding : l.machine.binding? c.scope l.name = some (place, ⟨key, .unevaluated c.shared⟩) :=
    Scopes.find?_of_holder hfind
  obtain ⟨started, ended, hstarted, rfl, hended, -, hafter⟩ :=
    Evaluation.run_lookupName_waiting hfind (Prod.mk.eta (p := l.run host)).symm h.refusals
  have hbeginning := Machine.beginning_of_binding? hbinding
  have hreached : l.reached? host c =
      some (l.room, (l.machine.updated c.scope place .inProgress).within Context.enterCall) := by
    rw [reached?, hdown, Machine.reached?, hstarted]
    rfl
  -- The expression is canonical, so only an interruption might keep it from having a value.
  have hcanonical : c.shared.Canonical .term := Scopes.Clean.find? h.clean hfind
  have hclean : ((l.machine.updated c.scope place .inProgress).within Context.enterCall).Clean :=
    Scopes.Clean.setState h.clean c.scope place trivial
  have hfine := (safe_evalWithin hsafe l.room c.shared c.scope hcanonical _ hclean).1
  have hkept := h.leaves _ _ hreached
  rw [hended] at hfine hkept
  cases houtcome : (l.run host).1 with
  | error failure =>
    rw [houtcome] at hfine
    exact absurd (houtcome.trans (congrArg Except.error hfine)) h.not_interrupted
  | ok v =>
    have hdone := (hkept l.name h.mem).trans (Machine.binding?_updated hbinding .inProgress)
    refine ⟨v, houtcome, ?_, ?_, .inr ⟨rfl, [], l.name, l.room, ended, hdown, ?_, ?_, ?_⟩⟩
    · rw [hdown, hafter v houtcome]
      exact .first (Machine.state?_of_binding? (Machine.binding?_updated hdone (.evaluated v)))
    · intro other hother hout
      have hne : other ≠ l.name := by
        rintro rfl
        simp [hdown] at hout
      rw [hafter v houtcome]
      calc (ended.updated c.scope place (.evaluated v)).binding? c.scope other
        _ = ended.binding? c.scope other := Machine.binding?_updated_of_ne hdone hne (.evaluated v)
        _ = (l.machine.updated c.scope place .inProgress).binding? c.scope other := hkept other hother
        _ = l.machine.binding? c.scope other := Machine.binding?_updated_of_ne hbinding hne .inProgress
    · rw [hreached, Machine.asking, List.foldl_nil, hbeginning]
    · rw [Machine.asking, List.foldl_nil, hbeginning, hended, houtcome]
    · rw [hafter v houtcome, Machine.answering, List.foldr_nil, Machine.finishing_of_binding? hdone]

/-- The lookup of the name before, which the evaluation of a name at a place of the chain's scope asks for. -/
def next (l : NameLookup) (c : BindingChain) (place room : Nat) (before : String) : NameLookup where
  machine := ((l.machine.updated c.scope place .inProgress).within Context.enterCall).entered
  room := room
  origin := c.scope
  name := before

/-- A name that waits and refers to the name before it asks that one, has the same outcome and keeps its value. -/
theorem Unhindered.exists_next (h : l.Unhindered host c) {before : String} {rest : List String} {location : Location}
    (hdown : c.downFrom l.name = l.name :: before :: rest) (hlinked : l.machine.Linked c.scope first (before :: rest))
    (hfind : l.machine.scopes.find? l.origin (.string l.name) =
      some (c.scope, place, ⟨key, .unevaluated (.nameLeaf location before)⟩)) :
    ∃ room, (l.next c place room before).Unhindered host c ∧ (l.run host).1 = ((l.next c place room before).run host).1 ∧
      l.reached? host c = (l.next c place room before).reached? host c ∧
      ∀ v, (l.run host).1 = .ok v → (l.run host).2 = ((((l.next c place room before).run host).2.within
        Context.leaveNode).updated c.scope place (.evaluated v)).within Context.leaveCall := by
  have hbinding : l.machine.binding? c.scope l.name = some (place, ⟨key, .unevaluated (.nameLeaf location before)⟩) :=
    Scopes.find?_of_holder hfind
  obtain ⟨started, ended, hstarted, rfl, hended, hrefusals, hafter⟩ :=
    Evaluation.run_lookupName_waiting hfind (Prod.mk.eta (p := l.run host)).symm h.refusals
  cases hroom : l.room with
  | zero =>
    rw [hroom, evalWithin, Eval.run_checkInterrupt_bind] at hended
    split at hended
    · exact absurd (Prod.mk.inj hended).1.symm h.not_interrupted
    · obtain ⟨-, rfl⟩ := Prod.mk.inj hended
      exact absurd hrefusals (Nat.succ_ne_self _)
  | succ room =>
    rw [hroom, Evaluation.run_nameLeaf] at hended
    split at hended
    · exact absurd (Prod.mk.inj hended).1.symm h.not_interrupted
    · rename_i hgoing
      obtain ⟨houtcome, rfl⟩ := Prod.mk.inj hended
      have hreached : l.reached? host c = (l.next c place room before).reached? host c := by
        rw [reached?, reached?, hdown, hroom, Machine.reached?_refers hstarted (by simpa using hgoing), next,
          BindingChain.downFrom_before hdown]
      have hne : before ≠ l.name := by
        rintro rfl
        exact BindingChain.not_mem_of_downFrom hdown List.mem_cons_self
      obtain ⟨place', entry', hbinding'⟩ := hlinked.exists_binding
      have hfound : (l.next c place room before).machine.scopes.find? c.scope (.string before) =
          some (c.scope, place', entry') :=
        Scopes.find?_own ((Machine.binding?_updated_of_ne hbinding hne .inProgress).trans hbinding')
      refine ⟨room, ⟨BindingChain.mem_of_downFrom hdown, ?_, ?_, ?_, hrefusals, ?_⟩, houtcome.symm, hreached, hafter⟩
      · exact congrArg (Option.map Prod.fst) hfound
      · exact Scopes.Clean.setState h.clean c.scope place trivial
      · exact houtcome ▸ h.not_interrupted
      · intro room' reached hthere
        exact h.leaves room' reached (hreached.trans hthere)

/-- A lookup that is answered by one of the name before: its binding comes under evaluation, that lookup takes place, and
the binding keeps the value. -/
structure AnsweredBy (l next : NameLookup) (host : Host) (c : BindingChain) (v : Value) : Prop where
  down : c.downFrom l.name = l.name :: c.downFrom next.name
  reached : l.reached? host c = next.reached? host c
  begins : next.machine = (l.machine.beginning c.scope l.name).entered
  finishes : (l.run host).2 = ((next.run host).2.within Context.leaveNode).finishing c.scope l.name v

section

variable {next : NameLookup} {v : Value}

theorem AnsweredBy.asking (h : l.AnsweredBy next host c v) (names : List String) :
    l.machine.asking c.scope (l.name :: names) = next.machine.asking c.scope names := by
  rw [h.begins, Machine.asking, List.foldl_cons, Machine.asking]

theorem EvaluatesOnce.of_answeredBy (h : next.EvaluatesOnce host c v) (hby : l.AnsweredBy next host c v) :
    l.EvaluatesOnce host c v := by
  obtain ⟨asked, first, room, ended, hnames, hreached, hrun, hafter⟩ := h
  refine ⟨l.name :: asked, first, room, ended, ?_, ?_, ?_, ?_⟩
  · rw [hby.down, hnames, List.cons_append]
  · rw [hby.asking, hby.reached, hreached]
  · rw [hby.asking, hrun]
  · rw [hby.finishes, hafter, Machine.answering, Machine.answering, List.foldr_cons]

theorem EvaluatesNothing.of_answeredBy (h : next.EvaluatesNothing host c v) (hby : l.AnsweredBy next host c v)
    (hsame : ∀ name ∈ c.downFrom next.name, next.machine.state? c.scope name = l.machine.state? c.scope name) :
    l.EvaluatesNothing host c v := by
  obtain ⟨asked, known, before, hnames, hknown, hnone, hafter⟩ := h
  refine ⟨l.name :: asked, known, before, ?_, ?_, hby.reached.trans hnone, ?_⟩
  · rw [hby.down, hnames, List.cons_append]
  · rw [← hsame known (by simp [hnames]), hknown]
  · rw [hby.finishes, hafter, hby.asking, Machine.answering, Machine.answering, List.foldr_cons]

end

/-- A name that waits and refers to the name before it settles the chain if that one does. -/
theorem Unhindered.settles_refers (h : l.Unhindered host c) {before : String} {rest : List String} {location : Location}
    (hdown : c.downFrom l.name = l.name :: before :: rest) (hlinked : l.machine.Linked c.scope first (before :: rest))
    (hfind : l.machine.scopes.find? l.origin (.string l.name) =
      some (c.scope, place, ⟨key, .unevaluated (.nameLeaf location before)⟩))
    (hbefore : ∀ next : NameLookup, next.name = before → next.Unhindered host c →
      next.machine.Linked c.scope first (before :: rest) → ∃ v, next.Settles host c first v) :
    ∃ v, l.Settles host c first v := by
  have hbinding : l.machine.binding? c.scope l.name = some (place, ⟨key, .unevaluated (.nameLeaf location before)⟩) :=
    Scopes.find?_of_holder hfind
  have hnew : l.name ∉ before :: rest := BindingChain.not_mem_of_downFrom hdown
  obtain ⟨room, hnext, houtcome, hreached, hafter⟩ := h.exists_next hdown hlinked hfind
  generalize hl : l.next c place room before = next at hnext houtcome hreached hafter
  have hname : next.name = before := hl ▸ rfl
  -- While the name before is looked up, only the binding of the name itself is another one: it is in progress.
  have hstarted : next.machine.binding? c.scope l.name = some (place, ⟨key, .inProgress⟩) :=
    hl ▸ Machine.binding?_updated hbinding .inProgress
  have hsame {name : String} (hne : name ≠ l.name) :
      next.machine.binding? c.scope name = l.machine.binding? c.scope name :=
    hl ▸ Machine.binding?_updated_of_ne hbinding hne .inProgress
  have hstates : ∀ name ∈ before :: rest, next.machine.state? c.scope name = l.machine.state? c.scope name :=
    fun name hname => Machine.state?_congr (hsame (ne_of_mem_of_not_mem hname hnew))
  have hnextLinked : next.machine.Linked c.scope first (before :: rest) := hlinked.congr hstates
  obtain ⟨v, hv⟩ := hbefore next hname hnext hnextLinked
  have hnextDown : c.downFrom next.name = before :: rest := by rw [hname, BindingChain.downFrom_before hdown]
  have hlinked := hv.linked
  have hothers := hv.others
  rw [hnextDown] at hlinked hothers
  have hended := (hothers l.name h.mem hnew).trans hstarted
  have hok : (l.run host).1 = .ok v := houtcome.trans hv.outcome
  have hrest {name : String} (hne : name ≠ l.name) :
      (l.run host).2.binding? c.scope name = (next.run host).2.binding? c.scope name := by
    rw [hafter v hok]
    exact Machine.binding?_updated_of_ne hended hne (.evaluated v)
  have hby : l.AnsweredBy next host c v := by
    refine ⟨by rw [hdown, hnextDown], hreached, ?_, ?_⟩
    · rw [Machine.beginning_of_binding? hbinding, ← hl]
      rfl
    · rw [hafter v hok]
      exact (Machine.finishing_of_binding? (m := (next.run host).2.within Context.leaveNode) hended v).symm
  refine ⟨v, hok, ?_, ?_, ?_⟩
  · rw [hdown]
    refine .known rfl ?_ ?_
    · rw [hafter v hok]
      exact Machine.state?_of_binding? (Machine.binding?_updated hended (.evaluated v))
    · exact hlinked.congr fun name hname => Machine.state?_congr (hrest (ne_of_mem_of_not_mem hname hnew))
  · intro name hname hout
    rw [hdown] at hout
    obtain ⟨hne, hout⟩ := List.ne_and_not_mem_of_not_mem_cons hout
    rw [hrest hne, hothers name hname hout, hsame hne]
  · rw [← hnextDown] at hstates
    exact hv.source.imp (And.imp_right fun h => h.of_answeredBy hby hstates) (And.imp_right fun h => h.of_answeredBy hby)

/-- A lookup of a name of a chain settles it. By induction on the names before the name. -/
theorem Unhindered.exists_settles (h : l.Unhindered host c) (hsafe : host.Safe) {rest : List String}
    (hdown : c.downFrom l.name = l.name :: rest) (hlinked : l.machine.Linked c.scope first (l.name :: rest))
    (hfirst : first = .unevaluated c.shared ∨ ∃ v, first = .evaluated v) : ∃ v, l.Settles host c first v := by
  obtain ⟨place, key, state, hfind⟩ := h.exists_found
  have hstate := Machine.state?_of_binding? (Scopes.find?_of_holder hfind)
  induction rest generalizing l place key state with
  | nil =>
    cases hlinked with
    | first hknown =>
      obtain rfl : state = first := Option.some.inj (hstate.symm.trans hknown)
      rcases hfirst with rfl | ⟨v, rfl⟩
      · exact h.settles_first hsafe hdown hfind
      · exact ⟨v, settles_known hdown (.first hknown) hfind⟩
  | cons before rest ih =>
    cases hlinked with
    | @known _ _ _ v hfirst hknown hrest =>
      obtain rfl : state = .evaluated v := Option.some.inj (hstate.symm.trans hknown)
      subst hfirst
      exact ⟨v, settles_known hdown (.known rfl hknown hrest) hfind⟩
    | refers hrefers hrest =>
      cases Option.some.inj (hstate.symm.trans hrefers)
      refine h.settles_refers hdown hrest hfind fun next hname hnext hlinked => ?_
      obtain ⟨place', key', state', hfind'⟩ := hnext.exists_found
      subst hname
      exact ih hnext (BindingChain.downFrom_before hdown) hlinked place' key' state' hfind'
        (Machine.state?_of_binding? (Scopes.find?_of_holder hfind'))

/-- Whichever name is looked up, all names of the chain are linked afterwards and the first one is known. -/
theorem Unhindered.step (h : l.Unhindered host c) (hsafe : host.Safe)
    (hlinked : l.machine.Linked c.scope first c.names.reverse)
    (hfirst : first = .unevaluated c.shared ∨ ∃ v, first = .evaluated v) :
    ∃ v, l.Settles host c first v ∧ (l.run host).2.Linked c.scope (.evaluated v) c.names.reverse := by
  obtain ⟨rest, hdown⟩ := BindingChain.exists_downFrom h.mem
  obtain ⟨later, hall⟩ := c.exists_later l.name
  have hdistinct := List.nodup_reverse.2 c.nodup
  rw [hall] at hlinked hdistinct ⊢
  obtain ⟨v, hv⟩ := h.exists_settles hsafe hdown (hdown ▸ hlinked.of_append (by simp [hdown])) hfirst
  refine ⟨v, hv, hlinked.append ?_ ?_ hv.linked⟩
  · intro w hw
    rcases hv.source with ⟨hknown, -⟩ | ⟨hwaiting, -⟩
    · exact EntryState.evaluated.inj (hw.symm.trans hknown)
    · cases hw.symm.trans hwaiting
  · intro name hname
    have hmem : name ∈ c.names.reverse := hall ▸ List.mem_append_left _ hname
    exact Machine.state?_congr (hv.others name (List.mem_reverse.1 hmem) ((List.nodup_append'.1 hdistinct).2.2 hname))

end NameLookup

/-! ## Lookups in any order -/

namespace BindingChain

variable {c : BindingChain} {host : Host} {m : Machine} {lookups : List NameLookup}

/-- From a machine on, names of a chain are looked up one after the other. Before and after each lookup anything may be
done that leaves the bindings of the chain as they are. -/
inductive LookedUp (c : BindingChain) (host : Host) : Machine → List NameLookup → Prop
  | done (m : Machine) : LookedUp c host m []
  | lookup {l : NameLookup} {later : List NameLookup} (h : l.Unhindered host c)
    (hlater : LookedUp c host (l.run host).2 later) : LookedUp c host l.machine (l :: later)
  | other {m m' : Machine} {lookups : List NameLookup}
    (hkept : ∀ name ∈ c.names, m'.binding? c.scope name = m.binding? c.scope name)
    (hlater : LookedUp c host m' lookups) : LookedUp c host m lookups

/-- Once the first name is known, its value is that of all names, and nothing is evaluated any more. -/
theorem LookedUp.of_known (h : c.LookedUp host m lookups) (hsafe : host.Safe) {v : Value}
    (hlinked : m.Linked c.scope (.evaluated v) c.names.reverse) :
    ∀ l ∈ lookups, (l.run host).1 = .ok v ∧ l.EvaluatesNothing host c v := by
  induction h with
  | done => exact List.forall_mem_nil _
  | lookup h _ ih =>
    obtain ⟨w, hw, hnext⟩ := h.step hsafe hlinked (.inr ⟨v, rfl⟩)
    rcases hw.source with ⟨hknown, hnothing⟩ | ⟨hwaiting, -⟩
    · cases hknown
      exact List.forall_mem_cons.2 ⟨⟨hw.outcome, hnothing⟩, ih hnext⟩
    · cases hwaiting
  | other hkept _ ih =>
    exact ih (hlinked.congr fun name hname => Machine.state?_congr (hkept name (List.mem_reverse.1 hname)))

/-- Where no name is known yet, the first lookup evaluates the shared expression, and its value is that of all names. -/
theorem LookedUp.of_waiting (h : c.LookedUp host m lookups) (hsafe : host.Safe)
    (hlinked : m.Linked c.scope (.unevaluated c.shared) c.names.reverse) :
    ∃ v, (∀ l ∈ lookups, (l.run host).1 = .ok v) ∧ (∀ l ∈ lookups.head?, l.EvaluatesOnce host c v) ∧
      ∀ l ∈ lookups.tail, l.EvaluatesNothing host c v := by
  induction h with
  | done => exact ⟨.bool true, by simp⟩
  | @lookup l later h hlater ih =>
    obtain ⟨v, hv, hnext⟩ := h.step hsafe hlinked (.inl rfl)
    have hknown := hlater.of_known hsafe hnext
    refine ⟨v, List.forall_mem_cons.2 ⟨hv.outcome, fun l hl => (hknown l hl).1⟩, ?_, fun l hl => (hknown l hl).2⟩
    intro l hl
    cases hl
    rcases hv.source with ⟨hfirst, -⟩ | ⟨-, honce⟩
    · cases hfirst
    · exact honce
  | other hkept _ ih =>
    exact ih (hlinked.congr fun name hname => Machine.state?_congr (hkept name (List.mem_reverse.1 hname)))

/-- The bindings of a chain when they have just been made. -/
theorem linked_of_madeOf {items : List Expr} {bindings : Bindings} (hmade : Bindings.MadeOf items bindings) {item : Expr}
    (hitem : item ∈ items) (hchain : item.bindingChain = (c.names, c.shared))
    (hscope : (m.scopes.get c.scope).bindings = bindings) :
    m.Linked c.scope (.unevaluated c.shared) c.names.reverse := by
  obtain ⟨hbinding, hnodup, rfl⟩ := hmade.bound
  have hstate : ∀ pair ∈ aliases (item.location?.getD ⟨0, 0⟩) c.shared c.names,
      m.state? c.scope pair.1 = some (.unevaluated pair.2) := by
    intro pair hpair
    have hmem : ⟨.string pair.1, .unevaluated pair.2⟩ ∈ boundBy items := by
      refine List.mem_flatMap.2 ⟨item, hitem, ?_⟩
      rw [bound, hchain]
      exact List.mem_map_of_mem hpair
    obtain ⟨place, hfind⟩ := (Bindings.binds_boundBy items).find?_of_mem hnodup hmem
    exact Machine.state?_of_binding? (by rw [Machine.binding?, hscope, hfind])
  have hnames := hbinding item hitem
  rw [IsBinding, hchain] at hnames
  cases hall : c.names with
  | nil => exact absurd hall hnames
  | cons name rest =>
    rw [hall] at hstate
    obtain ⟨hfirst, hrest⟩ := List.forall_mem_cons.1 hstate
    rw [List.reverse_cons]
    exact Machine.linked_aliases (.first hfirst) hrest

end BindingChain

/-- The names of a chain of bindings share one value. Whether the chain stands in a where clause, among the arguments of a
call or in a closure, and in whatever order and however often its names are looked up, all lookups have the same value.
The first one comes to evaluate the expression at the end of the chain and runs it once; no other one runs anything. -/
theorem chained_names_share_value {host : Host} (hsafe : host.Safe) {items : List Expr} {bindings : Bindings}
    (hmade : Bindings.MadeOf items bindings) {item : Expr} (hitem : item ∈ items) (c : BindingChain)
    (hchain : item.bindingChain = (c.names, c.shared)) {m : Machine} (hscope : (m.scopes.get c.scope).bindings = bindings)
    {lookups : List NameLookup} (hlookups : c.LookedUp host m lookups) :
    ∃ v, (∀ l ∈ lookups, (l.run host).1 = .ok v) ∧ (∀ l ∈ lookups.head?, l.EvaluatesOnce host c v) ∧
      ∀ l ∈ lookups.tail, l.EvaluatesNothing host c v :=
  hlookups.of_waiting hsafe (BindingChain.linked_of_madeOf hmade hitem hchain hscope)

/-- A chain that shares a closure, `x = y = z = {it}`. -/
def sharedIdentity : Expr :=
  .node .assign ⟨3, 4⟩ [.stringLeaf ⟨1, 2⟩ "x", .node .assign ⟨7, 8⟩ [.stringLeaf ⟨5, 6⟩ "y",
    .node .assign ⟨11, 12⟩ [.stringLeaf ⟨9, 10⟩ "z", .node .closure ⟨13, 17⟩ [.nameLeaf ⟨14, 16⟩ "it"]]]]

theorem canonical_sharedIdentity : sharedIdentity.Canonical .item :=
  .assign (.assign (.assign (.item (.closure (List.cons_ne_nil _ _) (List.forall_mem_singleton.2 (.item (.name _ _)))))))

/-- In the scope of the closure `{x = y = z = {it}, z}` the name `y` is looked up, then `z`, and then `x` from a scope
inside: each time it is the same closure, which is made for the first lookup. -/
theorem chained_closure_is_shared :
    let c : BindingChain := ⟨1, ["x", "y", "z"], .node .closure ⟨13, 17⟩ [.nameLeaf ⟨14, 16⟩ "it"], by decide⟩
    let closure : Expr := .node .closure ⟨0, 21⟩ [sharedIdentity, .nameLeaf ⟨19, 20⟩ "z"]
    let m := ((evaluate Host.builtin closure globalScope).run.run (.initial { limits := ⟨8, 16⟩ })).2
    let first : NameLookup := ⟨m, 4, 1, "y"⟩
    let second : NameLookup := ⟨(first.run Host.builtin).2, 3, 1, "z"⟩
    let inner := (second.run Host.builtin).2.extended 1 [⟨.string "it", .evaluated (.bool true)⟩]
    let third : NameLookup := ⟨inner, 0, 3, "x"⟩
    c.LookedUp Host.builtin m [first, second, third] ∧
    (∀ l ∈ [first, second, third], (l.run Host.builtin).1 = .ok (.closure 2 (.nameLeaf ⟨14, 16⟩ "it") 2)) ∧
    first.EvaluatesOnce Host.builtin c (.closure 2 (.nameLeaf ⟨14, 16⟩ "it") 2) ∧
    ∀ l ∈ [second, third], l.EvaluatesNothing Host.builtin c (.closure 2 (.nameLeaf ⟨14, 16⟩ "it") 2) := by
  intro c closure m first second inner third
  have hclosure : closure.Canonical .term := by
    refine .closure (List.cons_ne_nil _ _) (List.forall_mem_cons.2 ⟨canonical_sharedIdentity, ?_⟩)
    exact List.forall_mem_singleton.2 (.item (.name _ _))
  -- The machine stays clean.
  have hclean : m.Clean := (safe_evaluate Host.safe_builtin closure globalScope hclosure _ (Machine.clean_initial _)).2
  have hrun (l : NameLookup) (hl : l.machine.Clean) : (l.run Host.builtin).2.Clean :=
    (Evaluation.safe_lookupName (safe_evalWithin Host.safe_builtin l.room) l.origin (.string l.name) _ hl).2
  have hinner : inner.Clean := Scopes.Clean.add (hrun second (hrun first hclean)) (some 1)
    (List.forall_mem_singleton.2 (.bool true))
  have hok (l : NameLookup) (h : (l.run Host.builtin).1.isOk = true) : (l.run Host.builtin).1 ≠ .error .interrupted := by
    intro herror
    rw [herror] at h
    cases h
  have hfirst : first.Unhindered Host.builtin c := by
    refine ⟨by decide, by decide +kernel, hclean, hok _ (by decide +kernel), by decide +kernel, fun _ _ hreached => ?_⟩
    cases hreached
    exact List.forall_mem_cons.2 ⟨rfl, List.forall_mem_cons.2 ⟨rfl, List.forall_mem_singleton.2 rfl⟩⟩
  -- The other lookups find a name that is known.
  have hnone (l : NameLookup) (h : (l.reached? Host.builtin c).isNone = true) {reached : Nat × Machine}
      (hreached : l.reached? Host.builtin c = some reached) : False := by
    rw [hreached] at h
    cases h
  have hsecond : second.Unhindered Host.builtin c :=
    ⟨by decide, by decide +kernel, hrun first hclean, hok _ (by decide +kernel), by decide +kernel,
      fun _ _ hreached => (hnone second (by decide +kernel) hreached).elim⟩
  have hthird : third.Unhindered Host.builtin c :=
    ⟨by decide, by decide +kernel, hinner, hok _ (by decide +kernel), by decide +kernel,
      fun _ _ hreached => (hnone third (by decide +kernel) hreached).elim⟩
  have hsize : 1 < (second.run Host.builtin).2.scopes.size := by decide +kernel
  have hkept : ∀ name ∈ c.names, inner.binding? c.scope name = (second.run Host.builtin).2.binding? c.scope name :=
    fun name _ => congrArg (fun scope => scope.bindings.find? (.string name)) (Machine.get_extended _ 1 1 _ hsize)
  have hlast : c.LookedUp Host.builtin inner [third] := BindingChain.LookedUp.lookup (l := third) hthird (.done _)
  have hlater : c.LookedUp Host.builtin second.machine [second, third] :=
    BindingChain.LookedUp.lookup (l := second) hsecond (.other hkept hlast)
  have hlookups : c.LookedUp Host.builtin m [first, second, third] :=
    BindingChain.LookedUp.lookup (l := first) hfirst hlater
  have hparts : Evaluation.closureParts [sharedIdentity, .nameLeaf ⟨19, 20⟩ "z"] =
      .ok (.nameLeaf ⟨19, 20⟩ "z", sharedIdentity.bound) := rfl
  have hitem : sharedIdentity ∈ whereItems [sharedIdentity, .nameLeaf ⟨19, 20⟩ "z"] ++
      inlineItems (otherArgs [sharedIdentity, .nameLeaf ⟨19, 20⟩ "z"]) := List.mem_singleton.2 rfl
  obtain ⟨v, hv, honce, hnothing⟩ := chained_names_share_value Host.safe_builtin (.closure hparts) hitem c rfl (m := m) rfl
    hlookups
  have hvalue : (first.run Host.builtin).1 = .ok (.closure 2 (.nameLeaf ⟨14, 16⟩ "it") 2) := rfl
  obtain rfl : v = .closure 2 (.nameLeaf ⟨14, 16⟩ "it") 2 :=
    Except.ok.inj ((hv first List.mem_cons_self).symm.trans hvalue)
  exact ⟨hlookups, hv, honce first rfl, hnothing⟩

end DynamicConfig

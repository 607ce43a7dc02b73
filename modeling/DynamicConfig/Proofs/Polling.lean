import DynamicConfig.Proofs.Versions
/-!
# Clients that poll a store

Clients ask a store in memory for what has changed since the version that they know, and add it to what
they hold, while the store goes on being changed (`Polling`). No change is missed and none is made up: after
each poll the client holds the present configuration (`polls_never_miss_nor_invent`).
-/

namespace DynamicConfig

/-- What a client holds of a configuration, and its version. -/
structure Replica where
  version : Nat := 0
  config : Config := []

/-- A client asks for what has changed since its version, adds it and goes on from the answered version. -/
def Replica.poll (store : MemoryStore) (replica : Replica) : Replica :=
  let changes := store.changesSince replica.version
  ⟨changes.version, replica.config.insertAll changes.entries⟩

namespace Polling

/-- What happens to a store and its clients. -/
inductive Event
  | set (key value : String)
  | poll (client : Nat)

/-- The change that an event is, if it is one. -/
def Event.change? : Event → Option (String × String)
  | set key value => some (key, value)
  | poll _ => none

/-- The changes among some events. -/
def changes (events : List Event) : List (String × String) :=
  events.filterMap Event.change?

end Polling

/-- A store in memory and its clients. -/
structure Polling where
  store : MemoryStore := {}
  replicas : Nat → Replica := fun _ => {}

namespace Polling

def step (state : Polling) : Event → Polling
  | .set key value => { state with store := state.store.set key value }
  | .poll client => { state with
      replicas := Function.update state.replicas client ((state.replicas client).poll state.store) }

/-- A store and clients that know nothing yet, after some events. -/
def after (events : List Event) : Polling :=
  events.foldl step {}

theorem after_append (events : List Event) (event : Event) :
    after (events ++ [event]) = (after events).step event :=
  List.foldl_append

/-! ## What a run keeps -/

/-- The store holds the changes, and each client the configuration of its version. -/
structure Holds (sets : List (String × String)) (state : Polling) : Prop where
  store : state.store = MemoryStore.ofEntries sets
  known : ∀ client, (state.replicas client).version ≤ sets.length
  config : ∀ client, (state.replicas client).config = configAt sets (state.replicas client).version

variable {sets : List (String × String)} {state : Polling}

theorem holds_initial : Holds [] {} where
  store := rfl
  known _ := Nat.le_refl _
  config _ := rfl

/-- A poll brings a client up to date. -/
theorem Holds.poll_eq (h : Holds sets state) (client : Nat) :
    (state.replicas client).poll state.store = ⟨sets.length, Keyed.ofList sets⟩ := by
  have hversion : ((MemoryStore.ofEntries sets).changesSince (state.replicas client).version).version = sets.length := by
    rw [MemoryStore.version_changesSince, Nat.max_eq_right (h.known client)]
  rw [Replica.poll, h.store, h.config, hversion, MemoryStore.insertAll_changesSince (h.known client)]

theorem Holds.set (h : Holds sets state) (key value : String) :
    Holds (sets ++ [(key, value)]) (state.step (.set key value)) where
  store := by rw [MemoryStore.ofEntries_append, ← h.store]; rfl
  known client := Nat.le_trans (h.known client) (by simp)
  config client := (h.config client).trans (configAt_append_of_le (h.known client) _).symm

theorem Holds.poll (h : Holds sets state) (client : Nat) : Holds sets (state.step (.poll client)) := by
  have hself : (state.step (.poll client)).replicas client = ⟨sets.length, Keyed.ofList sets⟩ := by
    rw [← h.poll_eq client]
    exact Function.update_self ..
  have hother (other : Nat) (hne : other ≠ client) :
      (state.step (.poll client)).replicas other = state.replicas other := Function.update_of_ne hne ..
  refine ⟨h.store, fun other => ?_, fun other => ?_⟩
  · by_cases hne : other = client
    · subst hne
      exact Nat.le_of_eq (congrArg Replica.version hself)
    · rw [hother other hne]
      exact h.known other
  · by_cases hne : other = client
    · rw [hne, hself]
      exact (configAt_of_le (Nat.le_refl _)).symm
    · rw [hother other hne]
      exact h.config other

theorem holds_after (events : List Event) : Holds (changes events) (after events) := by
  induction events using List.reverseRecOn with
  | nil => exact holds_initial
  | append_singleton events event ih =>
    rw [after_append, changes, List.filterMap_append]
    cases event with
    | set key value => exact ih.set key value
    | poll client =>
      have h := ih.poll client
      rwa [← List.append_nil (changes events)] at h

/-- After any events, the version of a store is the number of its changes, each of them has exactly one
revision, and the versions of an entry go up. Whoever asks gets the newest version and exactly the entries
that were changed after the version asked about, with their last texts. A client that polls holds the last
text of every entry. -/
theorem polls_never_miss_nor_invent (events : List Event) :
    (after events).store.version = (changes events).length ∧
    (∀ version, 1 ≤ version → version ≤ (changes events).length →
      ∃! entry : String × Revision,
        entry.2 ∈ (after events).store.revisionsOf entry.1 ∧ entry.2.version = version) ∧
    (∀ key, ((after events).store.revisionsOf key).Pairwise fun a b => a.version < b.version) ∧
    (∀ version,
      ((after events).store.changesSince version).version = max version (changes events).length ∧
      (((after events).store.changesSince version).entries.map Prod.fst).Nodup ∧
      ∀ key value, (key, value) ∈ ((after events).store.changesSince version).entries ↔
        ∃ latest, ((after events).store.revisionsOf key).getLast? = some latest ∧ version < latest.version ∧
          latest.value = value) ∧
    ∀ client, ((after (events ++ [.poll client])).replicas client).config = Keyed.ofList (changes events) := by
  have h := holds_after events
  rw [h.store]
  refine ⟨MemoryStore.version_ofEntries _, fun version h1 h2 => MemoryStore.existsUnique_revision h1 h2,
    fun key => ?_, fun version => ⟨MemoryStore.version_changesSince version _, ?_, fun key value => ?_⟩, fun client => ?_⟩
  · rw [MemoryStore.revisionsOf_ofEntries]
    exact pairwise_revisionsFrom 1 _ key
  · exact Keyed.Sorted.nodup_keys (MemoryStore.sorted_changesSince version _)
  · exact MemoryStore.mem_changesSince version
  · rw [after_append]
    have hself : ((after events).step (.poll client)).replicas client = _ := Function.update_self ..
    rw [hself, h.poll_eq client]

/-- A client that has polled before gets the two later changes. -/
theorem polls_see_later_changes :
    let events := [Event.set "a" "1", .poll 0, .set "b" "2", .set "a" "3"]
    (1 ≤ 2 ∧ 2 ≤ (changes events).length) ∧
    (∃! entry : String × Revision,
      entry.2 ∈ (after events).store.revisionsOf entry.1 ∧ entry.2.version = 2) ∧
    ((after (events ++ [.poll 0])).replicas 0).config = [("a", "3"), ("b", "2")] := by
  intro events
  have hrange : 1 ≤ 2 ∧ 2 ≤ (changes events).length := by decide
  obtain ⟨-, hunique, -, -, hpoll⟩ := polls_never_miss_nor_invent events
  refine ⟨hrange, hunique 2 hrange.1 hrange.2, (hpoll 0).trans ?_⟩
  decide +kernel

end Polling

end DynamicConfig

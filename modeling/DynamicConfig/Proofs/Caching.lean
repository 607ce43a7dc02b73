import DynamicConfig.Proofs.Versions
import DynamicConfig.Store.Cached
/-!
# What a cache shows

Texts are set through a cache or behind its back, time passes, and clients ask (`CacheRun`). The store behind the cache
notes what it is asked (`RecordingStore`), so that it can be seen when the cache brings itself up to date. What the cache
remembers is always the configuration at some version, with every change that was made before it was last brought up to
date (`CacheRun.Holds`). So an answer is a true past state, no staler than the refresh interval, and a client that adds
what it is answered keeps a true state too (`cache_shows_true_past`).
-/

namespace DynamicConfig

/-! ## Stores that note what they are asked -/

/-- A store, and the versions that it has been asked about, in order. -/
structure RecordingStore (σ : Type) where
  store : σ
  asked : List Nat := []

namespace RecordingStore

variable {σ : Type}

/-- Notes a question. -/
def note (version : Nat) (recording : RecordingStore σ) : RecordingStore σ :=
  { recording with asked := recording.asked ++ [version] }

instance [Store σ] : Store (RecordingStore σ) where
  changesSince version := modifyGet fun recording =>
    let (changes, store) := (Store.changesSince version).run recording.store
    (changes, { recording.note version with store })
  set key value recording := { recording with store := Store.set key value recording.store }
  history key epoch recording := Store.history key epoch recording.store

end RecordingStore

/-! ## Answers -/

namespace CachedStore

section

variable {σ : Type} [Store σ] (cache : CachedStore σ) (version : Nat)

variable {cache} in
omit [Store σ] in
theorem isFresh_iff :
    cache.isFresh = true ↔
      ∃ refreshed, cache.snapshot.refreshed = some refreshed ∧ cache.now - refreshed < cache.refresh := by
  simp only [isFresh, Option.any_eq_true, decide_eq_true_iff]

/-- The cache once it can answer from its snapshot. -/
def ready : CachedStore σ :=
  if cache.isFresh then cache else (update.run cache).2

/-- The end of an answer from the snapshot. -/
private def answerFromSnapshot : StateM (CachedStore σ) Changes := do
  if !(← get).isFresh then update
  let snapshot := (← get).snapshot
  return ⟨snapshot.version, snapshot.config⟩

private theorem run_answerFromSnapshot :
    answerFromSnapshot.run cache = (⟨cache.ready.snapshot.version, cache.ready.snapshot.config⟩, cache.ready) := by
  have hrun : answerFromSnapshot.run cache = (do
      if !cache.isFresh then update
      let snapshot := (← get).snapshot
      return (⟨snapshot.version, snapshot.config⟩ : Changes) : StateM (CachedStore σ) Changes).run cache := rfl
  rw [hrun, ready]
  cases cache.isFresh <;> rfl

/-- What a cache answers, and what becomes of it. -/
theorem run_changesSince :
    (Store.changesSince version).run cache =
      if cache.answersFor version then (⟨cache.ready.snapshot.version, cache.ready.snapshot.config⟩, cache.ready)
      else (askInner version).run cache := by
  have hrun : (Store.changesSince version).run cache =
      (if !cache.answersFor version then askInner version else answerFromSnapshot).run cache := rfl
  rw [hrun]
  cases cache.answersFor version with
  | false => rfl
  | true => exact run_answerFromSnapshot cache

end

/-- The cache in front of the store itself, whose questions nobody notes. -/
def unrecorded {σ : Type} (cache : CachedStore (RecordingStore σ)) : CachedStore σ where
  inner := cache.inner.store
  refresh := cache.refresh
  now := cache.now
  snapshot := cache.snapshot

/-- To note questions does not change the answers. -/
theorem run_changesSince_unrecorded {σ : Type} [Store σ] (cache : CachedStore (RecordingStore σ)) (version : Nat) :
    (Store.changesSince version).run cache.unrecorded =
      (((Store.changesSince version).run cache).1, ((Store.changesSince version).run cache).2.unrecorded) := by
  have hanswers : cache.unrecorded.answersFor version = cache.answersFor version := rfl
  have hfresh : cache.unrecorded.isFresh = cache.isFresh := rfl
  rw [run_changesSince, run_changesSince, hanswers, ready, ready, hfresh]
  cases cache.answersFor version with
  | false => rfl
  | true => cases cache.isFresh <;> rfl

variable {cache : CachedStore (RecordingStore MemoryStore)}

/-- A question that is handed on is noted. -/
theorem run_askInner (version : Nat) :
    (askInner version).run cache =
      (cache.inner.store.changesSince version, { cache with inner := cache.inner.note version }) := rfl

theorem ready_of_isFresh (h : cache.isFresh = true) : cache.ready = cache := by
  rw [ready, h]
  rfl

/-- To bring its snapshot up to date, the cache asks once. -/
theorem ready_of_not_isFresh (h : cache.isFresh = false) :
    cache.ready = { cache with
      inner := cache.inner.note cache.snapshot.version
      snapshot := cache.snapshot.update cache.now (cache.inner.store.changesSince cache.snapshot.version) } := by
  rw [ready, h]
  rfl

end CachedStore

/-! ## Runs -/

namespace CacheRun

/-- What happens to a cache and the store behind it. The clock never goes back. -/
inductive Event
  | set (key value : String)
  /-- A text is set without the cache. -/
  | setInner (key value : String)
  | wait (time : Nat)
  /-- Some client asks for what has changed since a version. -/
  | ask (version : Nat)

/-- The change that an event is, if it is one. -/
def Event.change? : Event → Option (String × String)
  | set key value | setInner key value => some (key, value)
  | wait _ | ask _ => none

/-- The changes among some events. -/
def changes (events : List Event) : List (String × String) :=
  events.filterMap Event.change?

/-- What an event makes of the cache. -/
def Event.act (cache : CachedStore (RecordingStore MemoryStore)) : Event → CachedStore (RecordingStore MemoryStore)
  | set key value => Store.set key value cache
  | setInner key value => { cache with inner := Store.set key value cache.inner }
  | wait time => cache.setClock (cache.now + time)
  | ask version => ((Store.changesSince version).run cache).2

/-- What the store behind the cache is asked in the course of an event. -/
def Event.asks (cache : CachedStore (RecordingStore MemoryStore)) (event : Event) : List Nat :=
  (event.act cache).inner.asked.drop cache.inner.asked.length

/-- The questions among these that are the cache's own. A question of a client about another version than that of the
snapshot is handed on. -/
def Event.refreshes (cache : CachedStore (RecordingStore MemoryStore)) (event : Event) : List Nat :=
  match event with
  | ask version =>
    if version = 0 ∨ version = cache.snapshot.version then event.asks cache else (event.asks cache).erase version
  | _ => event.asks cache

/-- A question that was asked, and its answer. -/
structure Exchange where
  asked : Nat
  answer : Changes

end CacheRun

/-- A cache and what has happened to it. -/
structure CacheRun where
  cache : CachedStore (RecordingStore MemoryStore)
  /-- When the changes were made. -/
  setTimes : List Nat := []
  exchanges : List CacheRun.Exchange := []
  /-- When the cache asked the store behind it on its own. -/
  refreshTimes : List Nat := []

namespace CacheRun

/-- The answer to a question. -/
def answer (run : CacheRun) (version : Nat) : Changes :=
  ((Store.changesSince version).run run.cache).1

def step (run : CacheRun) (event : Event) : CacheRun where
  cache := event.act run.cache
  setTimes := run.setTimes ++ (event.change?.map fun _ => run.cache.now).toList
  exchanges := match event with
    | .ask version => run.exchanges ++ [⟨version, run.answer version⟩]
    | _ => run.exchanges
  refreshTimes := run.refreshTimes ++ (event.refreshes run.cache).map fun _ => run.cache.now

/-- A cache with a refresh interval over an empty store, after some events. -/
def after (refresh : Nat) (events : List Event) : CacheRun :=
  events.foldl step { cache := { inner := { store := {} }, refresh } }

theorem after_append (refresh : Nat) (events : List Event) (event : Event) :
    after refresh (events ++ [event]) = (after refresh events).step event :=
  List.foldl_append

/-! ## What is asked -/

/-- What the store behind the cache is asked for an answer. -/
theorem asks_ask (cache : CachedStore (RecordingStore MemoryStore)) (version : Nat) :
    (Event.ask version).asks cache =
      if cache.answersFor version then if cache.isFresh then [] else [cache.snapshot.version] else [version] := by
  rw [Event.asks, Event.act, CachedStore.run_changesSince]
  cases cache.answersFor version with
  | false => exact List.drop_left
  | true =>
    cases hf : cache.isFresh with
    | true => rw [if_pos rfl, CachedStore.ready_of_isFresh hf, List.drop_length]; rfl
    | false => rw [if_pos rfl, CachedStore.ready_of_not_isFresh hf]; exact List.drop_left

/-- The cache asks on its own only for an answer about the snapshot, once, when it is not fresh. -/
theorem refreshes_ask (cache : CachedStore (RecordingStore MemoryStore)) (version : Nat) :
    (Event.ask version).refreshes cache =
      if cache.answersFor version then if cache.isFresh then [] else [cache.snapshot.version] else [] := by
  have habout : version = 0 ∨ version = cache.snapshot.version ↔ cache.answersFor version = true := by
    simp [CachedStore.answersFor]
  simp only [Event.refreshes, habout, asks_ask]
  cases cache.answersFor version <;> simp

variable (run : CacheRun)

/-- A text that is set is noted, whichever way it is set. -/
theorem step_set (key value : String) :
    run.step (.set key value) = { run with
      cache := { run.cache with inner := Store.set key value run.cache.inner }
      setTimes := run.setTimes ++ [run.cache.now] } := by
  have hasks : (Event.set key value).refreshes run.cache = [] := List.drop_length
  simp only [step, hasks, List.map_nil, List.append_nil]
  rfl

theorem step_wait (time : Nat) :
    run.step (.wait time) = { run with cache := run.cache.setClock (run.cache.now + time) } := by
  have hasks : (Event.wait time).refreshes run.cache = [] := List.drop_length
  simp [step, hasks, Event.act, Event.change?]

/-- A question that the cache does not answer itself is handed on. -/
theorem step_ask_of_handed_on {version : Nat} (h : run.cache.answersFor version = false) :
    run.step (.ask version) = { run with
      cache := { run.cache with inner := run.cache.inner.note version }
      exchanges := run.exchanges ++ [⟨version, run.cache.inner.store.changesSince version⟩] } := by
  have hrun := CachedStore.run_changesSince run.cache version
  rw [h, if_neg Bool.false_ne_true, CachedStore.run_askInner] at hrun
  simp [step, refreshes_ask, h, Event.act, Event.change?, answer, hrun]

/-- An answer about the snapshot brings it up to date if it is not fresh. -/
theorem step_ask_of_answered {version : Nat} (h : run.cache.answersFor version = true) :
    run.step (.ask version) = { run with
      cache := run.cache.ready
      exchanges := run.exchanges ++ [⟨version, ⟨run.cache.ready.snapshot.version, run.cache.ready.snapshot.config⟩⟩]
      refreshTimes := run.refreshTimes ++ if run.cache.isFresh then [] else [run.cache.now] } := by
  have hrun := CachedStore.run_changesSince run.cache version
  rw [h, if_pos rfl] at hrun
  cases hfresh : run.cache.isFresh <;>
    simp [step, refreshes_ask, h, hfresh, Event.act, Event.change?, answer, hrun]

/-! ## What a run keeps -/

/-- The store holds the changes. The snapshot is the configuration at its version, and changes that it does
not have were made after it was brought up to date. -/
structure Holds (refresh : Nat) (sets : List (String × String)) (run : CacheRun) : Prop where
  interval : run.cache.refresh = refresh
  inner : run.cache.inner.store = MemoryStore.ofEntries sets
  times : run.setTimes.length = sets.length
  known : run.cache.snapshot.version ≤ sets.length
  config : run.cache.snapshot.config = configAt sets run.cache.snapshot.version
  missing : ∀ refreshed, run.cache.snapshot.refreshed = some refreshed →
    refreshed ≤ run.cache.now ∧ ∀ time ∈ run.setTimes.drop run.cache.snapshot.version, refreshed ≤ time
  answered : ∀ exchange ∈ run.exchanges, exchange.asked = 0 → exchange.answer.version ≤ run.cache.snapshot.version
  refreshed : ∀ time ∈ run.refreshTimes, ∃ last, run.cache.snapshot.refreshed = some last ∧ time ≤ last
  spaced : run.refreshTimes.Pairwise fun a b => a + refresh ≤ b

variable {refresh : Nat} {sets : List (String × String)} {run : CacheRun}

theorem holds_initial (refresh : Nat) : Holds refresh [] { cache := { inner := { store := {} }, refresh } } where
  interval := rfl
  inner := rfl
  times := rfl
  known := Nat.le_refl _
  config := rfl
  missing _ h := by cases h
  answered _ h := by cases h
  refreshed _ h := by cases h
  spaced := .nil

/-- A change is later than the last refresh, and the snapshot does not have it. -/
theorem Holds.set (h : Holds refresh sets run) (key value : String) :
    Holds refresh (sets ++ [(key, value)]) (run.step (.set key value)) := by
  rw [step_set]
  refine { h with inner := ?_, times := ?_, known := ?_, config := ?_, missing := ?_ }
  · rw [MemoryStore.ofEntries_append, ← h.inner]
    rfl
  · simp [h.times]
  · exact Nat.le_trans h.known (by simp)
  · exact h.config.trans (configAt_append_of_le h.known _).symm
  · intro refreshed hr
    obtain ⟨hnow, hmissing⟩ := h.missing refreshed hr
    refine ⟨hnow, fun time htime => ?_⟩
    have hknown := h.times ▸ h.known
    dsimp only at htime
    rw [List.drop_append_of_le_length hknown] at htime
    rcases List.mem_append.1 htime with htime | htime
    · exact hmissing time htime
    · rw [List.mem_singleton.1 htime]
      exact hnow

theorem Holds.wait (h : Holds refresh sets run) (time : Nat) : Holds refresh sets (run.step (.wait time)) := by
  rw [step_wait]
  refine { h with missing := fun refreshed hr => ?_ }
  obtain ⟨hnow, hmissing⟩ := h.missing refreshed hr
  exact ⟨Nat.le_trans hnow (Nat.le_add_right _ _), hmissing⟩

/-! ## Questions -/

/-- The snapshot that an answer shows is a true past state. -/
theorem Holds.shown (h : Holds refresh sets run) :
    run.cache.snapshot.version ≤ run.cache.ready.snapshot.version ∧ run.cache.ready.snapshot.version ≤ sets.length ∧
      run.cache.ready.snapshot.config = configAt sets run.cache.ready.snapshot.version ∧
      (run.cache.isFresh = false → run.cache.ready.snapshot.version = sets.length) := by
  cases hf : run.cache.isFresh with
  | true =>
    rw [CachedStore.ready_of_isFresh hf]
    exact ⟨Nat.le_refl _, h.known, h.config, fun hfalse => by cases hfalse⟩
  | false =>
    have hversion : (run.cache.inner.store.changesSince run.cache.snapshot.version).version = sets.length := by
      rw [h.inner, MemoryStore.version_changesSince, Nat.max_eq_right h.known]
    rw [CachedStore.ready_of_not_isFresh hf]
    simp only [Snapshot.update, hversion]
    refine ⟨h.known, Nat.le_refl _, ?_, fun _ => trivial⟩
    rw [h.inner, h.config, MemoryStore.insertAll_changesSince h.known, configAt_of_le (Nat.le_refl _)]

/-- While the snapshot is good, it was brought up to date within the refresh interval. -/
theorem Holds.covers (h : Holds refresh sets run) {place time : Nat} (htime : run.setTimes[place]? = some time)
    (hold : time + refresh ≤ run.cache.now) : place < run.cache.ready.snapshot.version := by
  obtain ⟨hle, -, -, hall⟩ := h.shown
  have hplace := (List.getElem?_eq_some_iff.1 htime).1
  cases hf : run.cache.isFresh with
  | false =>
    rw [hall hf, ← h.times]
    exact hplace
  | true =>
    refine Nat.lt_of_lt_of_le (Nat.lt_of_not_le fun hmissed => ?_) hle
    obtain ⟨refreshed, hr, hfresh⟩ := CachedStore.isFresh_iff.1 hf
    obtain ⟨hnow, hmissing⟩ := h.missing refreshed hr
    have hmem : time ∈ run.setTimes.drop run.cache.snapshot.version := by
      refine List.mem_iff_getElem?.2 ⟨place - run.cache.snapshot.version, ?_⟩
      rw [List.getElem?_drop, Nat.add_sub_cancel' hmissed, htime]
    have hle := hmissing time hmem
    rw [h.interval] at hfresh
    omega

/-- Before the cache is brought up to date again, the refresh interval has passed. -/
theorem Holds.overdue (h : Holds refresh sets run) (hf : run.cache.isFresh = false) :
    ∀ time ∈ run.refreshTimes, time + refresh ≤ run.cache.now := by
  intro time htime
  obtain ⟨last, hlast, hle⟩ := h.refreshed time htime
  have hnow := (h.missing last hlast).1
  have hpassed : ¬run.cache.now - last < run.cache.refresh := fun hlt => by
    have hfresh := CachedStore.isFresh_iff.2 ⟨last, hlast, hlt⟩
    rw [hf] at hfresh
    cases hfresh
  rw [h.interval] at hpassed
  omega

/-- The cache is brought up to date. -/
theorem Holds.update (h : Holds refresh sets run) (hf : run.cache.isFresh = false) :
    Holds refresh sets { run with cache := run.cache.ready, refreshTimes := run.refreshTimes ++ [run.cache.now] } := by
  obtain ⟨hle, hknown, hconfig, hall⟩ := h.shown
  have hready := CachedStore.ready_of_not_isFresh hf
  have hnow : run.cache.ready.now = run.cache.now := by rw [hready]
  have hdone : run.cache.ready.snapshot.refreshed = some run.cache.now := by
    rw [hready]
    rfl
  refine
    { interval := ?_, inner := ?_, times := h.times, known := hknown, config := hconfig, missing := ?_, answered := ?_,
      refreshed := ?_, spaced := ?_ }
  · rw [hready]
    exact h.interval
  · rw [hready]
    exact h.inner
  · intro refreshed hr
    cases hdone.symm.trans hr
    refine ⟨Nat.le_of_eq hnow.symm, fun time htime => ?_⟩
    have hnone : run.setTimes.drop run.cache.ready.snapshot.version = [] := by
      rw [hall hf, ← h.times, List.drop_length]
    rw [hnone] at htime
    cases htime
  · exact fun exchange hmem h0 => Nat.le_trans (h.answered exchange hmem h0) hle
  · intro time htime
    refine ⟨run.cache.now, hdone, ?_⟩
    rcases List.mem_append.1 htime with htime | htime
    · exact Nat.le_trans (Nat.le_add_right _ _) (h.overdue hf time htime)
    · exact Nat.le_of_eq (List.mem_singleton.1 htime)
  · refine List.pairwise_append.2 ⟨h.spaced, List.pairwise_singleton _ _, fun time htime now hnow => ?_⟩
    rw [List.mem_singleton.1 hnow]
    exact h.overdue hf time htime

/-- A question and its answer. -/
theorem Holds.exchange (h : Holds refresh sets run) (exchange : Exchange)
    (hle : exchange.asked = 0 → exchange.answer.version ≤ run.cache.snapshot.version) :
    Holds refresh sets { run with exchanges := run.exchanges ++ [exchange] } := by
  refine { h with answered := fun other hmem => ?_ }
  rcases List.mem_append.1 hmem with hmem | hmem
  · exact h.answered other hmem
  · rw [List.mem_singleton.1 hmem]
    exact hle

theorem Holds.ask (h : Holds refresh sets run) (version : Nat) : Holds refresh sets (run.step (.ask version)) := by
  cases hanswers : run.cache.answersFor version with
  | false =>
    have hne : version ≠ 0 := by
      rintro rfl
      cases hanswers
    have hnoted : Holds refresh sets { run with
        cache := { run.cache with inner := run.cache.inner.note version } } := { h with inner := h.inner }
    rw [step_ask_of_handed_on run hanswers]
    exact hnoted.exchange _ fun h0 => absurd h0 hne
  | true =>
    rw [step_ask_of_answered run hanswers]
    cases hf : run.cache.isFresh with
    | false => exact (h.update hf).exchange _ fun _ => Nat.le_refl _
    | true =>
      rw [CachedStore.ready_of_isFresh hf, if_pos rfl, List.append_nil]
      exact h.exchange _ fun _ => Nat.le_refl _

theorem holds_after (refresh : Nat) (events : List Event) :
    Holds refresh (changes events) (after refresh events) := by
  induction events using List.reverseRecOn with
  | nil => exact holds_initial refresh
  | append_singleton events event ih =>
    rw [after_append, changes, List.filterMap_append]
    cases event with
    | set key value => exact ih.set key value
    | setInner key value => exact ih.set key value
    | wait time => exact (List.append_nil (changes events)).symm ▸ ih.wait time
    | ask version => exact (List.append_nil (changes events)).symm ▸ ih.ask version

/-! ## What clients see -/

/-- Who knows the configuration at a version and adds what a question about it answers has the configuration
at the answered version. -/
theorem Holds.insertAll_answer (h : Holds refresh sets run) (version : Nat) :
    (configAt sets version).insertAll (run.answer version).entries = configAt sets (run.answer version).version ∧
      version ≤ (run.answer version).version := by
  obtain ⟨hle, -, hconfig, -⟩ := h.shown
  rw [answer, CachedStore.run_changesSince]
  cases hanswers : run.cache.answersFor version with
  | true =>
    -- The whole configuration is answered, to someone who knows nothing or what the snapshot had.
    have hversion : version ≤ run.cache.ready.snapshot.version := by
      simp only [CachedStore.answersFor, Bool.or_eq_true, beq_iff_eq] at hanswers
      omega
    rw [if_pos rfl]
    exact ⟨by rw [hconfig, insertAll_configAt hversion], hversion⟩
  | false =>
    rw [if_neg Bool.false_ne_true, CachedStore.run_askInner, h.inner, MemoryStore.version_changesSince]
    refine ⟨?_, Nat.le_max_left _ _⟩
    by_cases hknown : version ≤ sets.length
    · rw [MemoryStore.insertAll_changesSince hknown, Nat.max_eq_right hknown, configAt_of_le (Nat.le_refl _)]
    · have hpast := Nat.le_of_not_le hknown
      rw [MemoryStore.entries_changesSince_of_le hpast, Nat.max_eq_left hpast]
      rfl

/-- Whoever asks a cache for the whole configuration gets the one at some version. The version never goes down,
and has every change older than the refresh interval, or every change when the store behind the cache is asked for the
answer. The cache does not ask it on its own twice within the interval: what it hands on are the questions about other
versions than that of its snapshot, and these leave the snapshot as it is. A client that adds the answer about its version
to the configuration of that version has the configuration of the answered version. That questions are noted makes no
difference for the answers. -/
theorem cache_shows_true_past (refresh : Nat) (events : List Event) (version : Nat) :
    let run := after refresh events
    let sets := changes events
    let answer := run.answer version
    let asks := (Event.ask version).asks run.cache
    (version = 0 →
      answer.version ≤ sets.length ∧
      answer.entries = configAt sets answer.version ∧
      (∀ exchange ∈ run.exchanges, exchange.asked = 0 → exchange.answer.version ≤ answer.version) ∧
      (∀ place time, run.setTimes[place]? = some time → time + refresh ≤ run.cache.now → place < answer.version) ∧
      (asks ≠ [] → answer.version = sets.length)) ∧
    run.refreshTimes.Pairwise (fun earlier later => earlier + refresh ≤ later) ∧
    (version ≠ 0 → version ≠ run.cache.snapshot.version →
      asks = [version] ∧ (run.step (.ask version)).cache.snapshot = run.cache.snapshot) ∧
    (configAt sets version).insertAll answer.entries = configAt sets answer.version ∧
    version ≤ answer.version ∧
    ((Store.changesSince version).run run.cache.unrecorded).1 = answer := by
  intro run sets answer asks
  have h : Holds refresh sets run := holds_after refresh events
  have hasks : asks = if run.cache.answersFor version then
      if run.cache.isFresh then [] else [run.cache.snapshot.version] else [version] := asks_ask run.cache version
  obtain ⟨hmerged, hversion⟩ := h.insertAll_answer version
  have hunrecorded := congrArg Prod.fst (CachedStore.run_changesSince_unrecorded run.cache version)
  refine ⟨?_, h.spaced, fun hne hother => ?_, hmerged, hversion, hunrecorded⟩
  · rintro rfl
    obtain ⟨hle, hknown, hconfig, hall⟩ := h.shown
    have hanswer : answer = ⟨run.cache.ready.snapshot.version, run.cache.ready.snapshot.config⟩ :=
      congrArg Prod.fst (CachedStore.run_changesSince run.cache 0)
    rw [hanswer]
    refine ⟨hknown, hconfig, fun exchange hmem h0 => Nat.le_trans (h.answered exchange hmem h0) hle,
      fun place time => h.covers, fun hasked => hall (Bool.eq_false_iff.2 fun hf => hasked ?_)⟩
    rw [hasks, hf]
    rfl
  · have hhanded : run.cache.answersFor version = false := by simp [CachedStore.answersFor, hne, hother]
    rw [step_ask_of_handed_on run hhanded, hasks, hhanded]
    exact ⟨rfl, rfl⟩

/-- After the refresh interval, an answer has the change that the cache did not show before. -/
theorem cache_shows_change_after_interval :
    let run := after 10 [.setInner "a" "1", .ask 0, .set "a" "2", .ask 0, .wait 10]
    run.exchanges.map (fun exchange => exchange.answer.entries) = [[("a", "1")], [("a", "1")]] ∧
    (run.setTimes[1]? = some 0 ∧ 0 + 10 ≤ run.cache.now) ∧ 1 < (run.answer 0).version ∧
    run.cache.inner.asked = [0] ∧ run.refreshTimes = [0] ∧ (Event.ask 0).asks run.cache = [1] ∧
    (run.answer 0).version = 2 := by
  intro run
  obtain ⟨hanswer, -⟩ := cache_shows_true_past 10 [.setInner "a" "1", .ask 0, .set "a" "2", .ask 0, .wait 10] 0
  obtain ⟨-, -, -, hcovers, hrefreshed⟩ := hanswer rfl
  have htime : run.setTimes[1]? = some 0 ∧ 0 + 10 ≤ run.cache.now := by decide +kernel
  have hasks : (Event.ask 0).asks run.cache = [1] := by decide +kernel
  refine ⟨?_, htime, hcovers 1 0 htime.1 htime.2, ?_, ?_, hasks, hrefreshed (by rw [hasks]; simp)⟩
  · decide +kernel
  · decide +kernel
  · decide +kernel

end CacheRun

end DynamicConfig

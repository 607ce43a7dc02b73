import DynamicConfig.Store
/-!
# A cache in front of a store

The cache remembers the configuration as it was when it last asked for changes, and does so again only
after the refresh interval. It answers for the whole configuration and for what has changed since the
version it remembers; everything else goes on to the store behind it.
-/

namespace DynamicConfig

/-- A configuration as it was at some time. -/
structure Snapshot where
  version : Nat := 0
  config : Config := []
  /-- When it was brought up to date, if ever. -/
  refreshed : Option Nat := none
deriving Repr, DecidableEq

/-- A snapshot with changes added to it. -/
def Snapshot.update (now : Nat) (changes : Changes) (snapshot : Snapshot) : Snapshot where
  version := changes.version
  config := snapshot.config.insertAll changes.entries
  refreshed := some now

/-- A store and what is remembered of it. Times are in milliseconds. -/
structure CachedStore (σ : Type) where
  inner : σ
  /-- How long a snapshot is good for. -/
  refresh : Nat
  /-- The present time. -/
  now : Nat := 0
  snapshot : Snapshot := {}

namespace CachedStore

variable {σ : Type}

/-- Whether the snapshot is still good. It is so, too, when the clock has gone back. -/
def isFresh (cache : CachedStore σ) : Bool :=
  cache.snapshot.refreshed.any fun time => cache.now - time < cache.refresh

/-- Whether a question is about the snapshot: it is about the whole configuration, or about the changes
since the version of the snapshot. -/
def answersFor (cache : CachedStore σ) (version : Nat) : Bool :=
  version == 0 || version == cache.snapshot.version

/-- Sets the clock. -/
def setClock (now : Nat) (cache : CachedStore σ) : CachedStore σ :=
  { cache with now }

variable [Store σ]

/-- Asks the store behind the cache. -/
def askInner (version : Nat) : StateM (CachedStore σ) Changes :=
  modifyGet fun cache =>
    let (changes, inner) := (Store.changesSince version).run cache.inner
    (changes, { cache with inner })

/-- Brings the snapshot up to date. -/
def update : StateM (CachedStore σ) Unit := do
  let changes ← askInner (← get).snapshot.version
  modify fun cache => { cache with snapshot := cache.snapshot.update cache.now changes }

/-- The changes after a version. For the version of the snapshot these are all its entries. -/
def changesSince (version : Nat) : StateM (CachedStore σ) Changes := do
  if !(← get).answersFor version then askInner version
  else do
    if !(← get).isFresh then update
    let snapshot := (← get).snapshot
    return ⟨snapshot.version, snapshot.config⟩

instance : Store (CachedStore σ) where
  changesSince := changesSince
  set key value cache := { cache with inner := Store.set key value cache.inner }
  history key epoch cache := Store.history key epoch cache.inner

end CachedStore

end DynamicConfig

import DynamicConfig.Store
/-!
# A store in memory

It keeps every text that an entry ever had, with the version of the change that gave it.
-/

namespace DynamicConfig

/-- A text of an entry and the version of the change that gave the entry this text. -/
structure Revision where
  version : Nat
  value : String
deriving Repr, DecidableEq

/-- All revisions of all entries. -/
structure MemoryStore where
  /-- The version of the last change. -/
  version : Nat := 0
  /-- The revisions of each entry, the oldest first. -/
  revisions : Keyed (List Revision) := []
deriving Repr, DecidableEq

namespace MemoryStore

/-- The revisions of an entry, the oldest first. -/
def revisionsOf (store : MemoryStore) (key : String) : List Revision :=
  (store.revisions.get? key).getD []

/-- Gives an entry a new text. -/
def set (key value : String) (store : MemoryStore) : MemoryStore :=
  let version := store.version + 1
  { version, revisions := store.revisions.insert key (store.revisionsOf key ++ [⟨version, value⟩]) }

/-- A store of the given entries, which are set one after the other. -/
def ofEntries (entries : List (String × String)) : MemoryStore :=
  entries.foldl (fun store entry => store.set entry.1 entry.2) {}

/-- The last revision of each entry that has changed after a version. -/
def latestSince (version : Nat) (store : MemoryStore) : Keyed Revision :=
  store.revisions.filterMap fun entry => do
    let latest ← entry.2.getLast?
    guard (version < latest.version)
    return (entry.1, latest)

/-- The changes after a version. -/
def changesSince (version : Nat) (store : MemoryStore) : Changes :=
  let latest := store.latestSince version
  { version := latest.foldl (fun newest entry => max newest entry.2.version) version
    entries := latest.map fun entry => (entry.1, entry.2.value) }

/-- The first number that is too great for 64 bits. -/
def versionBound : Nat := 0x10000000000000000

/-- The version that an epoch stands for: an unsigned number of 64 bits in decimal digits, with a plus
sign or without; the empty epoch is the greatest one. -/
def readEpoch? (epoch : String) : Option Nat :=
  let digits := match epoch.toList with
    | '+' :: rest => rest
    | chars => chars
  if epoch.isEmpty then some (versionBound - 1)
  else if digits.isEmpty || !digits.all Char.isDigit then none
  else
    let version := digits.foldl (fun n c => 10 * n + (c.toNat - '0'.toNat)) 0
    if version < versionBound then some version else none

/-- The revisions of an entry up to a version, the newest first. -/
def revisionsUpTo (version : Nat) (key : String) (store : MemoryStore) : List Revision :=
  (store.revisionsOf key).reverse.filter (·.version ≤ version)

/-- The epoch right before the last of some revisions, which is the oldest. -/
def epochBefore (revisions : List Revision) : String :=
  match revisions.getLast? with
  | some oldest => toString (oldest.version - 1)
  | none => ""

/-- The texts of an entry up to an epoch. What is no epoch has none. -/
def history (key epoch : String) (store : MemoryStore) : History :=
  match readEpoch? epoch with
  | none => ⟨"", []⟩
  | some version =>
    let revisions := store.revisionsUpTo version key
    ⟨epochBefore revisions, revisions.map Revision.value⟩

instance : Store MemoryStore where
  changesSince version := return (← get).changesSince version
  set := set
  history := history

end MemoryStore

end DynamicConfig

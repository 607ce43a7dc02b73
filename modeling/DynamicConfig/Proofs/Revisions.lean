import DynamicConfig.Store.Memory
/-!
# What a change to a store in memory does

A change gives its entry the new text for every client, however much the client knows already, and leaves
the texts of the other entries as they are (`MemoryStore.get?_changesSince_set`). No order of the entries
and of their versions is assumed.
-/

namespace DynamicConfig

/-- A look-up in what is left of a table after one of its entries has changed, if the changed entry is
left. -/
theorem Keyed.get?_filterMap_insert {α β : Type} (f : α → Option β) {thing : α} {kept : β} (hf : f thing = some kept)
    (key other : String) (table : Keyed α) :
    get? other ((insert key thing table).filterMap fun entry => (f entry.2).map (entry.1, ·)) =
      if other = key then some kept
      else get? other (table.filterMap fun entry => (f entry.2).map (entry.1, ·)) := by
  induction table with
  | nil => simp [insert, get?, hf]
  | cons entry rest ih =>
    obtain ⟨k, x⟩ := entry
    simp only [insert]
    split
    · simp [get?, hf]
    · split
      -- The entry is replaced. It may have been left out before, and is not now.
      · rename_i hk
        subst hk
        by_cases ho : other = key <;> cases hx : f x <;> simp [get?, hf, hx, ho]
      · rename_i hk
        cases hx : f x with
        | none => simp [hx, ih]
        | some y =>
          by_cases ho : other = k
          · subst ho
            simp [get?, hx, Ne.symm hk]
          · simp [get?, hx, ho, ih]

namespace MemoryStore

/-- The last revision of an entry, if it is newer than a version. -/
def revisionSince? (version : Nat) (revisions : List Revision) : Option Revision :=
  revisions.getLast?.filter fun latest => version < latest.version

/-- The last text of an entry with the given revisions, if it was given after a version. -/
def textSince? (version : Nat) (revisions : List Revision) : Option String :=
  (revisions.getLast?.filter fun latest => version < latest.version).map Revision.value

variable (store : MemoryStore)

theorem latestSince_eq (version : Nat) :
    store.latestSince version =
      store.revisions.filterMap fun entry => (revisionSince? version entry.2).map (entry.1, ·) := by
  rw [latestSince]
  congr 1
  funext entry
  rw [revisionSince?]
  cases entry.2.getLast? with
  | none => rfl
  | some latest =>
    rw [Option.bind_eq_bind, Option.bind_some]
    by_cases hv : version < latest.version
    · have hguard : (guard (version < latest.version) : Option Unit) = some () := if_pos hv
      rw [hguard]
      simp [Option.filter_some, hv]
    · have hguard : (guard (version < latest.version) : Option Unit) = none := if_neg hv
      rw [hguard]
      simp [Option.filter_some, hv]

theorem entries_changesSince (version : Nat) :
    (store.changesSince version).entries =
      store.revisions.filterMap fun entry => (textSince? version entry.2).map (entry.1, ·) := by
  have hentries : (store.changesSince version).entries =
      (store.latestSince version).map fun entry => (entry.1, entry.2.value) := rfl
  rw [hentries, latestSince_eq, List.map_filterMap]
  simp only [Option.map_map]
  congr 1
  funext entry
  rw [textSince?, ← revisionSince?, Option.map_map]
  rfl

/-- The change is the newest one, so whoever asks gets its text. -/
theorem textSince?_append {version : Nat} (revisions : List Revision) {revision : Revision}
    (h : version < revision.version) : textSince? version (revisions ++ [revision]) = some revision.value := by
  rw [textSince?, List.getLast?_concat]
  simp [Option.filter_some, h]

theorem get?_changesSince_set {version : Nat} (h : version ≤ store.version) (key value other : String) :
    ((store.set key value).changesSince version).entries.get? other =
      if other = key then some value else (store.changesSince version).entries.get? other := by
  rw [entries_changesSince, entries_changesSince]
  exact Keyed.get?_filterMap_insert (textSince? version)
    (textSince?_append (store.revisionsOf key) (Nat.lt_succ_of_le h)) key other store.revisions

end MemoryStore

end DynamicConfig

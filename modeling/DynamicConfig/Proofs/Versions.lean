import DynamicConfig.Proofs.Revisions
import DynamicConfig.Proofs.Tables
import Mathlib.Data.List.Induction
/-!
# Versions

Change number `n` of a store in memory has version `n`, and the revisions of an entry are the changes of
that entry, in order (`MemoryStore.revisionsOf_ofEntries`). So the changes after a version say what is new
of every entry (`MemoryStore.get?_changesSince`), and whoever adds them to the configuration of that version
has the present one (`MemoryStore.insertAll_changesSince`).
-/

namespace DynamicConfig

/-- The configuration after the first changes of a list of them. -/
def configAt (sets : List (String × String)) (version : Nat) : Config :=
  Keyed.ofList (sets.take version)

theorem configAt_append_of_le {sets : List (String × String)} {version : Nat} (h : version ≤ sets.length)
    (later : List (String × String)) : configAt (sets ++ later) version = configAt sets version := by
  rw [configAt, configAt, List.take_append_of_le_length h]

theorem configAt_of_le {sets : List (String × String)} {version : Nat} (h : sets.length ≤ version) :
    configAt sets version = Keyed.ofList sets := by
  rw [configAt, List.take_of_length_le h]

/-- The revisions that changes, numbered from `first` on, give to an entry. -/
def revisionsFrom (first : Nat) (sets : List (String × String)) (key : String) : List Revision :=
  (sets.zipIdx first).filterMap fun change =>
    if change.1.1 = key then some ⟨change.2, change.1.2⟩ else none

variable {first : Nat} {sets : List (String × String)} {key : String}

theorem mem_revisionsFrom {revision : Revision} :
    revision ∈ revisionsFrom first sets key ↔
      first ≤ revision.version ∧ sets[revision.version - first]? = some (key, revision.value) := by
  rw [revisionsFrom, List.mem_filterMap]
  constructor
  · rintro ⟨⟨⟨k, value⟩, version⟩, hmem, hrevision⟩
    dsimp only at hrevision
    split at hrevision
    · rename_i hk
      subst hk
      cases hrevision
      exact List.mk_mem_zipIdx_iff_le_and_getElem?_sub.1 hmem
    · cases hrevision
  · rintro ⟨hle, hget⟩
    exact ⟨((key, revision.value), revision.version), List.mk_mem_zipIdx_iff_le_and_getElem?_sub.2 ⟨hle, hget⟩,
      if_pos rfl⟩

theorem version_lt_of_mem_revisionsFrom {revision : Revision} (h : revision ∈ revisionsFrom first sets key) :
    first ≤ revision.version ∧ revision.version < first + sets.length := by
  obtain ⟨hle, hget⟩ := mem_revisionsFrom.1 h
  have hlt := (List.getElem?_eq_some_iff.1 hget).1
  omega

theorem pairwise_revisionsFrom (first : Nat) (sets : List (String × String)) (key : String) :
    (revisionsFrom first sets key).Pairwise fun a b => a.version < b.version := by
  have hnumbers : ((sets.zipIdx first).map Prod.snd).Pairwise (· < ·) := by
    rw [List.zipIdx_map_snd]
    exact List.pairwise_lt_range' 1
  refine List.pairwise_filterMap.2 ((List.pairwise_map.1 hnumbers).imp fun {a b} hab c hc d hd => ?_)
  split at hc
  · split at hd
    · cases hc
      cases hd
      exact hab
    · cases hd
  · cases hc

theorem revisionsFrom_append (first : Nat) (sets later : List (String × String)) (key : String) :
    revisionsFrom first (sets ++ later) key =
      revisionsFrom first sets key ++ revisionsFrom (first + sets.length) later key := by
  rw [revisionsFrom, List.zipIdx_append, List.filterMap_append]
  rfl

/-- The present text of an entry is that of its last revision. -/
theorem get?_ofList (first : Nat) (sets : List (String × String)) (key : String) :
    (Keyed.ofList sets).get? key = (revisionsFrom first sets key).getLast?.map Revision.value := by
  induction sets using List.reverseRecOn with
  | nil => rfl
  | append_singleton sets change ih =>
    obtain ⟨k, value⟩ := change
    rw [Keyed.ofList_append, Keyed.get?_insert, ih, revisionsFrom_append, List.getLast?_append]
    by_cases hk : key = k
    · subst hk
      simp [revisionsFrom]
    · simp [revisionsFrom, hk, Ne.symm hk]

/-- A later configuration has a text for every entry of an earlier one. -/
theorem insertAll_configAt {earlier later : Nat} (h : earlier ≤ later) :
    (configAt sets earlier).insertAll (configAt sets later) = configAt sets later := by
  refine ((Keyed.sorted_ofList _).insertAll _).ext (Keyed.sorted_ofList _) fun key => ?_
  obtain ⟨since, hsince⟩ := List.take_prefix_take_left (l := sets) h
  have hget := get?_ofList 1 (sets.take later) key
  rw [← hsince, revisionsFrom_append, List.getLast?_append, Option.map_or, ← get?_ofList 1 (sets.take earlier),
    hsince] at hget
  unfold configAt
  rw [(Keyed.sorted_ofList _).get?_insertAll, hget, Option.or_assoc, Option.or_self]

namespace MemoryStore

variable (version : Nat)

/-! ## A store after some changes -/

theorem ofEntries_append (sets : List (String × String)) (change : String × String) :
    ofEntries (sets ++ [change]) = (ofEntries sets).set change.1 change.2 :=
  List.foldl_append

theorem version_ofEntries (sets : List (String × String)) : (ofEntries sets).version = sets.length := by
  induction sets using List.reverseRecOn with
  | nil => rfl
  | append_singleton sets change ih =>
    rw [ofEntries_append, List.length_append]
    exact congrArg (· + 1) ih

theorem sorted_ofEntries (sets : List (String × String)) : (ofEntries sets).revisions.Sorted := by
  induction sets using List.reverseRecOn with
  | nil => exact Keyed.sorted_nil
  | append_singleton sets change ih =>
    rw [ofEntries_append]
    exact ih.insert _ _

theorem revisionsOf_set (store : MemoryStore) (key value other : String) :
    (store.set key value).revisionsOf other =
      store.revisionsOf other ++ if key = other then [⟨store.version + 1, value⟩] else [] := by
  have hget := Keyed.get?_insert key other (store.revisionsOf key ++ [⟨store.version + 1, value⟩]) store.revisions
  rw [revisionsOf, set, hget]
  by_cases h : other = key
  · subst h
    simp
  · simp [revisionsOf, h, Ne.symm h]

/-- The revisions of an entry are its changes. -/
theorem revisionsOf_ofEntries (sets : List (String × String)) (key : String) :
    (ofEntries sets).revisionsOf key = revisionsFrom 1 sets key := by
  induction sets using List.reverseRecOn with
  | nil => rfl
  | append_singleton sets change ih =>
    rw [ofEntries_append, revisionsOf_set, ih, version_ofEntries, revisionsFrom_append, Nat.add_comm 1]
    by_cases h : change.1 = key <;> simp [revisionsFrom, h]

/-- Each change has a revision of its own. -/
theorem existsUnique_revision {sets : List (String × String)} {version : Nat} (h1 : 1 ≤ version)
    (h2 : version ≤ sets.length) :
    ∃! entry : String × Revision,
      entry.2 ∈ (ofEntries sets).revisionsOf entry.1 ∧ entry.2.version = version := by
  obtain ⟨⟨key, value⟩, hchange⟩ : ∃ change, sets[version - 1]? = some change :=
    ⟨sets[version - 1], List.getElem?_eq_getElem (by omega)⟩
  refine ⟨(key, ⟨version, value⟩), ⟨?_, rfl⟩, ?_⟩
  · rw [revisionsOf_ofEntries]
    exact mem_revisionsFrom.2 ⟨h1, hchange⟩
  · rintro ⟨other, ⟨number, text⟩⟩ ⟨hmem, rfl⟩
    rw [revisionsOf_ofEntries] at hmem
    obtain ⟨-, hother⟩ := mem_revisionsFrom.1 hmem
    rw [hchange] at hother
    cases hother
    rfl

/-! ## What has changed -/

/-- The greatest of some numbers and a first one, if it is known to be among them. -/
theorem foldl_max_eq {α : Type} {f : α → Nat} {things : List α} {start bound : Nat} (hstart : start ≤ bound)
    (hle : ∀ thing ∈ things, f thing ≤ bound) (h : start = bound ∨ ∃ thing ∈ things, f thing = bound) :
    things.foldl (fun newest thing => max newest (f thing)) start = bound := by
  induction things generalizing start with
  | nil =>
    rcases h with h | ⟨_, hmem, _⟩
    · exact h
    · cases hmem
  | cons thing rest ih =>
    obtain ⟨hthing, hrest⟩ := List.forall_mem_cons.1 hle
    refine ih (Nat.max_le.2 ⟨hstart, hthing⟩) hrest ?_
    rcases h with rfl | ⟨other, hmem, rfl⟩
    · exact .inl (Nat.max_eq_left hthing)
    · rcases List.mem_cons.1 hmem with rfl | hmem
      · exact .inl (Nat.max_eq_right hstart)
      · exact .inr ⟨other, hmem, rfl⟩

theorem get?_latestSince (sets : List (String × String)) (key : String) :
    ((ofEntries sets).latestSince version).get? key =
      revisionSince? version (revisionsFrom 1 sets key) := by
  rw [latestSince_eq, (sorted_ofEntries sets).get?_filterMap, ← revisionsOf_ofEntries, revisionsOf]
  cases (ofEntries sets).revisions.get? key <;> rfl

theorem sorted_latestSince (sets : List (String × String)) : ((ofEntries sets).latestSince version).Sorted := by
  rw [latestSince_eq]
  exact (sorted_ofEntries sets).filterMap _

theorem mem_latestSince {key : String} {revision : Revision} :
    (key, revision) ∈ (ofEntries sets).latestSince version ↔
      (revisionsFrom 1 sets key).getLast? = some revision ∧ version < revision.version := by
  rw [(sorted_latestSince version sets).mem_iff, get?_latestSince, revisionSince?,
    Option.filter_eq_some_iff, decide_eq_true_iff]

/-- The answered version is that of the last change, unless the client knows a later one. -/
theorem version_changesSince (sets : List (String × String)) :
    ((ofEntries sets).changesSince version).version = max version sets.length := by
  refine foldl_max_eq (Nat.le_max_left _ _) ?_ ?_
  · rintro ⟨key, revision⟩ hmem
    obtain ⟨hlast, -⟩ := (mem_latestSince version).1 hmem
    have hlt := version_lt_of_mem_revisionsFrom (List.mem_of_getLast? hlast)
    dsimp only
    omega
  · by_cases h : sets.length ≤ version
    · exact .inl (Nat.max_eq_left h).symm
    · -- The last change is news to the client, and its version is the greatest.
      right
      have hne : sets ≠ [] := by
        rintro rfl
        exact h (Nat.zero_le _)
      obtain ⟨before, ⟨key, value⟩, rfl⟩ : ∃ before change, sets = before ++ [change] :=
        ⟨_, _, (List.dropLast_concat_getLast hne).symm⟩
      have hlength : (before ++ [(key, value)]).length = 1 + before.length := by
        rw [List.length_append, List.length_singleton, Nat.add_comm]
      rw [hlength] at h ⊢
      refine ⟨(key, ⟨1 + before.length, value⟩), (mem_latestSince version).2 ⟨?_, ?_⟩, ?_⟩
      · rw [revisionsFrom_append, List.getLast?_append]
        simp [revisionsFrom]
      · dsimp only
        omega
      · dsimp only
        omega

theorem sorted_changesSince (sets : List (String × String)) :
    ((ofEntries sets).changesSince version).entries.Sorted := by
  rw [entries_changesSince]
  exact (sorted_ofEntries sets).filterMap _

/-- The changes after a version have the last text of each entry that was changed after it. -/
theorem get?_changesSince (sets : List (String × String)) (key : String) :
    ((ofEntries sets).changesSince version).entries.get? key = textSince? version (revisionsFrom 1 sets key) := by
  rw [entries_changesSince, (sorted_ofEntries sets).get?_filterMap, ← revisionsOf_ofEntries, revisionsOf]
  cases (ofEntries sets).revisions.get? key <;> rfl

theorem mem_changesSince {key value : String} :
    (key, value) ∈ ((ofEntries sets).changesSince version).entries ↔
      ∃ latest, ((ofEntries sets).revisionsOf key).getLast? = some latest ∧ version < latest.version ∧
        latest.value = value := by
  rw [(sorted_changesSince version sets).mem_iff, get?_changesSince, revisionsOf_ofEntries, textSince?,
    Option.map_eq_some_iff]
  simp only [Option.filter_eq_some_iff, decide_eq_true_iff, and_assoc]

/-- Texts that later changes give to an entry come after those that it had at a version. -/
theorem textSince?_append_of_le {earlier later : List Revision} (he : ∀ revision ∈ earlier, revision.version ≤ version)
    (hl : ∀ revision ∈ later, version < revision.version) :
    textSince? version (earlier ++ later) = later.getLast?.map Revision.value := by
  rw [textSince?, List.getLast?_append]
  cases hlast : later.getLast? with
  | some latest => simp [Option.filter_some, hl latest (List.mem_of_getLast? hlast)]
  | none =>
    cases hold : earlier.getLast? with
    | none => rfl
    | some latest =>
      have hle := he latest (List.mem_of_getLast? hold)
      simp [Option.filter_some, Nat.not_lt.2 hle]

/-- Who knows a configuration and adds what has changed since has the present one. -/
theorem insertAll_changesSince {sets : List (String × String)} {version : Nat} (h : version ≤ sets.length) :
    (configAt sets version).insertAll ((ofEntries sets).changesSince version).entries = Keyed.ofList sets := by
  refine ((Keyed.sorted_ofList _).insertAll _).ext (Keyed.sorted_ofList _) fun key => ?_
  have hsplit := revisionsFrom_append 1 (sets.take version) (sets.drop version) key
  rw [List.take_append_drop, List.length_take_of_le h] at hsplit
  have hearlier : ∀ revision ∈ revisionsFrom 1 (sets.take version) key, revision.version ≤ version := by
    intro revision hmem
    have hlt := version_lt_of_mem_revisionsFrom hmem
    rw [List.length_take_of_le h] at hlt
    omega
  have hlater : ∀ revision ∈ revisionsFrom (1 + version) (sets.drop version) key, version < revision.version := by
    intro revision hmem
    have hlt := version_lt_of_mem_revisionsFrom hmem
    omega
  rw [(sorted_changesSince version sets).get?_insertAll, get?_changesSince, get?_ofList 1 sets, hsplit,
    textSince?_append_of_le version hearlier hlater, List.getLast?_append, Option.map_or,
    ← get?_ofList 1]

/-- For a client that knows a later version than there is, nothing has changed. -/
theorem entries_changesSince_of_le {sets : List (String × String)} {version : Nat} (h : sets.length ≤ version) :
    ((ofEntries sets).changesSince version).entries = [] := by
  refine List.eq_nil_iff_forall_not_mem.2 ?_
  rintro ⟨key, value⟩ hmem
  obtain ⟨latest, hlast, hlt, -⟩ := (mem_changesSince version).1 hmem
  rw [revisionsOf_ofEntries] at hlast
  have hbound := version_lt_of_mem_revisionsFrom (List.mem_of_getLast? hlast)
  omega

end MemoryStore

end DynamicConfig

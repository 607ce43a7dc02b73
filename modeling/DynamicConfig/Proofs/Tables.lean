import DynamicConfig.Keyed
import Mathlib.Data.List.Nodup
/-!
# Tables in the order of their keys

`insert` keeps the keys in strict order, so a key has one thing, and two tables in order that answer every
look-up alike are the same table (`Keyed.Sorted.ext`). What `insertAll` does to a look-up follows from what
`insert` does (`Keyed.Sorted.get?_insertAll`).
-/

namespace DynamicConfig.Keyed

variable {α β : Type} {table other : Keyed α}

/-- The keys stand in strict order. -/
def Sorted (table : Keyed α) : Prop :=
  table.Pairwise fun a b => a.1 < b.1

instance (table : Keyed α) : Decidable table.Sorted :=
  inferInstanceAs (Decidable (table.Pairwise fun a b => a.1 < b.1))

theorem lt_of_not_lt {a b : String} (h : ¬ a < b) (hne : a ≠ b) : b < a := by
  rcases Decidable.em (b < a) with hlt | hge
  · exact hlt
  · exact absurd (String.le_antisymm (String.not_lt.1 hge) (String.not_lt.1 h)) hne

theorem mem_insert {key : String} {thing : α} {entry : String × α} (h : entry ∈ insert key thing table) :
    entry = (key, thing) ∨ entry ∈ table := by
  induction table with
  | nil => exact .inl (List.mem_singleton.1 h)
  | cons first rest ih =>
    obtain ⟨k, x⟩ := first
    simp only [insert] at h
    split at h
    · exact List.mem_cons.1 h
    · split at h
      · rcases List.mem_cons.1 h with rfl | h
        · exact .inl rfl
        · exact .inr (List.mem_cons_of_mem _ h)
      · rcases List.mem_cons.1 h with rfl | h
        · exact .inr List.mem_cons_self
        · exact (ih h).imp_right (List.mem_cons_of_mem _)

theorem sorted_nil : Sorted ([] : Keyed α) := .nil

theorem Sorted.insert (h : table.Sorted) (key : String) (thing : α) : (table.insert key thing).Sorted := by
  induction table with
  | nil => exact List.pairwise_singleton _ _
  | cons first rest ih =>
    obtain ⟨k, x⟩ := first
    obtain ⟨hfirst, hrest⟩ := List.pairwise_cons.1 h
    simp only [Keyed.insert]
    split
    · rename_i hlt
      refine List.pairwise_cons.2 ⟨fun entry hentry => ?_, h⟩
      rcases List.mem_cons.1 hentry with rfl | hentry
      · exact hlt
      · exact String.lt_trans hlt (hfirst entry hentry)
    · rename_i hge
      split
      · rename_i heq
        subst heq
        exact List.pairwise_cons.2 ⟨hfirst, hrest⟩
      · rename_i hne
        refine List.pairwise_cons.2 ⟨fun entry hentry => ?_, ih hrest⟩
        rcases mem_insert hentry with rfl | hentry
        · exact lt_of_not_lt hge hne
        · exact hfirst entry hentry

theorem Sorted.insertAll (h : table.Sorted) (things : List (String × α)) : (table.insertAll things).Sorted := by
  induction things generalizing table with
  | nil => exact h
  | cons thing rest ih => exact ih (h.insert thing.1 thing.2)

theorem sorted_ofList (things : List (String × α)) : (ofList things).Sorted :=
  sorted_nil.insertAll things

theorem Sorted.filterMap (h : table.Sorted) (f : α → Option β) :
    Sorted (table.filterMap fun entry => (f entry.2).map (entry.1, ·)) := by
  refine List.pairwise_filterMap.2 (h.imp fun {a b} hab c hc d hd => ?_)
  obtain ⟨x, -, rfl⟩ := Option.map_eq_some_iff.1 hc
  obtain ⟨y, -, rfl⟩ := Option.map_eq_some_iff.1 hd
  exact hab

theorem Sorted.nodup_keys (h : table.Sorted) : (table.map Prod.fst).Nodup := by
  refine List.Pairwise.imp (fun {a b} hab heq => ?_) (List.pairwise_map.2 h)
  subst heq
  exact String.lt_irrefl _ hab

/-! ## Look-ups -/

theorem get?_eq_none {key : String} (h : ∀ entry ∈ table, entry.1 ≠ key) : get? key table = none := by
  induction table with
  | nil => rfl
  | cons first rest ih =>
    obtain ⟨hfirst, hrest⟩ := List.forall_mem_cons.1 h
    rw [get?, if_neg (Ne.symm hfirst), ih hrest]

/-- In a table in order, the entries are what look-ups find. -/
theorem Sorted.mem_iff (h : table.Sorted) {key : String} {thing : α} :
    (key, thing) ∈ table ↔ get? key table = some thing := by
  induction table with
  | nil => simp [get?]
  | cons first rest ih =>
    obtain ⟨k, x⟩ := first
    obtain ⟨hfirst, hrest⟩ := List.pairwise_cons.1 h
    rw [get?, List.mem_cons, ih hrest]
    split
    · rename_i heq
      subst heq
      have hnone : get? key rest = none :=
        get?_eq_none fun entry hentry heq => String.lt_irrefl _ (heq ▸ hfirst entry hentry)
      simp [hnone, eq_comm]
    · rename_i hne
      simp [hne]

/-- Two tables in order with the same look-ups are the same. -/
theorem Sorted.ext (h : table.Sorted) (ho : other.Sorted) (hget : ∀ key, get? key table = get? key other) :
    table = other := by
  have hasymm (a b : String × α) (hab : a.1 < b.1) (hba : b.1 < a.1) : a = b :=
    absurd (String.lt_trans hab hba) (String.lt_irrefl _)
  have hnodup {t : Keyed α} (ht : t.Sorted) : t.Nodup := List.Nodup.of_map Prod.fst ht.nodup_keys
  refine List.Perm.eq_of_pairwise (fun a b _ _ => hasymm a b) h ho
    ((List.perm_ext_iff_of_nodup (hnodup h) (hnodup ho)).2 fun entry => ?_)
  obtain ⟨key, thing⟩ := entry
  rw [h.mem_iff, ho.mem_iff, hget]

theorem Sorted.get?_filterMap (h : table.Sorted) (f : α → Option β) (key : String) :
    get? key (table.filterMap fun entry => (f entry.2).map (entry.1, ·)) = (get? key table).bind f := by
  refine Option.ext fun thing => ?_
  rw [← (h.filterMap f).mem_iff, List.mem_filterMap, Option.bind_eq_some_iff]
  constructor
  · rintro ⟨⟨k, x⟩, hmem, hx⟩
    obtain ⟨y, hy, heq⟩ := Option.map_eq_some_iff.1 hx
    cases heq
    exact ⟨x, h.mem_iff.1 hmem, hy⟩
  · rintro ⟨x, hx, hthing⟩
    exact ⟨(key, x), h.mem_iff.2 hx, by simp [hthing]⟩

/-- Things that are added with their keys in order are found, and others where they were. -/
theorem Sorted.get?_insertAll {things : Keyed α} (h : things.Sorted) (key : String) (table : Keyed α) :
    get? key (table.insertAll things) = (get? key things).or (get? key table) := by
  induction things generalizing table with
  | nil => rfl
  | cons thing rest ih =>
    obtain ⟨k, x⟩ := thing
    obtain ⟨hfirst, hrest⟩ := List.pairwise_cons.1 h
    have hstep : get? key (table.insertAll ((k, x) :: rest)) =
        (get? key rest).or (get? key (table.insert k x)) := ih hrest (table.insert k x)
    rw [hstep, get?_insert, get?]
    split
    · rename_i heq
      subst heq
      have hnone : get? key rest = none :=
        get?_eq_none fun entry hentry heq => String.lt_irrefl _ (heq ▸ hfirst entry hentry)
      simp [hnone]
    · rfl

/-- Things with their keys in order are their own table. -/
theorem Sorted.ofList_eq (h : table.Sorted) : ofList table = table := by
  refine (sorted_ofList table).ext h fun key => ?_
  have hget : get? key (ofList table) = (get? key table).or none := h.get?_insertAll key []
  rw [hget, Option.or_none]

theorem ofList_append (things : List (String × α)) (key : String) (thing : α) :
    ofList (things ++ [(key, thing)]) = (ofList things).insert key thing :=
  List.foldl_append

end DynamicConfig.Keyed

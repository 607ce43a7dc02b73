/-!
# Things by their keys

Keys are texts, in the order of their characters; each key has one thing. `insert` keeps the keys in
order, and what it does to a look-up is `get?_insert`.
-/

namespace DynamicConfig

/-- Things by their keys, in the order of the keys. -/
abbrev Keyed (α : Type) := List (String × α)

namespace Keyed

variable {α : Type}

/-- The thing of a key. -/
def get? (key : String) : Keyed α → Option α
  | [] => none
  | (k, x) :: rest => if key = k then some x else get? key rest

/-- Gives a key a thing, in place of the one it has. -/
def insert (key : String) (thing : α) : Keyed α → Keyed α
  | [] => [(key, thing)]
  | (k, x) :: rest =>
    if key < k then (key, thing) :: (k, x) :: rest
    else if key = k then (key, thing) :: rest
    else (k, x) :: insert key thing rest

/-- Gives things to several keys, one after the other. -/
def insertAll (things : List (String × α)) (table : Keyed α) : Keyed α :=
  things.foldl (fun table entry => insert entry.1 entry.2 table) table

/-- The table of the given things; of two with one key the later one counts. -/
def ofList (things : List (String × α)) : Keyed α :=
  insertAll things []

theorem get?_insert (key other : String) (thing : α) (table : Keyed α) :
    get? other (insert key thing table) = if other = key then some thing else get? other table := by
  induction table with
  | nil => simp [insert, get?]
  | cons entry rest ih =>
    obtain ⟨k, x⟩ := entry
    simp only [insert]
    split
    · simp [get?]
    · split
      · rename_i h
        subst h
        by_cases ho : other = key <;> simp [get?, ho]
      · by_cases ho : other = k
        · subst ho
          have : other ≠ key := fun h => by simp_all
          simp [get?, this]
        · simp [get?, ho, ih]

end Keyed

end DynamicConfig

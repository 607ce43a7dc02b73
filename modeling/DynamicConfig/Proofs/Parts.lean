import DynamicConfig.Proofs.Keys
import DynamicConfig.Proofs.WholeNumbers
import DynamicConfig.Value.Plain
/-!
# The values of JSON arguments

A JSON array or object becomes an object of its entries, in which each of them is found under its key
(`Value.MadeFrom.exists_fieldOf?`). Values that are made from one JSON value differ in the identities of their objects
alone, so they are equal (`Json.Proper.beq`).
-/

namespace DynamicConfig

namespace Json

/-- A JSON value as a text has it: no number is a `NaN`, and no two fields of an object have one key. -/
inductive Proper : Json → Prop
  | null : Proper null
  | bool (b : Bool) : Proper (bool b)
  | integer (n : Int) : Proper (integer n)
  | number {x : Float} (h : x.isNaN = false) : Proper (number x)
  | string (text : String) : Proper (string text)
  | array {items : List Json} (h : ∀ item ∈ items, Proper item) : Proper (array items)
  | object {fields : List (String × Json)} (hkeys : (fields.map Prod.fst).Nodup)
    (h : ∀ field ∈ fields, Proper field.2) : Proper (object fields)

/-- Arrays and objects. -/
inductive IsContainer : Json → Prop
  | array (items : List Json) : IsContainer (array items)
  | object (fields : List (String × Json)) : IsContainer (object fields)

/-- The entries of a container by the keys that its object has for them. -/
def entries : Json → List (Value × Json)
  | array items => items.zipIdx.map fun item => (.number (Float.ofNat item.2), item.1)
  | object fields => fields.map fun field => (.string field.1, field.2)
  | _ => []

end Json

namespace Value

/-- The values of entries, with their keys. -/
def ofEntries : List (Value × Json) → Fresh (List (Value × Value))
  | [] => return []
  | (key, json) :: rest => do
    let value ← ofJson json
    return (key, value) :: (← ofEntries rest)

theorem ofJsonItems_eq (items : List Json) (place : Nat) :
    ofJsonItems place items = ofEntries ((items.zipIdx place).map fun item => (.number (Float.ofNat item.2), item.1)) := by
  induction items generalizing place with
  | nil => rfl
  | cons item rest ih =>
    rw [ofJsonItems, ih]
    rfl

theorem ofJsonFields_eq (fields : List (String × Json)) :
    ofJsonFields fields = ofEntries (fields.map fun field => (.string field.1, field.2)) := by
  induction fields with
  | nil => rfl
  | cons field rest ih =>
    rw [ofJsonFields, ih]
    rfl

/-- The value is that of the JSON value, with some identities. -/
def MadeFrom (json : Json) (value : Value) : Prop :=
  ∃ next, value = ((ofJson json).run next).1

/-- A pair of the key of an entry and a value made from it. -/
def PairOf (entry : Value × Json) (pair : Value × Value) : Prop :=
  pair.1 = entry.1 ∧ MadeFrom entry.2 pair.2

theorem forall₂_ofEntries (entries : List (Value × Json)) (next : Nat) :
    List.Forall₂ PairOf entries ((ofEntries entries).run next).1 := by
  induction entries generalizing next with
  | nil => exact .nil
  | cons entry rest ih => exact .cons ⟨rfl, next, rfl⟩ (ih ((ofJson entry.2).run next).2)

/-- A container becomes an object of pairs of its entries. -/
theorem MadeFrom.exists_pairs {json : Json} {value : Value} (h : MadeFrom json value) (hjson : json.IsContainer) :
    ∃ id pairs, value = .object id (fieldsOf pairs) ∧ List.Forall₂ PairOf json.entries pairs := by
  obtain ⟨next, rfl⟩ := h
  have hmade (entries : List (Value × Json)) :
      ((ofEntries entries >>= ofPairs).run next).1 =
        .object ((ofEntries entries).run next).2 (fieldsOf ((ofEntries entries).run next).1) := rfl
  cases hjson with
  | array items =>
    rw [ofJson, ofJsonItems_eq, hmade]
    exact ⟨_, _, rfl, forall₂_ofEntries _ next⟩
  | object fields =>
    rw [ofJson, ofJsonFields_eq, hmade]
    exact ⟨_, _, rfl, forall₂_ofEntries _ next⟩

/-! ## Copies -/

/-- A key that there may be in JSON: a text, or the place of an item. -/
inductive IsJsonKey : Value → Prop
  | text (name : String) : IsJsonKey (string name)
  | place (n : Nat) : IsJsonKey (number (Float.ofNat n))

theorem IsJsonKey.beq_self {key : Value} (h : IsJsonKey key) : (key == key) = true := by
  cases h with
  | text name => exact beq_iff_equal.2 (.string name)
  | place n => exact (nanFree_number (Decimal.isNaN_ofNat n)).beq_self

theorem IsJsonKey.stored {key : Value} (h : IsJsonKey key) (objects : Objects) : key.Stored objects := by
  cases h <;> simp [Stored, parts]

theorem isJsonKey_of_mem_entries {json : Json} {entry : Value × Json} (h : entry ∈ json.entries) :
    IsJsonKey entry.1 := by
  cases json with
  | array items =>
    obtain ⟨item, -, rfl⟩ := List.mem_map.1 h
    exact .place item.2
  | object fields =>
    obtain ⟨field, -, rfl⟩ := List.mem_map.1 h
    exact .text field.1
  | _ => cases h

/-- The keys of pairs are those of the entries. -/
theorem isJsonKey_of_pairs {json : Json} {pairs : List (Value × Value)} (h : List.Forall₂ PairOf json.entries pairs) :
    ∀ pair ∈ pairs, IsJsonKey pair.1 := by
  intro pair hpair
  obtain ⟨entry, hentry, hkey, -⟩ := mem_of_forall₂ h pair hpair
  exact hkey ▸ isJsonKey_of_mem_entries hentry

/-- Pairs of the same entries are equal, if the values that are made from one entry are. -/
theorem sameFields_of_entries {entries : List (Value × Json)} {xs ys : List (Value × Value)}
    (h : ∀ entry ∈ entries, ∀ {v w : Value}, MadeFrom entry.2 v → MadeFrom entry.2 w → (v == w) = true)
    (hxs : List.Forall₂ PairOf entries xs) (hys : List.Forall₂ PairOf entries ys) : SameFields xs ys := by
  induction hxs generalizing ys with
  | nil =>
    cases hys
    exact .nil
  | cons hx _ ih =>
    obtain ⟨hfirst, hrest⟩ := List.forall_mem_cons.1 h
    cases hys with
    | cons hy hys => exact .cons ⟨hx.1.trans hy.1.symm, hfirst hx.2 hy.2⟩ (ih hrest hys)

/-- Values that are made from one container are equal if those of its entries are. -/
theorem MadeFrom.beq_of_entries {json : Json} {v w : Value} (hv : MadeFrom json v) (hw : MadeFrom json w)
    (hjson : json.IsContainer)
    (h : ∀ entry ∈ json.entries, ∀ {v w : Value}, MadeFrom entry.2 v → MadeFrom entry.2 w → (v == w) = true) :
    (v == w) = true := by
  obtain ⟨id, pairs, rfl, hpairs⟩ := hv.exists_pairs hjson
  obtain ⟨id', others, rfl, hothers⟩ := hw.exists_pairs hjson
  have hkeys := isJsonKey_of_pairs hothers
  have hself (field : Value × Value) (hfield : field ∈ fieldsOf others) : (field.1 == field.1) = true := by
    obtain ⟨pair, hpair, heq⟩ := exists_fst_of_mem_fieldsOf hfield
    rw [heq]
    exact (hkeys pair hpair).beq_self
  have hdistinct : DistinctKeys (fieldsOf others) :=
    distinctKeys_fieldsOf fun pair hpair => (hkeys pair hpair).stored fun _ => []
  exact (sameFields_of_entries h hpairs hothers).fieldsOf.beq hdistinct hself id id'

/-! ## Look-ups -/

theorem equivalenceOn_isJsonKey : EquivalenceOn IsJsonKey where
  symm ha hb h := (equivalenceOn_stored fun _ => []).symm (ha.stored _) (hb.stored _) h
  trans ha hb hc h h' := (equivalenceOn_stored fun _ => []).trans (ha.stored _) (hb.stored _) (hc.stored _) h h'

/-- The field that was added last counts. -/
theorem EquivalenceOn.fieldOf?_insertField {P : Value → Prop} (hP : EquivalenceOn P) {key added : Value} (hkey : P key)
    (hadded : P added) (value : Value) {fields : List (Value × Value)} (hfields : ∀ field ∈ fields, P field.1) :
    fieldOf? (insertField added value fields) key = if key == added then some value else fieldOf? fields key := by
  induction fields with
  | nil => cases h : key == added <;> simp [insertField, fieldOf?, h]
  | cons field rest ih =>
    obtain ⟨k, v⟩ := field
    obtain ⟨hk, hrest⟩ := List.forall_mem_cons.1 hfields
    rw [insertField]
    cases hsame : added == k with
    | true =>
      have hiff : (key == k) = (key == added) := by
        rw [Bool.eq_iff_iff]
        exact ⟨fun h => hP.trans hkey hk hadded h (hP.symm hadded hk hsame),
          fun h => hP.trans hkey hadded hk h hsame⟩
      cases h : key == added <;> simp [fieldOf?, hiff, h]
    | false =>
      have hfirst : (key == k) = true → (key == added) = false := by
        intro h
        refine Bool.eq_false_iff.2 fun h' => Bool.false_ne_true (hsame.symm.trans ?_)
        exact hP.trans hadded hkey hk (hP.symm hkey hadded h') h
      have ih := ih hrest
      simp only [fieldOf?] at ih ⊢
      cases h : key == k with
      | true => simp [h, hfirst h]
      | false => simpa [h] using ih

/-- If some pair has an equal key, and the values of all pairs that have have a property, then a value with it is
found. -/
theorem exists_fieldOf?_fieldsOf {P : Value → Prop} {key : Value} (hkey : IsJsonKey key) {pairs : List (Value × Value)}
    (hkeys : ∀ pair ∈ pairs, IsJsonKey pair.1) (hsome : ∃ pair ∈ pairs, (key == pair.1) = true)
    (h : ∀ pair ∈ pairs, (key == pair.1) = true → P pair.2) :
    ∃ part, fieldOf? (fieldsOf pairs) key = some part ∧ P part := by
  induction pairs using List.reverseRecOn with
  | nil => simp at hsome
  | append_singleton pairs last ih =>
    obtain ⟨hpairs, hlast⟩ := List.forall_mem_append.1 hkeys
    obtain ⟨hvalues, hvalue⟩ := List.forall_mem_append.1 h
    have hfields (field : Value × Value) (hfield : field ∈ fieldsOf pairs) : IsJsonKey field.1 := by
      obtain ⟨pair, hpair, heq⟩ := exists_fst_of_mem_fieldsOf hfield
      exact heq ▸ hpairs pair hpair
    rw [fieldsOf_concat, equivalenceOn_isJsonKey.fieldOf?_insertField hkey (hlast last List.mem_cons_self) last.2 hfields]
    split
    · rename_i hsame
      exact ⟨last.2, rfl, hvalue last List.mem_cons_self hsame⟩
    · rename_i hne
      refine ih hpairs ?_ hvalues
      obtain ⟨pair, hpair, hsame⟩ := hsome
      rcases List.mem_append.1 hpair with hpair | hpair
      · exact ⟨pair, hpair, hsame⟩
      · obtain rfl := List.mem_singleton.1 hpair
        exact (hne hsame).elim

/-- The value of an entry is found by its key, if no other entry has an equal one. -/
theorem MadeFrom.exists_fieldOf? {json sub : Json} {key v : Value} (hv : MadeFrom json v) (hjson : json.IsContainer)
    (hmem : (key, sub) ∈ json.entries) (honly : ∀ entry ∈ json.entries, (key == entry.1) = true → entry.2 = sub) :
    ∃ id fields part, v = .object id fields ∧ fieldOf? fields key = some part ∧ MadeFrom sub part := by
  obtain ⟨id, pairs, rfl, hpairs⟩ := hv.exists_pairs hjson
  have hkey : IsJsonKey key := isJsonKey_of_mem_entries hmem
  have hsome : ∃ pair ∈ pairs, (key == pair.1) = true := by
    obtain ⟨pair, hpair, hsame, -⟩ := mem_of_forall₂ hpairs.flip (key, sub) hmem
    exact ⟨pair, hpair, by rw [hsame]; exact hkey.beq_self⟩
  have hvalues (pair : Value × Value) (hpair : pair ∈ pairs) (hsame : (key == pair.1) = true) : MadeFrom sub pair.2 := by
    obtain ⟨entry, hentry, heq, hmade⟩ := mem_of_forall₂ hpairs pair hpair
    rw [heq] at hsame
    exact honly entry hentry hsame ▸ hmade
  obtain ⟨part, hfound, hpart⟩ := exists_fieldOf?_fieldsOf hkey (isJsonKey_of_pairs hpairs) hsome hvalues
  exact ⟨id, _, part, rfl, hfound, hpart⟩

end Value

namespace Json

open Value (MadeFrom PairOf SameFields IsJsonKey)

/-- All values that are made from one JSON value are equal. -/
theorem Proper.beq {json : Json} (h : json.Proper) {v w : Value} (hv : MadeFrom json v) (hw : MadeFrom json w) :
    (v == w) = true := by
  induction h generalizing v w with
  | array h ih =>
    refine hv.beq_of_entries hw (.array _) fun entry hentry => ?_
    obtain ⟨item, hitem, rfl⟩ := List.mem_map.1 hentry
    exact ih item.1 (List.fst_mem_of_mem_zipIdx hitem)
  | object hkeys h ih =>
    refine hv.beq_of_entries hw (.object _) fun entry hentry => ?_
    obtain ⟨field, hfield, rfl⟩ := List.mem_map.1 hentry
    exact ih field hfield
  | null =>
    obtain ⟨⟨_, rfl⟩, ⟨_, rfl⟩⟩ := And.intro hv hw
    exact Value.beq_iff_equal.2 (.error _)
  | bool b =>
    obtain ⟨⟨_, rfl⟩, ⟨_, rfl⟩⟩ := And.intro hv hw
    exact Value.beq_iff_equal.2 (.bool b)
  | integer n =>
    obtain ⟨⟨_, rfl⟩, ⟨_, rfl⟩⟩ := And.intro hv hw
    exact (Value.nanFree_number (Decimal.isNaN_ofInt n)).beq_self
  | number h =>
    obtain ⟨⟨_, rfl⟩, ⟨_, rfl⟩⟩ := And.intro hv hw
    exact (Value.nanFree_number h).beq_self
  | string text =>
    obtain ⟨⟨_, rfl⟩, ⟨_, rfl⟩⟩ := And.intro hv hw
    exact Value.beq_iff_equal.2 (.string text)

end Json

end DynamicConfig

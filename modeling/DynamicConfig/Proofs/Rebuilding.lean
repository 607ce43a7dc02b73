import DynamicConfig.Proofs.Keys
import DynamicConfig.Value.Plain
/-!
# Values that are built again

A value that is made plain data and then a value again has objects with new identities, keys among them, and is
otherwise the same (`Value.rebuilding_is_lossless`). No two keys of an object become equal by that: values with new
identities, of which no two are the same, are equal only if the values are that they are built of
(`Value.beq_of_anonymous`). So no two fields are merged when the object is built.
-/

namespace DynamicConfig

namespace Value

/-! ## Identities left out -/

mutual

/-- The value with the identities of its objects left out. -/
def anonymous : Value → Value
  | object _ fields => object 0 (anonymousFields fields)
  | value => value

def anonymousFields : List (Value × Value) → List (Value × Value)
  | [] => []
  | (key, value) :: rest => (key.anonymous, value.anonymous) :: anonymousFields rest

end

theorem anonymousFields_eq (fields : List (Value × Value)) :
    anonymousFields fields = fields.map fun field => (field.1.anonymous, field.2.anonymous) := by
  induction fields with
  | nil => rfl
  | cons field rest ih => rw [anonymousFields, ih, List.map_cons]

/-- Keys and values differ in the identities of objects alone. -/
def SameButIds (x y : Value × Value) : Prop :=
  x.1.anonymous = y.1.anonymous ∧ x.2.anonymous = y.2.anonymous

theorem anonymousFields_eq_iff {xs ys : List (Value × Value)} :
    anonymousFields xs = anonymousFields ys ↔ List.Forall₂ SameButIds xs ys := by
  rw [anonymousFields_eq, anonymousFields_eq, ← List.forall₂_eq_eq_eq, List.forall₂_map_left_iff,
    List.forall₂_map_right_iff]
  simp only [Prod.mk.injEq]
  rfl

/-! ### Codes and hash codes -/

mutual

/-- The source text of a value shows no identities. -/
theorem code_anonymous : ∀ value : Value, value.anonymous.code = value.code
  | .object _ fields => by rw [anonymous, code, code, fieldCodes_anonymousFields]
  | .bool _ | .number _ | .string _ | .error _ | .scope _ | .function _ | .lazyFunction _ | .closure _ _ _ => rfl

theorem fieldCodes_anonymousFields : ∀ fields : List (Value × Value),
    fieldCodes (anonymousFields fields) = fieldCodes fields
  | [] => rfl
  | (key, value) :: rest => by
    have hkey (text : String) : keyCode key.anonymous text = keyCode key text := by
      cases key <;> rfl
    rw [anonymousFields, fieldCodes, fieldCodes, hkey, code_anonymous key, code_anonymous value,
      fieldCodes_anonymousFields rest]

end

end Value

namespace Hasher

open Value

variable (hasher : Hasher)

mutual

/-- The identities of objects are not hashed. -/
theorem feed_anonymous : ∀ (state : hasher.State) (value : Value),
    hasher.feed state value.anonymous = hasher.feed state value
  | state, .object _ fields => by
    rw [anonymous, feed, feed, fieldsCode_anonymousFields, anonymousFields_eq, List.length_map]
  | _, .bool _ | _, .number _ | _, .string _ | _, .error _ | _, .scope _ | _, .function _ | _, .lazyFunction _
  | _, .closure _ _ _ => rfl

theorem fieldsCode_anonymousFields : ∀ fields : List (Value × Value),
    hasher.fieldsCode (anonymousFields fields) = hasher.fieldsCode fields
  | [] => rfl
  | (key, value) :: rest => by
    rw [anonymousFields, fieldsCode, fieldsCode, feed_anonymous _ key, feed_anonymous _ value,
      fieldsCode_anonymousFields rest]

end

end Hasher

namespace Value

/-! ## Equality of what is built -/

variable {objects : Objects}

/-- No object is in both values. -/
def Apart (a b : Value) : Prop :=
  ∀ id xs ys, object id xs ∈ a.parts → object id ys ∉ b.parts

theorem Apart.symm {a b : Value} (h : Apart a b) : Apart b a :=
  fun id xs ys hb ha => h id ys xs ha hb

theorem Apart.of_mem {i j : Nat} {xs ys : List (Value × Value)} (h : Apart (object i xs) (object j ys))
    {x y : Value × Value} (hx : x ∈ xs) (hy : y ∈ ys) : Apart x.1 y.1 ∧ Apart x.2 y.2 :=
  ⟨fun id xs ys ha hb => h id xs ys (mem_parts_object hx (.inl ha)) (mem_parts_object hy (.inl hb)),
    fun id xs ys ha hb => h id xs ys (mem_parts_object hx (.inr ha)) (mem_parts_object hy (.inr hb))⟩

/-- What is an object apart from its identity is one. -/
theorem eq_object_of_anonymous {value : Value} {id : Nat} {fields : List (Value × Value)}
    (h : value.anonymous = (object id fields).anonymous) :
    ∃ id' fields', value = object id' fields' ∧ List.Forall₂ SameButIds fields' fields := by
  cases value with
  | object id' fields' =>
    rw [anonymous, anonymous, object.injEq, anonymousFields_eq_iff] at h
    exact ⟨id', fields', rfl, h.2⟩
  | _ => cases h

/-- What is no object has no identity to leave out. -/
theorem eq_of_anonymous {value leaf : Value} (hleaf : ∀ id fields, leaf ≠ object id fields)
    (h : value.anonymous = leaf.anonymous) : value = leaf := by
  cases leaf with
  | object id fields => exact absurd rfl (hleaf id fields)
  | _ =>
    cases value with
    | object => cases h
    | _ => exact h

/-- Equal values without an object in common are as equal with other identities. -/
theorem beq_of_anonymous (n : Nat) {a b a' b' : Value} (ha : StoredBelow objects n a) (hb : b.Stored objects)
    (haa : a.anonymous = a'.anonymous) (hbb : b.anonymous = b'.anonymous) (hapart : Apart a' b')
    (h : (a' == b') = true) : (a == b) = true := by
  induction n generalizing a b a' b' with
  | zero => exact (Nat.not_lt_zero _ ha.2).elim
  | succ n ih =>
    cases beq_iff_equal.1 h with
    | @object i' j' xs' ys' hequal =>
      obtain ⟨i, xs, rfl, hxs⟩ := eq_object_of_anonymous haa
      obtain ⟨j, ys, rfl, hys⟩ := eq_object_of_anonymous hbb
      obtain ⟨hlength, hcovered⟩ : xs'.length = ys'.length ∧ coveredBy xs' ys' = true := by
        refine hequal.resolve_left ?_
        rintro rfl
        exact hapart _ _ _ (self_mem_parts _) (self_mem_parts _)
      refine beq_iff_equal.2 (.object (.inr ⟨hxs.length_eq.trans (hlength.trans hys.length_eq.symm), ?_⟩))
      refine (equivalenceOn_stored objects).coveredBy (fun _ => ha.1.of_mem) (fun _ => hb.of_mem) hb.own.2
        fun x hx => ?_
      obtain ⟨x', hx', hkey, hvalue⟩ := mem_of_forall₂ hxs.flip x hx
      obtain ⟨y', hy', hsameKey, hsameValue⟩ := exists_of_coveredBy hcovered x' hx'
      obtain ⟨y, hy, hkey', hvalue'⟩ := mem_of_forall₂ hys y' hy'
      obtain ⟨hk, hv⟩ := ha.allFields x hx
      obtain ⟨hk', hv'⟩ := hb.of_mem hy
      obtain ⟨hapartKey, hapartValue⟩ := hapart.of_mem hx' hy'
      exact ⟨y, hy, ih hk hk' hkey hkey' hapartKey hsameKey, ih hv hv' hvalue hvalue' hapartValue hsameValue⟩
    | _ =>
      obtain rfl := eq_of_anonymous (by rintro _ _ ⟨⟩) haa
      obtain rfl := eq_of_anonymous (by rintro _ _ ⟨⟩) hbb
      exact h

/-! ## Building -/

/-- The identities of the objects in a value, from one up to below another. -/
def Within (least limit : Nat) (value : Value) : Prop :=
  ∀ id fields, object id fields ∈ value.parts → least ≤ id ∧ id < limit

theorem Within.mono {least least' limit limit' : Nat} {value : Value} (h : value.Within least limit)
    (hleast : least' ≤ least) (hlimit : limit ≤ limit') : value.Within least' limit' := by
  intro id fields hmem
  obtain ⟨h1, h2⟩ := h id fields hmem
  omega

theorem Within.apart {least middle middle' limit : Nat} {a b : Value} (ha : a.Within least middle)
    (hb : b.Within middle' limit) (hle : middle ≤ middle') : Apart a b := by
  intro id xs ys hx hy
  have h1 := (ha id xs hx).2
  have h2 := (hb id ys hy).1
  omega

theorem within_of_leaf {value : Value} (hleaf : ∀ id fields, value ≠ object id fields) (least limit : Nat) :
    value.Within least limit := by
  intro id fields hmem
  cases value with
  | object id fields => exact absurd rfl (hleaf id fields)
  | _ => simp [parts] at hmem

/-- A value that is built of plain data: the identities of its objects are new, and apart from them it is the value
that the data was made of. -/
structure Built (next : Nat) (value : Value) (built : Value × Nat) : Prop where
  le : next ≤ built.2
  within : built.1.Within next built.2
  anonymous : built.1.anonymous = value.anonymous

/-- Pairs that are built of the plain data of fields. -/
structure PairsBuilt (next : Nat) (fields : List (Value × Value)) (built : List (Value × Value) × Nat) : Prop where
  le : next ≤ built.2
  within : ∀ pair ∈ built.1, pair.1.Within next built.2 ∧ pair.2.Within next built.2
  sameButIds : List.Forall₂ SameButIds built.1 fields
  distinct : DistinctKeys built.1

theorem built_of_leaf {value : Value} (hleaf : ∀ id fields, value ≠ object id fields) (next : Nat) :
    Built next value (value, next) :=
  ⟨Nat.le_refl _, within_of_leaf hleaf _ _, rfl⟩

/-- An object of pairs that are built. -/
theorem PairsBuilt.built {next : Nat} {fields : List (Value × Value)} {pairs : List (Value × Value) × Nat}
    (h : PairsBuilt next fields pairs) (id : Nat) :
    Built next (object id fields) (object pairs.2 pairs.1, pairs.2 + 1) where
  le := Nat.le_succ_of_le h.le
  within := by
    intro i xs hmem
    rw [parts] at hmem
    rcases List.mem_cons.1 hmem with heq | hmem
    · cases heq
      exact ⟨h.le, Nat.lt_succ_self _⟩
    · obtain ⟨pair, hpair, hin⟩ := mem_fieldParts_iff.1 hmem
      obtain ⟨hkey, hvalue⟩ := h.within pair hpair
      rcases hin with hin | hin
      · exact (hkey.mono (Nat.le_refl _) (Nat.le_succ _)) i xs hin
      · exact (hvalue.mono (Nat.le_refl _) (Nat.le_succ _)) i xs hin
  anonymous := by rw [Value.anonymous, Value.anonymous, anonymousFields_eq_iff.2 h.sameButIds]

/-- One more pair before those that are built. Its key is built apart from theirs. -/
theorem Built.cons {next : Nat} {key value : Value} {rest : List (Value × Value)} {k v : Value × Nat}
    {pairs : List (Value × Value) × Nat} (hk : Built next key k) (hv : Built k.2 value v)
    (hpairs : PairsBuilt v.2 rest pairs) (hkey : key.Stored objects)
    (hkeys : ∀ field ∈ rest, field.1.Stored objects)
    (hnew : ∀ field ∈ rest, (key == field.1) = false ∧ (field.1 == key) = false) :
    PairsBuilt next ((key, value) :: rest) ((k.1, v.1) :: pairs.1, pairs.2) where
  le := Nat.le_trans hk.le (Nat.le_trans hv.le hpairs.le)
  within := by
    have hle := Nat.le_trans hk.le hv.le
    refine List.forall_mem_cons.2 ⟨⟨?_, ?_⟩, fun pair hpair => ?_⟩
    · exact hk.within.mono (Nat.le_refl _) (Nat.le_trans hv.le hpairs.le)
    · exact hv.within.mono hk.le hpairs.le
    · obtain ⟨hkey', hvalue'⟩ := hpairs.within pair hpair
      exact ⟨hkey'.mono hle (Nat.le_refl _), hvalue'.mono hle (Nat.le_refl _)⟩
  sameButIds := .cons ⟨hk.anonymous, hv.anonymous⟩ hpairs.sameButIds
  distinct := by
    refine List.pairwise_cons.2 ⟨fun pair hpair => ?_, hpairs.distinct⟩
    obtain ⟨field, hfield, hsame, -⟩ := mem_of_forall₂ hpairs.sameButIds.flip pair hpair
    obtain ⟨hne, hne'⟩ := hnew field hfield
    have hapart := hk.within.apart (hpairs.within pair hpair).1 hv.le
    have hstored := hkeys field hfield
    constructor
    · refine Bool.eq_false_iff.2 fun hbeq => Bool.false_ne_true (hne.symm.trans ?_)
      exact beq_of_anonymous _ ⟨hkey, Nat.lt_succ_self _⟩ hstored hk.anonymous.symm hsame.symm hapart hbeq
    · refine Bool.eq_false_iff.2 fun hbeq => Bool.false_ne_true (hne'.symm.trans ?_)
      exact beq_of_anonymous _ ⟨hstored, Nat.lt_succ_self _⟩ hkey hsame.symm hk.anonymous.symm hapart.symm hbeq

mutual

theorem built_toValue : ∀ (value : Value) (next : Nat), value.Stored objects →
    Built next value (value.toPlain.toValue.run next)
  | .object id fields, next, h => by
    have hpairs := pairsBuilt_toPairs fields next (fun _ => h.of_mem) h.own.2
    have hrun : (object id fields).toPlain.toValue.run next =
        (object ((Plain.toPairs (toPlainEntries fields)).run next).2
          (fieldsOf ((Plain.toPairs (toPlainEntries fields)).run next).1),
          ((Plain.toPairs (toPlainEntries fields)).run next).2 + 1) := rfl
    rw [hrun, fieldsOf_of_distinctKeys hpairs.distinct]
    generalize (Plain.toPairs (toPlainEntries fields)).run next = built at hpairs
    exact hpairs.built id
  | .bool _, next, _ | .number _, next, _ | .string _, next, _ | .error _, next, _ | .scope _, next, _
  | .function _, next, _ | .lazyFunction _, next, _ | .closure _ _ _, next, _ => built_of_leaf (by rintro _ _ ⟨⟩) next

theorem pairsBuilt_toPairs : ∀ (fields : List (Value × Value)) (next : Nat), AllFields (Stored objects) fields →
    DistinctKeys fields → PairsBuilt next fields ((Plain.toPairs (toPlainEntries fields)).run next)
  | [], next, _, _ => ⟨Nat.le_refl _, by rintro _ ⟨⟩, .nil, .nil⟩
  | (key, value) :: rest, next, h, hkeys => by
    obtain ⟨⟨hkey, hvalue⟩, hrest⟩ := List.forall_mem_cons.1 h
    obtain ⟨hfirst, hlater⟩ := List.pairwise_cons.1 hkeys
    have hk := built_toValue key next hkey
    have hv := built_toValue value (key.toPlain.toValue.run next).2 hvalue
    have hpairs := pairsBuilt_toPairs rest (value.toPlain.toValue.run (key.toPlain.toValue.run next).2).2 hrest hlater
    exact hk.cons hv hpairs hkey (fun field hfield => (hrest field hfield).1) hfirst

end

/-! ## Equality with what is built -/

/-- Fields cover others that are equal to them one by one, if no key is equal to the key of another one. -/
theorem coveredBy_of_forall₂ {xs ys : List (Value × Value)} (h : List.Forall₂ SameField xs ys)
    (hone : ∀ (i j : Nat) (hi : i < xs.length) (hj : j < ys.length), (xs[i].1 == ys[j].1) = true → i = j) :
    coveredBy xs ys = true := by
  refine coveredBy_of_forall fun x hx => ?_
  obtain ⟨i, hi, rfl⟩ := List.getElem_of_mem hx
  have hi' : i < ys.length := h.length_eq ▸ hi
  refine ⟨ys[i], List.getElem_mem hi', h.get hi hi', fun other hother hsame => ?_⟩
  obtain ⟨j, hj, rfl⟩ := List.getElem_of_mem hother
  obtain rfl := hone i j hi hj hsame
  rfl

theorem DistinctKeys.index_eq {xs : List (Value × Value)} (h : DistinctKeys xs) {i j : Nat} (hi : i < xs.length)
    (hj : j < xs.length) (hsame : (xs[i].1 == xs[j].1) = true) : i = j := by
  have hpairs := List.pairwise_iff_getElem.1 h
  rcases Nat.lt_trichotomy i j with hlt | rfl | hgt
  · exact (Bool.false_ne_true ((hpairs i j hi hj hlt).1.symm.trans hsame)).elim
  · rfl
  · exact (Bool.false_ne_true ((hpairs j i hj hi hgt).2.symm.trans hsame)).elim

/-- Keys at two places are unequal, and so they are across fields that differ in the identities of objects alone. -/
theorem index_eq_of_sameButIds {xs ys : List (Value × Value)} (hxs : AllFields (Stored objects) xs)
    (hkeys : DistinctKeys xs) (hsameFields : List.Forall₂ SameButIds ys xs) (hapart : ∀ x ∈ xs, ∀ y ∈ ys, Apart x.1 y.1)
    {i j : Nat} (hi : i < xs.length) (hj : j < ys.length)
    (hsame : (xs[i].1 == ys[j].1) = true ∨ (ys[j].1 == xs[i].1) = true) : i = j := by
  have hj' : j < xs.length := hsameFields.length_eq ▸ hj
  have hstored (k : Nat) (hk : k < xs.length) : xs[k].1.Stored objects := (hxs _ (List.getElem_mem hk)).1
  have hout := hapart _ (List.getElem_mem hi) _ (List.getElem_mem hj)
  have hsameFields' := (hsameFields.get hj hj').1.symm
  rcases hsame with hsame | hsame
  · exact hkeys.index_eq hi hj'
      (beq_of_anonymous _ ⟨hstored i hi, Nat.lt_succ_self _⟩ (hstored j hj') rfl hsameFields' hout hsame)
  · exact (hkeys.index_eq hj' hi
      (beq_of_anonymous _ ⟨hstored j hj', Nat.lt_succ_self _⟩ (hstored i hi) hsameFields' rfl hout.symm hsame)).symm

/-- A value without a `NaN` is equal to one that is the same apart from the identities of objects, either way round. -/
theorem NaNFree.beq_of_apart (n : Nat) {value built : Value} (hvalue : StoredBelow objects n value)
    (hfree : value.NaNFree) (hsame : built.anonymous = value.anonymous) (hapart : Apart value built) :
    (value == built) = true ∧ (built == value) = true := by
  induction n generalizing value built with
  | zero => exact (Nat.not_lt_zero _ hvalue.2).elim
  | succ n ih =>
    cases value with
    | object id xs =>
      obtain ⟨id', ys, rfl, hsameFields⟩ := eq_object_of_anonymous hsame
      have hlength := hsameFields.length_eq
      have hone {i j : Nat} (hi : i < xs.length) (hj : j < ys.length) :=
        index_eq_of_sameButIds (fun _ => hvalue.1.of_mem) hvalue.1.own.2 hsameFields
          (fun x hx y hy => (hapart.of_mem hx hy).1) hi hj
      have hfield (i : Nat) (hy : i < ys.length) (hx : i < xs.length) :
          SameField xs[i] ys[i] ∧ SameField ys[i] xs[i] := by
        have hmem : xs[i] ∈ xs := List.getElem_mem hx
        obtain ⟨hkey, hpart⟩ := hsameFields.get hy hx
        obtain ⟨hk, hv⟩ := hvalue.allFields _ hmem
        obtain ⟨hapartKey, hapartPart⟩ := hapart.of_mem hmem (List.getElem_mem hy)
        obtain ⟨h1, h2⟩ := ih hk (hfree.of_mem hmem).1 hkey hapartKey
        obtain ⟨h3, h4⟩ := ih hv (hfree.of_mem hmem).2 hpart hapartPart
        exact ⟨⟨h1, h3⟩, h2, h4⟩
      have hforward : List.Forall₂ SameField xs ys :=
        List.forall₂_iff_get.2 ⟨hlength.symm, fun i hx hy => (hfield i hy hx).1⟩
      have hback : List.Forall₂ SameField ys xs :=
        List.forall₂_iff_get.2 ⟨hlength, fun i hy hx => (hfield i hy hx).2⟩
      constructor
      · exact beq_iff_equal.2 (.object (.inr ⟨hlength.symm,
          coveredBy_of_forall₂ hforward fun i j hi hj h => hone hi hj (.inl h)⟩))
      · exact beq_iff_equal.2 (.object (.inr ⟨hlength,
          coveredBy_of_forall₂ hback fun j i hj hi h => (hone hi hj (.inr h)).symm⟩))
    | _ =>
      obtain rfl := eq_of_anonymous (by rintro _ _ ⟨⟩) hsame
      exact ⟨hfree.beq_self, hfree.beq_self⟩

/-- A value that is made plain data and then a value again differs in the identities of its objects alone: it has the
same fields in the same order, and so the same source text and the same hash code. Without a `NaN` it is also equal to
the value. -/
theorem rebuilding_is_lossless (objects : Objects) (value : Value) (h : value.Stored objects) (next : Nat)
    (hnext : ∀ id fields, object id fields ∈ value.parts → id < next) :
    (value.toPlain.toValue.run next).1.anonymous = value.anonymous ∧
    (value.toPlain.toValue.run next).1.code = value.code ∧
    (∀ hasher : Hasher, hasher.hashCode (value.toPlain.toValue.run next).1 = hasher.hashCode value) ∧
    (value.NaNFree → ((value.toPlain.toValue.run next).1 == value) = true ∧
      (value == (value.toPlain.toValue.run next).1) = true) := by
  have hbuilt := built_toValue value next h
  generalize value.toPlain.toValue.run next = built at hbuilt ⊢
  refine ⟨hbuilt.anonymous, ?_, fun hasher => ?_, fun hfree => ?_⟩
  · rw [← code_anonymous, hbuilt.anonymous, code_anonymous]
  · rw [Hasher.hashCode, Hasher.hashCode, ← hasher.feed_anonymous, hbuilt.anonymous, hasher.feed_anonymous]
  · have hwithin : value.Within 0 next := fun id fields hmem => ⟨Nat.zero_le _, hnext id fields hmem⟩
    have hapart := hwithin.apart hbuilt.within (Nat.le_refl _)
    exact (hfree.beq_of_apart _ ⟨h, Nat.lt_succ_self _⟩ hbuilt.anonymous hapart).symm

/-- An object with two keys that are `NaN`, and one with an object for a key and a closure for its value. -/
theorem objects_with_any_keys_are_kept :
    let fields : List (Value × Value) := [(.number (0 / 0), .bool true), (.number (0 / 0), .bool false)]
    let others : List (Value × Value) := [(.object 0 [], .closure 7 (.bool true) 0)]
    let objects : Objects := fun id => if id = 1 then fields else if id = 2 then others else []
    (Value.object 1 fields).Stored objects ∧ (Value.object 2 others).Stored objects ∧
      ((Value.object 1 fields).toPlain.toValue.run 3).1.code = (Value.object 1 fields).code ∧
      (∀ id xs, object id xs ∈ (Value.object 2 others).parts → id < 3) ∧ (Value.object 2 others).NaNFree ∧
      (((Value.object 2 others).toPlain.toValue.run 3).1 == Value.object 2 others) = true := by
  intro fields others objects
  have hnan : (Value.number (0 / 0) == .number (0 / 0)) = false := by decide +kernel
  have hfields : (Value.object 1 fields).Stored objects := by
    refine .object rfl (List.pairwise_pair.2 ⟨hnan, hnan⟩) ?_
    simp [fields, Stored, parts]
  have hothers : (Value.object 2 others).Stored objects := by
    refine .object rfl (List.pairwise_singleton _ _) ?_
    simp [others, Stored, parts, fieldParts, objects, DistinctKeys]
  have hfields' : ∀ id xs, object id xs ∈ (Value.object 1 fields).parts → id < 3 := by
    simp [fields, parts, fieldParts]
  have hothers' : ∀ id xs, object id xs ∈ (Value.object 2 others).parts → id < 3 := by
    simp only [others, parts, fieldParts, List.append_nil, List.mem_cons, List.not_mem_nil,
      List.singleton_append, object.injEq, reduceCtorEq, or_false]
    rintro id xs (⟨rfl, -⟩ | ⟨rfl, -⟩) <;> decide
  have hfree : (Value.object 2 others).NaNFree := by
    simp [NaNFree, others, parts, fieldParts]
  obtain ⟨-, hcode, -, -⟩ := rebuilding_is_lossless objects _ hfields 3 hfields'
  obtain ⟨-, -, -, hequal⟩ := rebuilding_is_lossless objects _ hothers 3 hothers'
  exact ⟨hfields, hothers, hcode, hothers', hfree, (hequal hfree).1⟩

end Value

end DynamicConfig

import DynamicConfig.Proofs.Equality
import DynamicConfig.Value.Hash
/-!
# Values as keys

Equality and hash codes are what lookups by key need (`equality_fits_keys`): equality is symmetric and transitive, equal
values have equal hash codes, whatever computes them, and a value without a `NaN` is equal to each copy that is made of
it.
-/

namespace DynamicConfig

open Value

/-! ## Hash codes -/

/-- Equal numbers have the same bits, apart from the two zeros. -/
theorem bits_eq_of_beq {x y : Float} (h : (x == y) = true) :
    (if x == 0 then 0 else x.toBits) = if y == 0 then 0 else y.toBits := by
  by_cases hx : (x == 0) = true
  · rw [if_pos hx, if_pos (BEq.trans (BEq.symm h) hx)]
  · have hy : ¬ (y == 0) = true := fun hy => hx (BEq.trans h hy)
    rw [if_neg hx, if_neg hy]
    obtain ⟨-, -, rfl | ⟨rfl, -⟩ | ⟨-, rfl⟩⟩ := Float.beq_iff_ne_nan_and_eq.1 h
    · rfl
    · exact (hx (by decide +kernel)).elim
    · exact (hy (by decide +kernel)).elim

namespace Hasher

variable {hasher : Hasher} {xs ys : List (Value × Value)}

/-- The order of fields does not count. -/
theorem fieldsCode_perm (h : xs.Perm ys) : hasher.fieldsCode xs = hasher.fieldsCode ys := by
  induction h with
  | nil => rfl
  | cons field _ ih => rw [fieldsCode, fieldsCode, ih]
  | swap first second rest =>
    rw [fieldsCode, fieldsCode, fieldsCode, fieldsCode, ← UInt64.add_assoc, ← UInt64.add_assoc,
      UInt64.add_comm (hasher.code _) (hasher.code _)]
  | trans _ _ ih ih' => exact ih.trans ih'

/-- A value leaves the same state behind as another one. -/
def FeedsAs (hasher : Hasher) (a b : Value) : Prop :=
  ∀ state, hasher.feed state a = hasher.feed state b

theorem fieldsCode_congr (h : List.Forall₂ (fun x y => hasher.FeedsAs x.1 y.1 ∧ hasher.FeedsAs x.2 y.2) xs ys) :
    hasher.fieldsCode xs = hasher.fieldsCode ys := by
  induction h with
  | nil => rfl
  | cons hxy _ ih => rw [fieldsCode, fieldsCode, hxy.1, hxy.2, ih]

/-- Equal values leave the same state behind. -/
theorem feedsAs_of_beq (hasher : Hasher) {objects : Objects} (n : Nat) {a b : Value} (ha : StoredBelow objects n a)
    (hb : b.Stored objects) (h : (a == b) = true) : hasher.FeedsAs a b := by
  induction n generalizing a b with
  | zero => exact (Nat.not_lt_zero _ ha.2).elim
  | succ n ih =>
    intro state
    replace h := beq_iff_equal.1 h
    cases h with
    | number h => rw [feed, feed, bits_eq_of_beq h]
    | @object i j xs ys h =>
      have hfields : hasher.fieldsCode xs = hasher.fieldsCode ys ∧ xs.length = ys.length := by
        rcases h with rfl | ⟨hlength, hcovered⟩
        · obtain rfl := ha.1.eq_of_same_id hb
          exact ⟨rfl, rfl⟩
        · have hequivalence := equivalenceOn_stored objects
          obtain ⟨ordered, hperm, hmatch⟩ := hequivalence.matching (fun _ => ha.1.of_mem) (fun _ => hb.of_mem)
            ha.1.own.2 hlength hcovered
          refine ⟨(fieldsCode_congr (hmatch.imp ?_)).trans (fieldsCode_perm hperm), hlength⟩
          rintro x y ⟨hx, hy, hkey, hvalue⟩
          obtain ⟨hxk, hxv⟩ := ha.allFields x hx
          obtain ⟨hyk, hyv⟩ := hb.of_mem hy
          exact ⟨ih hxk hyk hkey, ih hxv hyv hvalue⟩
      rw [feed, feed, hfields.1, hfields.2]
    | closure => rw [feed, feed]
    | _ => rfl

/-- Equal values have equal hash codes. -/
theorem hashCode_eq_of_beq (hasher : Hasher) {objects : Objects} {a b : Value} (ha : a.Stored objects)
    (hb : b.Stored objects) (h : (a == b) = true) : hasher.hashCode a = hasher.hashCode b := by
  rw [hashCode, hashCode, feedsAs_of_beq hasher _ ⟨ha, Nat.lt_succ_self _⟩ hb h]

end Hasher

/-! ## Copies -/

namespace Value

/-- No number in the value is a `NaN`. -/
def NaNFree (value : Value) : Prop :=
  ∀ x, number x ∈ value.parts → x.isNaN = false

mutual

/-- The second value is a copy of the first. Any object in it may be one that has been built anew, of copies of the
fields in any order; all else is shared. -/
inductive Copied (objects : Objects) : Value → Value → Prop
  | shared (value : Value) : Copied objects value value
  | rebuilt {id id' : Nat} {fields ordered pairs : List (Value × Value)} (horder : ordered.Perm fields)
    (h : FieldsCopied objects ordered pairs) (hid : objects id' = fieldsOf pairs) :
    Copied objects (object id fields) (object id' (fieldsOf pairs))

/-- Copies of fields one by one. -/
inductive FieldsCopied (objects : Objects) : List (Value × Value) → List (Value × Value) → Prop
  | nil : FieldsCopied objects [] []
  | cons {k k' v v' : Value} {rest rest' : List (Value × Value)} (hkey : Copied objects k k') (hvalue : Copied objects v v')
    (hrest : FieldsCopied objects rest rest') : FieldsCopied objects ((k, v) :: rest) ((k', v') :: rest')

end

variable {objects : Objects}

theorem NaNFree.of_mem {id : Nat} {fields : List (Value × Value)} (h : (object id fields).NaNFree)
    {field : Value × Value} (hfield : field ∈ fields) : field.1.NaNFree ∧ field.2.NaNFree :=
  ⟨fun x hx => h x (mem_parts_object hfield (.inl hx)), fun x hx => h x (mem_parts_object hfield (.inr hx))⟩

/-- A value without a `NaN` is equal to itself. -/
theorem NaNFree.beq_self {value : Value} (h : value.NaNFree) : (value == value) = true := by
  refine beq_iff_equal.2 ?_
  cases value with
  | number x =>
    have hx : x.isNaN = false := h x (self_mem_parts _)
    refine .number (Float.beq_self_iff.2 fun hnan => ?_)
    rw [Float.isNaN_eq_decide_eq_nan, decide_eq_false_iff_not] at hx
    exact hx hnan
  | object id fields => exact .object (.inl rfl)
  | _ => constructor

theorem nanFree_number {x : Float} (h : x.isNaN = false) : (number x).NaNFree := by
  intro y hy
  obtain rfl : y = x := by simpa [parts] using hy
  exact h

theorem FieldsCopied.forall₂ : ∀ {xs ys : List (Value × Value)}, FieldsCopied objects xs ys →
    List.Forall₂ (fun x y => Copied objects x.1 y.1 ∧ Copied objects x.2 y.2) xs ys
  | _, _, .nil => .nil
  | _, _, .cons hkey hvalue hrest => .cons ⟨hkey, hvalue⟩ hrest.forall₂

/-! ### Building objects -/

/-- A field with a key that there is not comes last. -/
theorem insertField_of_new {key value : Value} {fields : List (Value × Value)}
    (h : ∀ field ∈ fields, (key == field.1) = false) : insertField key value fields = fields ++ [(key, value)] := by
  induction fields with
  | nil => rfl
  | cons field rest ih =>
    obtain ⟨hfirst, hrest⟩ := List.forall_mem_cons.1 h
    rw [insertField, if_neg (by simp [hfirst]), ih hrest, List.cons_append]

/-- Pairs with keys that are pairwise unequal are the fields of the object that is built of them. -/
theorem fieldsOf_of_distinctKeys {pairs : List (Value × Value)} (h : DistinctKeys pairs) : fieldsOf pairs = pairs := by
  induction pairs using List.reverseRecOn with
  | nil => rfl
  | append_singleton pairs last ih =>
    obtain ⟨hpairs, -, hlast⟩ := List.pairwise_append.1 h
    have hnew (field : Value × Value) (hfield : field ∈ pairs) : (last.1 == field.1) = false :=
      (hlast field hfield last List.mem_cons_self).2
    rw [fieldsOf_concat, ih hpairs, insertField_of_new hnew]

/-- Fields that are equal to others one by one have keys that are pairwise unequal, if the others have. -/
theorem EquivalenceOn.distinctKeys {P : Value → Prop} (hP : EquivalenceOn P) {xs ys : List (Value × Value)}
    (h : List.Forall₂ (fun x y => (P x.1 ∧ P y.1) ∧ (x.1 == y.1) = true) xs ys) (hkeys : DistinctKeys xs) :
    DistinctKeys ys := by
  induction h with
  | nil => exact .nil
  | @cons x y rest rest' hxy hrest ih =>
    obtain ⟨hfirst, hlater⟩ := List.pairwise_cons.1 hkeys
    refine List.pairwise_cons.2 ⟨fun y' hy' => ?_, ih hlater⟩
    obtain ⟨x', hx', ⟨hPx', hPy'⟩, hx'y'⟩ := mem_of_forall₂ hrest y' hy'
    obtain ⟨⟨hPx, hPy⟩, hxy⟩ := hxy
    obtain ⟨hne, hne'⟩ := hfirst x' hx'
    constructor
    · refine Bool.eq_false_iff.2 fun hyy' => ?_
      have hxy' := hP.trans hPx hPy hPy' hxy hyy'
      exact Bool.false_ne_true (hne.symm.trans (hP.trans hPx hPy' hPx' hxy' (hP.symm hPx' hPy' hx'y')))
    · refine Bool.eq_false_iff.2 fun hy'y => ?_
      have hx'y := hP.trans hPx' hPy' hPy hx'y' hy'y
      exact Bool.false_ne_true (hne'.symm.trans (hP.trans hPx' hPy hPx hx'y (hP.symm hPx hPy hxy)))

/-- A copy of a value without a `NaN` is stored too, and equal to it. -/
theorem Copied.beq (n : Nat) {value copy : Value} (h : Copied objects value copy) (hvalue : StoredBelow objects n value)
    (hfree : value.NaNFree) : copy.Stored objects ∧ (value == copy) = true := by
  induction n generalizing value copy with
  | zero => exact (Nat.not_lt_zero _ hvalue.2).elim
  | succ n ih =>
    cases h with
    | shared => exact ⟨hvalue.1, hfree.beq_self⟩
    | @rebuilt id id' fields ordered pairs horder hcopied hid =>
      have hequivalence := equivalenceOn_stored objects
      have hmatch : List.Forall₂ (fun x y => (x ∈ fields ∧ y.1.Stored objects ∧ y.2.Stored objects) ∧ SameField x y)
          ordered pairs := by
        have hcopies := (List.forall₂_and_left ordered pairs).2 ⟨fun x hx => horder.mem_iff.1 hx, hcopied.forall₂⟩
        refine hcopies.imp ?_
        rintro x y ⟨hx, hkey, hvalue'⟩
        obtain ⟨hk, hsameKey⟩ := ih hkey (hvalue.allFields x hx).1 (hfree.of_mem hx).1
        obtain ⟨hv, hsameValue⟩ := ih hvalue' (hvalue.allFields x hx).2 (hfree.of_mem hx).2
        exact ⟨⟨hx, hk, hv⟩, hsameKey, hsameValue⟩
      have hordered : DistinctKeys ordered := (horder.pairwise_iff fun h => h.symm).2 hvalue.1.own.2
      have hpairs : DistinctKeys pairs := by
        refine hequivalence.distinctKeys (hmatch.imp ?_) hordered
        rintro x y ⟨⟨hx, hy, -⟩, hsame⟩
        exact ⟨⟨(hvalue.1.of_mem hx).1, hy⟩, hsame.1⟩
      rw [fieldsOf_of_distinctKeys hpairs] at hid ⊢
      have hstored : ∀ y ∈ pairs, y.1.Stored objects ∧ y.2.Stored objects := by
        intro y hy
        obtain ⟨x, -, ⟨-, hstored⟩, -⟩ := mem_of_forall₂ hmatch y hy
        exact hstored
      refine ⟨.object hid hpairs hstored, beq_iff_equal.2 (.object (.inr ⟨?_, ?_⟩))⟩
      · exact horder.length_eq.symm.trans hmatch.length_eq
      · refine hequivalence.coveredBy (fun _ => hvalue.1.of_mem) hstored hpairs fun x hx => ?_
        obtain ⟨y, hy, -, hsame⟩ := mem_of_forall₂ hmatch.flip x (horder.mem_iff.2 hx)
        exact ⟨y, hy, hsame⟩

end Value

/-- Equality and hash codes fit keys. -/
theorem equality_fits_keys (objects : Objects) (a b c : Value) (ha : a.Stored objects) (hb : b.Stored objects)
    (hc : c.Stored objects) :
    ((a == b) = true → (b == a) = true) ∧
    ((a == b) = true → (b == c) = true → (a == c) = true) ∧
    ((a == b) = true → ∀ hasher : Hasher, hasher.hashCode a = hasher.hashCode b) ∧
    (a.NaNFree → ∀ copy, Copied objects a copy → (a == copy) = true) := by
  have hequivalence := equivalenceOn_stored objects
  refine ⟨hequivalence.symm ha hb, hequivalence.trans ha hb hc, ?_, ?_⟩
  · exact fun h hasher => hasher.hashCode_eq_of_beq ha hb h
  · exact fun hfree copy hcopy => (hcopy.beq _ ⟨ha, Nat.lt_succ_self _⟩ hfree).2

/-- An object with zero for a text and a text for an object, an equal one with minus zero, and a copy of the first. The
others have their fields the other way round. -/
theorem reordered_object_fits_keys :
    let fields : List (Value × Value) := [(.string "zero", .number 0), (.object 0 [], .string "empty")]
    let others : List (Value × Value) := [(.object 3 [], .string "empty"), (.string "zero", .number (-0))]
    let pairs : List (Value × Value) := [(.object 0 [], .string "empty"), (.string "zero", .number 0)]
    let objects : Objects := fun id => if id = 1 then fields else if id = 2 then others else if id = 4 then pairs else []
    (Value.object 1 fields).Stored objects ∧ (Value.object 2 others).Stored objects ∧
      Copied objects (.object 1 fields) (.object 4 pairs) ∧
      (Value.object 2 others == .object 1 fields) = true ∧ (Value.object 1 fields == .object 1 fields) = true ∧
      Hasher.mixing.hashCode (.object 1 fields) = Hasher.mixing.hashCode (.object 2 others) ∧
      (Value.object 1 fields == .object 4 pairs) = true := by
  intro fields others pairs objects
  have hfields : (Value.object 1 fields).Stored objects := by
    refine .object rfl (List.pairwise_pair.2 ⟨rfl, rfl⟩) ?_
    simp [fields, Stored, parts, fieldParts, objects, DistinctKeys]
  have hothers : (Value.object 2 others).Stored objects := by
    refine .object rfl (List.pairwise_pair.2 ⟨rfl, rfl⟩) ?_
    simp [others, Stored, parts, fieldParts, objects, DistinctKeys]
  have hcopied : Copied objects (.object 1 fields) (.object 4 pairs) :=
    .rebuilt (List.Perm.swap _ _ _) (.cons (.shared _) (.shared _) (.cons (.shared _) (.shared _) .nil)) rfl
  have hequal : (Value.object 1 fields == .object 2 others) = true := by decide +kernel
  have hfree : (Value.object 1 fields).NaNFree := by
    have hzero : (0 : Float).isNaN = false := by decide +kernel
    simpa [NaNFree, parts, fieldParts, fields] using hzero
  obtain ⟨hsymm, htrans, hhash, hcopy⟩ := equality_fits_keys objects (.object 1 fields) (.object 2 others)
    (.object 1 fields) hfields hothers hfields
  exact ⟨hfields, hothers, hcopied, hsymm hequal, htrans hequal (hsymm hequal), hhash hequal Hasher.mixing,
    hcopy hfree _ hcopied⟩

end DynamicConfig

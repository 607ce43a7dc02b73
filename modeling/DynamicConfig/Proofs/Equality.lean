import Mathlib
import DynamicConfig.Value
/-!
# Equality of values

Values of one store of objects, in which an identity stands for one object only, are equal as keys have to be: equality
is symmetric and transitive among them (`Value.beq_symm`, `Value.beq_trans`). Two objects that are not the same one are
equal if each field of the first has an equal one among as many fields of the second. As the keys of an object are
pairwise unequal, the fields then match one to one (`Value.EquivalenceOn.matching`), and so they do the other way round.
-/

namespace DynamicConfig

/-! ## Lists that match -/

/-- Where each of some things goes with one of as many others, and no two with the same one, the others can be ordered
to go with them one by one. -/
theorem exists_matching {α β : Type} {R : α → β → Prop} {xs : List α} {ys : List β} (hlength : xs.length = ys.length)
    (hall : ∀ x ∈ xs, ∃ y ∈ ys, R x y) (hone : xs.Pairwise fun x x' => ∀ y ∈ ys, R x y → ¬ R x' y) :
    ∃ ordered, ordered.Perm ys ∧ List.Forall₂ R xs ordered := by
  induction xs generalizing ys with
  | nil => exact ⟨[], by rw [List.length_eq_zero_iff.1 hlength.symm], .nil⟩
  | cons x rest ih =>
    obtain ⟨⟨y, hy, hxy⟩, hrest⟩ := List.forall_mem_cons.1 hall
    obtain ⟨hfirst, hlater⟩ := List.pairwise_cons.1 hone
    obtain ⟨before, after, rfl⟩ := List.append_of_mem hy
    have hremaining {z : β} : z ∈ before ++ y :: after ↔ z = y ∨ z ∈ before ++ after :=
      List.perm_middle.mem_iff.trans List.mem_cons
    have hothers (x' : α) (hx' : x' ∈ rest) : ∃ z ∈ before ++ after, R x' z := by
      obtain ⟨z, hz, hx'z⟩ := hrest x' hx'
      rcases hremaining.1 hz with rfl | hz
      · exact (hfirst x' hx' z hy hxy hx'z).elim
      · exact ⟨z, hz, hx'z⟩
    obtain ⟨ordered, hperm, hmatch⟩ := ih (by simp at hlength ⊢; omega) hothers
      (hlater.imp fun h z hz => h z (hremaining.2 (.inr hz)))
    exact ⟨y :: ordered, (hperm.cons y).trans List.perm_middle.symm, .cons hxy hmatch⟩

theorem mem_of_forall₂ {α β : Type} {R : α → β → Prop} {xs : List α} {ys : List β} (h : List.Forall₂ R xs ys) :
    ∀ y ∈ ys, ∃ x ∈ xs, R x y := by
  induction h with
  | nil => simp
  | cons hxy _ ih =>
    refine List.forall_mem_cons.2 ⟨⟨_, List.mem_cons_self, hxy⟩, fun y hy => ?_⟩
    obtain ⟨x, hx, hxy⟩ := ih y hy
    exact ⟨x, .tail _ hx, hxy⟩

/-! ## Objects by their identities -/

/-- The fields of the objects that there are, by their identities. -/
abbrev Objects := Nat → List (Value × Value)

namespace Value

mutual

/-- The values in a value, itself the first of them. In an object are its keys and the values of its fields. -/
def parts : Value → List Value
  | object id fields => object id fields :: fieldParts fields
  | value => [value]

/-- The values in the keys and values of fields. -/
def fieldParts : List (Value × Value) → List Value
  | [] => []
  | (key, value) :: rest => key.parts ++ value.parts ++ fieldParts rest

end

/-- The keys of fields are pairwise unequal. -/
def DistinctKeys (fields : List (Value × Value)) : Prop :=
  fields.Pairwise fun x y => (x.1 == y.1) = false ∧ (y.1 == x.1) = false

/-- The objects in the value are those that there are, and the keys of each are pairwise unequal. -/
def Stored (objects : Objects) (value : Value) : Prop :=
  ∀ id fields, object id fields ∈ value.parts → objects id = fields ∧ DistinctKeys fields

theorem mem_fieldParts_iff {fields : List (Value × Value)} {part : Value} :
    part ∈ fieldParts fields ↔ ∃ field ∈ fields, part ∈ field.1.parts ∨ part ∈ field.2.parts := by
  induction fields with
  | nil => simp [fieldParts]
  | cons field rest ih =>
    rw [fieldParts, List.mem_append, List.mem_append, ih, List.exists_mem_cons_iff]

theorem self_mem_parts (value : Value) : value ∈ value.parts := by
  cases value <;> simp [parts]

/-- What is in a key or a value of an object is in the object. -/
theorem mem_parts_object {id : Nat} {fields : List (Value × Value)} {field : Value × Value} (hfield : field ∈ fields)
    {part : Value} (h : part ∈ field.1.parts ∨ part ∈ field.2.parts) : part ∈ (object id fields).parts := by
  rw [parts]
  exact .tail _ (mem_fieldParts_iff.2 ⟨field, hfield, h⟩)

section Stored

variable {objects : Objects} {id : Nat} {fields : List (Value × Value)} {field : Value × Value}

theorem Stored.own (h : (object id fields).Stored objects) : objects id = fields ∧ DistinctKeys fields :=
  h id fields (self_mem_parts _)

theorem Stored.of_mem (h : (object id fields).Stored objects) (hfield : field ∈ fields) :
    field.1.Stored objects ∧ field.2.Stored objects :=
  ⟨fun i xs hmem => h i xs (mem_parts_object hfield (.inl hmem)),
    fun i xs hmem => h i xs (mem_parts_object hfield (.inr hmem))⟩

theorem Stored.object (hid : objects id = fields) (hkeys : DistinctKeys fields)
    (h : ∀ field ∈ fields, field.1.Stored objects ∧ field.2.Stored objects) : (object id fields).Stored objects := by
  intro i xs hmem
  rw [parts] at hmem
  rcases List.mem_cons.1 hmem with heq | hmem
  · cases heq
    exact ⟨hid, hkeys⟩
  · obtain ⟨field, hfield, hkey | hvalue⟩ := mem_fieldParts_iff.1 hmem
    · exact (h field hfield).1 i xs hkey
    · exact (h field hfield).2 i xs hvalue

theorem sizeOf_field_lt (id : Nat) (hfield : field ∈ fields) :
    sizeOf field.1 < sizeOf (Value.object id fields) ∧ sizeOf field.2 < sizeOf (Value.object id fields) := by
  have hlt := List.sizeOf_lt_of_mem hfield
  obtain ⟨key, value⟩ := field
  simp only [Prod.mk.sizeOf_spec, Value.object.sizeOf_spec] at hlt ⊢
  omega

end Stored

/-! ## What equality compares -/

/-- Two fields have equal keys and equal values. -/
def SameField (x y : Value × Value) : Prop :=
  (x.1 == y.1) = true ∧ (x.2 == y.2) = true

/-- What two equal values have in common. -/
inductive Equal : Value → Value → Prop
  | bool (b : Bool) : Equal (bool b) (bool b)
  | number {x y : Float} (h : (x == y) = true) : Equal (number x) (number y)
  | string (text : String) : Equal (string text) (string text)
  | error (message : String) : Equal (error message) (error message)
  | object {i j : Nat} {xs ys : List (Value × Value)}
    (h : i = j ∨ xs.length = ys.length ∧ coveredBy xs ys = true) : Equal (object i xs) (object j ys)
  | scope (id : ScopeId) : Equal (scope id) (scope id)
  | function (code : String) : Equal (function code) (function code)
  | lazyFunction (code : String) : Equal (lazyFunction code) (lazyFunction code)
  | closure (id : Nat) (body body' : Expr) (scope scope' : ScopeId) :
    Equal (closure id body scope) (closure id body' scope')

theorem beq_iff_equal {a b : Value} : (a == b) = true ↔ Equal a b := by
  show beq a b = true ↔ _
  constructor
  · intro h
    unfold beq at h
    split at h
    case h_10 => cases h
    case h_5 => exact .object (by simpa using h)
    all_goals first | exact .number h | (obtain rfl := eq_of_beq h; constructor)
  · intro h
    cases h with
    | number h => exact h
    | object h => simpa [beq] using h
    | _ => simp [beq]

/-- Where fields cover others, each has an equal one among them. -/
theorem exists_of_coveredBy {xs ys : List (Value × Value)} (h : coveredBy xs ys = true) :
    ∀ x ∈ xs, ∃ y ∈ ys, SameField x y := by
  induction xs with
  | nil => simp
  | cons x rest ih =>
    rw [coveredBy, Bool.and_eq_true, Option.any_eq_true] at h
    obtain ⟨⟨y, hfind, hvalue⟩, hrest⟩ := h
    have hkey : beq x.1 y.1 = true := by simpa using List.find?_some hfind
    exact List.forall_mem_cons.2 ⟨⟨y, List.mem_of_find?_eq_some hfind, hkey, hvalue⟩, ih hrest⟩

/-- Fields cover others if each has an equal one among them and its key is equal to no other key. -/
theorem coveredBy_of_forall {xs ys : List (Value × Value)}
    (h : ∀ x ∈ xs, ∃ y ∈ ys, SameField x y ∧ ∀ other ∈ ys, (x.1 == other.1) = true → other = y) :
    coveredBy xs ys = true := by
  induction xs with
  | nil => rfl
  | cons x rest ih =>
    obtain ⟨⟨y, hy, ⟨hkey, hvalue⟩, honly⟩, hrest⟩ := List.forall_mem_cons.1 h
    have hsome : (ys.find? fun other => beq x.1 other.1).isSome := List.find?_isSome.2 ⟨y, hy, hkey⟩
    obtain ⟨found, hfind⟩ := Option.isSome_iff_exists.1 hsome
    have hfound : beq x.1 found.1 = true := by simpa using List.find?_some hfind
    obtain rfl := honly found (List.mem_of_find?_eq_some hfind) hfound
    rw [coveredBy, Bool.and_eq_true, hfind]
    exact ⟨hvalue, ih hrest⟩

/-! ## Fields that match -/

/-- Equality is symmetric and transitive among the values with a property. -/
structure EquivalenceOn (P : Value → Prop) : Prop where
  symm : ∀ {a b : Value}, P a → P b → (a == b) = true → (b == a) = true
  trans : ∀ {a b c : Value}, P a → P b → P c → (a == b) = true → (b == c) = true → (a == c) = true

section Fields

variable {P : Value → Prop} {xs ys zs : List (Value × Value)}

/-- The keys and values of the fields have the property. -/
def AllFields (P : Value → Prop) (fields : List (Value × Value)) : Prop :=
  ∀ field ∈ fields, P field.1 ∧ P field.2

theorem DistinctKeys.eq_of_beq (h : DistinctKeys xs) {x y : Value × Value} (hx : x ∈ xs) (hy : y ∈ xs)
    (hkey : (x.1 == y.1) = true) : x = y := by
  have hsymm : Std.Symm fun x y : Value × Value => (x.1 == y.1) = false ∧ (y.1 == x.1) = false := ⟨fun _ _ h => h.symm⟩
  by_contra hne
  exact Bool.false_ne_true ((h.forall hx hy hne).1.symm.trans hkey)

theorem EquivalenceOn.sameField_symm (hP : EquivalenceOn P) {x y : Value × Value} (hx : P x.1 ∧ P x.2)
    (hy : P y.1 ∧ P y.2) (h : SameField x y) : SameField y x :=
  ⟨hP.symm hx.1 hy.1 h.1, hP.symm hx.2 hy.2 h.2⟩

theorem EquivalenceOn.sameField_trans (hP : EquivalenceOn P) {x y z : Value × Value} (hx : P x.1 ∧ P x.2)
    (hy : P y.1 ∧ P y.2) (hz : P z.1 ∧ P z.2) (hxy : SameField x y) (hyz : SameField y z) : SameField x z :=
  ⟨hP.trans hx.1 hy.1 hz.1 hxy.1 hyz.1, hP.trans hx.2 hy.2 hz.2 hxy.2 hyz.2⟩

/-- Keys that are pairwise unequal are found by those that are equal to them. -/
theorem EquivalenceOn.coveredBy (hP : EquivalenceOn P) (hxs : AllFields P xs) (hys : AllFields P ys)
    (hkeys : DistinctKeys ys) (h : ∀ x ∈ xs, ∃ y ∈ ys, SameField x y) : coveredBy xs ys = true := by
  refine coveredBy_of_forall fun x hx => ?_
  obtain ⟨y, hy, hsame⟩ := h x hx
  refine ⟨y, hy, hsame, fun other hother hkey => (hkeys.eq_of_beq hy hother ?_).symm⟩
  have hyx := hP.symm (hxs x hx).1 (hys y hy).1 hsame.1
  exact hP.trans (hys y hy).1 (hxs x hx).1 (hys other hother).1 hyx hkey

/-- Fields that cover as many others match them one to one. -/
theorem EquivalenceOn.matching (hP : EquivalenceOn P) (hxs : AllFields P xs) (hys : AllFields P ys)
    (hkeys : DistinctKeys xs) (hlength : xs.length = ys.length) (h : Value.coveredBy xs ys = true) :
    ∃ ordered, ordered.Perm ys ∧ List.Forall₂ (fun x y => x ∈ xs ∧ y ∈ ys ∧ SameField x y) xs ordered := by
  refine exists_matching hlength (fun x hx => ?_) (hkeys.imp_of_mem fun {x x'} hx hx' hne y hy hxy hx'y => ?_)
  · obtain ⟨y, hy, hsame⟩ := exists_of_coveredBy h x hx
    exact ⟨y, hy, hx, hy, hsame⟩
  · have hyx' := hP.symm (hxs x' hx').1 (hys y hy).1 hx'y.2.2.1
    exact Bool.false_ne_true (hne.1.symm.trans (hP.trans (hxs x hx).1 (hys y hy).1 (hxs x' hx').1 hxy.2.2.1 hyx'))

theorem EquivalenceOn.coveredBy_symm (hP : EquivalenceOn P) (hxs : AllFields P xs) (hys : AllFields P ys)
    (hkeys : DistinctKeys xs) (hlength : xs.length = ys.length) (h : Value.coveredBy xs ys = true) :
    Value.coveredBy ys xs = true := by
  obtain ⟨ordered, hperm, hmatch⟩ := hP.matching hxs hys hkeys hlength h
  refine hP.coveredBy hys hxs hkeys fun y hy => ?_
  obtain ⟨x, hx, -, -, hsame⟩ := mem_of_forall₂ hmatch y (hperm.mem_iff.2 hy)
  exact ⟨x, hx, hP.sameField_symm (hxs x hx) (hys y hy) hsame⟩

theorem EquivalenceOn.coveredBy_trans (hP : EquivalenceOn P) (hxs : AllFields P xs) (hys : AllFields P ys)
    (hzs : AllFields P zs) (hkeys : DistinctKeys zs) (hxy : Value.coveredBy xs ys = true)
    (hyz : Value.coveredBy ys zs = true) : Value.coveredBy xs zs = true := by
  refine hP.coveredBy hxs hzs hkeys fun x hx => ?_
  obtain ⟨y, hy, hxy⟩ := exists_of_coveredBy hxy x hx
  obtain ⟨z, hz, hyz⟩ := exists_of_coveredBy hyz y hy
  exact ⟨z, hz, hP.sameField_trans (hxs x hx) (hys y hy) (hzs z hz) hxy hyz⟩

end Fields

/-! ## Symmetry and transitivity -/

section Store

variable {objects : Objects} {n : Nat}

/-- Stored values below a size. -/
def StoredBelow (objects : Objects) (n : Nat) (value : Value) : Prop :=
  value.Stored objects ∧ sizeOf value < n

theorem StoredBelow.allFields {id : Nat} {fields : List (Value × Value)}
    (h : StoredBelow objects (n + 1) (object id fields)) : AllFields (StoredBelow objects n) fields := by
  intro field hfield
  obtain ⟨hstored, hsize⟩ := h
  obtain ⟨hkey, hvalue⟩ := hstored.of_mem hfield
  obtain ⟨hk, hv⟩ := sizeOf_field_lt id hfield
  exact ⟨⟨hkey, by omega⟩, hvalue, by omega⟩

/-- One identity stands for one object. -/
theorem Stored.eq_of_same_id {id : Nat} {xs ys : List (Value × Value)} (hx : (Value.object id xs).Stored objects)
    (hy : (Value.object id ys).Stored objects) : xs = ys :=
  hx.own.1.symm.trans hy.own.1

/-- Equality of objects is decided by that of smaller values. -/
theorem EquivalenceOn.succ (hP : EquivalenceOn (StoredBelow objects n)) :
    EquivalenceOn (StoredBelow objects (n + 1)) where
  symm := by
    intro a b ha hb hab
    cases beq_iff_equal.1 hab with
    | number h => exact beq_iff_equal.2 (.number (BEq.symm h))
    | object h =>
      refine beq_iff_equal.2 (.object ?_)
      rcases h with rfl | ⟨hlength, hcovered⟩
      · exact .inl rfl
      · exact .inr ⟨hlength.symm,
          hP.coveredBy_symm ha.allFields hb.allFields ha.1.own.2 hlength hcovered⟩
    | closure => exact beq_iff_equal.2 (.closure _ _ _ _ _)
    | _ => exact hab
  trans := by
    intro a b c ha hb hc hab hbc
    cases beq_iff_equal.1 hab with
    | number h =>
      cases beq_iff_equal.1 hbc with
      | number h' => exact beq_iff_equal.2 (.number (BEq.trans h h'))
    | object h =>
      cases beq_iff_equal.1 hbc with
      | object h' =>
        -- If two of the objects are the same one, what is asked for is known.
        rcases h with rfl | ⟨hlength, hcovered⟩
        · obtain rfl := ha.1.eq_of_same_id hb.1
          exact hbc
        · rcases h' with rfl | ⟨hlength', hcovered'⟩
          · obtain rfl := hb.1.eq_of_same_id hc.1
            exact hab
          · exact beq_iff_equal.2 (.object (.inr ⟨hlength.trans hlength',
              hP.coveredBy_trans ha.allFields hb.allFields hc.allFields hc.1.own.2 hcovered hcovered'⟩))
    | closure =>
      cases beq_iff_equal.1 hbc with
      | closure => exact beq_iff_equal.2 (.closure _ _ _ _ _)
    | _ => exact hbc

theorem equivalenceOn_storedBelow (objects : Objects) (n : Nat) : EquivalenceOn (StoredBelow objects n) := by
  induction n with
  | zero => exact ⟨fun ha => (Nat.not_lt_zero _ ha.2).elim, fun ha => (Nat.not_lt_zero _ ha.2).elim⟩
  | succ n ih => exact ih.succ

/-- Equality is symmetric and transitive among stored values. -/
theorem equivalenceOn_stored (objects : Objects) : EquivalenceOn (Stored objects) where
  symm {a b} ha hb h :=
    (equivalenceOn_storedBelow objects (sizeOf a + sizeOf b + 1)).symm ⟨ha, by omega⟩ ⟨hb, by omega⟩ h
  trans {a b c} ha hb hc h h' :=
    (equivalenceOn_storedBelow objects (sizeOf a + sizeOf b + sizeOf c + 1)).trans ⟨ha, by omega⟩ ⟨hb, by omega⟩
      ⟨hc, by omega⟩ h h'

/-! ## Objects that are built -/

theorem fst_of_mem_insertField {key value : Value} {fields : List (Value × Value)} {field : Value × Value}
    (h : field ∈ insertField key value fields) : field.1 = key ∨ ∃ other ∈ fields, field.1 = other.1 := by
  induction fields with
  | nil => exact .inl (congrArg Prod.fst (List.mem_singleton.1 h))
  | cons first rest ih =>
    rw [insertField] at h
    split at h
    · rcases List.mem_cons.1 h with rfl | h
      · exact .inr ⟨first, List.mem_cons_self, rfl⟩
      · exact .inr ⟨field, .tail _ h, rfl⟩
    · rcases List.mem_cons.1 h with rfl | h
      · exact .inr ⟨first, List.mem_cons_self, rfl⟩
      · exact (ih h).imp_right fun ⟨other, hother, heq⟩ => ⟨other, .tail _ hother, heq⟩

theorem EquivalenceOn.distinctKeys_insertField {P : Value → Prop} (hP : EquivalenceOn P) {key : Value} (hkey : P key)
    (value : Value) {fields : List (Value × Value)} (hfields : ∀ field ∈ fields, P field.1) (h : DistinctKeys fields) :
    DistinctKeys (insertField key value fields) := by
  induction fields with
  | nil => exact List.pairwise_singleton _ _
  | cons first rest ih =>
    obtain ⟨hfirst, hrest⟩ := List.pairwise_cons.1 h
    obtain ⟨hPfirst, hPrest⟩ := List.forall_mem_cons.1 hfields
    rw [insertField]
    split
    · exact List.pairwise_cons.2 ⟨hfirst, hrest⟩
    · rename_i hne
      refine List.pairwise_cons.2 ⟨fun field hfield => ?_, ih hPrest hrest⟩
      rcases fst_of_mem_insertField hfield with hnew | ⟨other, hother, hold⟩
      · rw [hnew]
        exact ⟨Bool.eq_false_iff.2 fun hsame => hne (hP.symm hPfirst hkey hsame), Bool.eq_false_iff.2 hne⟩
      · rw [hold]
        exact hfirst other hother

theorem fieldsOf_concat (pairs : List (Value × Value)) (last : Value × Value) :
    fieldsOf (pairs ++ [last]) = insertField last.1 last.2 (fieldsOf pairs) := by
  simp [fieldsOf]

/-- An object that is built of pairs has keys of the pairs. -/
theorem exists_fst_of_mem_fieldsOf {pairs : List (Value × Value)} {field : Value × Value} (h : field ∈ fieldsOf pairs) :
    ∃ pair ∈ pairs, field.1 = pair.1 := by
  induction pairs using List.reverseRecOn generalizing field with
  | nil => cases h
  | append_singleton pairs last ih =>
    rw [fieldsOf_concat] at h
    rcases fst_of_mem_insertField h with hnew | ⟨other, hother, hold⟩
    · exact ⟨last, by simp, hnew⟩
    · obtain ⟨pair, hpair, heq⟩ := ih hother
      exact ⟨pair, List.mem_append_left _ hpair, hold.trans heq⟩

/-- The keys of an object that is built of pairs are pairwise unequal, whatever keys the pairs have. -/
theorem distinctKeys_fieldsOf {pairs : List (Value × Value)} (h : ∀ pair ∈ pairs, pair.1.Stored objects) :
    DistinctKeys (fieldsOf pairs) := by
  induction pairs using List.reverseRecOn with
  | nil => exact .nil
  | append_singleton pairs last ih =>
    obtain ⟨hpairs, hlast⟩ := List.forall_mem_append.1 h
    have hfields (field : Value × Value) (hfield : field ∈ fieldsOf pairs) : field.1.Stored objects := by
      obtain ⟨pair, hpair, heq⟩ := exists_fst_of_mem_fieldsOf hfield
      exact heq ▸ hpairs pair hpair
    rw [fieldsOf_concat]
    exact (equivalenceOn_stored objects).distinctKeys_insertField (hlast last List.mem_cons_self) last.2 hfields
      (ih hpairs)

end Store

/-! ## Objects with the same fields -/

/-- Fields with the same keys and equal values, one by one. -/
def SameFields : List (Value × Value) → List (Value × Value) → Prop :=
  List.Forall₂ fun x y => x.1 = y.1 ∧ (x.2 == y.2) = true

theorem SameFields.insertField {xs ys : List (Value × Value)} (h : SameFields xs ys) (key : Value) {v w : Value}
    (hvw : (v == w) = true) : SameFields (insertField key v xs) (insertField key w ys) := by
  induction h with
  | nil => exact .cons ⟨rfl, hvw⟩ .nil
  | @cons x y xs ys hxy hrest ih =>
    obtain ⟨k, _⟩ := x
    obtain ⟨_, _⟩ := y
    obtain ⟨rfl, hvalues⟩ : k = _ ∧ _ := hxy
    rw [Value.insertField, Value.insertField]
    split
    · exact .cons ⟨rfl, hvw⟩ hrest
    · exact .cons ⟨rfl, hvalues⟩ ih

theorem SameFields.fieldsOf {xs ys : List (Value × Value)} (h : SameFields xs ys) :
    SameFields (fieldsOf xs) (fieldsOf ys) := by
  suffices hfold : ∀ fields others : List (Value × Value), SameFields fields others →
      SameFields (xs.foldl (fun fields pair => Value.insertField pair.1 pair.2 fields) fields)
        (ys.foldl (fun fields pair => Value.insertField pair.1 pair.2 fields) others) from hfold [] [] .nil
  induction h with
  | nil => exact fun _ _ h => h
  | @cons x y xs ys hxy _ ih =>
    intro fields others hfields
    rw [List.foldl_cons, List.foldl_cons, ← hxy.1]
    exact ih _ _ (hfields.insertField x.1 hxy.2)

/-- Objects with the same fields are equal. -/
theorem SameFields.beq {xs ys : List (Value × Value)} (h : SameFields xs ys) (hkeys : DistinctKeys ys)
    (hself : ∀ y ∈ ys, (y.1 == y.1) = true) (id id' : Nat) : (object id xs == object id' ys) = true := by
  refine beq_iff_equal.2 (.object (.inr ⟨h.length_eq, coveredBy_of_forall fun x hx => ?_⟩))
  obtain ⟨y, hy, hkey, hvalue⟩ := mem_of_forall₂ h.flip x hx
  refine ⟨y, hy, ⟨?_, hvalue⟩, fun other hother hsame => ?_⟩
  · rw [hkey]
    exact hself y hy
  · rw [hkey] at hsame
    exact (hkeys.eq_of_beq hy hother hsame).symm

end Value

end DynamicConfig

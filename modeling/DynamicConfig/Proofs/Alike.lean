import DynamicConfig.Proofs.Clauses
import DynamicConfig.Proofs.Pairing
import Mathlib.Data.List.Forall2
import Mathlib.Data.List.Nodup
/-!
# Values up to their identities

Two machines may give their scopes, objects and closures different identities. A pairing says which of one
machine stands for which of the other one, and values are alike under it if they differ in nothing else
(`Value.Alike`). Where it is one to one, everything that evaluation asks of values has the same answer for values
that are alike: whether they are equal (`Value.beq_alike`), what an operator makes of them, what a name is bound to.
-/

namespace DynamicConfig

variable {p q : Pairing}

/-! ## Values -/

namespace Value

/-- The keys of fields are texts, each of them once: what the arguments of a call make. -/
def Named (fields : List (Value × Value)) : Prop :=
  ∃ names : List String, names.Nodup ∧ fields.map Prod.fst = names.map string

mutual

/-- Values that differ at most in identities that stand for each other. An object that has got another identity
is one that a call has made. -/
inductive Alike (p : Pairing) : Value → Value → Prop
  | bool (b : Bool) : Alike p (.bool b) (.bool b)
  | number (x : Float) : Alike p (.number x) (.number x)
  | string (text : String) : Alike p (.string text) (.string text)
  | error (message : String) : Alike p (.error message) (.error message)
  | object {i i' : Nat} {fields fields' : List (Value × Value)} (hid : p.SameId i i') (hnew : i = i' ∨ Named fields)
      (hfields : FieldsAlike p fields fields') : Alike p (.object i fields) (.object i' fields')
  | scope {s s' : ScopeId} (hscope : p.SameScope s s') : Alike p (.scope s) (.scope s')
  | function (code : String) : Alike p (.function code) (.function code)
  | lazyFunction (code : String) : Alike p (.lazyFunction code) (.lazyFunction code)
  | closure {i i' : Nat} (body : Expr) {s s' : ScopeId} (hid : p.SameId i i') (hscope : p.SameScope s s') :
      Alike p (.closure i body s) (.closure i' body s')

/-- Fields with keys and values that are alike, in the same order. -/
inductive FieldsAlike (p : Pairing) : List (Value × Value) → List (Value × Value) → Prop
  | nil : FieldsAlike p [] []
  | cons {k k' v v' : Value} {rest rest' : List (Value × Value)} (hkey : Alike p k k') (hvalue : Alike p v v')
      (hrest : FieldsAlike p rest rest') : FieldsAlike p ((k, v) :: rest) ((k', v') :: rest')

end

mutual

theorem Alike.mono (hpq : p ≤ q) : ∀ {v v' : Value}, Alike p v v' → Alike q v v'
  | _, _, .bool b => .bool b
  | _, _, .number x => .number x
  | _, _, .string text => .string text
  | _, _, .error message => .error message
  | _, _, .object hid hnew hfields => .object (hpq.2 _ _ hid) hnew (FieldsAlike.mono hpq hfields)
  | _, _, .scope hscope => .scope (hpq.1 _ _ hscope)
  | _, _, .function code => .function code
  | _, _, .lazyFunction code => .lazyFunction code
  | _, _, .closure body hid hscope => .closure body (hpq.2 _ _ hid) (hpq.1 _ _ hscope)

theorem FieldsAlike.mono (hpq : p ≤ q) : ∀ {xs xs' : List (Value × Value)}, FieldsAlike p xs xs' → FieldsAlike q xs xs'
  | _, _, .nil => .nil
  | _, _, .cons hkey hvalue hrest =>
    .cons (Alike.mono hpq hkey) (Alike.mono hpq hvalue) (FieldsAlike.mono hpq hrest)

end

mutual

theorem Alike.refl (hp : p.Reflexive) : (v : Value) → Alike p v v
  | .bool b => .bool b
  | .number x => .number x
  | .string text => .string text
  | .error message => .error message
  | .object i fields => .object (hp.id i) (.inl rfl) (FieldsAlike.refl hp fields)
  | .scope s => .scope (hp.scope s)
  | .function code => .function code
  | .lazyFunction code => .lazyFunction code
  | .closure i body s => .closure body (hp.id i) (hp.scope s)

theorem FieldsAlike.refl (hp : p.Reflexive) : (fields : List (Value × Value)) → FieldsAlike p fields fields
  | [] => .nil
  | (k, v) :: rest => .cons (Alike.refl hp k) (Alike.refl hp v) (FieldsAlike.refl hp rest)

end

/-- The keys that arguments make are the same on both sides. -/
theorem FieldsAlike.named {fields fields' : List (Value × Value)} (h : FieldsAlike p fields fields')
    (hnamed : Named fields) : Named fields' := by
  obtain ⟨names, hdistinct, hkeys⟩ := hnamed
  refine ⟨names, hdistinct, ?_⟩
  clear hdistinct
  induction fields generalizing fields' names with
  | nil =>
    cases h
    exact hkeys
  | cons field rest ih =>
    cases h with
    | cons hkey hvalue hrest =>
      cases names with
      | nil => cases hkeys
      | cons name others =>
        rw [List.map_cons, List.map_cons, List.cons.injEq] at hkeys
        obtain ⟨rfl, hothers⟩ := hkeys
        cases hkey
        rw [List.map_cons, List.map_cons, ih hrest others hothers]

mutual

theorem Alike.symm : ∀ {v v' : Value}, Alike p v v' → Alike p.swap v' v
  | _, _, .bool b => .bool b
  | _, _, .number x => .number x
  | _, _, .string text => .string text
  | _, _, .error message => .error message
  | _, _, .object hid hnew hfields => .object hid (hnew.imp Eq.symm hfields.named) (FieldsAlike.symm hfields)
  | _, _, .scope hscope => .scope hscope
  | _, _, .function code => .function code
  | _, _, .lazyFunction code => .lazyFunction code
  | _, _, .closure body hid hscope => .closure body hid hscope

theorem FieldsAlike.symm : ∀ {xs xs' : List (Value × Value)}, FieldsAlike p xs xs' → FieldsAlike p.swap xs' xs
  | _, _, .nil => .nil
  | _, _, .cons hkey hvalue hrest => .cons (Alike.symm hkey) (Alike.symm hvalue) (FieldsAlike.symm hrest)

end

mutual

theorem Alike.trans : ∀ {a b c : Value}, Alike p a b → Alike q b c → Alike (p.comp q) a c
  | _, _, _, .bool b, .bool _ => .bool b
  | _, _, _, .number x, .number _ => .number x
  | _, _, _, .string text, .string _ => .string text
  | _, _, _, .error message, .error _ => .error message
  | _, _, _, .object hid hnew hfields, .object hid' hnew' hfields' => by
    refine .object ⟨_, hid, hid'⟩ ?_ (FieldsAlike.trans hfields hfields')
    rcases hnew with rfl | hnamed
    · exact hnew'.imp_right hfields.symm.named
    · exact .inr hnamed
  | _, _, _, .scope hscope, .scope hscope' => .scope ⟨_, hscope, hscope'⟩
  | _, _, _, .function code, .function _ => .function code
  | _, _, _, .lazyFunction code, .lazyFunction _ => .lazyFunction code
  | _, _, _, .closure body hid hscope, .closure _ hid' hscope' => .closure body ⟨_, hid, hid'⟩ ⟨_, hscope, hscope'⟩

theorem FieldsAlike.trans : ∀ {xs ys zs : List (Value × Value)}, FieldsAlike p xs ys → FieldsAlike q ys zs →
    FieldsAlike (p.comp q) xs zs
  | _, _, _, .nil, .nil => .nil
  | _, _, _, .cons hkey hvalue hrest, .cons hkey' hvalue' hrest' =>
    .cons (Alike.trans hkey hkey') (Alike.trans hvalue hvalue') (FieldsAlike.trans hrest hrest')

end

mutual

/-- Where everything stands for itself, values that are alike are the same. -/
theorem Alike.eq (hp : p ≤ .same) : ∀ {v v' : Value}, Alike p v v' → v = v'
  | _, _, .bool _ | _, _, .number _ | _, _, .string _ | _, _, .error _ | _, _, .function _ | _, _, .lazyFunction _ => rfl
  | _, _, .object hid _ hfields => by rw [hp.2 _ _ hid, FieldsAlike.eq hp hfields]
  | _, _, .scope hscope => by rw [hp.1 _ _ hscope]
  | _, _, .closure _ hid hscope => by rw [hp.2 _ _ hid, hp.1 _ _ hscope]

theorem FieldsAlike.eq (hp : p ≤ .same) : ∀ {xs xs' : List (Value × Value)}, FieldsAlike p xs xs' → xs = xs'
  | _, _, .nil => rfl
  | _, _, .cons hkey hvalue hrest => by rw [Alike.eq hp hkey, Alike.eq hp hvalue, FieldsAlike.eq hp hrest]

end

theorem Alike.isError_eq {v v' : Value} (h : Alike p v v') : v.isError = v'.isError := by
  cases h <;> rfl

theorem Alike.asNumber_eq {v v' : Value} (h : Alike p v v') : v.asNumber? = v'.asNumber? := by
  cases h <;> rfl

theorem Alike.keyCode_eq {k k' : Value} (h : Alike p k k') (code : String) : keyCode k code = keyCode k' code := by
  cases h <;> rfl

mutual

theorem Alike.code_eq : ∀ {v v' : Value}, Alike p v v' → v.code = v'.code
  | _, _, .bool _ | _, _, .number _ | _, _, .string _ | _, _, .error _ => rfl
  | _, _, .function _ | _, _, .lazyFunction _ | _, _, .scope _ | _, _, .closure _ _ _ => rfl
  | _, _, .object _ _ hfields => by rw [code, code, FieldsAlike.fieldCodes_eq hfields]

theorem FieldsAlike.fieldCodes_eq : ∀ {xs xs' : List (Value × Value)}, FieldsAlike p xs xs' →
    fieldCodes xs = fieldCodes xs'
  | _, _, .nil => rfl
  | _, _, .cons hkey hvalue hrest => by
    rw [fieldCodes, fieldCodes, Alike.code_eq hkey, hkey.keyCode_eq, Alike.code_eq hvalue,
      FieldsAlike.fieldCodes_eq hrest]

end

theorem Alike.displayName_eq {v v' : Value} (h : Alike p v v') : v.displayName = v'.displayName := by
  cases h with
  | object hid hnew hfields => exact (Alike.object hid hnew hfields).code_eq
  | _ => rfl

/-! ## Fields -/

theorem FieldsAlike.length_eq : ∀ {xs xs' : List (Value × Value)}, FieldsAlike p xs xs' → xs.length = xs'.length
  | _, _, .nil => rfl
  | _, _, .cons _ _ hrest => congrArg (· + 1) (FieldsAlike.length_eq hrest)

/-- The first field with a key that is asked for. -/
theorem FieldsAlike.find {xs xs' : List (Value × Value)} (h : FieldsAlike p xs xs') {test test' : Value → Bool}
    (htest : ∀ {k k'}, Alike p k k' → test k = test' k') :
    Option.Rel (fun field field' => Alike p field.1 field'.1 ∧ Alike p field.2 field'.2)
      (xs.find? fun field => test field.1) (xs'.find? fun field => test' field.1) := by
  induction xs generalizing xs' with
  | nil => cases h; exact .none
  | cons field rest ih =>
    cases h with
    | @cons k k' _ _ _ _ hkey hvalue hrest =>
      rw [List.find?_cons, List.find?_cons]
      dsimp only
      rw [htest hkey]
      cases test' k' with
      | true => exact .some ⟨hkey, hvalue⟩
      | false => exact ih hrest

mutual

/-- Values are equal exactly if those that are alike to them are. -/
theorem beq_alike (hp : p.OneToOne) : ∀ {a a' b b' : Value}, Alike p a a' → Alike p b b' → beq a b = beq a' b'
  | _, _, _, _, .bool _, hb => by cases hb <;> rfl
  | _, _, _, _, .number _, hb => by cases hb <;> rfl
  | _, _, _, _, .string _, hb => by cases hb <;> rfl
  | _, _, _, _, .error _, hb => by cases hb <;> rfl
  | _, _, _, _, .function _, hb => by cases hb <;> rfl
  | _, _, _, _, .lazyFunction _, hb => by cases hb <;> rfl
  | _, _, _, _, .scope hscope, hb => by
    cases hb with
    | scope hscope' => exact hp.beq_scope hscope hscope'
    | _ => rfl
  | _, _, _, _, .closure _ hid _, hb => by
    cases hb with
    | closure _ hid' _ => exact hp.beq_id hid hid'
    | _ => rfl
  | _, _, _, _, .object hid _ hfields, hb => by
    cases hb with
    | object hid' _ hfields' =>
      rw [beq, beq, hp.beq_id hid hid', FieldsAlike.length_eq hfields, FieldsAlike.length_eq hfields',
        coveredBy_alike hp hfields hfields']
    | _ => rfl

theorem coveredBy_alike (hp : p.OneToOne) : ∀ {xs xs' ys ys' : List (Value × Value)},
    FieldsAlike p xs xs' → FieldsAlike p ys ys' → coveredBy xs ys = coveredBy xs' ys'
  | _, _, _, _, .nil, _ => rfl
  | _, _, _, _, .cons hkey hvalue hrest, hys => by
    have hfind := hys.find fun h => beq_alike hp hkey h
    rw [coveredBy, coveredBy, coveredBy_alike hp hrest hys]
    congr 1
    generalize List.find? _ _ = found at hfind
    generalize List.find? _ _ = found' at hfind
    cases hfind with
    | none => rfl
    | some hboth => exact beq_alike hp hvalue hboth.2

end

theorem Alike.beq_eq (hp : p.OneToOne) {a a' b b' : Value} (ha : Alike p a a') (hb : Alike p b b') :
    (a == b) = (a' == b') :=
  beq_alike hp ha hb

/-- A text is equal to nothing but itself, whatever stands for what. -/
theorem Alike.string_beq (name : String) {v v' : Value} (h : Alike p v v') :
    (Value.string name == v) = (Value.string name == v') := by
  cases h <;> rfl

/-- The value of a key that passes the same keys on both sides. -/
theorem fieldOf_alike {xs xs' : List (Value × Value)} (h : FieldsAlike p xs xs') {k k' : Value}
    (hkey : ∀ {other other'}, Alike p other other' → (k == other) = (k' == other')) :
    Option.Rel (Alike p) (fieldOf? xs k) (fieldOf? xs' k') := by
  have hfind := h.find hkey
  rw [fieldOf?, fieldOf?]
  generalize List.find? _ _ = found at hfind ⊢
  generalize List.find? _ _ = found' at hfind ⊢
  cases hfind with
  | none => exact .none
  | some hboth => exact .some hboth.2

theorem insertField_alike {xs xs' : List (Value × Value)} (h : FieldsAlike p xs xs') (name : String) {v v' : Value}
    (hvalue : Alike p v v') : FieldsAlike p (insertField (.string name) v xs) (insertField (.string name) v' xs') := by
  induction xs generalizing xs' with
  | nil => cases h; exact .cons (.string name) hvalue .nil
  | cons field rest ih =>
    cases h with
    | cons hk hv hrest =>
      rw [insertField, insertField, hk.string_beq]
      split
      · exact .cons hk hvalue hrest
      · exact .cons hk hv (ih hrest)

theorem named_nil : Named [] :=
  ⟨[], List.nodup_nil, rfl⟩

/-- A field with a new key comes last, one with a key that there is keeps its place. -/
theorem keys_insertField (name : String) (value : Value) {fields : List (Value × Value)} {names : List String}
    (h : fields.map Prod.fst = names.map string) :
    ∃ after, (insertField (.string name) value fields).map Prod.fst = after.map string ∧
      (after = names ∨ name ∉ names ∧ after = names ++ [name]) := by
  induction fields generalizing names with
  | nil =>
    obtain rfl : names = [] := List.map_eq_nil_iff.1 h.symm
    exact ⟨[name], rfl, .inr ⟨List.not_mem_nil, rfl⟩⟩
  | cons field rest ih =>
    cases names with
    | nil => cases h
    | cons first others =>
      obtain ⟨k, v⟩ := field
      rw [List.map_cons, List.map_cons, List.cons.injEq] at h
      obtain ⟨rfl, hrest⟩ := h
      by_cases hname : name = first
      · subst hname
        refine ⟨name :: others, ?_, .inl rfl⟩
        have hfound : (string name == string name) = true := beq_self_eq_true name
        rw [insertField, if_pos hfound, List.map_cons, List.map_cons, hrest]
      · have hother : ¬ (string name == string first) = true := fun h => hname (beq_iff_eq.1 h)
        obtain ⟨after, hkeys, hafter⟩ := ih hrest
        refine ⟨first :: after, ?_, ?_⟩
        · rw [insertField, if_neg hother, List.map_cons, List.map_cons, hkeys]
        · rcases hafter with rfl | ⟨hnew, rfl⟩
          · exact .inl rfl
          · exact .inr ⟨List.not_mem_cons_of_ne_of_not_mem hname hnew, rfl⟩

theorem Named.insertField {fields : List (Value × Value)} (h : Named fields) (name : String) (value : Value) :
    Named (insertField (.string name) value fields) := by
  obtain ⟨names, hdistinct, hkeys⟩ := h
  obtain ⟨after, hafter, rfl | ⟨hnew, rfl⟩⟩ := keys_insertField name value hkeys
  · exact ⟨after, hdistinct, hafter⟩
  · refine ⟨_, ?_, hafter⟩
    rw [← List.concat_eq_append]
    exact List.Nodup.concat hnew hdistinct

/-- A field is found by its key. -/
theorem Named.find {fields : List (Value × Value)} (h : Named fields) {field : Value × Value} (hfield : field ∈ fields) :
    ∃ name, field.1 = .string name ∧ (fields.find? fun other => beq (.string name) other.1) = some field := by
  obtain ⟨names, hdistinct, hkeys⟩ := h
  induction fields generalizing names with
  | nil => cases hfield
  | cons first rest ih =>
    cases names with
    | nil => cases hkeys
    | cons name others =>
      rw [List.map_cons, List.map_cons, List.cons.injEq] at hkeys
      obtain ⟨hname, hothers⟩ := hkeys
      rcases List.mem_cons.1 hfield with rfl | hin
      · refine ⟨name, hname, ?_⟩
        rw [List.find?_cons_of_pos (by rw [hname]; exact beq_self_eq_true name)]
      · obtain ⟨other, hother, hfind⟩ := ih hin others hdistinct.of_cons hothers
        refine ⟨other, hother, ?_⟩
        have hmem : other ∈ others := by
          have hkey : field.1 ∈ others.map string := hothers ▸ List.mem_map_of_mem hin
          simpa [hother] using hkey
        have hne : other ≠ name := fun heq => (List.nodup_cons.1 hdistinct).1 (heq ▸ hmem)
        rw [List.find?_cons_of_neg, hfind]
        rw [hname]
        exact fun heq => hne (beq_iff_eq.1 heq)

/-! ## Plain data -/

mutual

/-- Data that is equal to itself: truth values, numbers other than `NaN`, texts, errors and objects of these. -/
def IsPlain : Value → Prop
  | bool _ | string _ | error _ => True
  | number x => (x == x) = true
  | object _ fields => FieldsPlain fields
  | _ => False

/-- Fields whose keys and values are plain data. -/
def FieldsPlain : List (Value × Value) → Prop
  | [] => True
  | (key, value) :: rest => IsPlain key ∧ IsPlain value ∧ FieldsPlain rest

end

mutual

/-- What is alike to plain data is equal to it. -/
theorem Alike.beq_of_isPlain : ∀ {v v' : Value}, Alike p v v' → v.IsPlain → beq v' v = true
  | _, _, .bool b, _ => beq_self_eq_true b
  | _, _, .number _, hx => by
    rw [IsPlain] at hx
    rw [beq, hx]
  | _, _, .string text, _ => beq_self_eq_true text
  | _, _, .error message, _ => beq_self_eq_true message
  | .object _ fields, _, .object _ hnew hfields, hplain => by
    rw [IsPlain] at hplain
    rw [beq, Bool.or_eq_true, Bool.and_eq_true]
    rcases hnew with rfl | hnamed
    · exact .inl (beq_self_eq_true _)
    · refine .inr ⟨by rw [hfields.length_eq, beq_self_eq_true], ?_⟩
      exact FieldsAlike.coveredBy_of_plain hfields hplain fields fun field hfield => hnamed.find hfield
  | _, _, .scope _, hplain | _, _, .function _, hplain | _, _, .lazyFunction _, hplain
  | _, _, .closure _ _ _, hplain => by simp only [IsPlain] at hplain

theorem FieldsAlike.coveredBy_of_plain : ∀ {xs xs' : List (Value × Value)}, FieldsAlike p xs xs' → FieldsPlain xs →
    ∀ others : List (Value × Value), (∀ field ∈ xs, ∃ name, field.1 = .string name ∧
      (others.find? fun other => beq (.string name) other.1) = some field) → coveredBy xs' others = true
  | _, _, .nil, _, _, _ => rfl
  | _, _, .cons hkey hvalue hrest, hplain, others, hfind => by
    rw [FieldsPlain] at hplain
    obtain ⟨_, hv, hplains⟩ := hplain
    obtain ⟨⟨name, hname, hfound⟩, hothers⟩ := List.forall_mem_cons.1 hfind
    cases hname
    cases hkey
    rw [coveredBy, hfound, Bool.and_eq_true]
    exact ⟨Alike.beq_of_isPlain hvalue hv, FieldsAlike.coveredBy_of_plain hrest hplains others hothers⟩

end

end Value

/-! ## Operators -/

namespace Op

open Value

theorem onValue_same {op : Op} {v v' : Value} (h : Alike p v v') : op.onValue v = op.onValue v' := by
  cases h <;> first | rfl | (cases op <;> rfl)

theorem onValue_alike (op : Op) {v v' : Value} (h : Alike p v v') : Alike p (op.onValue v) (op.onValue v') := by
  rw [← onValue_same h]
  unfold onValue
  split <;> constructor

/-- All operators but the comparisons for equality are on numbers. -/
theorem onValues_numbers {op : Op} (heq : op ≠ .eq) (hne : op ≠ .ne) (a b : Value) :
    op.onValues a b = match a.asNumber?, b.asNumber? with
      | some x, some y => op.onNumbers x y
      | _, _ => .error "not a number" := by
  unfold onValues
  split
  · exact absurd rfl heq
  · exact absurd rfl hne
  · rfl
  · rename_i hother
    cases a with
    | number x =>
      cases b with
      | number y => exact absurd rfl (hother x y rfl)
      | _ => rfl
    | _ => rfl

theorem onValues_same (hp : p.OneToOne) {op : Op} {a a' b b' : Value} (ha : Alike p a a') (hb : Alike p b b') :
    op.onValues a b = op.onValues a' b' := by
  by_cases heq : op = .eq
  · subst heq
    exact congrArg Value.bool (ha.beq_eq hp hb)
  by_cases hne : op = .ne
  · subst hne
    exact congrArg (fun equal => Value.bool (!equal)) (ha.beq_eq hp hb)
  rw [onValues_numbers heq hne, onValues_numbers heq hne, ha.asNumber_eq, hb.asNumber_eq]

theorem onValues_alike (hp : p.OneToOne) (op : Op) {a a' b b' : Value} (ha : Alike p a a') (hb : Alike p b b') :
    Alike p (op.onValues a b) (op.onValues a' b') := by
  rw [← onValues_same hp ha hb]
  unfold onValues
  split
  · constructor
  · constructor
  · unfold onNumbers
    split <;> constructor
  · constructor

theorem decidedBy_alike (op : Op) {v v' : Value} (h : Alike p v v') :
    Option.Rel (Alike p) (op.decidedBy v) (op.decidedBy v') := by
  cases h with
  | bool b => cases op <;> cases b <;> constructor <;> constructor
  | _ => cases op <;> constructor <;> constructor

theorem decidedLast_alike {v v' : Value} (h : Alike p v v') : Alike p (decidedLast v) (decidedLast v') := by
  cases h <;> constructor

end Op

/-! ## Bindings -/

/-- States of bindings with values that are alike. -/
inductive EntryState.Alike (p : Pairing) : EntryState → EntryState → Prop
  | unevaluated (expr : Expr) : Alike p (.unevaluated expr) (.unevaluated expr)
  | inProgress : Alike p .inProgress .inProgress
  | evaluated {v v' : Value} (h : Value.Alike p v v') : Alike p (.evaluated v) (.evaluated v')

/-- Bindings of names that are alike, in states that are alike. -/
structure Entry.Alike (p : Pairing) (entry entry' : Entry) : Prop where
  name : Value.Alike p entry.name entry'.name
  state : EntryState.Alike p entry.state entry'.state

theorem EntryState.Alike.mono (hpq : p ≤ q) {state state' : EntryState} (h : EntryState.Alike p state state') :
    EntryState.Alike q state state' := by
  cases h with
  | unevaluated expr => exact .unevaluated expr
  | inProgress => exact .inProgress
  | evaluated h => exact .evaluated (h.mono hpq)

theorem Entry.Alike.mono (hpq : p ≤ q) {entry entry' : Entry} (h : Entry.Alike p entry entry') :
    Entry.Alike q entry entry' where
  name := h.name.mono hpq
  state := h.state.mono hpq

theorem EntryState.Alike.symm {state state' : EntryState} (h : EntryState.Alike p state state') :
    EntryState.Alike p.swap state' state := by
  cases h with
  | unevaluated expr => exact .unevaluated expr
  | inProgress => exact .inProgress
  | evaluated h => exact .evaluated h.symm

theorem Entry.Alike.symm {entry entry' : Entry} (h : Entry.Alike p entry entry') : Entry.Alike p.swap entry' entry where
  name := h.name.symm
  state := h.state.symm

theorem EntryState.Alike.refl (hp : p.Reflexive) : (state : EntryState) → EntryState.Alike p state state
  | .unevaluated expr => .unevaluated expr
  | .inProgress => .inProgress
  | .evaluated v => .evaluated (.refl hp v)

theorem EntryState.Alike.eq (hp : p ≤ .same) {state state' : EntryState} (h : EntryState.Alike p state state') :
    state = state' := by
  cases h with
  | evaluated h => rw [h.eq hp]
  | _ => rfl

theorem Entry.Alike.refl (hp : p.Reflexive) (entry : Entry) : Entry.Alike p entry entry where
  name := .refl hp _
  state := .refl hp _

theorem Entry.Alike.eq (hp : p ≤ .same) {entry entry' : Entry} (h : Entry.Alike p entry entry') : entry = entry' := by
  obtain ⟨name, state⟩ := entry
  obtain ⟨name', state'⟩ := entry'
  rw [Entry.mk.injEq]
  exact ⟨h.name.eq hp, h.state.eq hp⟩

namespace Bindings

/-- The same bindings but for identities. -/
def Alike (p : Pairing) (bindings bindings' : Bindings) : Prop :=
  List.Forall₂ (Entry.Alike p) bindings bindings'

/-- Bindings of the same names but for identities. -/
def NamesAlike (p : Pairing) (bindings bindings' : Bindings) : Prop :=
  List.Forall₂ (fun entry entry' => Value.Alike p entry.name entry'.name) bindings bindings'

variable {bindings bindings' : Bindings}

theorem Alike.mono (hpq : p ≤ q) (h : bindings.Alike p bindings') : bindings.Alike q bindings' :=
  List.Forall₂.imp (fun _ _ h => h.mono hpq) h

theorem Alike.symm (h : bindings.Alike p bindings') : bindings'.Alike p.swap bindings :=
  List.Forall₂.flip (List.Forall₂.imp (fun _ _ h => h.symm) h)

theorem Alike.refl (hp : p.Reflexive) (bindings : Bindings) : bindings.Alike p bindings :=
  List.forall₂_same.2 fun entry _ => .refl hp entry

theorem Alike.eq (hp : p ≤ .same) (h : bindings.Alike p bindings') : bindings = bindings' :=
  List.forall₂_eq_eq_eq ▸ List.Forall₂.imp (fun _ _ h => h.eq hp) h

theorem Alike.names (h : bindings.Alike p bindings') : bindings.NamesAlike p bindings' :=
  List.Forall₂.imp (fun _ _ h => h.name) h

theorem NamesAlike.mono (hpq : p ≤ q) (h : bindings.NamesAlike p bindings') : bindings.NamesAlike q bindings' :=
  List.Forall₂.imp (fun _ _ h => h.mono hpq) h

/-- A binding at a place stands for the one at the same place. -/
theorem Alike.getElem? (h : bindings.Alike p bindings') {place : Nat} {entry : Entry}
    (hentry : bindings[place]? = some entry) : ∃ entry', bindings'[place]? = some entry' ∧ entry.Alike p entry' := by
  obtain ⟨hlt, rfl⟩ := List.getElem?_eq_some_iff.1 hentry
  have hlt' : place < bindings'.length := h.length_eq ▸ hlt
  exact ⟨_, List.getElem?_eq_getElem hlt', h.get hlt hlt'⟩

theorem Alike.modify (h : bindings.Alike p bindings') (place : Nat) {state state' : EntryState}
    (hstate : state.Alike p state') :
    Alike p (bindings.modify place fun entry => { entry with state := state })
      (bindings'.modify place fun entry => { entry with state := state' }) := by
  induction h generalizing place with
  | nil => cases place <;> exact .nil
  | cons hentry hrest ih =>
    cases place with
    | zero => exact .cons ⟨hentry.name, hstate⟩ hrest
    | succ place => exact .cons hentry (ih place)

/-- Only the names matter. -/
theorem NamesAlike.of_map_eq {others others' : Bindings} (h : bindings.NamesAlike p bindings')
    (hnames : others.map Entry.name = bindings.map Entry.name)
    (hnames' : others'.map Entry.name = bindings'.map Entry.name) : others.NamesAlike p others' := by
  have hmap : List.Forall₂ (Value.Alike p) (bindings.map Entry.name) (bindings'.map Entry.name) :=
    List.forall₂_map_left_iff.2 (List.forall₂_map_right_iff.2 h)
  rw [← hnames, ← hnames'] at hmap
  exact List.forall₂_map_right_iff.1 (List.forall₂_map_left_iff.1 hmap)

/-- What asks the same of names that are alike. -/
theorem NamesAlike.test (h : bindings.NamesAlike p bindings') {name name' : Value}
    (hname : ∀ {other other'}, Value.Alike p other other' → (name == other) = (name' == other')) :
    (bindings.map fun entry => name == entry.name) = bindings'.map fun entry => name' == entry.name := by
  induction h with
  | nil => rfl
  | cons hentry hrest ih => rw [List.map_cons, List.map_cons, ih, hname hentry]

theorem NamesAlike.contains_eq (h : bindings.NamesAlike p bindings') (name : String) :
    bindings.contains (.string name) = bindings'.contains (.string name) := by
  have htest := congrArg (List.any · id) (h.test fun h => h.string_beq name)
  rw [List.any_map, List.any_map] at htest
  exact htest

/-- A name is found at the place where it is first. -/
theorem fst_find (bindings : Bindings) (name : Value) :
    (bindings.find? name).map Prod.fst = bindings.findIdx? fun entry => name == entry.name := by
  rw [find?]
  cases hplace : bindings.findIdx? fun entry => name == entry.name with
  | none => rfl
  | some place =>
    have hlt : place < bindings.length := (List.findIdx?_eq_some_iff_getElem.1 hplace).1
    simp [List.getElem?_eq_getElem hlt]

theorem fst_find_names (bindings : Bindings) (name : Value) :
    (bindings.find? name).map Prod.fst = (bindings.map Entry.name).findIdx? (name == ·) := by
  rw [fst_find, List.findIdx?_map]
  rfl

theorem NamesAlike.find_eq (hp : p.OneToOne) (h : bindings.NamesAlike p bindings') {name name' : Value}
    (hname : name.Alike p name') : (bindings.find? name).map Prod.fst = (bindings'.find? name').map Prod.fst := by
  have htest := congrArg (List.findIdx? id) (h.test fun h => hname.beq_eq hp h)
  rw [List.findIdx?_map, List.findIdx?_map] at htest
  rw [fst_find, fst_find]
  exact htest

theorem Waiting.alike (h : bindings.Waiting) : bindings.Alike p bindings := by
  refine List.forall₂_same.2 fun entry hentry => ?_
  obtain ⟨name, expr, rfl⟩ := h entry hentry
  exact ⟨.string name, .unevaluated expr⟩

end Bindings

end DynamicConfig

import DynamicConfig.Proofs.Parts
import DynamicConfig.Proofs.Tables
import DynamicConfig.Proofs.WholeSpelling
/-!
# Arguments that come back

A JSON argument becomes a value, and a value that is an answer becomes JSON. An argument that is answered as it is
keeps its texts, truth values and numbers and all keys of its objects; an array comes back as an object of its items by
their places, and `null` as the error that it is (`Json.argument_comes_back`).
-/

namespace DynamicConfig

namespace Json

/-! ## What comes back -/

mutual

/-- A JSON value with its numbers as doubles, which is how they are read. -/
def doubles : Json → Json
  | integer n => number (Float.ofInt n)
  | array items => array (doublesItems items)
  | object fields => object (doublesFields fields)
  | json => json

def doublesItems : List Json → List Json
  | [] => []
  | item :: rest => doubles item :: doublesItems rest

def doublesFields : List (String × Json) → List (String × Json)
  | [] => []
  | (key, json) :: rest => (key, doubles json) :: doublesFields rest

end

mutual

/-- What a JSON argument comes back as. -/
def answer : Json → Json
  | null => object [("error", string "null is not a value")]
  | array items => ofFields (answerItems 0 items)
  | object fields => object (answerFields fields)
  | json => json

/-- Items by their places, from one on. -/
def answerItems (place : Nat) : List Json → List (String × Json)
  | [] => []
  | item :: rest => (toString place, answer item) :: answerItems (place + 1) rest

def answerFields : List (String × Json) → List (String × Json)
  | [] => []
  | (key, json) :: rest => (key, answer json) :: answerFields rest

end

/-- A JSON value whose numbers are finite doubles. The fields of an object stand in the order of their keys, and the
places of the items of an array are whole numbers that doubles tell apart. -/
inductive Sound : Json → Prop
  | null : Sound null
  | bool (b : Bool) : Sound (bool b)
  | number {x : Float} (hnan : x.isNaN = false) (hinf : x.isInf = false) : Sound (number x)
  | string (text : String) : Sound (string text)
  | array {items : List Json} (hlength : items.length ≤ 2 ^ 53) (h : ∀ item ∈ items, Sound item) : Sound (array items)
  | object {fields : List (String × Json)} (hkeys : Keyed.Sorted fields) (h : ∀ field ∈ fields, Sound field.2) :
    Sound (object fields)

/-- A JSON value without an array and without `null`. -/
inductive Lasting : Json → Prop
  | bool (b : Bool) : Lasting (bool b)
  | integer (n : Int) : Lasting (integer n)
  | number (x : Float) : Lasting (number x)
  | string (text : String) : Lasting (string text)
  | object {fields : List (String × Json)} (h : ∀ field ∈ fields, Lasting field.2) : Lasting (object fields)

/-! ### Part by part -/

theorem doublesItems_eq (items : List Json) : doublesItems items = items.map doubles := by
  induction items with
  | nil => rfl
  | cons item rest ih => rw [doublesItems, ih, List.map_cons]

theorem doublesFields_eq (fields : List (String × Json)) :
    doublesFields fields = fields.map fun field => (field.1, field.2.doubles) := by
  induction fields with
  | nil => rfl
  | cons field rest ih => rw [doublesFields, ih, List.map_cons]

theorem answerItems_eq (place : Nat) (items : List Json) :
    answerItems place items = (items.zipIdx place).map fun item => (toString item.2, item.1.answer) := by
  induction items generalizing place with
  | nil => rfl
  | cons item rest ih => rw [answerItems, ih, List.zipIdx_cons, List.map_cons]

theorem answerFields_eq (fields : List (String × Json)) :
    answerFields fields = fields.map fun field => (field.1, field.2.answer) := by
  induction fields with
  | nil => rfl
  | cons field rest ih => rw [answerFields, ih, List.map_cons]

/-- Numbers that are doubles are kept. -/
theorem Sound.doubles_eq {json : Json} (h : json.Sound) : json.doubles = json := by
  induction h with
  | array hlength h ih =>
    rw [doubles, doublesItems_eq, List.map_congr_left ih, List.map_id']
  | @object fields hkeys h ih =>
    have hfields : fields.map (fun field => (field.1, field.2.doubles)) = fields.map id :=
      List.map_congr_left fun field hfield => by rw [ih field hfield]; rfl
    rw [doubles, doublesFields_eq, hfields, List.map_id]
  | _ => rw [doubles] <;> rintro _ ⟨⟩

/-- What has no array and no `null` comes back as it is. -/
theorem Lasting.answer_doubles {json : Json} (h : json.Lasting) : json.doubles.answer = json.doubles := by
  induction h with
  | @object fields h ih =>
    have hfields : (fields.map fun field => (field.1, field.2.doubles)).map (fun field => (field.1, field.2.answer)) =
        fields.map fun field => (field.1, field.2.doubles) := by
      rw [List.map_map]
      exact List.map_congr_left fun field hfield => by rw [Function.comp_apply, ih field hfield]
    rw [doubles, doublesFields_eq, answer, answerFields_eq, hfields]
  | _ => rfl

end Json

/-! ## Numbers are read as doubles -/

namespace Value

mutual

theorem ofJson_doubles : ∀ json : Json, ofJson json.doubles = ofJson json
  | .null | .bool _ | .integer _ | .number _ | .string _ => rfl
  | .array items => by rw [Json.doubles, ofJson, ofJson, ofJsonItems_doubles]
  | .object fields => by rw [Json.doubles, ofJson, ofJson, ofJsonFields_doubles]

theorem ofJsonItems_doubles : ∀ (place : Nat) (items : List Json),
    ofJsonItems place (Json.doublesItems items) = ofJsonItems place items
  | _, [] => rfl
  | place, item :: rest => by
    rw [Json.doublesItems, ofJsonItems, ofJsonItems, ofJson_doubles item, ofJsonItems_doubles (place + 1) rest]

theorem ofJsonFields_doubles : ∀ fields : List (String × Json),
    ofJsonFields (Json.doublesFields fields) = ofJsonFields fields
  | [] => rfl
  | (key, json) :: rest => by
    rw [Json.doublesFields, ofJsonFields, ofJsonFields, ofJson_doubles json, ofJsonFields_doubles rest]

end

/-! ## Entries -/

theorem toJsonFields_toPlainEntries (fields : List (Value × Value)) :
    Plain.toJsonFields (toPlainEntries fields) =
      fields.map fun field => (field.1.toPlain.keyText, field.2.toPlain.toJson) := by
  induction fields with
  | nil => rfl
  | cons field rest ih => rw [toPlainEntries, Plain.toJsonFields, ih, List.map_cons]

/-- What is the same of entries and of the pairs that are made of them. -/
theorem map_of_entries {γ : Type} {f : Value × Value → γ} {g : Value × Json → γ} {entries : List (Value × Json)}
    {pairs : List (Value × Value)} (hpairs : List.Forall₂ PairOf entries pairs)
    (h : ∀ entry ∈ entries, ∀ pair, PairOf entry pair → f pair = g entry) : pairs.map f = entries.map g := by
  induction hpairs with
  | nil => rfl
  | cons hpair _ ih =>
    obtain ⟨hfirst, hrest⟩ := List.forall_mem_cons.1 h
    rw [List.map_cons, List.map_cons, hfirst _ hpair, ih hrest]

/-- Keys of entries that are pairwise unequal. -/
def DistinctEntries (entries : List (Value × Json)) : Prop :=
  entries.Pairwise fun a b => (a.1 == b.1) = false ∧ (b.1 == a.1) = false

/-- A container whose keys are pairwise unequal comes back with the texts of all its keys, if what is made of each
entry comes back as some JSON value. -/
theorem MadeFrom.toJson_of_entries {json : Json} {v : Value} (hv : MadeFrom json v) (hjson : json.IsContainer)
    (hkeys : DistinctEntries json.entries)
    (h : ∀ entry ∈ json.entries, ∀ {w : Value}, MadeFrom entry.2 w → w.toPlain.toJson = entry.2.answer) :
    v.toPlain.toJson = .ofFields (json.entries.map fun entry => (entry.1.toPlain.keyText, entry.2.answer)) := by
  obtain ⟨id, pairs, rfl, hpairs⟩ := hv.exists_pairs hjson
  have hfst : pairs.map Prod.fst = json.entries.map Prod.fst := map_of_entries hpairs fun _ _ _ hpair => hpair.1
  have hdistinct : (pairs.map Prod.fst).Pairwise fun a b => (a == b) = false ∧ (b == a) = false := by
    rw [hfst]
    exact List.pairwise_map.2 hkeys
  rw [fieldsOf_of_distinctKeys (List.pairwise_map.1 hdistinct), toPlain, Plain.toJson, toJsonFields_toPlainEntries]
  congr 1
  refine map_of_entries hpairs fun entry hentry pair hpair => ?_
  rw [hpair.1, h entry hentry hpair.2]

/-- The places of items are pairwise unequal. -/
theorem distinctEntries_array {items : List Json} (h : items.length ≤ 2 ^ 53) :
    DistinctEntries (Json.array items).entries := by
  have hplaces : (items.zipIdx.map Prod.snd).Pairwise (· < ·) := by
    rw [List.zipIdx_map_snd]
    exact List.pairwise_lt_range' 1
  have hne {a b : Json × Nat} (ha : a ∈ items.zipIdx) (h : a.2 ≠ b.2) :
      (number (Float.ofNat a.2) == number (Float.ofNat b.2)) = false := by
    have hlt := (List.getElem?_eq_some_iff.1 (List.mk_mem_zipIdx_iff_getElem?.1 ha)).1
    exact Bool.eq_false_iff.2 fun hsame => h (Decimal.eq_of_ofNat_beq (by omega) hsame)
  exact List.pairwise_map.2 ((List.pairwise_map.1 hplaces).imp_of_mem fun ha hb hlt =>
    ⟨hne ha (Nat.ne_of_lt hlt), hne hb (Nat.ne_of_gt hlt)⟩)

theorem distinctEntries_object {fields : List (String × Json)} (h : (fields.map Prod.fst).Nodup) :
    DistinctEntries (Json.object fields).entries := by
  have hne {a b : String} (h : a ≠ b) : (string a == string b) = false := by
    refine Bool.eq_false_iff.2 fun hsame => ?_
    cases beq_iff_equal.1 hsame
    exact h rfl
  exact List.pairwise_map.2 ((List.pairwise_map.1 h).imp fun h => ⟨hne h, hne h.symm⟩)

/-- The place of an item is written in decimal digits. -/
theorem keyText_place {n : Nat} (h : n < 2 ^ 53) : (number (Float.ofNat n)).toPlain.keyText = toString n :=
  Decimal.spell_ofNat h

end Value

namespace Json

open Value (MadeFrom)

/-- Whatever value is made from a JSON value, it comes back as its answer. -/
theorem Sound.toJson_eq {json : Json} (h : json.Sound) {v : Value} (hv : MadeFrom json v) :
    v.toPlain.toJson = json.answer := by
  induction h generalizing v with
  | null | bool | string =>
    obtain ⟨_, rfl⟩ := hv
    rfl
  | @number x hnan hinf =>
    obtain ⟨_, rfl⟩ := hv
    show (if x.isNaN || x.isInf then _ else _) = _
    rw [hnan, hinf]
    rfl
  | @array items hlength h ih =>
    rw [hv.toJson_of_entries (.array items) (Value.distinctEntries_array hlength) fun entry hentry => ?_]
    · rw [answer, answerItems_eq, entries, List.map_map]
      congr 1
      refine List.map_congr_left fun item hitem => ?_
      have hlt := (List.getElem?_eq_some_iff.1 (List.mk_mem_zipIdx_iff_getElem?.1 hitem)).1
      rw [Function.comp_apply, Value.keyText_place (by omega)]
    · obtain ⟨item, hitem, rfl⟩ := List.mem_map.1 hentry
      exact ih item.1 (List.fst_mem_of_mem_zipIdx hitem)
  | @object fields hkeys h ih =>
    rw [hv.toJson_of_entries (.object fields) (Value.distinctEntries_object hkeys.nodup_keys) fun entry hentry => ?_]
    · have hsorted : Keyed.Sorted (answerFields fields) := by
        rw [answerFields_eq]
        exact List.pairwise_map.2 hkeys
      rw [answer, ← hsorted.ofList_eq, answerFields_eq, entries, List.map_map]
      rfl
    · obtain ⟨field, hfield, rfl⟩ := List.mem_map.1 hentry
      exact ih field hfield

/-- An argument with finite numbers that is answered as it is comes back with all its keys, texts, truth values and
numbers: an array as the object of its items by their places from 0 on, and `null` as an error. So an argument without
arrays and without `null` comes back unchanged, its numbers as doubles. -/
theorem argument_comes_back (json : Json) (h : json.doubles.Sound) (next : Nat) :
    ((Value.ofJson json).run next).1.toPlain.toJson = json.doubles.answer ∧
    (json.Lasting → ((Value.ofJson json).run next).1.toPlain.toJson = json.doubles) ∧
    (json.Sound → json.doubles = json) := by
  have hanswer : ((Value.ofJson json).run next).1.toPlain.toJson = json.doubles.answer := by
    rw [← Value.ofJson_doubles]
    exact h.toJson_eq ⟨next, rfl⟩
  exact ⟨hanswer, fun hlasting => hanswer.trans hlasting.answer_doubles, Sound.doubles_eq⟩

/-- An object with an empty key and one of digits, and in it an array of `null` and an object; and an object without
any of these. -/
theorem mixed_argument_comes_back :
    let mixed : Json := .object [("", .integer 7), ("0", .array [.null, .object [("1", .bool true)]])]
    let lasting : Json := .object [("0", .number 2.5)]
    (mixed.doubles.Sound ∧ ((Value.ofJson mixed).run 0).1.toPlain.toJson =
      .object [("", .number 7),
        ("0", .object [("0", .object [("error", .string "null is not a value")]), ("1", .object [("1", .bool true)])])]) ∧
    (lasting.Sound ∧ lasting.doubles.Sound ∧ lasting.Lasting ∧
      ((Value.ofJson lasting).run 0).1.toPlain.toJson = lasting) := by
  intro mixed lasting
  have hnumber {x : Float} (h : (x.isNaN || x.isInf) = false) : (Json.number x).Sound :=
    .number (Bool.or_eq_false_iff.1 h).1 (Bool.or_eq_false_iff.1 h).2
  have hmixed : mixed.doubles.Sound := by
    have hinner : (Json.object [("1", .bool true)]).Sound :=
      .object (by decide) (List.forall_mem_singleton.2 (.bool true))
    have hitems : (Json.array [.null, .object [("1", .bool true)]]).Sound :=
      .array (by decide) (List.forall_mem_cons.2 ⟨.null, List.forall_mem_singleton.2 hinner⟩)
    exact .object (by decide +kernel)
      (List.forall_mem_cons.2 ⟨hnumber (by decide +kernel), List.forall_mem_singleton.2 hitems⟩)
  have hlasting : lasting.Sound :=
    .object (by decide) (List.forall_mem_singleton.2 (hnumber (by decide +kernel)))
  have hlasts : lasting.Lasting := .object (List.forall_mem_singleton.2 (.number 2.5))
  obtain ⟨hanswer, -, -⟩ := argument_comes_back mixed hmixed 0
  have hdoubles : lasting.doubles = lasting := rfl
  obtain ⟨-, hunchanged, hkept⟩ := argument_comes_back lasting (hdoubles.symm ▸ hlasting) 0
  exact ⟨⟨hmixed, hanswer.trans rfl⟩, hlasting, hdoubles.symm ▸ hlasting, hlasts,
    (hunchanged hlasts).trans (hkept hlasting)⟩

end Json

end DynamicConfig

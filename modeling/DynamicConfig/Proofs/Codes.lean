import DynamicConfig.Proofs.Equality
import DynamicConfig.Proofs.Readable
import DynamicConfig.Proofs.Signs
import DynamicConfig.Value.Printer
/-!
# The codes of values as expressions

The code of a scalar, and of an object of scalars under names, is the source text of an expression
(`Value.IsWritable.exists_codeExpr`), so it is parsed as that expression wherever its nodes are located then
(`Value.IsWritable.parseClean_code`), unless it nests too deep.
-/

namespace DynamicConfig

/-! ## Keys that are names -/

namespace Text

/-- What holds of all characters in some ranges. -/
theorem holds_of_within {ranges : List (Nat × Nat)} {p : Char → Bool}
    (h : (ranges.all fun range => (List.range' range.1 (range.2 + 1 - range.1)).all fun n => p (Char.ofNat n)) = true)
    {c : Char} (hc : within ranges c.toNat = true) : p c = true := by
  obtain ⟨range, hrange, hbounds⟩ := List.any_eq_true.1 hc
  rw [Bool.and_eq_true, decide_eq_true_eq, decide_eq_true_eq] at hbounds
  have hrange := List.all_eq_true.1 (List.all_eq_true.1 h range hrange) c.toNat (List.mem_range'_1.2 (by omega))
  rwa [Char.ofNat_toNat] at hrange

/-- Neither letters nor digits end a name. -/
theorem not_isAlphanumeric_of_endsName {c : Char} (h : Scanner.endsName c = true) : isAlphanumeric c = false := by
  simp only [Scanner.endsName, Bool.or_eq_true, decide_eq_true_eq] at h
  rcases h with (hblank | rfl) | hsymbol
  · have hlisted := holds_of_within (p := fun c => !isAlphanumeric c) (by decide +kernel) hblank
    simpa using hlisted
  · decide +kernel
  · obtain ⟨symbol, hs⟩ := Option.isSome_iff_exists.1 hsymbol
    have htext : symbol.text.toList = [c] := by rw [Symbol.text_of_ofText? hs]; simp
    have hall : (Symbol.all.all fun symbol => symbol.text.toList.all fun c => !isAlphanumeric c) = true := by decide +kernel
    have hlisted := List.all_eq_true.1 (List.all_eq_true.1 hall symbol symbol.mem_all) c (by simp [htext])
    simpa using hlisted

theorem not_isLetter_of_isDigit {c : Char} (h : c.isDigit = true) : isLetter c = false := by
  have hrange : within [(0x30, 0x39)] c.toNat = true := by
    simp only [Char.isDigit, Bool.and_eq_true, decide_eq_true_eq, ge_iff_le, UInt32.le_iff_toNat_le] at h
    simpa [within] using h
  have hlisted := holds_of_within (p := fun c => !isLetter c) (by decide +kernel) hrange
  simpa using hlisted

/-- A bare key is a name, unless it begins with an underscore. -/
theorem isName_of_isBareKey {name : String} (h : Value.isBareKey name = true) (hfirst : name.toList.head? ≠ some '_') :
    isName name = true := by
  have hends {c : Char} (hc : isAlphanumeric c = true) : Scanner.endsName c = false :=
    Bool.eq_false_iff.2 fun h => by rw [not_isAlphanumeric_of_endsName h] at hc; cases hc
  unfold Value.isBareKey at h
  split at h
  · cases h
  · rename_i first rest hname
    rw [hname] at hfirst
    simp only [Bool.and_eq_true, Bool.or_eq_true, decide_eq_true_eq, Bool.not_eq_true', List.all_eq_true] at h
    obtain ⟨⟨⟨hletter | rfl, hrest⟩, htrue⟩, hfalse⟩ := h
    · have hstart := hends (c := first) (by simp [isAlphanumeric, hletter])
      simp only [Scanner.endsName, Bool.or_eq_false_iff, decide_eq_false_iff_not] at hstart
      have hdigit : first.isDigit = false :=
        Bool.eq_false_iff.2 fun h => by rw [not_isLetter_of_isDigit h] at hletter; cases hletter
      have hword : isWord name = true := by
        unfold isWord
        rw [hname]
        simp only [hstart, hdigit, hletter, Bool.not_false, Bool.and_true, Bool.true_and, Bool.and_eq_true, bne_iff_ne,
          ne_eq, not_false_eq_true, true_and, List.all_eq_true, Bool.not_eq_true']
        intro c hc
        rcases hrest c hc with hc | rfl
        · exact hends hc
        · decide
      rw [isName, hword, htrue, hfalse]
      rfl
    · exact (hfirst rfl).elim

end Text

/-! ## Nodes up to locations -/

namespace Expr

variable {e : Expr} {op : Op} {location : Location}

theorem exists_node_of_unlocated {children : List Expr} (h : e.unlocated = (node op location children).unlocated) :
    ∃ location' children', e = node op location' children' ∧ children'.map unlocated = children.map unlocated := by
  rw [unlocated_node] at h
  match e, h with
  | list (.tag ⟨op', place⟩ :: rest), h =>
    obtain ⟨rfl, hrest⟩ : op' = op ∧ unlocatedAll rest = children.map unlocated := by
      simpa [unlocated, unlocatedAll, node] using h
    rw [unlocatedAll_eq_map] at hrest
    exact ⟨place, rest, rfl, hrest⟩

theorem exists_pair_of_unlocated {a b : Expr} (h : e.unlocated = (node op location [a, b]).unlocated) :
    ∃ location' a' b', e = node op location' [a', b'] ∧ a'.unlocated = a.unlocated ∧ b'.unlocated = b.unlocated := by
  obtain ⟨place, children, rfl, hchildren⟩ := exists_node_of_unlocated h
  obtain ⟨a', rest, rfl, ha, hrest⟩ := List.map_eq_cons_iff.1 hchildren
  obtain ⟨b', rfl, hb⟩ := List.map_eq_singleton_iff.1 hrest
  exact ⟨place, a', b', rfl, ha, hb⟩

/-- A leaf has nothing but its payload. -/
theorem exists_leaf_of_unlocated {l : Leaf} (h : e.unlocated = (Meaning.leafExpr location l).unlocated) :
    ∃ location', e = Meaning.leafExpr location' l := by
  cases l <;>
  · obtain ⟨place, children, rfl, hchildren⟩ := exists_node_of_unlocated h
    obtain ⟨payload, rfl, hpayload⟩ := List.map_eq_singleton_iff.1 hchildren
    cases payload <;> cases hpayload
    exact ⟨place, rfl⟩

end Expr

namespace Value

/-! ## Values with a code -/

/-- A truth value, a string, an error, or a number other than `NaN`. A finite number is read back from its spelling. -/
def IsScalar : Value → Prop
  | bool _ | string _ | error _ => True
  | number x => x.isNaN = false ∧ (x.isInf = false → Decimal.PrintsBack x)
  | _ => False

instance : DecidablePred IsScalar := by
  intro v
  unfold IsScalar
  split <;> infer_instance

/-- A key that stands bare and is read as a name: names do not begin with an underscore. -/
def IsNameKey : Value → Prop
  | string name => isBareKey name = true ∧ name.toList.head? ≠ some '_'
  | _ => False

instance : DecidablePred IsNameKey := by
  intro key
  unfold IsNameKey
  split <;> infer_instance

theorem IsNameKey.exists_name {key : Value} (h : key.IsNameKey) :
    ∃ name, key = string name ∧ isBareKey name = true ∧ name.toList.head? ≠ some '_' := by
  cases key with
  | string name => exact ⟨name, rfl, h⟩
  | _ => exact h.elim

/-- The name that the code of a scalar takes from the globals, if it takes one. -/
def globalName? : Value → Option String
  | number x => if x.isInf then some "math" else none
  | error _ => some "error"
  | _ => none

/-- Fields with a code that is evaluated: scalars under names, none of which hides a global that a field needs. -/
structure IsRecord (fields : List (Value × Value)) : Prop where
  distinct : DistinctKeys fields
  keys : ∀ field ∈ fields, field.1.IsNameKey
  scalars : ∀ field ∈ fields, field.2.IsScalar
  visible : ∀ field ∈ fields, ∀ name ∈ field.2.globalName?, ∀ other ∈ fields, (string name == other.1) = false

instance : DecidablePred IsRecord := fun fields =>
  have : Decidable (DistinctKeys fields) := inferInstanceAs (Decidable (List.Pairwise _ fields))
  decidable_of_iff
    (DistinctKeys fields ∧ (∀ field ∈ fields, field.1.IsNameKey) ∧ (∀ field ∈ fields, field.2.IsScalar) ∧
      ∀ field ∈ fields, ∀ name ∈ field.2.globalName?, ∀ other ∈ fields, (string name == other.1) = false)
    ⟨fun h => ⟨h.1, h.2.1, h.2.2.1, h.2.2.2⟩, fun h => ⟨h.distinct, h.keys, h.scalars, h.visible⟩⟩

/-- A scalar, or an object of scalars. -/
def IsWritable : Value → Prop
  | object _ fields => IsRecord fields
  | value => value.IsScalar

instance : DecidablePred IsWritable := by
  intro v
  unfold IsWritable
  split <;> infer_instance

/-! ## Their expressions -/

/-- What a number is read as that is spelled without a sign, wherever the nodes are. -/
inductive MagnitudeExpr : Float → Expr → Prop
  | literal (location : Location) (x : Float) : MagnitudeExpr x (.numberLeaf location x)
  | infinity (dot first second : Location) :
    MagnitudeExpr Decimal.infinity (.node .field dot [.nameLeaf first "math", .stringLeaf second "Inf"])

/-- What the code of a scalar is read as. -/
inductive ScalarExpr : Value → Expr → Prop
  | bool (location : Location) (b : Bool) : ScalarExpr (bool b) (.boolLeaf location b)
  | string (location : Location) (text : String) : ScalarExpr (string text) (.stringLeaf location text)
  | error (call first second : Location) (message : String) :
    ScalarExpr (error message) (.node .call call [.nameLeaf first "error", .stringLeaf second message])
  | number {x : Float} {e : Expr} (h : MagnitudeExpr x e) : ScalarExpr (number x) e
  | negative {x : Float} {e : Expr} (sign : Location) (h : MagnitudeExpr x e) :
    ScalarExpr (number (-x)) (.node .sub sign [e])

/-- What a field of an object is read as: a binding of its key. -/
def FieldExpr (field : Value × Value) (arg : Expr) : Prop :=
  ∃ assign target name e, field.1 = string name ∧ ScalarExpr field.2 e ∧
    arg = .node .assign assign [.stringLeaf target name, e]

/-- What the code of a value is read as. -/
inductive CodeExpr : Value → Expr → Prop
  | scalar {v : Value} {e : Expr} (h : ScalarExpr v e) : CodeExpr v e
  | object (id : Nat) {fields : List (Value × Value)} {args : List Expr} (call first : Location)
    (h : List.Forall₂ FieldExpr fields args) :
    CodeExpr (object id fields) (.node .call call (.nameLeaf first "object" :: args))

/-! ### Other locations -/

theorem MagnitudeExpr.relocate {x : Float} {e other : Expr} (h : MagnitudeExpr x e)
    (heq : other.unlocated = e.unlocated) : MagnitudeExpr x other := by
  cases h with
  | literal location x =>
    obtain ⟨place, rfl⟩ := Expr.exists_leaf_of_unlocated (l := .number x) heq
    exact .literal place x
  | infinity =>
    obtain ⟨dot, left, right, rfl, hleft, hright⟩ := Expr.exists_pair_of_unlocated heq
    obtain ⟨first, rfl⟩ := Expr.exists_leaf_of_unlocated (l := .name "math") hleft
    obtain ⟨second, rfl⟩ := Expr.exists_leaf_of_unlocated (l := .string "Inf") hright
    exact .infinity dot first second

theorem ScalarExpr.relocate {v : Value} {e other : Expr} (h : ScalarExpr v e) (heq : other.unlocated = e.unlocated) :
    ScalarExpr v other := by
  cases h with
  | bool location b =>
    obtain ⟨place, rfl⟩ := Expr.exists_leaf_of_unlocated (l := .bool b) heq
    exact .bool place b
  | string location text =>
    obtain ⟨place, rfl⟩ := Expr.exists_leaf_of_unlocated (l := .string text) heq
    exact .string place text
  | error call first second message =>
    obtain ⟨call, callee, arg, rfl, hcallee, harg⟩ := Expr.exists_pair_of_unlocated heq
    obtain ⟨first, rfl⟩ := Expr.exists_leaf_of_unlocated (l := .name "error") hcallee
    obtain ⟨second, rfl⟩ := Expr.exists_leaf_of_unlocated (l := .string message) harg
    exact .error call first second message
  | number h => exact .number (h.relocate heq)
  | negative sign h =>
    obtain ⟨sign, children, rfl, hchildren⟩ := Expr.exists_node_of_unlocated heq
    obtain ⟨magnitude, rfl, hmagnitude⟩ := List.map_eq_singleton_iff.1 hchildren
    exact .negative sign (h.relocate hmagnitude)

theorem FieldExpr.relocate {field : Value × Value} {arg other : Expr} (h : FieldExpr field arg)
    (heq : other.unlocated = arg.unlocated) : FieldExpr field other := by
  obtain ⟨assign, target, name, e, hkey, hvalue, rfl⟩ := h
  obtain ⟨assign, left, right, rfl, hleft, hright⟩ := Expr.exists_pair_of_unlocated heq
  obtain ⟨target, rfl⟩ := Expr.exists_leaf_of_unlocated (l := .string name) hleft
  exact ⟨assign, target, name, right, hkey, hvalue.relocate hright, rfl⟩

theorem forall₂_fieldExpr_relocate {fields : List (Value × Value)} {args others : List Expr}
    (h : List.Forall₂ FieldExpr fields args) (heq : others.map Expr.unlocated = args.map Expr.unlocated) :
    List.Forall₂ FieldExpr fields others := by
  induction h generalizing others with
  | nil =>
    obtain rfl := List.map_eq_nil_iff.1 heq
    exact .nil
  | cons hfield _ ih =>
    obtain ⟨other, rest, rfl, hother, hrest⟩ := List.map_eq_cons_iff.1 heq
    exact .cons (hfield.relocate hother) (ih hrest)

theorem CodeExpr.relocate {v : Value} {e other : Expr} (h : CodeExpr v e) (heq : other.unlocated = e.unlocated) :
    CodeExpr v other := by
  cases h with
  | scalar h => exact .scalar (h.relocate heq)
  | object id call first h =>
    obtain ⟨call, children, rfl, hchildren⟩ := Expr.exists_node_of_unlocated heq
    obtain ⟨callee, args, rfl, hcallee, hargs⟩ := List.map_eq_cons_iff.1 hchildren
    obtain ⟨first, rfl⟩ := Expr.exists_leaf_of_unlocated (l := .name "object") hcallee
    exact .object id call first (forall₂_fieldExpr_relocate h hargs)

/-! ### Codes as source texts -/

open DynamicConfig.Expr (Readable)

/-- A number without a sign has a readable expression. -/
theorem exists_magnitudeExpr {x : Float} (h : x = Decimal.infinity ∨ Decimal.ReadsBack x) :
    ∃ e, MagnitudeExpr x e ∧ Readable .term e ∧ e.sourceText = Decimal.spell x ∧
      (e.op? = some .number ∨ e.op? = some .field) := by
  rcases h with rfl | h
  · exact ⟨_, .infinity (.empty 0) (.empty 0) (.empty 0), (Expr.readable_nameLeaf _ (by decide)).field _ _ rfl (by decide),
      Decimal.spell_infinity.1.symm, .inr rfl⟩
  · exact ⟨_, .literal (.empty 0) x,
      Expr.readable_leafExpr _ (l := .number x) (fun _ heq => by cases heq; exact h) (by simp), rfl, .inl rfl⟩

theorem exists_negative {x : Float} (h : x = Decimal.infinity ∨ Decimal.ReadsBack x)
    (hspell : Decimal.spell (-x) = "-" ++ Decimal.spell x) :
    ∃ e, ScalarExpr (number (-x)) e ∧ Readable .term e ∧ e.sourceText = (number (-x)).code := by
  obtain ⟨e, hx, hreadable, htext, hop⟩ := exists_magnitudeExpr h
  obtain ⟨hnegative, hsign⟩ := hreadable.negative (.empty 0) hop
  exact ⟨_, .negative (.empty 0) hx, hnegative, by rw [hsign, htext, code, hspell]⟩

theorem exists_numberExpr {x : Float} (hnan : x.isNaN = false) (hback : x.isInf = false → Decimal.PrintsBack x) :
    ∃ e, ScalarExpr (number x) e ∧ Readable .term e ∧ e.sourceText = (number x).code := by
  cases hinf : x.isInf with
  | true =>
    rcases Decimal.eq_infinity_or_neg hnan hinf with rfl | rfl
    · obtain ⟨e, hx, hreadable, htext, -⟩ := exists_magnitudeExpr (.inl rfl)
      exact ⟨e, .number hx, hreadable, by rw [htext, code]⟩
    · exact exists_negative (.inl rfl) (by rw [Decimal.spell_infinity.1, Decimal.spell_infinity.2]; rfl)
  | false =>
    by_cases hsign : x.toBits >>> 63 = 1
    · obtain ⟨hspell, -⟩ := Decimal.spell_negative hnan hinf hsign
      have hneg := Decimal.neg_neg_of_number hnan
      have hopposite := exists_negative (.inr ((hback hinf).opposite hnan hinf hsign)) (by rwa [hneg])
      rwa [hneg] at hopposite
    · obtain ⟨e, hx, hreadable, htext, -⟩ := exists_magnitudeExpr (.inr ((hback hinf).unsigned hnan hinf hsign))
      exact ⟨e, .number hx, hreadable, by rw [htext, code]⟩

theorem IsScalar.exists_scalarExpr {v : Value} (h : v.IsScalar) :
    ∃ e, ScalarExpr v e ∧ Readable .term e ∧ e.sourceText = v.code := by
  match v, h with
  | bool b, _ => exact ⟨_, .bool (.empty 0) b, Expr.readable_leafExpr _ (l := .bool b) (by simp) (by simp), rfl⟩
  | string text, _ => exact ⟨_, .string (.empty 0) text, Expr.readable_stringLeaf _ text, rfl⟩
  | number x, h => exact exists_numberExpr h.1 h.2
  | error message, _ =>
    refine ⟨_, .error (.empty 0) (.empty 0) (.empty 0) message, (Expr.readable_nameLeaf _ (by decide)).call _ ?_, ?_⟩
    · have hmessage := Expr.readable_stringLeaf (.empty 0) message
      exact List.forall_mem_singleton.2 ⟨.item hmessage.canonical, hmessage.legible⟩
    · show "error" ++ "(" ++ ", ".intercalate [Text.Quoted.encode message] ++ ")" = _
      rw [String.intercalate_singleton]
      rfl

theorem exists_fieldExpr {field : Value × Value} (hkey : field.1.IsNameKey) (hvalue : field.2.IsScalar) :
    ∃ arg, FieldExpr field arg ∧ Readable .item arg ∧
      arg.sourceText = keyCode field.1 field.1.code ++ " = " ++ field.2.code := by
  obtain ⟨name, hname, hbare, hfirst⟩ := hkey.exists_name
  obtain ⟨e, he, hreadable, htext⟩ := hvalue.exists_scalarExpr
  refine ⟨_, ⟨.empty 0, .empty 0, name, e, hname, he, rfl⟩,
    hreadable.assign _ _ (Text.isName_of_isBareKey hbare hfirst), ?_⟩
  show name ++ " = " ++ e.sourceText = _
  rw [htext, hname, keyCode, if_pos hbare]

theorem exists_fieldExprs {fields : List (Value × Value)} (hkeys : ∀ field ∈ fields, field.1.IsNameKey)
    (hvalues : ∀ field ∈ fields, field.2.IsScalar) :
    ∃ args, List.Forall₂ FieldExpr fields args ∧ (∀ arg ∈ args, Readable .item arg) ∧
      Expr.sourceTexts args = fieldCodes fields := by
  induction fields with
  | nil => exact ⟨[], .nil, by simp, rfl⟩
  | cons field rest ih =>
    obtain ⟨hkey, hkeys⟩ := List.forall_mem_cons.1 hkeys
    obtain ⟨hvalue, hvalues⟩ := List.forall_mem_cons.1 hvalues
    obtain ⟨arg, hfield, hreadable, htext⟩ := exists_fieldExpr hkey hvalue
    obtain ⟨args, hfields, hargs, htexts⟩ := ih hkeys hvalues
    exact ⟨arg :: args, .cons hfield hfields, List.forall_mem_cons.2 ⟨hreadable, hargs⟩,
      by rw [Expr.sourceTexts, htext, htexts, fieldCodes]⟩

/-- The code of a value that can be written is the source text of a readable expression. -/
theorem IsWritable.exists_codeExpr {v : Value} (h : v.IsWritable) :
    ∃ e, CodeExpr v e ∧ Readable .term e ∧ e.sourceText = v.code := by
  have hscalar (h : v.IsScalar) : ∃ e, CodeExpr v e ∧ Readable .term e ∧ e.sourceText = v.code := by
    obtain ⟨e, he, hreadable⟩ := h.exists_scalarExpr
    exact ⟨e, .scalar he, hreadable⟩
  cases v with
  | object id fields =>
    obtain ⟨args, hfields, hargs, htexts⟩ := exists_fieldExprs h.keys h.scalars
    refine ⟨_, .object id (.empty 0) (.empty 0) hfields, (Expr.readable_nameLeaf _ (by decide)).call _ hargs, ?_⟩
    show "object" ++ "(" ++ ", ".intercalate (Expr.sourceTexts args) ++ ")" = _
    rw [htexts, code]
    rfl
  | _ => exact hscalar h

/-! ### Reading codes -/

/-- How deep the code of a value nests, if nothing stops reading it. -/
def codeHeight (v : Value) : Nat :=
  (RawTree.ofSource none v.code).1.height

theorem codeHeight_eq {v : Value} {e : Expr} (h : Readable .term e) (htext : e.sourceText = v.code) :
    v.codeHeight = e.textHeight := by
  obtain ⟨tree, -, hsource, -, -, hheight⟩ := h.canonical.ofSource_sourceText h.legible
  rw [codeHeight, ← htext, hsource, hheight]

/-- The code of a value that can be written is read as its expression, unless it nests too deep. -/
theorem IsWritable.parseClean_code {v : Value} (h : v.IsWritable) (hheight : v.codeHeight ≤ Frame.maxHeight) :
    ∃ e, parseClean v.code = .ok e ∧ CodeExpr v e := by
  obtain ⟨e, he, hreadable, htext⟩ := h.exists_codeExpr
  rw [codeHeight_eq hreadable htext] at hheight
  obtain ⟨found, hparse, heq⟩ := hreadable.canonical.parse_sourceText hreadable.legible hheight
  refine ⟨found, ?_, he.relocate heq⟩
  rw [parseClean, ← htext, hparse]
  rfl

theorem IsWritable.codeHeight_le {v : Value} (h : v.IsWritable) {e : Expr} (hparse : parseClean v.code = .ok e) :
    v.codeHeight ≤ Frame.maxHeight := by
  obtain ⟨e', -, hreadable, htext⟩ := h.exists_codeExpr
  obtain ⟨parsed, hparsed, hclean⟩ := exists_parsed_of_parseClean hparse
  rw [codeHeight_eq hreadable htext]
  rw [← htext] at hparsed
  exact hreadable.canonical.textHeight_le_of_parse hreadable.legible hparsed hclean

end Value

end DynamicConfig

import DynamicConfig.Proofs.Codes
import DynamicConfig.Proofs.LongestNumbers
import DynamicConfig.Proofs.Parts
import DynamicConfig.Proofs.Password
/-!
# Paths into an argument

A part of an argument is reached by its path: the name `it`, and the keys and places that lead to the part with
dots before them (`part_reached_by_path`). A place can only be the last step, since a number takes the dot after
it for its point (`place_takes_next_dot`).
-/

namespace DynamicConfig

open Value (MadeFrom)

namespace Json

/-- A step into an object, by the key of a field, or into an array, by the place of an item. -/
inductive Step
  | key (name : String)
  | place (index : Nat)

/-- The part that a step leads to. -/
def step? : Json → Step → Option Json
  | object fields, .key name => Keyed.get? name fields
  | array items, .place index => items[index]?
  | _, _ => none

/-- The part at the end of a path. -/
def part? (json : Json) (path : List Step) : Option Json :=
  path.foldlM step? json

namespace Step

/-- A key as it is, and a place in decimal. -/
def text : Step → String
  | key name => name
  | place index => index.repr

/-- The key that the object of a container has for the step. -/
def value : Step → Value
  | key name => .string name
  | place index => .number (Float.ofNat index)

/-- What the step is read as after a dot. -/
def expr : Step → Expr
  | key name => .stringLeaf (.empty 0) name
  | place index => .numberLeaf (.empty 0) (Float.ofNat index)

end Step

/-- The source text of a path into the argument. -/
def pathText (path : List Step) : String :=
  ".".intercalate ("it" :: path.map Step.text)

/-- A path of keys that are names. The last step may be a place, of those that are all different doubles. -/
inductive IsDotted : List Step → Prop
  | nil : IsDotted []
  | key {name : String} {rest : List Step} (hname : Text.isName name = true) (hrest : IsDotted rest) :
    IsDotted (.key name :: rest)
  | place {index : Nat} (h : index < 2 ^ 53) : IsDotted [.place index]

/-! ## Steps -/

variable {json sub : Json} {step : Step} {path rest : List Step}

theorem mem_of_keyedGet? {name : String} {fields : List (String × Json)} (h : Keyed.get? name fields = some sub) :
    (name, sub) ∈ fields := by
  induction fields with
  | nil => cases h
  | cons field fields ih =>
    obtain ⟨k, x⟩ := field
    rw [Keyed.get?] at h
    split at h
    · rename_i heq
      cases h
      exact heq ▸ List.mem_cons_self
    · exact List.mem_cons_of_mem _ (ih h)

theorem Proper.of_step? (hjson : json.Proper) (h : json.step? step = some sub) : sub.Proper := by
  cases hjson with
  | object _ hfields =>
    cases step with
    | key name => exact hfields _ (mem_of_keyedGet? h)
    | place index => cases h
  | array hitems =>
    cases step with
    | key name => cases h
    | place index => exact hitems sub (List.mem_of_getElem? h)
  | _ => cases step <;> cases h

theorem Proper.of_part? (hjson : json.Proper) (h : json.part? path = some sub) : sub.Proper := by
  induction path generalizing json with
  | nil =>
    cases h
    exact hjson
  | cons step rest ih =>
    obtain ⟨next, hnext, hrest⟩ := Option.bind_eq_some_iff.1 h
    exact ih (hjson.of_step? hnext) hrest

/-- The part that a step leads to is an entry of a container, and the only one with its key. -/
theorem Proper.entry_of_step? (hjson : json.Proper) (hplace : ∀ index, step = .place index → index < 2 ^ 53)
    (h : json.step? step = some sub) :
    json.IsContainer ∧ (step.value, sub) ∈ json.entries ∧
      ∀ entry ∈ json.entries, (step.value == entry.1) = true → entry.2 = sub := by
  cases hjson with
  | @object fields hkeys _ =>
    cases step with
    | key name =>
      have hmem : (name, sub) ∈ fields := mem_of_keyedGet? h
      refine ⟨.object fields, List.mem_map.2 ⟨_, hmem, rfl⟩, fun entry hentry hsame => ?_⟩
      obtain ⟨field, hfield, rfl⟩ := List.mem_map.1 hentry
      have hname : field.1 = name := by
        cases Value.beq_iff_equal.1 hsame
        rfl
      exact congrArg Prod.snd (List.inj_on_of_nodup_map hkeys hfield hmem hname)
    | place index => cases h
  | @array items _ =>
    cases step with
    | key name => cases h
    | place index =>
      have hget : items[index]? = some sub := h
      have hmem : (sub, index) ∈ items.zipIdx := List.mk_mem_zipIdx_iff_getElem?.2 hget
      refine ⟨.array items, List.mem_map.2 ⟨_, hmem, rfl⟩, fun entry hentry hsame => ?_⟩
      obtain ⟨⟨item, other⟩, hitem, rfl⟩ := List.mem_map.1 hentry
      obtain rfl : index = other := by
        cases Value.beq_iff_equal.1 hsame with
        | number hsame => exact Decimal.eq_of_ofNat_beq (hplace index rfl) hsame
      exact Option.some.inj ((List.mk_mem_zipIdx_iff_getElem?.1 hitem).symm.trans hget)
  | _ => cases step <;> cases h

/-- A step from the value of a container finds the value of the part. -/
theorem Proper.exists_fieldOf? (hjson : json.Proper) (hplace : ∀ index, step = .place index → index < 2 ^ 53)
    (h : json.step? step = some sub) {v : Value} (hv : MadeFrom json v) :
    ∃ id fields part, v = .object id fields ∧ Value.fieldOf? fields step.value = some part ∧ MadeFrom sub part := by
  obtain ⟨hcontainer, hmem, honly⟩ := hjson.entry_of_step? hplace h
  exact hv.exists_fieldOf? hcontainer hmem honly

/-! ## Reading -/

/-- The expression of a path from what an expression stands for. -/
def pathExpr (e : Expr) (path : List Step) : Expr :=
  path.foldl (fun target step => .node .field (.empty 0) [target, step.expr]) e

/-- A dot and a step after a text. -/
theorem scans_step {text : String} {e : Expr} {levels : Levels} (h : Scans text (· = '.') (Stem e levels))
    (hlevels : 1 ≤ levels.total) {mayFollow : Char → Prop} (hopens : Opens step.text)
    (hstep : Scans step.text mayFollow (Term (IsKey step.expr 1))) :
    ∃ after : Levels, after.total = levels.total + 1 ∧
      Scans (text ++ "." ++ step.text) mayFollow (Stem (.node .field (.empty 0) [e, step.expr]) after) := by
  have htotal : (levels.dotted 1).total = levels.total + 1 := congrArg (· + 1) (Nat.max_eq_left hlevels)
  obtain ⟨c, chars, htext, hc⟩ := hopens
  refine ⟨levels.dotted 1, htotal, (h.symbolAfter .dot ⟨'.', [], rfl, rfl⟩).append hstep ⟨c, chars, htext, hc⟩ ?_⟩
  rintro _ ys ⟨xs, token, rfl, hx, ht⟩ hy
  rw [List.append_assoc, List.singleton_append]
  exact hx.field ht hy (.empty 0)

/-- A name before a dot. -/
theorem scans_name {name : String} (hname : Text.isName name = true) :
    Scans name (· = '.') fun tokens => ∃ token, tokens = [token] ∧ token.leaf? = some (.name name) := by
  refine (Scans.name hname).imp ?_ fun _ ht => ht
  rintro c rfl
  exact ⟨fun _ => rfl, by decide⟩

theorem scans_keyStep {name : String} (hname : Text.isName name = true) :
    Scans (Step.key name).text (· = '.') (Term (IsKey (Step.key name).expr 1)) := by
  refine (scans_name hname).imp (fun _ hc => hc) ?_
  rintro tokens ⟨token, rfl, hl⟩
  exact term_keyName hl (.empty 0)

/-- A place at the end of a source text. -/
theorem scans_placeStep (index : Nat) :
    Scans (Step.place index).text (fun _ => False) (Term (IsKey (Step.place index).expr 1)) := by
  refine (Scans.numeral (Decimal.isNumeral_repr index)).imp (fun _ hc => hc.elim) fun tokens ht => ?_
  obtain ⟨token, rfl, hl⟩ := ht.number (Decimal.read?_repr index) (Decimal.isNumeral_repr index)
  exact term_keyNumber hl (.empty 0)

/-- The text of a path is read as its expression. Each step is a level. -/
theorem IsDotted.scans (hpath : IsDotted path) {text : String} {e : Expr} {levels : Levels}
    (h : Scans text (· = '.') (Stem e levels)) (hlevels : 1 ≤ levels.total) :
    ∃ after : Levels, after.total = levels.total + path.length ∧
      Scans (".".intercalate (text :: path.map Step.text)) (fun _ => False) (Stem (pathExpr e path) after) := by
  induction hpath generalizing text e levels with
  | nil =>
    rw [List.map_nil, String.intercalate_singleton]
    exact ⟨levels, rfl, h.imp (fun _ hc => hc.elim) fun _ ht => ht⟩
  | @key name rest hname _ ih =>
    have hopens : Opens (Step.key name).text := opens_word (Text.isWord_of_isName hname)
    obtain ⟨next, hnext, hscans⟩ := scans_step h hlevels hopens (scans_keyStep hname)
    obtain ⟨after, hafter, hrest⟩ := ih hscans (by omega)
    exact ⟨after, by rw [hafter, hnext, List.length_cons]; omega, hrest⟩
  | @place index _ =>
    have hopens : Opens (Step.place index).text := opens_numeral (Decimal.isNumeral_repr index)
    exact scans_step h hlevels hopens (scans_placeStep index)

/-- The name of the argument. -/
def argumentExpr : Expr :=
  .nameLeaf (.empty 0) "it"

/-- The text of a path is parsed as its expression, up to locations, if it does not nest too deep. -/
theorem IsDotted.exists_parse (hpath : IsDotted path) (hheight : path.length < Frame.maxHeight) :
    ∃ found, parse (pathText path) = .ok ⟨found, []⟩ ∧ found.unlocated = (pathExpr argumentExpr path).unlocated := by
  have hname : Text.isName "it" = true := by decide
  have hargument : Scans "it" (· = '.') (Stem argumentExpr ⟨1, none⟩) := by
    refine (scans_name hname).imp (fun _ hc => hc) ?_
    rintro tokens ⟨token, rfl, hl⟩
    exact (term_leafExpr hl (.empty 0)).stem
  obtain ⟨after, hafter, hscans⟩ := hpath.scans hargument (Nat.le_refl 1)
  have hoperand : Scans (pathText path) (fun _ => False) (Operand 0 (pathExpr argumentExpr path) after.total) :=
    hscans.imp (fun _ hc => hc) fun _ ht => ht.operand (by decide)
  have htotal : after.total = 1 + path.length := hafter
  exact hoperand.exists_parse (by omega)

/-! ## Evaluation -/

section Evaluation

variable {scopes : Scopes} {scope : ScopeId} {depth : Nat} {e : Expr} {v : Value}

/-- Wherever its nodes are, the expression yields the value, if there is room for it and for nodes of the given depth in
it. -/
def YieldsAtDepth (scopes : Scopes) (scope : ScopeId) (depth : Nat) (e : Expr) (v : Value) : Prop :=
  ∀ room found, found.unlocated = e.unlocated →
    Eval.Yields scopes (evalWithin Host.builtin (room + depth + 1) found scope) v

theorem yieldsAtDepth_expr (step : Step) : YieldsAtDepth scopes scope depth step.expr step.value := by
  intro room found h
  cases step with
  | key name =>
    obtain ⟨location, rfl⟩ := Expr.exists_leaf_of_unlocated (l := .string name) h
    exact yields_string name
  | place index =>
    obtain ⟨location, rfl⟩ := Expr.exists_leaf_of_unlocated (l := .number (Float.ofNat index)) h
    exact yields_number _

/-- A step yields the value of the part that it leads to. -/
theorem YieldsAtDepth.exists_part (he : YieldsAtDepth scopes scope depth e v) (hjson : json.Proper)
    (hv : MadeFrom json v) (hplace : ∀ index, step = .place index → index < 2 ^ 53) (hstep : json.step? step = some sub) :
    ∃ part, MadeFrom sub part ∧
      YieldsAtDepth scopes scope (depth + 1) (.node .field (.empty 0) [e, step.expr]) part := by
  obtain ⟨id, fields, part, rfl, hfound, hpart⟩ := hjson.exists_fieldOf? hplace hstep hv
  refine ⟨part, hpart, fun room found h => ?_⟩
  obtain ⟨location, target, key, rfl, htarget, hkey⟩ := Expr.exists_pair_of_unlocated h
  have hvalue : step.value.isError = false := by cases step <;> rfl
  exact yields_field (he room target htarget) (yieldsAtDepth_expr step room key hkey) hvalue hfound

/-- The expression of a path yields the value of the part. -/
theorem IsDotted.exists_yields (hpath : IsDotted path) (he : YieldsAtDepth scopes scope depth e v)
    (hjson : json.Proper) (hv : MadeFrom json v) (hat : json.part? path = some sub) :
    ∃ part, MadeFrom sub part ∧ YieldsAtDepth scopes scope (depth + path.length) (pathExpr e path) part := by
  induction hpath generalizing json e v depth with
  | nil =>
    cases hat
    exact ⟨v, hv, he⟩
  | @key name rest _ _ ih =>
    obtain ⟨next, hnext, hrest⟩ := Option.bind_eq_some_iff.1 hat
    have hplace (index : Nat) (h : Step.key name = .place index) : index < 2 ^ 53 := by cases h
    obtain ⟨part, hpart, hyields⟩ := he.exists_part hjson hv hplace hnext
    obtain ⟨last, hlast, hyields⟩ := ih hyields (hjson.of_step? hnext) hpart hrest
    rw [Nat.add_assoc, Nat.add_comm 1] at hyields
    exact ⟨last, hlast, hyields⟩
  | @place index hindex =>
    obtain ⟨next, hnext, hrest⟩ := Option.bind_eq_some_iff.1 hat
    cases hrest
    exact he.exists_part hjson hv (fun other h => by cases h; exact hindex) hnext

end Evaluation

/-! ## Answers -/

/-- The scopes in which a path is evaluated: that of the built-in names, and that of the argument. -/
def argumentScopes (argument : Value) : Scopes :=
  #[⟨[], globals⟩, ⟨[globalScope], [⟨.string "it", .evaluated argument⟩]⟩]

theorem bindArguments_it (context : Context) (json : Json) :
    ∃ argument next, MadeFrom json argument ∧
      (Machine.bindArguments globalScope [("it", json)]).run (Machine.initial context) =
        (1, { Machine.initial context with scopes := argumentScopes argument, nextId := next }) :=
  ⟨_, _, ⟨_, rfl⟩, rfl⟩

theorem yieldsAtDepth_argumentExpr (argument : Value) :
    YieldsAtDepth (argumentScopes argument) 1 0 argumentExpr argument := by
  intro room found h
  obtain ⟨location, rfl⟩ := Expr.exists_leaf_of_unlocated (l := .name "it") h
  have hfind : (argumentScopes argument).find? 1 (.string "it") =
      some (1, 0, ⟨.string "it", .evaluated argument⟩) := rfl
  exact yields_name hfind

/-- Every part of an argument is reached by its path, up to the identities of objects, if the path is one of names with
a place at most at its end, and short enough to be read and evaluated. -/
theorem part_reached_by_path {context : Context} (hi : context.interrupted = false) (hjson : json.Proper)
    (hpath : IsDotted path) (hat : json.part? path = some sub) (hheight : path.length < Frame.maxHeight)
    (hroom : path.length < context.room) (next : Nat) :
    (∃ parsed, parse (pathText path) = .ok parsed ∧ parsed.errors = []) ∧
      ∃ v, answerSource context [("it", json)] (pathText path) = .ok v ∧
        (v == ((Value.ofJson sub).run next).1) = true := by
  obtain ⟨found, hparse, hfound⟩ := hpath.exists_parse hheight
  refine ⟨⟨⟨found, []⟩, hparse, rfl⟩, ?_⟩
  have hclean : parseClean (pathText path) = .ok found := by
    rw [parseClean, hparse]
    rfl
  obtain ⟨argument, id, hargument, hbind⟩ := bindArguments_it context json
  obtain ⟨v, hv, hyields⟩ := hpath.exists_yields (yieldsAtDepth_argumentExpr argument) hjson hargument hat
  obtain ⟨room, hcontext⟩ := Nat.exists_eq_add_of_le' (Nat.succ_le_of_lt hroom)
  have hanswer : answerSource context [("it", json)] (pathText path) = .ok v := by
    refine answerSource_of_yields hclean hbind ⟨rfl, hi⟩ ?_
    show Eval.Yields _ (evalWithin Host.builtin context.room found 1) v
    rw [hcontext]
    rw [← Nat.zero_add path.length]
    exact hyields room found hfound
  exact ⟨v, hanswer, (hjson.of_part? hat).beq hv ⟨next, rfl⟩⟩

theorem item_of_field_reached :
    ({} : Context).interrupted = false ∧ (object [("items", array [null, bool true])]).Proper ∧
      IsDotted [.key "items", .place 1] ∧
      (object [("items", array [null, bool true])]).part? [.key "items", .place 1] = some (bool true) ∧
      [Step.key "items", .place 1].length < Frame.maxHeight ∧
      [Step.key "items", .place 1].length < ({} : Context).room ∧
      (∃ parsed, parse (pathText [.key "items", .place 1]) = .ok parsed ∧ parsed.errors = []) ∧
      ∃ v, answerSource {} [("it", object [("items", array [null, bool true])])]
          (pathText [.key "items", .place 1]) = .ok v ∧
        (v == ((Value.ofJson (bool true)).run 0).1) = true := by
  have hitems : (array [null, bool true]).Proper := by
    refine .array fun item hitem => ?_
    obtain rfl | rfl : item = null ∨ item = bool true := by simpa using hitem
    · exact .null
    · exact .bool true
  have hjson : (object [("items", array [null, bool true])]).Proper :=
    .object (by decide) (List.forall_mem_singleton.2 hitems)
  have hpath : IsDotted [.key "items", .place 1] := .key (by decide) (.place (by decide))
  have hheight : [Step.key "items", .place 1].length < Frame.maxHeight := by decide
  have hroom : [Step.key "items", .place 1].length < ({} : Context).room := by decide
  exact ⟨rfl, hjson, hpath, rfl, hheight, hroom, part_reached_by_path rfl hjson hpath rfl hheight hroom 0⟩

/-- A place has no point. -/
theorem dot_not_mem_repr (index : Nat) : '.' ∉ index.repr.toList := by
  intro hmem
  rw [Nat.toList_repr] at hmem
  have hdigit := List.all_eq_true.1 (Decimal.all_isDigit_toDigits index) '.' hmem
  cases hdigit

theorem isNumber_of_text_repr {token : Token} {index : Nat} (h : token.text = index.repr) : token.isNumber = true := by
  rw [Token.isNumber, h, Nat.toList_repr]
  obtain ⟨c, rest, hchars⟩ := List.exists_cons_of_ne_nil (Nat.toDigits_ne_nil (b := 10) (n := index))
  have hdigits := Decimal.all_isDigit_toDigits index
  rw [hchars] at hdigits ⊢
  exact List.all_eq_true.1 hdigits c List.mem_cons_self

/-- A number before a dot takes it for its point: no token is a place with a dot after it. What comes next is no step then,
or it is the fraction. -/
theorem place_takes_next_dot :
    (∀ source, ∀ token ∈ (tokenize source).1, ∀ index : Nat, token.text = index.repr →
      ∀ rest, dropBytes? token.location.stop source.toList = some rest → rest.head? ≠ some '.') ∧
    ((array [object [("x", bool true)]]).part? [.place 0, .key "x"] = some (bool true) ∧ Text.isName "x" = true ∧
      ¬ ∃ parsed, parse (pathText [.place 0, .key "x"]) = .ok parsed ∧ parsed.errors = []) ∧
    (array [array [bool true]]).part? [.place 0, .place 0] = some (bool true) ∧
      ¬ ∃ v, answerSource {} [("it", array [array [bool true]])] (pathText [.place 0, .place 0]) = .ok v ∧
        (v == ((Value.ofJson (bool true)).run 0).1) = true := by
  refine ⟨fun source token hmem index htext rest hrest => ?_, ⟨rfl, by decide, ?_⟩, rfl, ?_⟩
  · exact Token.head?_ne_dot hmem (isNumber_of_text_repr htext) (htext ▸ dot_not_mem_repr index) hrest
  · rintro ⟨parsed, hparse, hok⟩
    have hfaults : (parse (pathText [.place 0, .key "x"])).toOption.any (·.errors.isEmpty) = false := by decide +kernel
    rw [hparse] at hfaults
    simp [Except.toOption, hok] at hfaults
  · rintro ⟨v, hanswer, hv⟩
    have hother : (answerSource {} [("it", array [array [bool true]])] (pathText [.place 0, .place 0])).toOption.any
        (· == .bool true) = false := by decide +kernel
    rw [hanswer] at hother
    exact Bool.false_ne_true (hother.symm.trans hv)

end Json

end DynamicConfig

import DynamicConfig.Proofs.Clean
/-!
# Evaluation does not go wrong

On a clean machine the evaluation of a canonical expression ends with a value or is interrupted: no rule
meets a tree that it is not made for (`safe_evaluate`). Every rule is safe if the evaluator that it is
given is; the evaluator is tied to itself by induction on the room that is left.
-/

namespace DynamicConfig

open DynamicConfig.Expr (Canonical)
open Eval (Safe)

namespace Evaluation

variable {host : Host} {run : Evaluator}

/-! ## Bindings -/

theorem safe_evaluateEntry (hrun : run.Safe) (scope : ScopeId) (place : Nat) {e : Expr} (he : e.Canonical .term) :
    Safe Value.Clean (evaluateEntry run scope place e) := by
  intro m hm
  obtain ⟨hfine, hclean⟩ := hrun e scope he m hm
  -- The state of the entry is set whatever the outcome is, so the rule is no `bind` of the calculus.
  rw [evaluateEntry, ExceptT.run_mk]
  cases hr : (run e scope).run.run m with
  | mk outcome m' =>
    rw [hr] at hfine hclean
    rw [Eval.run_bind_of_run hr]
    cases outcome with
    | ok v => exact ⟨hfine, hclean.setState scope place hfine⟩
    | error failure => exact ⟨hfine, hclean.setState scope place he⟩

theorem safe_resolve (hrun : run.Safe) (name : Value) (scope : ScopeId) (place : Nat) {state : EntryState}
    (h : state.Clean) : Safe Value.Clean (resolve run name scope place state) := by
  cases state with
  | evaluated v => exact Eval.safe_pure h
  | inProgress => exact Eval.safe_detectCircle _
  | unevaluated e =>
    have hprogress : EntryState.Clean .inProgress := trivial
    refine (Eval.safe_setState scope place hprogress).bind fun _ _ => ?_
    refine Safe.inCallOr ?_ (safe_evaluateEntry hrun scope place h)
    exact (Eval.safe_setState scope place h).bind fun _ _ => Eval.safe_refuse _

theorem safe_lookupName (hrun : run.Safe) (scope : ScopeId) (name : Value) :
    Safe Value.Clean (lookupName run scope name) := by
  refine Eval.safe_get.bind fun m hm => ?_
  split
  · rename_i holder place entry hfind
    exact safe_resolve hrun name holder place (Scopes.Clean.find? hm hfind)
  · exact Eval.safe_pure (.error _)

theorem safe_lookup (hrun : run.Safe) {target : Value} (ht : target.Clean) (field : Value) :
    Safe Value.Clean (lookup run target field) := by
  cases ht with
  | @object id fields h =>
    refine Eval.safe_pure ?_
    cases hv : Value.fieldOf? fields field with
    | none => exact .error _
    | some v => exact Value.clean_fieldOf? h hv
  | scope id => exact safe_lookupName hrun id field
  | _ => exact Eval.safe_pure (.error _)

/-! ## Calls -/

theorem safe_invoke (hrun : run.Safe) {body : Expr} (hb : body.Canonical .term) (scope : ScopeId) {arg : Value}
    (ha : arg.Clean) : Safe Value.Clean (invoke run body scope arg) := by
  have hbindings : Bindings.Clean [⟨.string closureArgument, .evaluated arg⟩] := List.forall_mem_singleton.2 ha
  exact Safe.inCall ((Eval.safe_newScope scope hbindings).bind fun inner _ => hrun body inner hb)

theorem safe_callValue (hhost : host.Safe) (hrun : run.Safe) {callee : Value} (hc : callee.Clean) {args : List Value}
    (ha : ∀ arg ∈ args, arg.Clean) : Safe Value.Clean (callValue host run callee args) := by
  refine (Eval.safe_checkInterrupt host).bind fun _ _ => ?_
  split
  · split
    · rename_i function hfunction
      exact hhost.function _ function _ hfunction ha
    · exact Eval.safe_pure (.error _)
  · cases hc with
    | closure hb => exact safe_invoke hrun hb _ (ha _ (by simp))
  · exact Eval.safe_pure (.error _)
  · exact Eval.safe_pure (.error _)
  · exact Eval.safe_pure (.error _)
  · exact Eval.safe_pure (.error _)

theorem safe_callLazy (hhost : host.Safe) (hrun : run.Safe) (code : String) {args : List Expr}
    (ha : ∀ arg ∈ args, arg.Canonical .item) (scope : ScopeId) :
    Safe Value.Clean (callLazy host run code args scope) := by
  unfold callLazy
  split
  · rename_i function hfunction
    exact hhost.lazyFunction _ function _ _ _ hfunction hrun ha
  · exact Eval.safe_pure (.error _)

/-- The fields and bindings that are collected from arguments have canonical expressions only. -/
def CleanArgs (collected : List (Value × Value) × Bindings) : Prop :=
  (∀ field ∈ collected.1, field.2.Clean) ∧ collected.2.Clean

/-- An outcome that is a reason for an error value, or as it should be. -/
def OrReason {α : Type} (Fine : α → Prop) : Except String α → Prop
  | .ok a => Fine a
  | .error _ => True

theorem safe_namedArgs (hrun : run.Safe) (scope : ScopeId) {args : List Expr} (ha : ∀ arg ∈ args, arg.Canonical .item)
    {fields : List (Value × Value)} (hf : ∀ field ∈ fields, field.2.Clean) {inline : Bindings} (hi : inline.Clean) :
    Safe (OrReason CleanArgs) (namedArgs run scope args fields inline) := by
  induction args generalizing fields inline with
  | nil => exact Eval.safe_pure ⟨hf, hi⟩
  | cons arg rest ih =>
    obtain ⟨harg, hrest⟩ := List.forall_mem_cons.1 ha
    unfold namedArgs
    split
    -- A bare name, which may be given already.
    · split
      · exact Eval.safe_pure trivial
      · exact (safe_lookupName hrun scope _).bind fun v hv => ih hrest (Value.clean_insertField hf _ hv) hi
    -- Only a binding may be the argument otherwise.
    · split
      · split
        · rename_i between hchain
          exact ih hrest hf (canonicalItems.bindChain hi harg hchain)
        · exact Eval.safe_pure trivial
      · exact Eval.safe_pure trivial

theorem safe_inlineArgs (hrun : run.Safe) (scope inner : ScopeId) (names : List Value)
    {fields : List (Value × Value)} (hf : ∀ field ∈ fields, field.2.Clean) :
    Safe (OrReason fun fields => ∀ field ∈ fields, field.2.Clean) (inlineArgs run scope inner names fields) := by
  induction names generalizing fields with
  | nil => exact Eval.safe_pure hf
  | cons name rest ih =>
    refine Eval.safe_get.bind fun m _ => ?_
    dsimp only
    split
    · exact Eval.safe_pure trivial
    · exact (safe_lookupName hrun inner name).bind fun v hv => ih (Value.clean_insertField hf name hv)

theorem safe_mergeArgs (hrun : run.Safe) {args : List Expr} (ha : ∀ arg ∈ args, arg.Canonical .item) (scope : ScopeId) :
    Safe Value.Clean (mergeArgs run args scope) := by
  refine (safe_namedArgs hrun scope ha (by simp) Bindings.clean_nil).bind fun collected hcollected => ?_
  split
  · exact Eval.safe_pure (.error _)
  · obtain ⟨hfields, hinline⟩ := hcollected
    refine (Eval.safe_newScope scope hinline).bind fun inner _ => ?_
    refine (safe_inlineArgs hrun scope inner _ hfields).bind fun all hall => ?_
    split
    · exact Eval.safe_pure (.error _)
    · exact (Eval.safe_fresh _).bind fun id _ => Eval.safe_pure (.object hall)

theorem safe_evalArgs (hrun : run.Safe) {args : List Expr} (ha : ∀ arg ∈ args, arg.Canonical .item) (scope : ScopeId) :
    Safe Value.Clean (evalArgs run args scope) := by
  unfold evalArgs
  split
  · rename_i single
    split
    · exact safe_mergeArgs hrun ha scope
    · rename_i hassign
      exact hrun single scope ((ha single (by simp)).term_of_not_isAssign (by simpa using hassign))
  · exact safe_mergeArgs hrun ha scope

theorem safe_evalCall (hhost : host.Safe) (hrun : run.Safe) {callee : Expr} (hc : callee.Canonical .term)
    {args : List Expr} (ha : ∀ arg ∈ args, arg.Canonical .item) (scope : ScopeId) :
    Safe Value.Clean (evalCall host run callee args scope) := by
  refine (hrun callee scope hc).bindValue fun function hfunction => ?_
  split
  -- A where clause binds a name twice.
  · exact Eval.safe_pure (.error _)
  · rename_i others bindings hwhere
    obtain ⟨hothers, hbindings⟩ := canonicalItems.takeWhere Bindings.all_nil ha hwhere
    refine (Eval.safe_newScope scope hbindings).bind fun callScope _ => ?_
    split
    -- A lazy function gets the arguments themselves, anything else gets their value.
    · exact safe_callLazy hhost hrun _ hothers callScope
    · exact (safe_evalArgs hrun hothers callScope).bindValue fun arg harg =>
        safe_callValue hhost hrun hfunction (by simpa using harg)

/-! ## Closures -/

theorem safe_evalClosure {items : List Expr} (hi : ∀ item ∈ items, item.Canonical .item) (scope : ScopeId) :
    Safe Value.Clean (evalClosure items scope) := by
  unfold evalClosure
  split
  · exact Eval.safe_pure (.error _)
  · rename_i body bindings hparts
    obtain ⟨hbody, hbindings⟩ := canonicalItems.closureParts hi hparts
    refine (Eval.safe_newScope scope hbindings).bind fun inner _ => ?_
    exact (Eval.safe_fresh _).bind fun id _ => Eval.safe_pure (.closure hbody)

/-! ## Operators -/

theorem clean_onNumbers (op : Op) (a b : Float) : (op.onNumbers a b).Clean := by
  cases op <;> first | exact .number _ | exact .bool _ | exact .error _

theorem clean_onValues (op : Op) (a b : Value) : (op.onValues a b).Clean := by
  unfold Op.onValues
  split
  · exact .bool _
  · exact .bool _
  · exact clean_onNumbers _ _ _
  · exact .error _

theorem clean_onValue (op : Op) (a : Value) : (op.onValue a).Clean := by
  unfold Op.onValue
  split <;> first | exact .bool _ | exact .number _ | exact .error _

theorem clean_decidedBy {op : Op} {a v : Value} (ha : a.Clean) (h : op.decidedBy a = some v) : v.Clean := by
  unfold Op.decidedBy at h
  split at h <;> cases h <;> first | exact ha | exact .bool _ | exact .error _

theorem clean_decidedLast {a : Value} (ha : a.Clean) : (Op.decidedLast a).Clean := by
  unfold Op.decidedLast
  split <;> first | exact ha | exact .error _

theorem safe_evalUnary (hrun : run.Safe) (op : Op) {operand : Expr} (ho : operand.Canonical .term) (scope : ScopeId) :
    Safe Value.Clean (evalUnary run op operand scope) :=
  (hrun operand scope ho).bindValue fun v _ => Eval.safe_pure (clean_onValue op v)

theorem safe_evalBinary (hrun : run.Safe) (op : Op) {left right : Expr} (hl : left.Canonical .term)
    (hr : right.Canonical .term) (scope : ScopeId) : Safe Value.Clean (evalBinary run op left right scope) := by
  refine (hrun left scope hl).bindValue fun a _ => ?_
  exact (hrun right scope hr).bindValue fun b _ => Eval.safe_pure (clean_onValues op a b)

theorem safe_evalLogic (hrun : run.Safe) (op : Op) {left right : Expr} (hl : left.Canonical .term)
    (hr : right.Canonical .term) (scope : ScopeId) : Safe Value.Clean (evalLogic run op left right scope) := by
  refine (hrun left scope hl).bind fun a ha => ?_
  split
  · rename_i v hv
    exact Eval.safe_pure (clean_decidedBy ha hv)
  · exact (hrun right scope hr).bind fun b hb => Eval.safe_pure (clean_decidedLast hb)

theorem safe_evalField (hrun : run.Safe) {left key : Expr} (hl : left.Canonical .term) (hk : key.Canonical .term)
    (scope : ScopeId) : Safe Value.Clean (evalField run left key scope) := by
  refine (hrun left scope hl).bindValue fun target ht => ?_
  exact (hrun key scope hk).bindValue fun field _ => safe_lookup hrun ht field

/-! ## Nodes -/

theorem takes_cases {op : Op} {n : Nat} (h : op.takes n = true) :
    n = 1 ∧ (op = .add ∨ op = .sub ∨ op = .not) ∨
      n = 2 ∧ (op = .and ∨ op = .or ∨ op = .field ∨ op.isStrictBinary = true) := by
  cases op <;> simp_all [Op.takes, Op.isStrictBinary]

theorem evalNode_of_isStrictBinary {op : Op} (h : op.isStrictBinary = true) (e left right : Expr) (scope : ScopeId) :
    evalNode host run e op [left, right] scope = evalBinary run op left right scope := by
  cases op <;> first | rfl | cases h

/-- A canonical node of an operator has a rule. -/
theorem safe_evalNode_operator (hrun : run.Safe) (e : Expr) {op : Op} {operands : List Expr}
    (hn : op.takes operands.length = true) (ho : ∀ e ∈ operands, e.Canonical .term) (scope : ScopeId) :
    Safe Value.Clean (evalNode host run e op operands scope) := by
  rcases takes_cases hn with ⟨hlen, hop⟩ | ⟨hlen, hop⟩
  · obtain ⟨operand, rfl⟩ := List.length_eq_one_iff.1 hlen
    have h := ho operand (by simp)
    rcases hop with rfl | rfl | rfl <;> exact safe_evalUnary hrun _ h scope
  · obtain ⟨left, right, rfl⟩ : ∃ left right, operands = [left, right] := by
      match operands, hlen with
      | [left, right], _ => exact ⟨left, right, rfl⟩
    have hl := ho left (by simp)
    have hr := ho right (by simp)
    rcases hop with rfl | rfl | rfl | hstrict
    · exact safe_evalLogic hrun _ hl hr scope
    · exact safe_evalLogic hrun _ hl hr scope
    · exact safe_evalField hrun hl hr scope
    · rw [evalNode_of_isStrictBinary hstrict]
      exact safe_evalBinary hrun op hl hr scope

/-- Every canonical term has a rule. -/
theorem safe_step (hhost : host.Safe) (hrun : run.Safe) {e : Expr} (he : e.Canonical .term) (scope : ScopeId) :
    Safe Value.Clean (step host run e scope) := by
  cases he with
  | string _ text => exact Eval.safe_pure (.string text)
  | number _ x => exact Eval.safe_pure (.number x)
  | bool _ b => exact Eval.safe_pure (.bool b)
  | name _ name => exact safe_lookupName hrun scope (.string name)
  | operator hn ho => exact safe_evalNode_operator hrun _ hn ho scope
  | call hc ha => exact safe_evalCall hhost hrun hc ha scope
  | closure _ hi => exact safe_evalClosure hi scope

end Evaluation

/-- Evaluation is safe, however much room is left. -/
theorem safe_evalWithin {host : Host} (hhost : host.Safe) (room : Nat) : Evaluator.Safe (evalWithin host room) := by
  induction room with
  | zero => exact fun e scope _ => (Eval.safe_checkInterrupt host).bind fun _ _ => Eval.safe_refuse _
  | succ room ih =>
    exact fun e scope he => (Eval.safe_checkInterrupt host).bind fun _ _ => (Evaluation.safe_step hhost ih he scope).inside

theorem safe_evaluate {host : Host} (hhost : host.Safe) : Evaluator.Safe (evaluate host) :=
  fun e scope he => Eval.safe_get.bind fun m _ => safe_evalWithin hhost m.context.room e scope he

/-! ## The built-in functions -/

namespace Host

theorem safe_chooseBranch {run : Evaluator} (hrun : run.Safe) {args : List Expr}
    (ha : ∀ arg ∈ args, arg.Canonical .item) (scope : ScopeId) :
    Eval.Safe Value.Clean (chooseBranch run args scope) := by
  unfold chooseBranch
  split
  · split
    · exact Eval.safe_pure (.error _)
    · rename_i condition yes no hassign
      have hterm : ∀ arg ∈ [condition, yes, no], arg.Canonical .term := by
        intro arg harg
        have hno : arg.isAssign = false := by
          rw [Bool.eq_false_iff]
          exact fun h => hassign (List.any_eq_true.2 ⟨arg, harg, h⟩)
        exact (ha arg harg).term_of_not_isAssign hno
      refine (hrun condition scope (hterm _ (by simp))).bind fun v hv => ?_
      -- The condition is true, false, an error or no truth value at all.
      split
      · exact hrun yes scope (hterm _ (by simp))
      · exact hrun no scope (hterm _ (by simp))
      · exact Eval.safe_pure (.error _)
      · exact Eval.safe_pure (.error _)
  · exact Eval.safe_pure (.error _)

theorem clean_makeError (args : List Value) : (makeError args).Clean := by
  unfold makeError
  split <;> exact .error _

theorem clean_makeObject {args : List Value} (h : ∀ arg ∈ args, arg.Clean) : (makeObject args).Clean := by
  unfold makeObject
  split
  · exact h _ (by simp)
  · exact .error _

theorem safe_builtin : builtin.Safe where
  function code function args hfunction ha := by
    simp only [builtin] at hfunction
    split at hfunction
    · cases hfunction; exact Eval.safe_pure (clean_makeError args)
    · cases hfunction; exact Eval.safe_pure (clean_makeObject ha)
    · cases hfunction
  lazyFunction code function run args scope hfunction hrun ha := by
    simp only [builtin] at hfunction
    split at hfunction
    · cases hfunction; exact safe_chooseBranch hrun ha scope
    · cases hfunction

theorem safe_interruptedBy (interrupts : Nat → Bool) : (interruptedBy interrupts).Safe :=
  ⟨safe_builtin.function, safe_builtin.lazyFunction⟩

end Host

theorem clean_globals : globals.Clean := by
  intro entry hentry
  simp only [globals, List.mem_cons, List.not_mem_nil, or_false] at hentry
  rcases hentry with rfl | rfl | rfl | rfl
  · exact .lazyFunction "if"
  · exact .function "error"
  · exact .function "object"
  · refine Value.Clean.object fun field hfield => ?_
    simp only [List.mem_cons, List.not_mem_nil, or_false] at hfield
    rcases hfield with rfl | rfl <;> exact .number _

theorem Machine.clean_initial (context : Context) : (Machine.initial context).Clean := by
  intro scope hscope
  simp only [Machine.initial, List.mem_toArray, List.mem_singleton] at hscope
  rw [hscope]
  exact clean_globals

/-! ## Source texts without faults -/

/-- A source text without faults has a canonical expression. On a clean machine, whatever its limits
and its counts, the evaluation of a canonical expression ends with a value, or is interrupted at one of its checks. -/
theorem error_free_programs_do_not_go_wrong :
    (∀ source parsed, parse source = .ok parsed → parsed.errors = [] → parsed.expr.Canonical .term) ∧
    ∀ (interrupts : Nat → Bool) (e : Expr) (m : Machine) (scope : ScopeId), e.Canonical .term → m.Clean →
      let run := (evaluate (Host.interruptedBy interrupts) e scope).run.run m
      (∃ v, run.1 = .ok v) ∨ run.1 = .error .interrupted := by
  refine ⟨fun _ _ => canonical_of_parse, fun interrupts e m scope he hm => ?_⟩
  intro run
  have hfine := (safe_evaluate (Host.safe_interruptedBy interrupts) e scope he m hm).1
  cases hr : run.1 with
  | ok v => exact .inl ⟨v, rfl⟩
  | error failure => rw [hr] at hfine; exact .inr (congrArg _ hfine)

/-- A scope over the globals in which `f` is the closure of `it & k` and `k` waits for the evaluation of `!false`. -/
def Machine.withClosure : Machine :=
  let body : Expr := .node .and ⟨6, 7⟩ [.nameLeaf ⟨3, 5⟩ "it", .nameLeaf ⟨8, 9⟩ "k"]
  let negation : Expr := .node .not ⟨0, 1⟩ [.boolLeaf ⟨1, 6⟩ false]
  { Machine.initial {} with
    scopes := ((Machine.initial {}).scopes.add (some globalScope)
      [⟨.string "f", .evaluated (.closure 0 body 1)⟩, ⟨.string "k", .unevaluated negation⟩]).2
    nextId := 1 }

theorem Machine.clean_withClosure : Machine.withClosure.Clean := by
  refine Scopes.Clean.add (Machine.clean_initial {}) (some globalScope) (List.forall_mem_cons.2 ⟨?_, ?_⟩)
  · exact Value.Clean.closure (Expr.canonical_pair rfl _ (.name _ _) (.name _ _))
  · exact List.forall_mem_singleton.2 (Expr.canonical_unary rfl _ (.bool _ _))

/-- The program `{f(it)}(!n, where(n = !k))`. -/
def closureCall : Expr :=
  let closure : Expr := .node .closure ⟨0, 7⟩ [.node .call ⟨2, 2⟩ [.nameLeaf ⟨1, 2⟩ "f", .nameLeaf ⟨3, 5⟩ "it"]]
  let bindings : Expr := .node .call ⟨17, 17⟩ [.nameLeaf ⟨12, 17⟩ "where",
    .node .assign ⟨20, 21⟩ [.stringLeaf ⟨18, 19⟩ "n", .node .not ⟨22, 23⟩ [.nameLeaf ⟨23, 24⟩ "k"]]]
  .node .call ⟨7, 7⟩ [closure, .node .not ⟨8, 9⟩ [.nameLeaf ⟨9, 10⟩ "n"], bindings]

/-- A closure is called with an argument that a where clause is for. It calls a closure of the scope, whose body reads a
binding that waits, and the value is that of `true & !false`, unless the evaluation is interrupted in the course of it. -/
theorem nested_calls_do_not_go_wrong :
    let run (interrupts : Nat → Bool) := (evaluate (Host.interruptedBy interrupts) closureCall 1).run.run Machine.withClosure
    parse "{f(it)}(!n, where(n = !k))" = .ok ⟨closureCall, []⟩ ∧ closureCall.Canonical .term ∧
      Machine.withClosure.Clean ∧
      ((∃ v, (run (· == 9)).1 = .ok v) ∨ (run (· == 9)).1 = .error .interrupted) ∧
      (run (· == 9)).1 = .error .interrupted ∧ (run fun _ => false).1 = .ok (.bool true) := by
  intro run
  have hparse : parse "{f(it)}(!n, where(n = !k))" = .ok ⟨closureCall, []⟩ := rfl
  have hcanonical := error_free_programs_do_not_go_wrong.1 _ _ hparse rfl
  exact ⟨hparse, hcanonical, Machine.clean_withClosure,
    error_free_programs_do_not_go_wrong.2 _ _ _ 1 hcanonical Machine.clean_withClosure, rfl, rfl⟩

end DynamicConfig

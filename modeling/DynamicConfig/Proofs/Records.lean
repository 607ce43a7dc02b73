import DynamicConfig.Proofs.Budgets
import DynamicConfig.Proofs.Clean
import DynamicConfig.Proofs.Codes
import DynamicConfig.Proofs.Keys
/-!
# Codes are evaluated to their values

The code of a scalar is evaluated to the scalar where it sees the globals that it uses (`Value.ScalarExpr.gives`). The
code of an object is a call of `object` with a binding for each field, and the bindings are evaluated one after the
other in a scope in which all keys are bound (`Evaluation.Stage`).
-/

namespace DynamicConfig

/-! ## Work that changes no scope that there was -/

namespace Machine

/-- Limits and counts are what they were, and so are the scopes that there were. -/
structure Keeps (m m' : Machine) : Prop where
  context : m.context.Balanced m'.context
  size : m.scopes.size ≤ m'.scopes.size
  get : ∀ id < m.scopes.size, m'.scopes.get id = m.scopes.get id

theorem Keeps.refl (m : Machine) : m.Keeps m :=
  ⟨Context.Balanced.refl m.context, Nat.le_refl _, fun _ _ => rfl⟩

theorem Keeps.trans {a b c : Machine} (hab : a.Keeps b) (hbc : b.Keeps c) : a.Keeps c where
  context := hab.context.trans hbc.context
  size := Nat.le_trans hab.size hbc.size
  get id hid := (hbc.get id (Nat.lt_of_lt_of_le hid hab.size)).trans (hab.get id hid)

theorem keeps_extended (m : Machine) (parent : ScopeId) (bindings : Bindings) : m.Keeps (m.extended parent bindings) where
  context := Context.Balanced.refl m.context
  size := by rw [size_extended]; exact Nat.le_succ _
  get _ hid := m.get_extended parent _ bindings hid

theorem keeps_check (m : Machine) : m.Keeps (m.within Context.check) :=
  ⟨⟨rfl, rfl, rfl, rfl⟩, Nat.le_refl _, fun _ _ => rfl⟩

end Machine

namespace Eval

variable {α β : Type} {m : Machine} {work : Eval α} {next : α → Eval β} {a : α} {b : β}

/-- From this machine the work comes to this outcome, and changes no scope that there is. -/
def Gives (m : Machine) (work : Eval α) (a : α) : Prop :=
  ∃ m', work.run.run m = (.ok a, m') ∧ m.Keeps m'

theorem gives_pure (m : Machine) (a : α) : Gives m (pure a) a :=
  ⟨m, rfl, .refl m⟩

theorem Gives.bind (h : Gives m work a) (hnext : ∀ m', m.Keeps m' → Gives m' (next a) b) :
    Gives m (work >>= next) b := by
  obtain ⟨between, hrun, hbetween⟩ := h
  obtain ⟨m', hrest, hm'⟩ := hnext between hbetween
  exact ⟨m', (run_bind_of_ok hrun).trans hrest, hbetween.trans hm'⟩

/-- Work that hands on an error value at once. -/
theorem Gives.bindValue {work : Eval Value} {next : Value → Eval Value} {v w : Value} (h : Gives m work v)
    (hv : v.isError = false) (hnext : ∀ m', m.Keeps m' → Gives m' (next v) w) :
    Gives m (do let v ← work; if v.isError then return v else next v) w := by
  refine h.bind fun m' hm' => ?_
  rw [hv]
  exact hnext m' hm'

end Eval

open Eval (Gives)

variable {m : Machine} {room : Nat} {scope : ScopeId} {location : Location} {v : Value}

theorem gives_evalWithin {e : Expr} (hm : m.context.interrupted = false)
    (h : Gives m.entered (Evaluation.step Host.builtin (evalWithin Host.builtin room) e scope) v) :
    Gives m (evalWithin Host.builtin (room + 1) e scope) v := by
  obtain ⟨m', hrun, hkeeps⟩ := h
  refine ⟨m'.within Context.leaveNode, ?_, ?_⟩
  · rw [run_evalWithin_succ, Host.stops_builtin, hm, if_neg (by simp), hrun]
  · have hcontext := hkeeps.context
    exact ⟨⟨hcontext.limits, congrArg (· - 1) hcontext.nesting, hcontext.depth, hcontext.interrupted⟩, hkeeps.size,
      hkeeps.get⟩

/-! ## Scalars -/

/-- Seen from the scope, the name is bound as it is in the globals. -/
def Scopes.SeesGlobal (scopes : Scopes) (scope : ScopeId) (name : String) : Prop :=
  scopes.find? scope (.string name) = (globals.find? (.string name)).map fun found => (globalScope, found)

theorem gives_global {name : String} {place : Nat} {key : Value} (hm : m.context.interrupted = false)
    (hsees : m.scopes.SeesGlobal scope name) (hglobal : globals.find? (.string name) = some (place, ⟨key, .evaluated v⟩)) :
    Gives m (evalWithin Host.builtin (room + 1) (.nameLeaf location name) scope) v := by
  have hfind : m.scopes.find? scope (.string name) = some (globalScope, place, ⟨key, .evaluated v⟩) := by
    rw [hsees, hglobal]
    rfl
  refine gives_evalWithin hm ⟨m.entered, ?_, .refl _⟩
  show (Evaluation.lookupName _ scope (.string name)).run.run m.entered = _
  rw [Evaluation.run_lookupName, show m.entered.scopes = m.scopes from rfl, hfind]
  rfl

theorem globals_math : ∃ fields, globals.find? (.string "math") = some (3, ⟨.string "math", .evaluated (.object 0 fields)⟩) ∧
    Value.fieldOf? fields (.string "Inf") = some (.number Decimal.infinity) :=
  ⟨_, rfl, rfl⟩

theorem gives_string (hm : m.context.interrupted = false) (text : String) :
    Gives m (evalWithin Host.builtin (room + 1) (.stringLeaf location text) scope) (.string text) :=
  gives_evalWithin hm (Eval.gives_pure _ _)

theorem Value.MagnitudeExpr.gives {x : Float} {e : Expr} (h : MagnitudeExpr x e) (hm : m.context.interrupted = false)
    (hsees : x.isInf = true → m.scopes.SeesGlobal scope "math") :
    Gives m (evalWithin Host.builtin (room + 2) e scope) (.number x) := by
  cases h with
  | literal location x => exact gives_evalWithin hm (Eval.gives_pure _ _)
  | infinity dot first second =>
    obtain ⟨fields, hmath, hfield⟩ := globals_math
    have htarget : Gives m.entered (evalWithin Host.builtin (room + 1) (.nameLeaf first "math") scope)
        (.object 0 fields) := gives_global hm (hsees (by decide +kernel)) hmath
    have hlookup : Gives m.entered (Evaluation.evalField (evalWithin Host.builtin (room + 1))
        (.nameLeaf first "math") (.stringLeaf second "Inf") scope) (.number Decimal.infinity) := by
      refine htarget.bindValue rfl fun m' hm' => ?_
      refine (gives_string (hm'.context.interrupted.trans hm) "Inf").bindValue rfl fun m' _ => ?_
      rw [Evaluation.lookup, hfield]
      exact Eval.gives_pure m' _
    exact gives_evalWithin hm hlookup

/-! ## Calls of host functions -/

theorem gives_newScope_bind {α : Type} {parent : ScopeId} {bindings : Bindings} {next : ScopeId → Eval α} {a : α}
    (h : Gives (m.extended parent bindings) (next m.scopes.size) a) :
    Gives m (Eval.newScope parent bindings >>= next) a := by
  obtain ⟨m', hrun, hkeeps⟩ := h
  refine ⟨m', ?_, (m.keeps_extended parent bindings).trans hkeeps⟩
  rw [Eval.run_newScope_bind, hrun]

theorem takeWhere_of_forall {args : List Expr} (h : ∀ arg ∈ args, arg.whereArgs? = none) (bindings : Bindings) :
    bindings.takeWhere args = .ok (args, bindings) := by
  induction args with
  | nil => rfl
  | cons arg rest ih =>
    obtain ⟨harg, hrest⟩ := List.forall_mem_cons.1 h
    rw [Bindings.takeWhere, harg, ih hrest]
    rfl

theorem whereArgs?_eq_none {op : Op} (hop : op ≠ .call) (children : List Expr) :
    (Expr.node op location children).whereArgs? = none := by
  rw [Option.eq_none_iff_forall_ne_some]
  exact fun clauses hw => hop (Expr.node_of_whereArgs? hw).1

namespace Evaluation

variable {run : Evaluator} {code : String} {function : List Value → Eval Value}

theorem gives_callValue (hm : m.context.interrupted = false) (hfunction : Host.builtin.function? code = some function)
    {args : List Value} (h : Gives (m.within Context.check) (function args) v) :
    Gives m (callValue Host.builtin run (.function code) args) v := by
  obtain ⟨m', hrun, hkeeps⟩ := h
  refine ⟨m', ?_, m.keeps_check.trans hkeeps⟩
  rw [callValue, Eval.run_checkInterrupt_bind, Host.stops_builtin, hm, if_neg (by simp), hfunction]
  exact hrun

/-- A call without where clauses. The arguments are evaluated in a scope of the call. -/
theorem gives_evalCall {callee : Expr} {args : List Expr} {P : Value → Prop}
    (hcallee : Gives m (run callee scope) (.function code)) (hm : m.context.interrupted = false)
    (hwhere : ∀ arg ∈ args, arg.whereArgs? = none) (hfunction : Host.builtin.function? code = some function)
    (harg : ∀ m', m.Keeps m' → ∃ arg, Gives (m'.extended scope []) (evalArgs run args m'.scopes.size) arg ∧
      arg.isError = false ∧ ∃ result, P result ∧ ∀ m'', Gives m'' (function [arg]) result) :
    ∃ result, P result ∧ Gives m (evalCall Host.builtin run callee args scope) result := by
  obtain ⟨between, hrun, hbetween⟩ := hcallee
  obtain ⟨arg, hargs, herror, result, hP, hresult⟩ := harg between hbetween
  have hbetweenUninterrupted := hbetween.context.interrupted.trans hm
  have hrest : Gives between (do
      let callScope ← Eval.newScope scope []
      let arg ← evalArgs run args callScope
      if arg.isError then return arg
      callValue Host.builtin run (.function code) [arg]) result := by
    refine gives_newScope_bind (hargs.bindValue herror fun m' hm' => ?_)
    exact gives_callValue (hm'.context.interrupted.trans hbetweenUninterrupted) hfunction (hresult _)
  obtain ⟨m', hrest, hm'⟩ := hrest
  refine ⟨result, hP, m', ?_, hbetween.trans hm'⟩
  rw [evalCall, Eval.run_bind_of_ok hrun, takeWhere_of_forall hwhere]
  exact hrest

end Evaluation

theorem Value.ScalarExpr.gives {e : Expr} (h : ScalarExpr v e) (hm : m.context.interrupted = false)
    (hsees : ∀ name, v.globalName? = some name → m.scopes.SeesGlobal scope name) :
    Gives m (evalWithin Host.builtin (room + 3) e scope) v := by
  cases h with
  | bool location b => exact gives_evalWithin hm (Eval.gives_pure _ _)
  | string location text => exact gives_string hm text
  | number h => exact h.gives hm fun hinf => hsees "math" (by simp [globalName?, hinf])
  | @negative x e sign h =>
    have hmagnitude : Gives m.entered (evalWithin Host.builtin (room + 2) e scope) (.number x) := by
      cases h with
      | literal location => exact gives_evalWithin hm (Eval.gives_pure _ _)
      | infinity dot first second =>
        exact MagnitudeExpr.gives (.infinity dot first second) hm fun _ => hsees "math" (by decide +kernel)
    exact gives_evalWithin hm (hmagnitude.bindValue rfl fun m' _ => Eval.gives_pure m' _)
  | error call first second message =>
    have hwhere : ∀ arg ∈ [Expr.stringLeaf second message], arg.whereArgs? = none :=
      List.forall_mem_singleton.2 (whereArgs?_eq_none (by simp) _)
    have harg (m' : Machine) (hm' : m.entered.Keeps m') : Gives (m'.extended scope [])
        (Evaluation.evalArgs (evalWithin Host.builtin (room + 2)) [.stringLeaf second message] m'.scopes.size)
        (.string message) := by
      show Gives _ (evalWithin Host.builtin (room + 2) (.stringLeaf second message) _) _
      have hextended : (m'.extended scope []).context.interrupted = false := hm'.context.interrupted.trans hm
      exact gives_string hextended message
    have hcallee : Gives m.entered (evalWithin Host.builtin (room + 2) (.nameLeaf first "error") scope)
        (.function "error") := gives_global hm (hsees "error" rfl) rfl
    have hfunction : Host.builtin.function? "error" = some fun args => pure (Host.makeError args) := rfl
    obtain ⟨_, rfl, hcall⟩ := Evaluation.gives_evalCall (P := (· = Value.error message)) hcallee hm hwhere hfunction
      fun m' hm' => ⟨_, harg m' hm', rfl, _, rfl, fun m'' => Eval.gives_pure m'' _⟩
    exact gives_evalWithin hm hcall

/-! ## Bindings of fields -/

namespace Value

/-- A binding of a field that is still to be evaluated. -/
def Waits (field : Value × Value) (entry : Entry) : Prop :=
  ∃ e, ScalarExpr field.2 e ∧ entry = ⟨field.1, .unevaluated e⟩

/-- A binding of a field that has been evaluated. -/
def known (field : Value × Value) : Entry :=
  ⟨field.1, .evaluated field.2⟩

theorem ScalarExpr.asBinding?_eq_none {e : Expr} (h : ScalarExpr v e) : e.asBinding? = none := by
  have hop : ∃ op location children, e = .node op location children ∧ op ≠ .assign := by
    cases h with
    | number h => cases h <;> exact ⟨_, _, _, rfl, by simp⟩
    | _ => exact ⟨_, _, _, rfl, by simp⟩
  obtain ⟨op, location, children, rfl, hne⟩ := hop
  rw [Option.eq_none_iff_forall_ne_some]
  rintro ⟨name, value⟩ hb
  exact hne (Expr.op_of_asBinding? hb)

/-- The binding of a field is added to those before it. -/
theorem FieldExpr.bindChain {field : Value × Value} {arg : Expr} (h : FieldExpr field arg) {bindings : Bindings}
    (hnew : bindings.contains field.1 = false) :
    ∃ entry, Waits field entry ∧ bindings.bindChain arg = .ok (bindings ++ [entry]) := by
  obtain ⟨assign, target, name, e, hkey, hvalue, rfl⟩ := h
  refine ⟨_, ⟨e, hvalue, rfl⟩, ?_⟩
  have hchain := Expr.bindingChain_assign assign target name e
  rw [Expr.bindingChain_of_asBinding?_eq_none hvalue.asBinding?_eq_none] at hchain
  rw [Bindings.bindChain, hchain]
  show Bindings.bindAll bindings [(name, e)] = _
  rw [hkey] at hnew ⊢
  simp [Bindings.bindAll, Bindings.bindExpr, Bindings.bind, hnew, Except.mapError]

end Value

open Value (FieldExpr Waits known)

namespace Evaluation

variable {run : Evaluator}

/-- The arguments of an object are bindings of its fields. -/
theorem namedArgs_fieldExprs {fields : List (Value × Value)} {args : List Expr} (h : List.Forall₂ FieldExpr fields args)
    (hkeys : Value.DistinctKeys fields) {inline : Bindings} (hnew : ∀ field ∈ fields, inline.contains field.1 = false) :
    ∃ todo, List.Forall₂ Waits fields todo ∧ namedArgs run scope args [] inline = pure (.ok ([], inline ++ todo)) := by
  induction h generalizing inline with
  | nil => exact ⟨[], .nil, by simp [namedArgs]⟩
  | @cons field arg rest args hfield _ ih =>
    obtain ⟨hfirst, hrest⟩ := List.pairwise_cons.1 hkeys
    obtain ⟨hnewFirst, hnewRest⟩ := List.forall_mem_cons.1 hnew
    obtain ⟨entry, hentry, hbind⟩ := hfield.bindChain hnewFirst
    have hname : entry.name = field.1 := by
      obtain ⟨e, -, rfl⟩ := hentry
      rfl
    have hnewNext : ∀ other ∈ rest, Bindings.contains (inline ++ [entry]) other.1 = false := by
      intro other hother
      have hold := hnewRest other hother
      rw [Bindings.contains] at hold ⊢
      rw [List.any_append, hold, List.any_cons, List.any_nil, hname, (hfirst other hother).2]
      rfl
    obtain ⟨todo, htodo, hargs⟩ := ih hrest hnewNext
    refine ⟨entry :: todo, .cons hentry htodo, ?_⟩
    obtain ⟨assign, target, name, e, -, -, rfl⟩ := hfield
    have hassign : (Expr.node .assign assign [.stringLeaf target name, e]).isAssign = true := rfl
    have hnoName : (Expr.node .assign assign [.stringLeaf target name, e]).asName? = none := rfl
    simp only [namedArgs, hnoName, hassign, hbind, hargs, if_pos, List.append_assoc, List.singleton_append]

/-- A name that is not taken gets its value. -/
theorem run_inlineArgs_cons {inner : ScopeId} {name value : Value} {names : List Value} {fields : List (Value × Value)}
    {next : Machine} (hnew : Value.fieldOf? fields name = none)
    (hclause : (m.scopes.get scope).bindings.contains name = false)
    (hlookup : (lookupName run inner name).run.run m = (.ok value, next)) :
    (inlineArgs run scope inner (name :: names) fields).run.run m =
      (inlineArgs run scope inner names (Value.insertField name value fields)).run.run next := by
  have hrule : (inlineArgs run scope inner (name :: names) fields).run.run m =
      ((if (Value.fieldOf? fields name).isSome || (m.scopes.get scope).bindings.contains name then
          pure (Except.error (duplicateName name.displayName))
        else lookupName run inner name >>= fun value =>
          inlineArgs run scope inner names (Value.insertField name value fields)) : Eval _).run.run m := rfl
  rw [hrule, hnew, hclause, if_neg (by simp), Eval.run_bind_of_ok hlookup]

end Evaluation

/-! ## Fields one after the other -/

theorem Bindings.find?_of_forall {bindings : Bindings} {name : Value} (h : ∀ entry ∈ bindings, (name == entry.name) = false) :
    bindings.find? name = none := by
  rw [find?, List.findIdx?_eq_none_iff.2 h]
  rfl

/-- The first binding of a name counts. -/
theorem Bindings.find?_append_cons {before after : Bindings} {entry : Entry} {name : Value}
    (hbefore : ∀ other ∈ before, (name == other.name) = false) (hname : (name == entry.name) = true) :
    Bindings.find? (before ++ entry :: after) name = some (before.length, entry) := by
  have hplace : List.findIdx? (fun other => name == other.name) (before ++ entry :: after) = some before.length := by
    rw [List.findIdx?_append, List.findIdx?_eq_none_iff.2 hbefore]
    simp [List.findIdx?_cons, hname]
  rw [find?, hplace]
  simp

theorem Scopes.findIn?_congr {scopes others : Scopes} {ids : List ScopeId} (h : ∀ id ∈ ids, scopes.get id = others.get id)
    (name : Value) : scopes.findIn? name ids = others.findIn? name ids := by
  induction ids with
  | nil => rfl
  | cons id rest ih =>
    obtain ⟨hid, hrest⟩ := List.forall_mem_cons.1 h
    rw [findIn?, findIn?, hid, ih hrest]

/-- Seen from around the scope, the name is bound as it is in the globals. -/
def Scopes.SurroundedBy (scopes : Scopes) (scope : ScopeId) (name : String) : Prop :=
  scopes.findIn? (.string name) (scopes.get scope).enclosing =
    (globals.find? (.string name)).map fun found => (globalScope, found)

/-- A name that a scope does not bind is seen as it is from around the scope. -/
theorem Scopes.SurroundedBy.seesGlobal {scopes : Scopes} {name : String} (h : scopes.SurroundedBy scope name)
    (hnames : ∀ entry ∈ (scopes.get scope).bindings, (Value.string name == entry.name) = false) :
    scopes.SeesGlobal scope name := by
  rw [SeesGlobal, find?, findIn?, Bindings.find?_of_forall hnames]
  exact h

/-- Bindings of a scope have been evaluated since it was made, some of them at least, and no other scope has changed. -/
structure Stage (base : Scopes) (inner : ScopeId) (done : List (Value × Value)) (todo : Bindings) (scopes : Scopes) :
    Prop where
  size : base.size ≤ scopes.size
  others : ∀ id < base.size, inner ≠ id → scopes.get id = base.get id
  own : scopes.get inner = ⟨(base.get inner).enclosing, done.map known ++ todo⟩

namespace Stage

variable {base scopes : Scopes} {inner : ScopeId} {done : List (Value × Value)} {todo : Bindings}

theorem surroundedBy (h : Stage base inner done todo scopes) (henclosing : ∀ id ∈ (base.get inner).enclosing, id < inner)
    (hinner : inner < base.size) {name : String} (hname : base.SurroundedBy inner name) :
    scopes.SurroundedBy inner name := by
  have hsame : ∀ id ∈ (base.get inner).enclosing, scopes.get id = base.get id := fun id hid =>
    h.others id (Nat.lt_trans (henclosing id hid) hinner) (Nat.ne_of_gt (henclosing id hid))
  rw [Scopes.SurroundedBy, h.own, Scopes.findIn?_congr hsame]
  exact hname

/-- What changes no scope that there was changes nothing here. -/
theorem of_get (h : Stage base inner done todo scopes) (hinner : inner < base.size) {after : Scopes}
    (hsize : scopes.size ≤ after.size) (hget : ∀ id < scopes.size, after.get id = scopes.get id) :
    Stage base inner done todo after where
  size := Nat.le_trans h.size hsize
  others id hid hne := (hget id (Nat.lt_of_lt_of_le hid h.size)).trans (h.others id hid hne)
  own := (hget inner (Nat.lt_of_lt_of_le hinner h.size)).trans h.own

/-- The next binding gets another state. -/
theorem setState {entry : Entry} (h : Stage base inner done (entry :: todo) scopes) (state : EntryState) :
    Stage base inner done (⟨entry.name, state⟩ :: todo) (scopes.setState inner done.length state) where
  size := by rw [Scopes.size_setState]; exact h.size
  others id hid hne := (Scopes.get_setState_of_ne hne _ _).trans (h.others id hid hne)
  own := by
    rw [Scopes.get_setState, if_pos rfl, h.own, List.modify_eq_take_cons_drop (by simp)]
    simp [List.drop_append]

theorem known {field : Value × Value} (h : Stage base inner done (Value.known field :: todo) scopes) :
    Stage base inner (done ++ [field]) todo scopes where
  size := h.size
  others := h.others
  own := by simp [h.own]

/-- The next field is evaluated. -/
theorem step {field : Value × Value} {entry : Entry} (h : Stage base inner done (entry :: todo) m.scopes)
    (hentry : Waits field entry) (hinner : inner < base.size) (henclosing : ∀ id ∈ (base.get inner).enclosing, id < inner)
    (hm : m.context.interrupted = false) (hdepth : m.context.depth < m.context.limits.maxCallDepth)
    (hdone : ∀ other ∈ done, (field.1 == other.1) = false) (hself : (field.1 == field.1) = true)
    (hsees : ∀ name, field.2.globalName? = some name → base.SurroundedBy inner name ∧
      ∀ key ∈ (m.scopes.get inner).bindings.map Entry.name, (Value.string name == key) = false) :
    ∃ m', (Evaluation.lookupName (evalWithin Host.builtin (room + 3)) inner field.1).run.run m = (.ok field.2, m') ∧
      m.context.Balanced m'.context ∧ Stage base inner (done ++ [field]) todo m'.scopes := by
  obtain ⟨e, he, rfl⟩ := hentry
  have hfind : m.scopes.find? inner field.1 = some (inner, done.length, ⟨field.1, .unevaluated e⟩) := by
    have hbefore : ∀ other ∈ done.map Value.known, (field.1 == other.name) = false := List.forall_mem_map.2 hdone
    rw [Scopes.find?, Scopes.findIn?, h.own, Bindings.find?_append_cons hbefore hself]
    simp
  have hstarted := h.setState .inProgress
  have hgives : Gives ((m.updated inner done.length .inProgress).within Context.enterCall)
      (evalWithin Host.builtin (room + 3) e inner) field.2 := by
    refine he.gives hm fun name hname => ?_
    obtain ⟨haround, hnames⟩ := hsees name hname
    refine (hstarted.surroundedBy henclosing hinner haround).seesGlobal fun other hother => ?_
    rw [← Scopes.names_get_setState m.scopes inner inner done.length .inProgress] at hnames
    exact hnames _ (List.mem_map_of_mem hother)
  obtain ⟨after, hrun, hkeeps⟩ := hgives
  have hafter := (hstarted.of_get hinner hkeeps.size hkeeps.get).setState (.evaluated field.2)
  refine ⟨(after.updated inner done.length (.evaluated field.2)).within Context.leaveCall, ?_, ?_, hafter.known⟩
  · rw [Evaluation.run_lookupName, hfind]
    dsimp only
    rw [Evaluation.run_resolve_waiting]
    dsimp only
    rw [if_pos hdepth, hrun]
  · have hcontext := hkeeps.context
    exact ⟨hcontext.limits, hcontext.nesting, congrArg (· - 1) hcontext.depth, hcontext.interrupted⟩

theorem names_of_waits {fields : List (Value × Value)} {todo : Bindings} (h : List.Forall₂ Waits fields todo) :
    todo.map Entry.name = fields.map Prod.fst := by
  induction h with
  | nil => rfl
  | cons hentry _ ih =>
    obtain ⟨e, -, rfl⟩ := hentry
    rw [List.map_cons, List.map_cons, ih]

/-- The names in the scope are the keys of all fields. -/
theorem names (h : Stage base inner done todo scopes) {rest : List (Value × Value)} (hwaits : List.Forall₂ Waits rest todo) :
    (scopes.get inner).bindings.map Entry.name = (done ++ rest).map Prod.fst := by
  rw [h.own, List.map_append, List.map_append, names_of_waits hwaits, List.map_map]
  rfl

/-- All fields are evaluated, one after the other. -/
theorem finish {call : ScopeId} {rest : List (Value × Value)} (h : Stage base inner done todo m.scopes)
    (hwaits : List.Forall₂ Waits rest todo) (hinner : inner < base.size)
    (henclosing : ∀ id ∈ (base.get inner).enclosing, id < inner) (hcall : (base.get call).bindings = []) (hlt : call < inner)
    (hm : m.context.interrupted = false) (hdepth : m.context.depth < m.context.limits.maxCallDepth)
    (hkeys : Value.DistinctKeys (done ++ rest)) (hself : ∀ field ∈ rest, (field.1 == field.1) = true)
    (hsees : ∀ field ∈ rest, ∀ name, field.2.globalName? = some name → base.SurroundedBy inner name ∧
      ∀ key ∈ (done ++ rest).map Prod.fst, (Value.string name == key) = false) :
    ∃ m', (Evaluation.inlineArgs (evalWithin Host.builtin (room + 3)) call inner (rest.map Prod.fst) done).run.run m =
        (.ok (.ok (done ++ rest)), m') ∧ m.context.Balanced m'.context ∧ Stage base inner (done ++ rest) [] m'.scopes := by
  induction hwaits generalizing done m with
  | nil =>
    rw [List.append_nil]
    exact ⟨m, rfl, Context.Balanced.refl m.context, h⟩
  | @cons field entry rest todo hentry hwaits ih =>
    obtain ⟨hselfFirst, hselfRest⟩ := List.forall_mem_cons.1 hself
    obtain ⟨hseesFirst, hseesRest⟩ := List.forall_mem_cons.1 hsees
    have hdone : ∀ other ∈ done, (field.1 == other.1) = false := fun other hother =>
      ((List.pairwise_append.1 hkeys).2.2 other hother field List.mem_cons_self).2
    rw [← h.names (.cons hentry hwaits)] at hseesFirst
    obtain ⟨next, hrun, hnext, hstage⟩ := h.step hentry hinner henclosing hm hdepth hdone hselfFirst hseesFirst
    have happend : done ++ field :: rest = done ++ [field] ++ rest := by simp
    rw [happend] at hkeys hseesRest ⊢
    obtain ⟨m', hrest, hm', hfinal⟩ := ih hstage (hnext.interrupted.trans hm) (by rw [hnext.depth, hnext.limits]; exact hdepth)
      hkeys hselfRest hseesRest
    refine ⟨m', ?_, hnext.trans hm', hfinal⟩
    have hnew : Value.fieldOf? done field.1 = none := by
      rw [Value.fieldOf?, List.find?_eq_none.2 fun other hother => by simp [hdone other hother]]
      rfl
    have hnoclause : ((m.scopes.get call).bindings.contains field.1) = false := by
      rw [h.others call (Nat.lt_trans hlt hinner) (Nat.ne_of_gt hlt), hcall]
      rfl
    rw [List.map_cons, Evaluation.run_inlineArgs_cons hnew hnoclause hrun, Value.insertField_of_new hdone]
    exact hrest

end Stage

/-! ## Objects -/

theorem Scopes.surroundedBy_globals {scopes : Scopes} {inner call : ScopeId}
    (henclosing : (scopes.get inner).enclosing = [call, globalScope]) (hcall : (scopes.get call).bindings = [])
    (hglobals : (scopes.get globalScope).bindings = globals) (name : String) : scopes.SurroundedBy inner name := by
  have hnone : Bindings.find? [] (.string name) = none := rfl
  rw [SurroundedBy, henclosing, findIn?, hcall, hnone]
  simp only [findIn?, hglobals]
  cases globals.find? (.string name) <;> rfl

/-- The machine has the scope of the built-in names and may evaluate something. -/
structure Machine.Prepared (m : Machine) : Prop where
  size : globalScope < m.scopes.size
  globals : m.scopes.get globalScope = ⟨[], DynamicConfig.globals⟩
  uninterrupted : m.context.interrupted = false
  depth : m.context.depth < m.context.limits.maxCallDepth

theorem Machine.Prepared.of_keeps {m' : Machine} (h : m.Prepared) (hkeeps : m.Keeps m') : m'.Prepared where
  size := Nat.lt_of_lt_of_le h.size hkeeps.size
  globals := (hkeeps.get _ h.size).trans h.globals
  uninterrupted := hkeeps.context.interrupted.trans h.uninterrupted
  depth := by rw [hkeeps.context.depth, hkeeps.context.limits]; exact h.depth

theorem Machine.Prepared.seesGlobal (h : m.Prepared) (name : String) : m.scopes.SeesGlobal globalScope name := by
  rw [Scopes.SeesGlobal, Scopes.find?, h.globals]
  simp only [Scopes.findIn?, h.globals]
  cases DynamicConfig.globals.find? (.string name) <;> rfl

namespace Evaluation

variable {fields : List (Value × Value)} {args : List Expr} {call : ScopeId}

/-- The bindings of the fields of an object are evaluated to the fields, in a scope inside that of the call. -/
theorem gives_mergeArgs (h : List.Forall₂ FieldExpr fields args) (hfields : Value.IsRecord fields) (hm : m.Prepared)
    (hcall : m.scopes.get call = ⟨[globalScope], []⟩) (hlt : call < m.scopes.size) :
    ∃ id, Gives m (mergeArgs (evalWithin Host.builtin (room + 3)) args call) (.object id fields) := by
  obtain ⟨todo, hwaits, hnamed⟩ : ∃ todo, List.Forall₂ Waits fields todo ∧
      namedArgs (evalWithin Host.builtin (room + 3)) call args [] [] = pure (.ok ([], todo)) :=
    namedArgs_fieldExprs h hfields.distinct fun _ _ => rfl
  have hinner := m.get_extended_new call todo
  rw [hcall] at hinner
  have hcallScope := (m.get_extended call call todo hlt).trans hcall
  have hglobals := (m.get_extended call globalScope todo hm.size).trans hm.globals
  have hstage : Stage (m.extended call todo).scopes m.scopes.size [] todo (m.extended call todo).scopes :=
    ⟨Nat.le_refl _, fun _ _ _ => rfl, by rw [hinner]; rfl⟩
  have hself : ∀ field ∈ fields, (field.1 == field.1) = true := by
    intro field hfield
    obtain ⟨name, hname, -⟩ := (hfields.keys field hfield).exists_name
    rw [hname]
    exact Value.beq_iff_equal.2 (.string name)
  have hsees : ∀ field ∈ fields, ∀ name, field.2.globalName? = some name →
      (m.extended call todo).scopes.SurroundedBy m.scopes.size name ∧
        ∀ key ∈ ([] ++ fields).map Prod.fst, (Value.string name == key) = false := by
    refine fun field hfield name hname =>
      ⟨Scopes.surroundedBy_globals (by rw [hinner]) (by rw [hcallScope]) (by rw [hglobals]) name, ?_⟩
    exact List.forall_mem_map.2 (hfields.visible field hfield name hname)
  have hsize := m.size_extended call todo
  have henclosing : ∀ id ∈ ((m.extended call todo).scopes.get m.scopes.size).enclosing, id < m.scopes.size := by
    rw [hinner]
    exact List.forall_mem_cons.2 ⟨hlt, List.forall_mem_singleton.2 hm.size⟩
  obtain ⟨after, hrun, hcontext, hdone⟩ := hstage.finish hwaits (hsize ▸ Nat.lt_succ_self _) henclosing
    (by rw [hcallScope]) hlt hm.uninterrupted hm.depth hfields.distinct hself hsees
  refine ⟨after.nextId, after.named, ?_, hcontext, ?_, fun id hid => ?_⟩
  · rw [← Stage.names_of_waits hwaits] at hrun
    rw [mergeArgs, hnamed, pure_bind, Eval.run_newScope_bind, Eval.run_bind_of_ok hrun]
    rfl
  · have hle := hdone.size
    show m.scopes.size ≤ after.scopes.size
    omega
  · exact (hdone.others id (by omega) (Nat.ne_of_gt hid)).trans (m.get_extended call id todo hid)

theorem evalArgs_fieldExprs {run : Evaluator} (h : List.Forall₂ FieldExpr fields args) :
    evalArgs run args scope = mergeArgs run args scope := by
  cases h with
  | nil => rfl
  | cons hfield hrest =>
    obtain ⟨assign, target, name, e, -, -, rfl⟩ := hfield
    cases hrest <;> rfl

/-- The code of an object is evaluated to an object with its fields. -/
theorem gives_object (h : List.Forall₂ FieldExpr fields args) (hfields : Value.IsRecord fields) (hm : m.Prepared)
    (first : Location) : ∃ object, (∃ id, object = Value.object id fields) ∧
      Gives m (evalCall Host.builtin (evalWithin Host.builtin (room + 3)) (.nameLeaf first "object") args globalScope)
        object := by
  have hsees : m.scopes.SeesGlobal globalScope "object" := hm.seesGlobal "object"
  have hfunction : Host.builtin.function? "object" = some fun args => pure (Host.makeObject args) := rfl
  have hwhere : ∀ arg ∈ args, arg.whereArgs? = none := by
    intro arg harg
    obtain ⟨field, -, assign, target, name, e, -, -, rfl⟩ := mem_of_forall₂ h arg harg
    exact whereArgs?_eq_none (by simp) _
  refine gives_evalCall (gives_global hm.uninterrupted hsees rfl) hm.uninterrupted hwhere hfunction fun m' hm' => ?_
  have hprepared := hm.of_keeps hm'
  have hcall : (m'.extended globalScope []).scopes.get m'.scopes.size = ⟨[globalScope], []⟩ := by
    rw [m'.get_extended_new, hprepared.globals]
  have hlt : m'.scopes.size < (m'.extended globalScope []).scopes.size :=
    m'.size_extended globalScope [] ▸ Nat.lt_succ_self _
  obtain ⟨id, hmerge⟩ := gives_mergeArgs h hfields (hprepared.of_keeps (m'.keeps_extended globalScope [])) hcall hlt
  rw [← evalArgs_fieldExprs h] at hmerge
  exact ⟨_, hmerge, rfl, _, ⟨id, rfl⟩, fun m'' => Eval.gives_pure m'' _⟩

end Evaluation

namespace Value

/-- A scalar equals itself. -/
theorem IsScalar.beq_self {v : Value} (h : v.IsScalar) : (v == v) = true := by
  cases v with
  | number x => exact (nanFree_number h.1).beq_self
  | bool | string | error => exact beq_iff_equal.2 (by constructor)
  | _ => exact h.elim

/-- The fields of a record count, not its identity. -/
theorem IsRecord.beq_object {fields : List (Value × Value)} (h : IsRecord fields) (id id' : Nat) :
    (object id fields == object id' fields) = true := by
  have hsame : SameFields fields fields :=
    List.forall₂_same.2 fun field hfield => ⟨rfl, (h.scalars field hfield).beq_self⟩
  refine hsame.beq h.distinct (fun field hfield => ?_) id id'
  obtain ⟨name, hname, -⟩ := (h.keys field hfield).exists_name
  rw [hname]
  exact beq_iff_equal.2 (.string name)

/-- What the code of a value is read as is evaluated to an equal value. -/
theorem CodeExpr.gives {v : Value} {e : Expr} (h : CodeExpr v e) (hv : v.IsWritable) (hm : m.Prepared) :
    ∃ w, (w == v) = true ∧ Gives m (evalWithin Host.builtin (room + 4) e globalScope) w := by
  cases h with
  | scalar h =>
    have hscalar : v.IsScalar := by cases h <;> exact hv
    exact ⟨v, hscalar.beq_self, h.gives hm.uninterrupted fun name _ => hm.seesGlobal name⟩
  | object id call first h =>
    have hentered : m.entered.Prepared := ⟨hm.size, hm.globals, hm.uninterrupted, hm.depth⟩
    obtain ⟨_, ⟨id', rfl⟩, hcall⟩ := Evaluation.gives_object h hv hentered first
    exact ⟨_, hv.beq_object id' id, gives_evalWithin hm.uninterrupted hcall⟩

end Value

end DynamicConfig

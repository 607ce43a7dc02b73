import DynamicConfig.Evaluation
import DynamicConfig.Host.Builtin
/-!
# Evaluation that changes no scope

Work that evaluates no binding and makes no scope leaves every scope as it is. `Eval.Yields` says so, and what
such work ends with; names that are bound to values, literals and operators on them are of this kind.
-/

namespace DynamicConfig

variable {α β : Type} {scopes : Scopes}

/-- A machine with the given scopes that has not been asked to stop. -/
def Machine.Undisturbed (scopes : Scopes) (m : Machine) : Prop :=
  m.scopes = scopes ∧ m.context.interrupted = false

namespace Eval

variable {work : Eval α} {next : α → Eval β} {a : α} {b : β}

/-- On every undisturbed machine with the given scopes the work ends with an outcome, and leaves the
machine undisturbed. -/
def Yields (scopes : Scopes) (work : Eval α) (a : α) : Prop :=
  ∀ m : Machine, m.Undisturbed scopes → ∃ m', work.run.run m = (.ok a, m') ∧ m'.Undisturbed scopes

theorem yields_pure (a : α) : Yields scopes (pure a : Eval α) a :=
  fun m hm => ⟨m, rfl, hm⟩

theorem Yields.bind (h : Yields scopes work a) (hnext : Yields scopes (next a) b) :
    Yields scopes (work >>= next) b := by
  intro m hm
  obtain ⟨between, hrun, hbetween⟩ := h m hm
  obtain ⟨m', hrest, hm'⟩ := hnext between hbetween
  exact ⟨m', (Eval.run_bind_of_ok hrun).trans hrest, hm'⟩

/-- Work that first reads the machine. -/
theorem yields_get {next : Machine → Eval α} (h : ∀ m : Machine, m.Undisturbed scopes → Yields scopes (next m) a) :
    Yields scopes (get >>= next) a :=
  fun m hm => h m hm m hm

theorem yields_checkInterrupt : Yields scopes Host.builtin.checkInterrupt () := by
  intro m hm
  rw [Host.run_checkInterrupt, Host.stops_builtin, hm.2]
  exact ⟨_, rfl, hm⟩

theorem Yields.inNode {work : Eval Value} {v : Value} (h : Yields scopes work v) : Yields scopes (inNode work) v := by
  intro m hm
  obtain ⟨m', hrun, hm'⟩ := h { m with context := m.context.enterNode } hm
  have hnode : (Eval.inNode work).run.run m =
      let (outcome, m') := work.run.run { m with context := m.context.enterNode }
      (outcome, { m' with context := m'.context.leaveNode }) := rfl
  rw [hrun] at hnode
  exact ⟨_, hnode, hm'⟩

end Eval

variable {scope : ScopeId} {room : Nat} {location : Location}

theorem yields_evalWithin {e : Expr} {v : Value}
    (h : Eval.Yields scopes (Evaluation.step Host.builtin (evalWithin Host.builtin room) e scope) v) :
    Eval.Yields scopes (evalWithin Host.builtin (room + 1) e scope) v :=
  Eval.yields_checkInterrupt.bind h.inNode

theorem yields_string (text : String) :
    Eval.Yields scopes (evalWithin Host.builtin (room + 1) (.stringLeaf location text) scope) (.string text) :=
  yields_evalWithin (Eval.yields_pure _)

theorem yields_number (x : Float) :
    Eval.Yields scopes (evalWithin Host.builtin (room + 1) (.numberLeaf location x) scope) (.number x) :=
  yields_evalWithin (Eval.yields_pure _)

theorem yields_name {name : String} {holder : ScopeId} {place : Nat} {key v : Value}
    (h : scopes.find? scope (.string name) = some (holder, place, ⟨key, .evaluated v⟩)) :
    Eval.Yields scopes (evalWithin Host.builtin (room + 1) (.nameLeaf location name) scope) v := by
  refine yields_evalWithin (Eval.yields_get fun m hm => ?_)
  rw [hm.1, h]
  exact Eval.yields_pure v

theorem yields_binary {op : Op} (hop : op.isStrictBinary = true) {left right : Expr} {a b : Value}
    (hl : Eval.Yields scopes (evalWithin Host.builtin room left scope) a) (ha : a.isError = false)
    (hr : Eval.Yields scopes (evalWithin Host.builtin room right scope) b) (hb : b.isError = false) :
    Eval.Yields scopes (evalWithin Host.builtin (room + 1) (.node op location [left, right]) scope)
      (op.onValues a b) := by
  have hbinary : Eval.Yields scopes (Evaluation.evalBinary (evalWithin Host.builtin room) op left right scope)
      (op.onValues a b) := by
    refine hl.bind ?_
    rw [ha]
    refine hr.bind ?_
    rw [hb]
    exact Eval.yields_pure _
  -- The rule matches on the operator before it asks whether that is a strict one.
  apply yields_evalWithin
  cases op <;> first | exact hbinary | cases hop

/-- A field of an object. -/
theorem yields_field {left key : Expr} {id : Nat} {fields : List (Value × Value)} {k part : Value}
    (hl : Eval.Yields scopes (evalWithin Host.builtin room left scope) (.object id fields))
    (hk : Eval.Yields scopes (evalWithin Host.builtin room key scope) k) (hkey : k.isError = false)
    (hpart : Value.fieldOf? fields k = some part) :
    Eval.Yields scopes (evalWithin Host.builtin (room + 1) (.node .field location [left, key]) scope) part := by
  have hfield : Eval.Yields scopes (Evaluation.evalField (evalWithin Host.builtin room) left key scope) part := by
    refine hl.bind (hk.bind ?_)
    rw [hkey]
    show Eval.Yields scopes (pure ((Value.fieldOf? fields k).getD _)) part
    rw [hpart]
    exact Eval.yields_pure part
  exact yields_evalWithin hfield

end DynamicConfig

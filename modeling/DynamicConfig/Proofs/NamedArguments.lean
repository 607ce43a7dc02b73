import DynamicConfig.Proofs.Budgets
import DynamicConfig.Proofs.Growth
import DynamicConfig.Proofs.Keys
import DynamicConfig.Proofs.Safety
import DynamicConfig.Proofs.WhereClauses
/-!
# Arguments by name

A call with several arguments hands its callee one object. Its keys are the bare names among the arguments and then the
names that the bindings among them bind, where each name stands for one thing only: `WellNamed` says which names may
occur beside which. Where a name would be lost or overwritten, the call comes to an error value and the callee is not
called (`named_arguments_are_kept`).
-/

namespace DynamicConfig

open DynamicConfig.Expr (boundNames bound boundBy whereItems otherArgs)

/-! ## Names among arguments -/

namespace Expr

/-- The bare names among arguments, in order. -/
def bareNames (args : List Expr) : List String :=
  args.filterMap asName?

/-- The bindings among arguments. -/
def inlineItems (args : List Expr) : List Expr :=
  args.filter isAssign

/-- An argument that has a name, or more than one. -/
def IsNamed (arg : Expr) : Prop :=
  arg.asName?.isSome = true ∨ arg.isAssign = true

section Cons

variable {arg : Expr} {name : String} (rest : List Expr)

theorem not_isAssign_of_asName? (h : arg.asName? = some name) : arg.isAssign = false := by
  unfold asName? at h
  split at h
  · rfl
  · cases h

theorem bareNames_cons_of_asName? (h : arg.asName? = some name) : bareNames (arg :: rest) = name :: bareNames rest := by
  simp [bareNames, h]

theorem bareNames_cons_of_none (h : arg.asName? = none) : bareNames (arg :: rest) = bareNames rest := by
  simp [bareNames, h]

theorem inlineItems_cons_of_asName? (h : arg.asName? = some name) : inlineItems (arg :: rest) = inlineItems rest := by
  simp [inlineItems, not_isAssign_of_asName? h]

theorem inlineItems_cons_of_isAssign (h : arg.isAssign = true) : inlineItems (arg :: rest) = arg :: inlineItems rest := by
  simp [inlineItems, h]

end Cons

end Expr

open DynamicConfig.Expr (bareNames inlineItems)

namespace Value

/-- The fields have these texts as keys, in this order. -/
def KeyedBy (fields : List (Value × Value)) (names : List String) : Prop :=
  fields.map Prod.fst = names.map string

variable {fields : List (Value × Value)} {names : List String}

theorem KeyedBy.isSome_fieldOf?_iff (h : KeyedBy fields names) (name : String) :
    (fieldOf? fields (.string name)).isSome = true ↔ name ∈ names := by
  have hkeys : (fieldOf? fields (.string name)).isSome = (fields.map Prod.fst).any (Value.string name == ·) := by
    rw [fieldOf?, Option.isSome_map, List.isSome_find?, List.any_map]
    rfl
  rw [hkeys, h]
  exact any_string_beq_iff name names

theorem KeyedBy.insertField (h : KeyedBy fields names) {name : String} (hnew : name ∉ names) (value : Value) :
    Value.insertField (.string name) value fields = fields ++ [(.string name, value)] := by
  refine insertField_of_new fun field hfield => ?_
  rw [Bool.eq_false_iff]
  intro hsame
  have hfound : (fieldOf? fields (.string name)).isSome = true := by
    rw [fieldOf?, Option.isSome_map, List.isSome_find?, List.any_eq_true]
    exact ⟨field, hfield, hsame⟩
  exact hnew ((h.isSome_fieldOf?_iff name).1 hfound)

theorem KeyedBy.concat (h : KeyedBy fields names) (name : String) (value : Value) :
    KeyedBy (fields ++ [(.string name, value)]) (names ++ [name]) := by
  unfold KeyedBy at h ⊢
  rw [List.map_append, List.map_append, h]
  rfl

/-- Names with their values, as fields. -/
def namedFields (names : List String) (values : List Value) : List (Value × Value) :=
  (names.map string).zip values

theorem keyedBy_namedFields {values : List Value} (h : names.length = values.length) :
    KeyedBy (namedFields names values) names := by
  unfold KeyedBy namedFields
  exact List.map_fst_zip (by simp [h])

end Value

namespace Evaluation

/-! ## Lookups one after the other -/

/-- Names are looked up in a scope one after the other, and have these values. -/
inductive LooksUpAll (run : Evaluator) (scope : ScopeId) : List String → List Value → Machine → Machine → Prop
  | nil (m : Machine) : LooksUpAll run scope [] [] m m
  | cons {name : String} {value : Value} {names : List String} {values : List Value} {m between after : Machine}
    (hfirst : (lookupName run scope (.string name)).run.run m = (.ok value, between))
    (hrest : LooksUpAll run scope names values between after) :
    LooksUpAll run scope (name :: names) (value :: values) m after

/-! ## Work that keeps a rule -/

variable {α β : Type} {refusal : String → α} {legal legal' : Prop} {result result' : α → Machine → Prop}

/-- Work fails, or it gives a reason because something is against a rule, or everything keeps the rule and it comes to a
result. -/
inductive Decides (refusal : String → α) (m : Machine) (work : Eval α) (legal : Prop) (result : α → Machine → Prop) : Prop
  | fails {failure : FatalError} {after : Machine} (hrun : work.run.run m = (.error failure, after))
  | refuses {reason : String} {after : Machine} (hnot : ¬ legal) (hrun : work.run.run m = (.ok (refusal reason), after))
  | accepts {a : α} {after : Machine} (hlegal : legal) (hresult : result a after) (hrun : work.run.run m = (.ok a, after))

/-- What comes first is over. -/
theorem Decides.of_run {m m' : Machine} {work work' : Eval α} (h : Decides refusal m' work' legal' result')
    (hrun : work.run.run m = work'.run.run m') (hlegal : legal ↔ legal')
    (hresult : ∀ a after, result' a after → result a after) : Decides refusal m work legal result := by
  cases h with
  | fails h => exact .fails (hrun.trans h)
  | refuses hnot h => exact .refuses (fun hyes => hnot (hlegal.1 hyes)) (hrun.trans h)
  | accepts hyes ha h => exact .accepts (hlegal.2 hyes) (hresult _ _ ha) (hrun.trans h)

variable {run : Evaluator} {scope inner : ScopeId} {args : List Expr} {fields : List (Value × Value)} {inline : Bindings}
  {keys names clauses : List String} {m : Machine}

/-! ## Names and bindings are collected -/

/-- Every argument has a name, and no name is taken twice: as a field or as a binding. -/
structure Collects (args : List Expr) (keys names : List String) : Prop where
  named : ∀ arg ∈ args, arg.IsNamed
  keys : (keys ++ bareNames args).Nodup
  names : (names ++ boundNames (inlineItems args)).Nodup

theorem collects_cons_name {arg : Expr} {rest : List Expr} {name : String} (h : arg.asName? = some name) :
    Collects (arg :: rest) keys names ↔ Collects rest (keys ++ [name]) names := by
  have hnamed : arg.IsNamed := .inl (by rw [h]; rfl)
  have hkeys : keys ++ name :: bareNames rest = keys ++ [name] ++ bareNames rest := by simp
  constructor
  · rintro ⟨hall, hfields, hnames⟩
    rw [Expr.bareNames_cons_of_asName? rest h, hkeys] at hfields
    rw [Expr.inlineItems_cons_of_asName? rest h] at hnames
    exact ⟨(List.forall_mem_cons.1 hall).2, hfields, hnames⟩
  · rintro ⟨hall, hfields, hnames⟩
    refine ⟨List.forall_mem_cons.2 ⟨hnamed, hall⟩, ?_, ?_⟩
    · rwa [Expr.bareNames_cons_of_asName? rest h, hkeys]
    · rwa [Expr.inlineItems_cons_of_asName? rest h]

theorem collects_cons_assign {arg : Expr} {rest : List Expr} (hname : arg.asName? = none) (h : arg.isAssign = true) :
    Collects (arg :: rest) keys names ↔ Collects rest keys (names ++ arg.bindingChain.1) := by
  have hbound : names ++ boundNames (arg :: inlineItems rest) =
      names ++ arg.bindingChain.1 ++ boundNames (inlineItems rest) := by simp [boundNames]
  constructor
  · rintro ⟨hall, hfields, hnames⟩
    rw [Expr.bareNames_cons_of_none rest hname] at hfields
    rw [Expr.inlineItems_cons_of_isAssign rest h, hbound] at hnames
    exact ⟨(List.forall_mem_cons.1 hall).2, hfields, hnames⟩
  · rintro ⟨hall, hfields, hnames⟩
    refine ⟨List.forall_mem_cons.2 ⟨.inr h, hall⟩, ?_, ?_⟩
    · rwa [Expr.bareNames_cons_of_none rest hname]
    · rwa [Expr.inlineItems_cons_of_isAssign rest h, hbound]

/-- By induction on the arguments. What has been collected so far has the keys and names that are taken. -/
theorem decides_namedArgs (hargs : ∀ arg ∈ args, arg.Canonical .item) (hfields : Value.KeyedBy fields keys)
    (hinline : inline.Binds names) (hkeys : keys.Nodup) (hnames : names.Nodup) :
    Decides Except.error m (namedArgs run scope args fields inline) (Collects args keys names) fun collected after =>
      ∃ values, LooksUpAll run scope (bareNames args) values m after ∧ collected =
        .ok (fields ++ Value.namedFields (bareNames args) values, inline ++ boundBy (inlineItems args)) := by
  induction args generalizing fields keys inline names m with
  | nil =>
    refine .accepts ⟨by simp, by simpa [bareNames] using hkeys, by simpa [inlineItems, boundNames] using hnames⟩
      ⟨[], .nil m, ?_⟩ rfl
    simp [bareNames, inlineItems, boundBy, Value.namedFields]
  | cons arg rest ih =>
    obtain ⟨harg, hrest⟩ := List.forall_mem_cons.1 hargs
    unfold namedArgs
    cases hname : arg.asName? with
    | some name =>
      have htaken := hfields.isSome_fieldOf?_iff name
      by_cases hnew : name ∈ keys
      · dsimp only
        rw [if_pos (htaken.2 hnew)]
        refine .refuses (fun hall => ?_) rfl
        have hfirst := ((collects_cons_name hname).1 hall).keys.of_append_left
        exact (List.nodup_append'.1 hfirst).2.2 hnew List.mem_cons_self
      · dsimp only
        rw [if_neg fun hthere => hnew (htaken.1 hthere)]
        have hfirst : (keys ++ [name]).Nodup := List.concat_eq_append ▸ hkeys.concat hnew
        rcases hlookup : (lookupName run scope (.string name)).run.run m with ⟨outcome, between⟩
        cases outcome with
        | error failure => exact .fails (Eval.run_bind_of_error hlookup)
        | ok value =>
          refine (ih hrest (hfields.concat name value) hinline hfirst hnames).of_run
            ((Eval.run_bind_of_ok hlookup).trans (by rw [hfields.insertField hnew value])) (collects_cons_name hname) ?_
          rintro _ after ⟨values, hvalues, rfl⟩
          refine ⟨value :: values, ?_, ?_⟩
          · rw [Expr.bareNames_cons_of_asName? rest hname]
            exact .cons hlookup hvalues
          · rw [Expr.bareNames_cons_of_asName? rest hname, Expr.inlineItems_cons_of_asName? rest hname, List.append_assoc]
            rfl
    | none =>
      dsimp only
      by_cases hassign : arg.isAssign = true
      · rw [if_pos hassign]
        have hchain (between : Bindings) : inline.bindChain arg = .ok between ↔ arg.IsBinding ∧
            (names ++ arg.bindingChain.1).Nodup ∧ between = inline ++ arg.bound :=
          hinline.bindChain_eq_ok_iff hnames arg
        cases hbind : inline.bindChain arg with
        | error reason =>
          refine .refuses (fun hall => ?_) rfl
          have hnext := ((collects_cons_assign hname hassign).1 hall).names.of_append_left
          have hok := (hchain (inline ++ arg.bound)).2 ⟨harg.isBinding_iff.2 hassign, hnext, rfl⟩
          rw [hbind] at hok
          cases hok
        | ok between =>
          obtain ⟨-, hnext, rfl⟩ := (hchain between).1 hbind
          refine (ih hrest hfields (hinline.append (Bindings.binds_bound arg)) hkeys hnext).of_run rfl
            (collects_cons_assign hname hassign) ?_
          rintro _ after ⟨values, hvalues, rfl⟩
          refine ⟨values, ?_, ?_⟩
          · rwa [Expr.bareNames_cons_of_none rest hname]
          · rw [Expr.bareNames_cons_of_none rest hname, Expr.inlineItems_cons_of_isAssign rest hassign]
            simp [boundBy]
      · rw [if_neg hassign]
        refine .refuses (fun hall => ?_) rfl
        rcases hall.named arg List.mem_cons_self with hsome | hyes
        · rw [hname] at hsome
          cases hsome
        · exact hassign hyes

/-! ## Bindings get their values -/

/-- The names that a scope binds stay what they are. -/
theorem binds_lookupName {room : Nat} (hrun : run.Meets growthContract room) (hscope : scope < m.scopes.size)
    (hclauses : (m.scopes.get scope).bindings.Binds clauses) {s : ScopeId} {name value : Value} {between : Machine}
    (hlookup : (lookupName run s name).run.run m = (.ok value, between)) :
    scope < between.scopes.size ∧ (between.scopes.get scope).bindings.Binds clauses := by
  have hgrows : m.Grows between := by
    have hleads := (meets_lookupName hrun s name m trivial).1
    rwa [hlookup] at hleads
  refine ⟨Nat.lt_of_lt_of_le hscope hgrows.scopes.size, ?_⟩
  unfold Bindings.Binds at hclauses ⊢
  rw [hgrows.scopes.settles.names scope hscope, hclauses]

/-- By induction on the names that are still to be looked up. None of them may be a key or a name of a where clause. -/
theorem decides_inlineArgs {room : Nat} (hrun : run.Meets growthContract room) (hscope : scope < m.scopes.size)
    (hclauses : (m.scopes.get scope).bindings.Binds clauses) (hfields : Value.KeyedBy fields keys) (hkeys : keys.Nodup) :
    Decides Except.error m (inlineArgs run scope inner (names.map Value.string) fields)
      ((keys ++ names).Nodup ∧ names.Disjoint clauses) fun collected after =>
        ∃ values, LooksUpAll run inner names values m after ∧ collected = .ok (fields ++ Value.namedFields names values) := by
  induction names generalizing fields keys m with
  | nil =>
    refine .accepts ⟨by simpa using hkeys, List.disjoint_nil_left clauses⟩ ⟨[], .nil m, ?_⟩ rfl
    simp [Value.namedFields]
  | cons name rest ih =>
    have htaken := hfields.isSome_fieldOf?_iff name
    have hclause := hclauses.contains_iff name
    have hrule : (inlineArgs run scope inner ((name :: rest).map Value.string) fields).run.run m =
        ((if (Value.fieldOf? fields (.string name)).isSome || (m.scopes.get scope).bindings.contains (.string name) then
            pure (Except.error (duplicateName (Value.string name).displayName))
          else lookupName run inner (.string name) >>= fun value =>
            inlineArgs run scope inner (rest.map Value.string)
              (Value.insertField (.string name) value fields)) : Eval _).run.run m := rfl
    by_cases hnew : name ∉ keys ∧ name ∉ clauses
    · have hfree : ((Value.fieldOf? fields (.string name)).isSome ||
          (m.scopes.get scope).bindings.contains (.string name)) = false := by
        rw [Bool.or_eq_false_iff, ← Bool.not_eq_true, ← Bool.not_eq_true, htaken, hclause]
        exact hnew
      have hfirst : (keys ++ [name]).Nodup := List.concat_eq_append ▸ hkeys.concat hnew.1
      have hsplit : keys ++ name :: rest = keys ++ [name] ++ rest := by simp
      rw [hfree, if_neg (by simp)] at hrule
      rcases hlookup : (lookupName run inner (.string name)).run.run m with ⟨outcome, between⟩
      cases outcome with
      | error failure => exact .fails (hrule.trans (Eval.run_bind_of_error hlookup))
      | ok value =>
        obtain ⟨hscope', hclauses'⟩ := binds_lookupName hrun hscope hclauses hlookup
        rw [Eval.run_bind_of_ok hlookup, hfields.insertField hnew.1 value] at hrule
        refine (ih hscope' hclauses' (hfields.concat name value) hfirst).of_run hrule ?_ ?_
        · rw [hsplit, List.disjoint_cons_left]
          exact and_congr_right fun _ => ⟨And.right, fun hrest => ⟨hnew.2, hrest⟩⟩
        · rintro _ after ⟨values, hvalues, rfl⟩
          exact ⟨value :: values, .cons hlookup hvalues, by rw [List.append_assoc]; rfl⟩
    · have hthere : ((Value.fieldOf? fields (.string name)).isSome ||
          (m.scopes.get scope).bindings.contains (.string name)) = true := by
        rw [Bool.or_eq_true, htaken, hclause]
        by_cases hkey : name ∈ keys
        · exact .inl hkey
        · exact .inr (Classical.not_not.1 fun hcontra => hnew ⟨hkey, hcontra⟩)
      rw [hthere, if_pos rfl] at hrule
      refine .refuses (fun hall => hnew ⟨fun hkey => ?_, fun hcontra => ?_⟩) hrule
      · exact (List.nodup_append'.1 hall.1).2.2 hkey List.mem_cons_self
      · exact hall.2 List.mem_cons_self hcontra

/-! ## One object of all arguments -/

/-- Each argument has a name, no key would be given twice, and no binding has the name of a where clause. -/
structure WellNamed (args : List Expr) (clauses : List String) : Prop where
  named : ∀ arg ∈ args, arg.IsNamed
  keys : (bareNames args ++ boundNames (inlineItems args)).Nodup
  apart : (boundNames (inlineItems args)).Disjoint clauses

/-- The object of the arguments: the bare names are looked up in the scope of the call, and then the names of the bindings
in a scope of the bindings inside that one. -/
inductive Packs (run : Evaluator) (scope : ScopeId) (args : List Expr) (m : Machine) : Value → Machine → Prop
  | object {bare bound : List Value} {between after : Machine} (hbare : LooksUpAll run scope (bareNames args) bare m between)
    (hbound : LooksUpAll run between.scopes.size (boundNames (inlineItems args)) bound
      (between.extended scope (boundBy (inlineItems args))) after) :
    Packs run scope args m
      (.object after.nextId (Value.namedFields (bareNames args) bare ++
        Value.namedFields (boundNames (inlineItems args)) bound)) after.named

theorem LooksUpAll.binds {room : Nat} (hrun : run.Meets growthContract room) {s : ScopeId} {values : List Value}
    {after : Machine} (h : LooksUpAll run s names values m after) (hscope : scope < m.scopes.size)
    (hclauses : (m.scopes.get scope).bindings.Binds clauses) :
    scope < after.scopes.size ∧ (after.scopes.get scope).bindings.Binds clauses := by
  induction h with
  | nil => exact ⟨hscope, hclauses⟩
  | cons hfirst _ ih =>
    obtain ⟨hscope, hclauses⟩ := binds_lookupName hrun hscope hclauses hfirst
    exact ih hscope hclauses

theorem LooksUpAll.length_eq {s : ScopeId} {values : List Value} {after : Machine}
    (h : LooksUpAll run s names values m after) : names.length = values.length := by
  induction h with
  | nil => rfl
  | cons _ _ ih => exact congrArg (· + 1) ih

theorem Packs.exists_fields {v : Value} {after : Machine} (h : Packs run scope args m v after) :
    ∃ id fields, v = .object id fields ∧ Value.KeyedBy fields (bareNames args ++ boundNames (inlineItems args)) := by
  cases h with
  | object hbare hbound =>
    refine ⟨_, _, rfl, ?_⟩
    unfold Value.KeyedBy
    rw [List.map_append, List.map_append, Value.keyedBy_namedFields hbare.length_eq,
      Value.keyedBy_namedFields hbound.length_eq]

theorem decides_mergeArgs {room : Nat} (hrun : run.Meets growthContract room)
    (hargs : ∀ arg ∈ args, arg.Canonical .item) (hscope : scope < m.scopes.size)
    (hclauses : (m.scopes.get scope).bindings.Binds clauses) :
    Decides Value.error m (mergeArgs run args scope) (WellNamed args clauses) (Packs run scope args m) := by
  have hcollects : Decides Except.error m (namedArgs run scope args [] []) (Collects args [] []) _ :=
    decides_namedArgs hargs rfl Bindings.binds_nil List.nodup_nil List.nodup_nil
  unfold mergeArgs
  cases hcollects with
  | fails h => exact .fails (Eval.run_bind_of_error h)
  | refuses hnot h =>
    refine .refuses (fun hall => hnot ?_) (Eval.run_bind_of_ok h)
    exact ⟨hall.named, hall.keys.of_append_left, hall.keys.of_append_right⟩
  | @accepts _ between hcollected hresult h =>
    obtain ⟨bare, hbare, rfl⟩ := hresult
    obtain ⟨hlt, hbinds⟩ := hbare.binds hrun hscope hclauses
    have hsize := between.size_extended scope (boundBy (inlineItems args))
    have hclauses' : ((between.extended scope (boundBy (inlineItems args))).scopes.get scope).bindings.Binds clauses := by
      rwa [between.get_extended scope scope _ hlt]
    have hinner : Decides Except.error _ (inlineArgs run scope between.scopes.size
        ((boundNames (inlineItems args)).map Value.string) (Value.namedFields (bareNames args) bare)) _ _ :=
      decides_inlineArgs hrun (hsize ▸ Nat.lt_succ_of_lt hlt) hclauses' (Value.keyedBy_namedFields hbare.length_eq)
        hcollected.keys
    have hnames : (boundBy (inlineItems args)).map Entry.name = (boundNames (inlineItems args)).map Value.string :=
      Bindings.binds_boundBy (inlineItems args)
    rw [← hnames] at hinner
    refine Decides.of_run ?_ ((Eval.run_bind_of_ok h).trans (Eval.run_newScope_bind ..)) Iff.rfl fun _ _ => id
    cases hinner with
    | fails hrest => exact .fails (Eval.run_bind_of_error hrest)
    | refuses hnot hrest => exact .refuses (fun hall => hnot ⟨hall.keys, hall.apart⟩) (Eval.run_bind_of_ok hrest)
    | accepts hlegal hresult hrest =>
      obtain ⟨bound, hbound, rfl⟩ := hresult
      exact .accepts ⟨hcollected.named, hlegal.1, hlegal.2⟩ (.object hbare hbound) (Eval.run_bind_of_ok hrest)

theorem evalArgs_eq_mergeArgs (h : ∀ single, args = [single] → single.isAssign = true) :
    evalArgs run args scope = mergeArgs run args scope := by
  unfold evalArgs
  split
  · rename_i single
    rw [if_pos (h single rfl)]
  · rfl

/-! ## Calls -/

/-- Where clauses have bindings only, with distinct names, and the other arguments are well named beside them. -/
structure WellNamedCall (args : List Expr) : Prop where
  clauses : ∀ item ∈ whereItems args, item.isAssign = true
  distinct : (boundNames (whereItems args)).Nodup
  others : WellNamed (otherArgs args) (boundNames (whereItems args))

/-- The value of all arguments of a call, in a scope of its where clauses. -/
def packArgs (run : Evaluator) (args : List Expr) (scope : ScopeId) : Eval Value := do
  match Bindings.takeWhere [] args with
  | .error reason => return .error reason
  | .ok (others, bindings) =>
    let callScope ← Eval.newScope scope bindings
    evalArgs run others callScope

/-- What is left of a call once the callee is known, where it is open what is done with the value of the arguments. -/
def callPassing (run : Evaluator) (apply : Value → Eval Value) (args : List Expr) (scope : ScopeId) : Eval Value := do
  let arg ← packArgs run args scope
  if arg.isError then return arg
  apply arg

/-- Anything but an error or a lazy function is called with the value of the arguments. -/
theorem run_evalCall_of_strict {host : Host} {callee : Expr} {function : Value} {m₁ : Machine}
    (hcallee : (run callee scope).run.run m = (.ok function, m₁)) (hfunction : function.isError = false)
    (hstrict : ∀ code, function ≠ .lazyFunction code) :
    (evalCall host run callee args scope).run.run m =
      (callPassing run (fun arg => callValue host run function [arg]) args scope).run.run m₁ := by
  unfold evalCall callPassing packArgs
  rw [Eval.run_bind_of_ok hcallee, hfunction, if_neg (by simp)]
  cases Bindings.takeWhere [] args with
  | error reason => rfl
  | ok taken =>
    obtain ⟨others, bindings⟩ := taken
    dsimp only
    rw [bind_assoc]
    cases function with
    | lazyFunction code => exact absurd rfl (hstrict code)
    | _ => rfl

theorem mem_whereItems {item : Expr} (h : item ∈ whereItems args) :
    ∃ arg ∈ args, ∃ items, arg.whereArgs? = some items ∧ item ∈ items := by
  obtain ⟨arg, harg, hitem⟩ := List.mem_flatMap.1 h
  cases hwhere : arg.whereArgs? with
  | none => simp [hwhere] at hitem
  | some items => exact ⟨arg, harg, items, hwhere, by simpa [hwhere] using hitem⟩

theorem decides_packArgs {room : Nat} (hrun : run.Meets growthContract room) (hargs : ∀ arg ∈ args, arg.Canonical .item)
    (hsingle : ∀ single, otherArgs args = [single] → single.isAssign = true) :
    Decides Value.error m (packArgs run args scope) (WellNamedCall args)
      (Packs run m.scopes.size (otherArgs args) (m.extended scope (boundBy (whereItems args)))) := by
  have hitems : ∀ item ∈ whereItems args, item.IsBinding ↔ item.isAssign = true := by
    intro item hitem
    obtain ⟨arg, harg, items, hwhere, hmem⟩ := mem_whereItems hitem
    exact ((hargs arg harg).whereArgs? hwhere item hmem).isBinding_iff
  have htake (others : List Expr) (bindings : Bindings) : Bindings.takeWhere [] args = .ok (others, bindings) ↔
      (∀ item ∈ whereItems args, item.IsBinding) ∧ (boundNames (whereItems args)).Nodup ∧
        others = otherArgs args ∧ bindings = boundBy (whereItems args) := Bindings.takeWhere_nil_eq_ok_iff args
  unfold packArgs
  cases htaken : Bindings.takeWhere [] args with
  | error reason =>
    refine .refuses (fun hall => ?_) rfl
    have hok := (htake _ _).2
      ⟨fun item hitem => (hitems item hitem).2 (hall.clauses item hitem), hall.distinct, rfl, rfl⟩
    rw [htaken] at hok
    cases hok
  | ok taken =>
    obtain ⟨others, bindings⟩ := taken
    obtain ⟨hbindings, hdistinct, rfl, rfl⟩ := (htake others bindings).1 htaken
    have hothers : ∀ arg ∈ otherArgs args, arg.Canonical .item := fun arg harg => hargs arg (List.mem_filter.1 harg).1
    have hsize := m.size_extended scope (boundBy (whereItems args))
    have hclauses : ((m.extended scope (boundBy (whereItems args))).scopes.get m.scopes.size).bindings.Binds
        (boundNames (whereItems args)) := by
      rw [m.bindings_extended]
      exact Bindings.binds_boundBy (whereItems args)
    have hmerge := decides_mergeArgs hrun hothers (hsize ▸ Nat.lt_succ_self _) hclauses
    rw [← evalArgs_eq_mergeArgs hsingle] at hmerge
    refine hmerge.of_run rfl ?_ fun _ _ => id
    exact ⟨fun hall => hall.others, fun hall => ⟨fun item hitem => (hitems item hitem).1 (hbindings item hitem), hdistinct, hall⟩⟩

theorem safe_packArgs (hrun : run.Safe) (hargs : ∀ arg ∈ args, arg.Canonical .item) (scope : ScopeId) :
    Eval.Safe Value.Clean (packArgs run args scope) := by
  unfold packArgs
  split
  · exact Eval.safe_pure (.error _)
  · rename_i others bindings hwhere
    obtain ⟨hothers, hbindings⟩ := canonicalItems.takeWhere Bindings.all_nil hargs hwhere
    exact (Eval.safe_newScope scope hbindings).bind fun callScope _ => safe_evalArgs hrun hothers callScope

end Evaluation

open Evaluation (WellNamedCall Packs callPassing)

/-- A call whose callee is neither an error nor a lazy function, with anything but one argument that is no binding, may be
interrupted before it comes to its callee. If the names do not fit, the call ends with an error value or is interrupted,
whatever would be done with the arguments: the callee is not called. If they fit, then unless the call is interrupted the
callee is called once, with the object that has the bare names and the names of the inline bindings as keys, each with the
value that it has been found to have. -/
theorem named_arguments_are_kept {host : Host} (hsafe : host.Safe) (hgrows : host.Meets growthContract) (room : Nat)
    (location : Location) (callee : Expr) (args : List Expr)
    (hcanonical : (Expr.node .call location (callee :: args)).Canonical .term)
    (hsingle : ∀ single, otherArgs args = [single] → single.isAssign = true) (scope : ScopeId) (m m₁ : Machine)
    (hclean : m.Clean) (function : Value)
    (hcallee : (evalWithin host room callee scope).run.run m.entered = (.ok function, m₁))
    (hfunction : function.isError = false) (hstrict : ∀ code, function ≠ .lazyFunction code) :
    let run := evalWithin host room
    let ended (apply : Value → Eval Value) := (callPassing run apply args scope).run.run m₁
    let called := ended fun arg => Evaluation.callValue host run function [arg]
    (evalWithin host (room + 1) (.node .call location (callee :: args)) scope).run.run m =
      (if host.stops m.context then (.error .interrupted, m.within Context.check)
        else (called.1, called.2.within Context.leaveNode)) ∧
    (¬ WellNamedCall args → ∃ answer after, (∀ apply, ended apply = (answer, after)) ∧
      (answer = .error .interrupted ∨ ∃ reason, answer = .ok (.error reason))) ∧
    (WellNamedCall args → (∃ after, ∀ apply, ended apply = (.error .interrupted, after)) ∨
      ∃ id fields after, Packs run m₁.scopes.size (otherArgs args) (m₁.extended scope (boundBy (whereItems args)))
        (.object id fields) after ∧
        Value.KeyedBy fields (bareNames (otherArgs args) ++ boundNames (inlineItems (otherArgs args))) ∧
        ∀ apply, ended apply = (apply (.object id fields)).run.run after) := by
  intro run ended called
  obtain ⟨hcalleeCanonical, hargs⟩ : callee.Canonical .term ∧ ∀ arg ∈ args, arg.Canonical .item := by
    cases hcanonical with
    | call hc ha => exact ⟨hc, ha⟩
    | operator hn _ => cases hn
  have hrunSafe := safe_evalWithin hsafe room
  have hclean₁ : m₁.Clean := by
    have h := (hrunSafe callee scope hcalleeCanonical m.entered hclean).2
    rwa [hcallee] at h
  have hcall : (Evaluation.evalCall host run callee args scope).run.run m.entered = called :=
    Evaluation.run_evalCall_of_strict hcallee hfunction hstrict
  have hnode : (evalWithin host (room + 1) (.node .call location (callee :: args)) scope).run.run m =
      (if host.stops m.context then (.error .interrupted, m.within Context.check)
        else (called.1, called.2.within Context.leaveNode)) := by
    rw [run_evalWithin_succ, ← hcall]
    rfl
  refine ⟨hnode, ?_⟩
  -- The arguments are packed in the same way whatever is done with them.
  have hpacked : Evaluation.Decides Value.error m₁ (Evaluation.packArgs run args scope) (WellNamedCall args) _ :=
    Evaluation.decides_packArgs (Contract.meets_evalWithin hgrows room) hargs hsingle
  have hfine := (Evaluation.safe_packArgs hrunSafe hargs scope m₁ hclean₁).1
  cases hpacked with
  | @fails failure after hrun =>
    rw [hrun] at hfine
    obtain rfl : failure = .interrupted := hfine
    have hended (apply : Value → Eval Value) : ended apply = (.error .interrupted, after) := Eval.run_bind_of_error hrun
    exact ⟨fun _ => ⟨_, after, hended, .inl rfl⟩, fun _ => .inl ⟨after, hended⟩⟩
  | @refuses reason after hnot hrun =>
    have hended (apply : Value → Eval Value) : ended apply = (.ok (.error reason), after) := Eval.run_bind_of_ok hrun
    exact ⟨fun _ => ⟨_, after, hended, .inr ⟨reason, rfl⟩⟩, fun hall => absurd hall hnot⟩
  | @accepts object after hall hobject hrun =>
    obtain ⟨id, fields, rfl, hkeys⟩ := hobject.exists_fields
    have hended (apply : Value → Eval Value) : ended apply = (apply (.object id fields)).run.run after :=
      Eval.run_bind_of_ok hrun
    exact ⟨fun hnot => absurd hall hnot, fun _ => .inr ⟨id, fields, after, hobject, hkeys, hended⟩⟩

/-- Arguments `where(w = true), w, y = w`: a bare name that a where clause binds, beside a binding. -/
def mixedArgs : List Expr :=
  let clause : Expr := .node .call ⟨12, 12⟩ [.nameLeaf ⟨7, 12⟩ "where",
    .node .assign ⟨15, 16⟩ [.stringLeaf ⟨13, 14⟩ "w", .boolLeaf ⟨17, 21⟩ true]]
  [clause, .nameLeaf ⟨24, 25⟩ "w", .node .assign ⟨28, 29⟩ [.stringLeaf ⟨26, 27⟩ "y", .nameLeaf ⟨30, 31⟩ "w"]]

theorem canonical_mixedArgs : ∀ arg ∈ mixedArgs, arg.Canonical .item := by
  have hclause : (Expr.node .call ⟨12, 12⟩ [.nameLeaf ⟨7, 12⟩ "where",
      .node .assign ⟨15, 16⟩ [.stringLeaf ⟨13, 14⟩ "w", .boolLeaf ⟨17, 21⟩ true]]).Canonical .item :=
    .item (.call (.name _ _) (List.forall_mem_singleton.2 (.assign (.item (.bool _ _)))))
  exact List.forall_mem_cons.2 ⟨hclause, List.forall_mem_cons.2 ⟨.item (.name _ _),
    List.forall_mem_singleton.2 (.assign (.item (.name _ _)))⟩⟩

theorem wellNamedCall_mixedArgs : WellNamedCall mixedArgs := by
  have hclauses : boundNames (whereItems mixedArgs) = ["w"] := by rfl
  have hbare : bareNames (otherArgs mixedArgs) = ["w"] := by rfl
  have hinline : boundNames (inlineItems (otherArgs mixedArgs)) = ["y"] := by rfl
  have hothers : ∀ arg ∈ otherArgs mixedArgs, arg.IsNamed :=
    List.forall_mem_cons.2 ⟨.inl rfl, List.forall_mem_singleton.2 (.inr rfl)⟩
  refine ⟨List.forall_mem_singleton.2 rfl, ?_, hothers, ?_, ?_⟩
  · rw [hclauses]
    decide
  · rw [hbare, hinline]
    decide
  · rw [hinline, hclauses]
    exact List.disjoint_singleton.2 (by decide)

/-- Arguments `w, w`: a bare name twice. -/
def repeatedArgs : List Expr :=
  [.nameLeaf ⟨7, 8⟩ "w", .nameLeaf ⟨10, 11⟩ "w"]

theorem canonical_repeatedArgs : ∀ arg ∈ repeatedArgs, arg.Canonical .item :=
  List.forall_mem_cons.2 ⟨.item (.name _ _), List.forall_mem_singleton.2 (.item (.name _ _))⟩

theorem not_wellNamedCall_repeatedArgs : ¬ WellNamedCall repeatedArgs := by
  intro h
  have hbare : bareNames (otherArgs repeatedArgs) = ["w", "w"] := by rfl
  have hinline : boundNames (inlineItems (otherArgs repeatedArgs)) = [] := by rfl
  have hkeys := h.others.keys
  rw [hbare, hinline] at hkeys
  exact absurd hkeys (by decide)

/-- In `object(where(w = true), w, y = w)` the names fit, in `object(w, w)` they do not, and nothing interrupts the
calls. -/
theorem fitting_names_are_kept_and_others_refused :
    let run := evalWithin Host.builtin 4
    let m₁ := ((run (.nameLeaf ⟨0, 6⟩ "object") globalScope).run.run (Machine.initial {}).entered).2
    (WellNamedCall mixedArgs ∧
      ∃ id fields after, Packs run m₁.scopes.size (otherArgs mixedArgs)
        (m₁.extended globalScope (boundBy (whereItems mixedArgs))) (.object id fields) after ∧
        Value.KeyedBy fields (bareNames (otherArgs mixedArgs) ++ boundNames (inlineItems (otherArgs mixedArgs))) ∧
        ∀ apply, (callPassing run apply mixedArgs globalScope).run.run m₁ = (apply (.object id fields)).run.run after) ∧
    ¬ WellNamedCall repeatedArgs ∧
      ∃ reason after, ∀ apply, (callPassing run apply repeatedArgs globalScope).run.run m₁ = (.ok (.error reason), after) := by
  have hmixed : ((callPassing (evalWithin Host.builtin 4) pure mixedArgs globalScope).run.run
      ((evalWithin Host.builtin 4 (.nameLeaf ⟨0, 6⟩ "object") globalScope).run.run (Machine.initial {}).entered).2).1.isOk =
        true := by decide +kernel
  have hrepeated : ((callPassing (evalWithin Host.builtin 4) pure repeatedArgs globalScope).run.run
      ((evalWithin Host.builtin 4 (.nameLeaf ⟨0, 6⟩ "object") globalScope).run.run (Machine.initial {}).entered).2).1.isOk =
        true := by decide +kernel
  intro run m₁
  have hvalue : ((run (.nameLeaf ⟨0, 6⟩ "object") globalScope).run.run (Machine.initial {}).entered).1 =
      .ok (.function "object") := by rfl
  have hcallee : (run (.nameLeaf ⟨0, 6⟩ "object") globalScope).run.run (Machine.initial {}).entered =
      (.ok (.function "object"), m₁) := Prod.ext hvalue rfl
  have hnot_stopped {args : List Expr} {after : Machine}
      (hok : ((callPassing run pure args globalScope).run.run m₁).1.isOk = true) :
      (callPassing run pure args globalScope).run.run m₁ ≠ (.error .interrupted, after) := by
    intro hstopped
    rw [hstopped] at hok
    cases hok
  refine ⟨⟨wellNamedCall_mixedArgs, ?_⟩, not_wellNamedCall_repeatedArgs, ?_⟩
  · have hended := (named_arguments_are_kept Host.safe_builtin Host.meets_builtin 4 ⟨6, 6⟩ (.nameLeaf ⟨0, 6⟩ "object")
      mixedArgs (.call (.name _ _) canonical_mixedArgs) (fun _ => nofun) globalScope (.initial {}) m₁
      (Machine.clean_initial {}) _ hcallee rfl (fun _ => nofun)).2.2 wellNamedCall_mixedArgs
    rcases hended with ⟨after, hstopped⟩ | hpacked
    · exact absurd (hstopped pure) (hnot_stopped hmixed)
    · exact hpacked
  · obtain ⟨answer, after, hended, rfl | ⟨reason, rfl⟩⟩ := (named_arguments_are_kept Host.safe_builtin Host.meets_builtin 4
      ⟨6, 6⟩ (.nameLeaf ⟨0, 6⟩ "object") repeatedArgs (.call (.name _ _) canonical_repeatedArgs) (fun _ => nofun)
      globalScope (.initial {}) m₁ (Machine.clean_initial {}) _ hcallee rfl (fun _ => nofun)).2.1
      not_wellNamedCall_repeatedArgs
    · exact absurd (hended pure) (hnot_stopped hrepeated)
    · exact ⟨reason, after, hended⟩

end DynamicConfig

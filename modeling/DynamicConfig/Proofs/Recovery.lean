import DynamicConfig.Proofs.Records
/-!
# Values from their codes

The code of a value that can be written is evaluated to an equal value, in a new context with the built-in names
(`code_evaluates_back`). It may be too deep to be read: in an object, each field is a level above the one before it, so
no object with many fields comes back (`Value.IsRecord.not_evaluated`).
-/

namespace DynamicConfig

/-- A source text that is evaluated to a value has no faults. -/
theorem evalSource_ok {host : Host} {source : String} {scope : ScopeId} {m : Machine} {w : Value}
    (h : ((evalSource host source scope).run m).1 = .ok w) : ∃ e, parseClean source = .ok e := by
  cases hparse : parseClean source with
  | ok e => exact ⟨e, rfl⟩
  | error failure =>
    rw [evalSource, hparse] at h
    cases h

theorem evalSource_of_gives {host : Host} {source : String} {scope : ScopeId} {m : Machine} {e : Expr} {w : Value}
    (hparse : parseClean source = .ok e) (h : Eval.Gives m (evalWithin host m.context.room e scope) w) :
    ((evalSource host source scope).run m).1 = .ok w := by
  obtain ⟨m', hrun, -⟩ := h
  have hevaluate : (evaluate host e scope).run.run m = (.ok w, m') := hrun
  rw [evalSource, hparse]
  show ((evaluate host e scope).run.run m).1.mapError ConfigError.fatal = _
  rw [hevaluate]
  rfl

/-- The code of a scalar, or of an object of scalars under names, is evaluated to an equal value. -/
theorem code_evaluates_back {v : Value} (h : v.IsWritable) (hheight : v.codeHeight ≤ Frame.maxHeight) :
    ∃ w, ((evalSource Host.builtin v.code globalScope).run (Machine.initial {})).1 = .ok w ∧ (w == v) = true := by
  obtain ⟨e, hparse, hcode⟩ := h.parseClean_code hheight
  have hprepared : (Machine.initial {}).Prepared := ⟨by decide, rfl, rfl, by decide⟩
  obtain ⟨w, hequal, hgives⟩ : ∃ w, (w == v) = true ∧
      Eval.Gives (Machine.initial {}) (evalWithin Host.builtin 512 e globalScope) w := hcode.gives h hprepared
  exact ⟨w, evalSource_of_gives hparse hgives, hequal⟩

/-- A record of fields of every kind. -/
theorem record_evaluates_back :
    let fields : List (Value × Value) :=
      [(.string "name", .string "a \"quoted\" text"), (.string "ratio", .number (-1.5)),
        (.string "least", .number (-Decimal.infinity)), (.string "checked", .bool true), (.string "last", .error "no")]
    (Value.object 7 fields).IsWritable ∧ (Value.object 7 fields).codeHeight ≤ Frame.maxHeight ∧
      ∃ w, ((evalSource Host.builtin (Value.object 7 fields).code globalScope).run (Machine.initial {})).1 = .ok w ∧
        (w == .object 7 fields) = true := by
  intro fields
  have hwritable : (Value.object 7 fields).IsWritable := by decide +kernel
  have hheight : (Value.object 7 fields).codeHeight ≤ Frame.maxHeight := by decide +kernel
  exact ⟨hwritable, hheight, code_evaluates_back hwritable hheight⟩

/-! ## Wide objects -/

theorem Levels.length_le_joined {heights : List Nat} (h : ∀ height ∈ heights, 2 ≤ height) :
    heights.length + 1 ≤ joined heights := by
  have hfold (rest : List Nat) (height : Nat) :
      height + rest.length ≤ rest.foldl (fun height item => max height item + 1) height := by
    induction rest generalizing height with
    | nil => exact Nat.le_refl _
    | cons item rest ih =>
      have := ih (max height item + 1)
      rw [List.foldl_cons, List.length_cons]
      omega
  cases heights with
  | nil => exact Nat.le_refl _
  | cons first rest =>
    have hfirst := h first List.mem_cons_self
    have hrest := hfold rest first
    rw [List.length_cons, joined]
    omega

namespace Value

theorem FieldExpr.two_le_textHeight {field : Value × Value} {arg : Expr} (h : FieldExpr field arg) :
    2 ≤ arg.textHeight := by
  obtain ⟨assign, target, name, e, -, -, rfl⟩ := h
  show 2 ≤ max 1 e.levels.total + 1
  omega

/-- Each field of an object makes its code one level deeper. -/
theorem IsRecord.length_le_codeHeight {fields : List (Value × Value)} (h : IsRecord fields) (id : Nat) :
    fields.length + 3 ≤ (object id fields).codeHeight := by
  have hwritable : (object id fields).IsWritable := h
  obtain ⟨e, he, hreadable, htext⟩ := hwritable.exists_codeExpr
  rw [codeHeight_eq hreadable htext]
  cases he with
  | scalar h => cases h
  | @object id _ args call first h =>
    have hargs : ∀ height ∈ args.map Expr.textHeight, 2 ≤ height := by
      refine List.forall_mem_map.2 fun arg harg => ?_
      obtain ⟨field, -, hfield⟩ := mem_of_forall₂ h arg harg
      exact hfield.two_le_textHeight
    have hjoined := Levels.length_le_joined hargs
    rw [List.length_map, ← h.length_eq, ← Expr.map_total_levelsOf] at hjoined
    show fields.length + 3 ≤ max 1 (Levels.joined ((Expr.levelsOf args).map Levels.total) + 1) + 1
    omega

/-- An object with many fields has a code that is not read, and so not evaluated. -/
theorem IsRecord.not_evaluated {fields : List (Value × Value)} (h : IsRecord fields)
    (hwide : Frame.maxHeight < fields.length + 3) (id : Nat) (host : Host) (scope : ScopeId) (m : Machine) :
    ¬ ∃ w, ((evalSource host (object id fields).code scope).run m).1 = .ok w := by
  rintro ⟨w, hw⟩
  obtain ⟨e, hparse⟩ := evalSource_ok hw
  have hwritable : (object id fields).IsWritable := h
  have hle := hwritable.codeHeight_le hparse
  have hge := h.length_le_codeHeight id
  omega

end Value

theorem Value.isNameKey_replicate (n : Nat) : (string (String.ofList (List.replicate (n + 1) 'a'))).IsNameKey := by
  have hletter : Text.isLetter 'a' = true := by decide
  refine ⟨?_, by simp [List.replicate_succ]⟩
  simp [isBareKey, List.replicate_succ, Text.equalIgnoringCase, Text.isAlphanumeric, hletter]

/-- An object of 254 fields is too wide. -/
theorem wide_object_not_evaluated :
    let fields := (List.range 254).map fun n => (Value.string (String.ofList (List.replicate (n + 1) 'a')), Value.bool true)
    Value.IsRecord fields ∧
      ¬ ∃ w, ((evalSource Host.builtin (Value.object 1 fields).code globalScope).run (Machine.initial {})).1 = .ok w ∧
        (w == .object 1 fields) = true := by
  intro fields
  have hne {n k : Nat} (h : n ≠ k) : (Value.string (String.ofList (List.replicate (n + 1) 'a')) ==
      Value.string (String.ofList (List.replicate (k + 1) 'a'))) = false := by
    show (String.ofList (List.replicate (n + 1) 'a') == String.ofList (List.replicate (k + 1) 'a')) = false
    refine beq_eq_false_iff_ne.2 fun heq => h ?_
    simpa using congrArg String.length heq
  have hrecord : Value.IsRecord fields := {
    distinct := List.pairwise_map.2 (List.nodup_range.imp fun h => ⟨hne h, hne h.symm⟩)
    keys := List.forall_mem_map.2 fun n _ => Value.isNameKey_replicate n
    scalars := List.forall_mem_map.2 fun n _ => trivial
    visible := List.forall_mem_map.2 fun n _ name h => by cases h }
  refine ⟨hrecord, fun ⟨w, hw, _⟩ => hrecord.not_evaluated ?_ 1 Host.builtin globalScope _ ⟨w, hw⟩⟩
  rw [List.length_map, List.length_range]
  decide

end DynamicConfig

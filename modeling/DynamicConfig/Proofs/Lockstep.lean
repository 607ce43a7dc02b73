import DynamicConfig.Proofs.Simulation
/-!
# Evaluation in lockstep

If a simulation keeps machines linked, then evaluation of an expression on one machine is followed by the evaluation of
the same expression on the other one (`Simulation.evaluates_evalWithin`). As for contracts, each rule is shown to be
matched by itself if the evaluators that it is given are.
-/

namespace DynamicConfig

/-! ## Evaluators -/

/-- One evaluator does what another one does, in scopes that stand for each other. -/
def Simulation.Evaluates (sim : Simulation) (run run' : Evaluator) : Prop :=
  ∀ p e s s', p.SameScope s s' → sim.Matched p Value.Alike (run e s) (run' e s')

/-- The names that are looked up have values that are alike. -/
def Simulation.LooksUp (sim : Simulation) (run run' : Evaluator) : Prop :=
  ∀ p s s' name name', p.SameScope s s' → name.Alike p name' →
    sim.Matched p Value.Alike (Evaluation.lookupName run s name) (Evaluation.lookupName run' s' name')

/-- The functions of the host do the same with values that are alike, lazy ones with evaluators that do. Of linked
machines both are to stop at a check or none. -/
structure Host.Matched (sim : Simulation) (host : Host) : Prop where
  stops : ∀ p m m', sim.Linked p m m' → host.stops m.context = host.stops m'.context
  function : ∀ p code function args args', host.function? code = some function → List.Forall₂ (Value.Alike p) args args' →
    sim.Matched p Value.Alike (function args) (function args')
  lazyFunction : ∀ p code function run run' args s s', host.lazyFunction? code = some function →
    sim.Evaluates run run' → p.SameScope s s' → sim.Matched p Value.Alike (function run args s) (function run' args s')

namespace Simulation

variable {sim : Simulation} {p q : Pairing} {m m' : Machine} {run run' : Evaluator} {s s' : ScopeId}

theorem Evaluates.grows (hrun : sim.Evaluates run run') : run.Meets growthContract 0 :=
  fun e s => grows_any (hrun ⊤ e s s trivial).grows

/-! ## Bindings -/

/-- Bindings are looked up in step if machines stay linked while both bindings change in the same way. -/
theorem follows_resolve (hrun : sim.Evaluates run run') (hm : sim.Linked p m m') (hs : p.SameScope s s')
    {place place' : Nat} (hupdated : ∀ {q n n' state state'}, p ≤ q → sim.Linked q n n' → n.scopes.Unknown s place →
      state.Alike q state' → sim.Linked q (n.updated s place state) (n'.updated s' place' state'))
    {name name' : Value} (hname : name.Alike p name') {entry entry' : Entry}
    (hentry : (m.scopes.get s).bindings[place]? = some entry) (hstate : entry.state.Alike p entry'.state) :
    sim.Follows p Value.Alike (Evaluation.resolve run name s place entry.state)
      (Evaluation.resolve run' name' s' place' entry'.state) m m' := by
  obtain ⟨key, state⟩ := entry
  obtain ⟨key', state'⟩ := entry'
  cases hstate with
  | evaluated h => exact fun _ _ => ⟨p, le_refl p, hm, .ok h⟩
  | inProgress =>
    have hmessage : "recursion detected: " ++ name.displayName = "recursion detected: " ++ name'.displayName := by
      rw [hname.displayName_eq]
    refine fun hfinal _ => ⟨p, le_refl p, sim.circled hm hfinal, .ok ?_⟩
    rw [hmessage]
    exact .error _
  | unevaluated expr =>
    have hwaiting : m.scopes.Unknown s place := ⟨key, _, hentry, fun _ => EntryState.noConfusion⟩
    have hstarted := hupdated (le_refl p) hm hwaiting .inProgress
    unfold Follows
    rw [Evaluation.run_resolve_waiting, Evaluation.run_resolve_waiting]
    dsimp only
    by_cases hdepth : m.context.depth < m.context.limits.maxCallDepth
    · rw [if_pos hdepth, if_pos (sim.admits hm hdepth)]
      have hgrows := (hrun.grows expr s ((m.updated s place .inProgress).within Context.enterCall) trivial).1
      have hunknown := Machine.unknown_ended hentry hgrows
      have hsettles := Machine.settles_done hunknown
      have hfollows := (hrun p expr s s' hs).follows _ _ (sim.enterCall hstarted)
      unfold Follows at hfollows
      generalize (run expr s).run.run _ = ended at *
      generalize (run' expr s').run.run _ = ended' at *
      obtain ⟨outcome, after⟩ := ended
      obtain ⟨outcome', after'⟩ := ended'
      cases outcome with
      | error failure =>
        intro hfinal hok
        have hfailing : sim.failing := hok.resolve_right fun ⟨_, hvalue⟩ => by cases hvalue
        obtain ⟨q, hpq, hlinked, houtcome⟩ := hfollows (sim.final (hsettles _) hfinal) (.inl hfailing)
        cases houtcome
        exact ⟨q, hpq, sim.leaveCall (hupdated hpq hlinked hunknown (.unevaluated expr)), .error failure⟩
      | ok value =>
        intro hfinal _
        obtain ⟨q, hpq, hlinked, houtcome⟩ := hfollows (sim.final (hsettles _) hfinal) (.inr ⟨value, rfl⟩)
        cases houtcome with
        | ok h =>
          exact ⟨q, hpq, sim.leaveCall (hupdated hpq hlinked hunknown (.evaluated h)), .ok h⟩
    · rw [if_neg hdepth]
      intro hfinal _
      have hstopped : (m.updated s place .inProgress).scopes.Unknown s place :=
        hwaiting.setState fun _ => EntryState.noConfusion
      have hback := hupdated (le_refl p) hstarted hstopped (.unevaluated expr)
      have hdenied := sim.denies hback hfinal hdepth
      change ¬ m'.context.depth < m'.context.limits.maxCallDepth at hdenied
      rw [if_neg hdenied]
      exact ⟨p, le_refl p, sim.refused hback hfinal, .ok (.error _)⟩

/-- Where only the first run evaluates a binding, it is enough to follow it once it has come to a value. -/
theorem follows_resolve_waiting (name : Value) {place : Nat} {expr : Expr} {work' : Eval Value}
    (hdenied : ¬ sim.Final ((m.updated s place .inProgress).updated s place (.unevaluated expr)).refused)
    (hfailed : ∀ failure after, (run expr s).run.run ((m.updated s place .inProgress).within Context.enterCall) =
      (.error failure, after) → sim.Final ((after.updated s place (.unevaluated expr)).within Context.leaveCall) →
      ¬ sim.failing)
    (hended : ∀ value after, m.context.depth < m.context.limits.maxCallDepth →
      (run expr s).run.run ((m.updated s place .inProgress).within Context.enterCall) = (.ok value, after) →
      sim.Final ((after.updated s place (.evaluated value)).within Context.leaveCall) →
      ∃ q, p ≤ q ∧ sim.Linked q ((after.updated s place (.evaluated value)).within Context.leaveCall)
        (work'.run.run m').2 ∧ SameOutcome (Value.Alike q) (.ok value) (work'.run.run m').1) :
    sim.Follows p Value.Alike (Evaluation.resolve run name s place (.unevaluated expr)) work' m m' := by
  unfold Follows
  rw [Evaluation.run_resolve_waiting]
  dsimp only
  by_cases hdepth : m.context.depth < m.context.limits.maxCallDepth
  · rw [if_pos hdepth]
    cases hrun : (run expr s).run.run ((m.updated s place .inProgress).within Context.enterCall) with
    | mk outcome after =>
      cases outcome with
      | error failure =>
        rintro hfinal (hfailing | ⟨_, hok⟩)
        · exact absurd hfailing (hfailed failure after hrun hfinal)
        · cases hok
      | ok value => exact fun hfinal _ => hended value after hdepth hrun hfinal
  · rw [if_neg hdepth]
    exact fun hfinal _ => absurd hfinal hdenied

/-- Names are looked up in step if they are bound at the same places and it is so of the bindings that are not in step. -/
theorem looksUp_of_evaluates (hrun : sim.Evaluates run run')
    (hnames : ∀ p m m' s s', sim.Linked p m m' → p.SameScope s s' →
      (m.scopes.get s).bindings.NamesAlike p (m'.scopes.get s').bindings)
    (hother : ∀ p m m' s s' name name' place entry entry', sim.Linked p m m' → p.SameScope s s' → ¬ sim.InStep s' place →
      name.Alike p name' → (m.scopes.get s).bindings[place]? = some entry →
      (m'.scopes.get s').bindings[place]? = some entry' →
      sim.Follows p Value.Alike (Evaluation.resolve run name s place entry.state)
        (Evaluation.resolve run' name' s' place entry'.state) m m') : sim.LooksUp run run' := by
  refine fun p s s' name name' hs hname => ⟨grows_value (Evaluation.meets_lookupName hrun.grows s name), ?_⟩
  intro m m' hm
  have hids : List.Forall₂ p.SameScope (s :: (m.scopes.get s).enclosing) (s' :: (m'.scopes.get s').enclosing) :=
    .cons hs (sim.enclosing hm hs)
  have hfind := Scopes.findIn_alike (sim.oneToOne hm) (fun s s' hs => hnames p m m' s s' hm hs) hname hids
  unfold Follows
  rw [Evaluation.run_lookupName, Evaluation.run_lookupName]
  change Option.Rel _ (m.scopes.find? s name) (m'.scopes.find? s' name') at hfind
  cases hfound : m.scopes.find? s name with
  | none =>
    cases hfound' : m'.scopes.find? s' name' with
    | none =>
      rw [hname.displayName_eq]
      exact fun _ _ => ⟨p, le_refl p, hm, .ok (.error _)⟩
    | some found' =>
      rw [hfound, hfound'] at hfind
      cases hfind
  | some found =>
    cases hfound' : m'.scopes.find? s' name' with
    | none =>
      rw [hfound, hfound'] at hfind
      cases hfind
    | some found' =>
      obtain ⟨holder, place, entry⟩ := found
      obtain ⟨holder', place', entry'⟩ := found'
      rw [hfound, hfound'] at hfind
      have hentry := Scopes.getElem?_of_find? hfound
      have hentry' := Scopes.getElem?_of_find? hfound'
      cases hfind with
      | some hboth =>
        obtain ⟨hholder, hplace⟩ := hboth
        dsimp only at hholder hplace
        subst hplace
        by_cases hstep : sim.InStep holder' place
        · obtain ⟨_, hsame, halike⟩ := sim.bindings hm hholder hstep hentry
          rw [hentry'] at hsame
          cases hsame
          exact follows_resolve hrun hm hholder (fun hpq hlinked => sim.updated place hlinked (hpq.1 _ _ hholder) hstep)
            hname hentry halike.state
        · exact hother p m m' holder holder' name name' place entry entry' hm hholder hstep hname hentry hentry'

/-! ## Lookups and calls -/

theorem matched_lookup (hlook : sim.LooksUp run run') {target target' field field' : Value}
    (htarget : target.Alike p target') (hfield : field.Alike p field') :
    sim.Matched p Value.Alike (Evaluation.lookup run target field) (Evaluation.lookup run' target' field') := by
  cases htarget with
  | object hid hnew hfields =>
    refine matched_value fun hp => ?_
    have hvalue := Value.fieldOf_alike hfields fun h => hfield.beq_eq hp h
    rw [hfield.displayName_eq]
    generalize Value.fieldOf? _ _ = found at hvalue ⊢
    generalize Value.fieldOf? _ _ = found' at hvalue ⊢
    cases hvalue with
    | none => exact .error _
    | some h => exact h
  | scope hscope => exact hlook p _ _ field field' hscope hfield
  | _ => exact matched_value fun _ => .error _

theorem matched_invoke (hrun : sim.Evaluates run run') (body : Expr) (hs : p.SameScope s s') {arg arg' : Value}
    (harg : arg.Alike p arg') :
    sim.Matched p Value.Alike (Evaluation.invoke run body s arg) (Evaluation.invoke run' body s' arg') := by
  have hidle : Bindings.Idle [⟨.string Evaluation.closureArgument, .evaluated arg⟩] :=
    List.forall_mem_singleton.2 EntryState.noConfusion
  have hbindings : Bindings.Alike p [⟨.string Evaluation.closureArgument, .evaluated arg⟩]
      [⟨.string Evaluation.closureArgument, .evaluated arg'⟩] :=
    .cons ⟨.string _, .evaluated harg⟩ .nil
  exact ((matched_newScope hs hidle hbindings).bind fun q _ inner inner' hinner => hrun q body inner inner' hinner).inCall

theorem matched_callValue {host : Host} (hhost : host.Matched sim) (hrun : sim.Evaluates run run')
    {callee callee' : Value} (hcallee : callee.Alike p callee') {args args' : List Value}
    (hargs : List.Forall₂ (Value.Alike p) args args') :
    sim.Matched p Value.Alike (Evaluation.callValue host run callee args)
      (Evaluation.callValue host run' callee' args') := by
  refine (matched_checkInterrupt (hhost.stops p)).bind fun q hpq _ _ _ => ?_
  cases hcallee with
  | function code =>
    dsimp only
    split
    · rename_i function hfunction
      exact hhost.function q code function args args' hfunction (hargs.imp fun _ _ h => h.mono hpq)
    · exact matched_value fun _ => .error _
  | closure body hid hscope =>
    cases hargs with
    | nil => exact matched_value fun _ => .error _
    | cons harg hrest =>
      cases hrest with
      | nil => exact matched_invoke hrun body (hpq.1 _ _ hscope) (harg.mono hpq)
      | cons _ _ => exact matched_value fun _ => .error _
  | _ => exact matched_value fun _ => .error _

theorem matched_callLazy {host : Host} (hhost : host.Matched sim) (hrun : sim.Evaluates run run') (code : String)
    (args : List Expr) (hs : p.SameScope s s') :
    sim.Matched p Value.Alike (Evaluation.callLazy host run code args s)
      (Evaluation.callLazy host run' code args s') := by
  unfold Evaluation.callLazy
  split
  · rename_i function hfunction
    exact hhost.lazyFunction p code function run run' args s s' hfunction hrun hs
  · exact matched_value fun _ => .error _

/-! ## Arguments -/

/-- Fields that are alike and have texts as keys, and the same bindings of expressions. -/
structure ArgsAlike (p : Pairing) (all all' : List (Value × Value) × Bindings) : Prop where
  fields : Value.FieldsAlike p all.1 all'.1
  named : Value.Named all.1
  bindings : all.2 = all'.2
  waiting : all.2.Waiting

theorem matched_namedArgs (hlook : sim.LooksUp run run') (hs : p.SameScope s s') (args : List Expr)
    {fields fields' : List (Value × Value)} (hfields : Value.FieldsAlike p fields fields')
    (hnamed : Value.Named fields) {inline : Bindings} (hinline : inline.Waiting) :
    sim.Matched p (fun q => SameOutcome (ArgsAlike q)) (Evaluation.namedArgs run s args fields inline)
      (Evaluation.namedArgs run' s' args fields' inline) := by
  induction args generalizing p fields fields' inline with
  | nil =>
    exact matched_pure (.ok ⟨.refl Pairing.reflexive_top fields, hnamed, rfl, hinline⟩) fun _ =>
      .ok ⟨hfields, hnamed, rfl, hinline⟩
  | cons arg rest ih =>
    unfold Evaluation.namedArgs
    split
    -- A bare name, which may be given already.
    · rename_i name _
      have htaken := Value.fieldOf_alike hfields fun h => h.string_beq name
      rw [isSome_eq_of_rel htaken]
      split
      · exact matched_pure (.error _) fun _ => .error _
      · refine (hlook p s s' _ _ hs (.string name)).bind fun q hpq v v' hv => ?_
        exact ih (hpq.1 _ _ hs) (Value.insertField_alike (hfields.mono hpq) name hv) (hnamed.insertField name v) hinline
    -- Only a binding may be the argument otherwise.
    · split
      · split
        · rename_i hchain
          exact ih hs hfields hnamed (hinline.bindChain hchain)
        · exact matched_pure (.error _) fun _ => .error _
      · exact matched_pure (.error _) fun _ => .error _

/-- Fields that are alike and have texts as keys. -/
structure NamedAlike (p : Pairing) (fields fields' : List (Value × Value)) : Prop where
  alike : Value.FieldsAlike p fields fields'
  named : Value.Named fields

theorem matched_inlineArgs (hlook : sim.LooksUp run run') (hs : p.SameScope s s') {inner inner' : ScopeId}
    (hinner : p.SameScope inner inner') (names : List String) {fields fields' : List (Value × Value)}
    (h : NamedAlike p fields fields') :
    sim.Matched p (fun q => SameOutcome (NamedAlike q))
      (Evaluation.inlineArgs run s inner (names.map Value.string) fields)
      (Evaluation.inlineArgs run' s' inner' (names.map Value.string) fields') := by
  induction names generalizing p fields fields' with
  | nil => exact matched_pure (.ok ⟨.refl Pairing.reflexive_top fields, h.named⟩) fun _ => .ok h
  | cons name rest ih =>
    have htaken := isSome_eq_of_rel (Value.fieldOf_alike h.alike fun h => h.string_beq name)
    refine matched_choice (fun m m' hm => ?_) (matched_pure (.error _) fun _ => .error _) ?_
    · rw [htaken, sim.contains name hm hs]
    · refine (hlook p inner inner' _ _ hinner (.string name)).bind fun q hpq v v' hv => ?_
      exact ih (hpq.1 _ _ hs) (hpq.1 _ _ hinner)
        ⟨Value.insertField_alike (h.alike.mono hpq) name hv, h.named.insertField name v⟩

theorem matched_mergeArgs (hlook : sim.LooksUp run run') (args : List Expr) (hs : p.SameScope s s') :
    sim.Matched p Value.Alike (Evaluation.mergeArgs run args s) (Evaluation.mergeArgs run' args s') := by
  refine (matched_namedArgs hlook hs args .nil Value.named_nil Bindings.waiting_nil).bind fun q hpq _ _ hall => ?_
  cases hall with
  | error reason => exact matched_value fun _ => .error _
  | @ok all all' h =>
    obtain ⟨fields, inline⟩ := all
    obtain ⟨fields', inline'⟩ := all'
    obtain ⟨hfields, hnamed, rfl, hwaiting⟩ := h
    dsimp only
    refine (matched_newScope (hpq.1 _ _ hs) hwaiting.idle hwaiting.alike).bind fun r hqr inner inner' hinner => ?_
    obtain ⟨names, hnames⟩ := hwaiting.names
    rw [hnames]
    refine (matched_inlineArgs hlook (hqr.1 _ _ (hpq.1 _ _ hs)) hinner names ⟨hfields.mono hqr, hnamed⟩).bind
      fun t hrt _ _ hall => ?_
    cases hall with
    | error reason => exact matched_value fun _ => .error _
    | ok h =>
      refine matched_fresh.bind fun u htu id id' hid => matched_value fun _ => ?_
      exact .object hid (.inr h.named) (h.alike.mono htu)

theorem matched_evalArgs (hrun : sim.Evaluates run run') (hlook : sim.LooksUp run run') (args : List Expr)
    (hs : p.SameScope s s') :
    sim.Matched p Value.Alike (Evaluation.evalArgs run args s) (Evaluation.evalArgs run' args s') := by
  unfold Evaluation.evalArgs
  split
  · rename_i single
    split
    · exact matched_mergeArgs hlook _ hs
    · exact hrun p single s s' hs
  · exact matched_mergeArgs hlook _ hs

/-- A callee that takes the value of its arguments. -/
theorem matched_callStrict {host : Host} (hhost : host.Matched sim) (hrun : sim.Evaluates run run')
    (hlook : sim.LooksUp run run') {function function' : Value} (hfunction : function.Alike p function')
    (args : List Expr) (hs : p.SameScope s s') :
    sim.Matched p Value.Alike
      (do let arg ← Evaluation.evalArgs run args s
          if arg.isError then return arg else Evaluation.callValue host run function [arg])
      (do let arg ← Evaluation.evalArgs run' args s'
          if arg.isError then return arg else Evaluation.callValue host run' function' [arg]) := by
  refine (matched_evalArgs hrun hlook args hs).bindValue fun q hpq arg arg' harg => ?_
  exact matched_callValue hhost hrun (hfunction.mono hpq) (.cons harg .nil)

/-! ## Nodes -/

theorem matched_evalCall {host : Host} (hhost : host.Matched sim) (hrun : sim.Evaluates run run')
    (hlook : sim.LooksUp run run') (callee : Expr) (args : List Expr) (hs : p.SameScope s s') :
    sim.Matched p Value.Alike (Evaluation.evalCall host run callee args s)
      (Evaluation.evalCall host run' callee args s') := by
  refine (hrun p callee s s' hs).bindValue fun q hpq function function' hfunction => ?_
  split
  · exact matched_value fun _ => .error _
  · rename_i others bindings hwhere
    have hwaiting := Bindings.waiting_nil.takeWhere hwhere
    refine (matched_newScope (hpq.1 _ _ hs) hwaiting.idle hwaiting.alike).bind fun r hqr scope scope' hscope => ?_
    have hvalue := matched_callStrict hhost hrun hlook (hfunction.mono hqr) others hscope
    cases hfunction with
    | lazyFunction code => exact matched_callLazy hhost hrun code others hscope
    | _ => exact hvalue

theorem matched_evalClosure (items : List Expr) (hs : p.SameScope s s') :
    sim.Matched p Value.Alike (Evaluation.evalClosure items s) (Evaluation.evalClosure items s') := by
  unfold Evaluation.evalClosure
  split
  · exact matched_value fun _ => .error _
  · rename_i body bindings hparts
    have hwaiting := Bindings.waiting_closureParts hparts
    refine (matched_newScope hs hwaiting.idle hwaiting.alike).bind fun q hpq inner inner' hinner => ?_
    refine matched_fresh.bind fun r hqr id id' hid => matched_value fun _ => ?_
    exact .closure body hid (hqr.1 _ _ hinner)

theorem matched_evalUnary (hrun : sim.Evaluates run run') (op : Op) (operand : Expr) (hs : p.SameScope s s') :
    sim.Matched p Value.Alike (Evaluation.evalUnary run op operand s) (Evaluation.evalUnary run' op operand s') :=
  (hrun p operand s s' hs).bindValue fun _ _ _ _ hv => matched_value fun _ => op.onValue_alike hv

theorem matched_evalBinary (hrun : sim.Evaluates run run') (op : Op) (left right : Expr) (hs : p.SameScope s s') :
    sim.Matched p Value.Alike (Evaluation.evalBinary run op left right s)
      (Evaluation.evalBinary run' op left right s') := by
  refine (hrun p left s s' hs).bindValue fun q hpq a a' ha => ?_
  refine (hrun q right s s' (hpq.1 _ _ hs)).bindValue fun r hqr b b' hb => ?_
  exact matched_value fun hr => Op.onValues_alike hr op (ha.mono hqr) hb

theorem matched_evalLogic (hrun : sim.Evaluates run run') (op : Op) (left right : Expr) (hs : p.SameScope s s') :
    sim.Matched p Value.Alike (Evaluation.evalLogic run op left right s)
      (Evaluation.evalLogic run' op left right s') := by
  refine (hrun p left s s' hs).bind fun q hpq a a' ha => ?_
  have hdecided := op.decidedBy_alike ha
  generalize op.decidedBy a = outcome at hdecided ⊢
  generalize op.decidedBy a' = outcome' at hdecided ⊢
  cases hdecided with
  | some h => exact matched_value fun _ => h
  | none =>
    refine (hrun q right s s' (hpq.1 _ _ hs)).bind fun r hqr b b' hb => ?_
    exact matched_value fun _ => Op.decidedLast_alike hb

theorem matched_evalField (hrun : sim.Evaluates run run') (hlook : sim.LooksUp run run') (left key : Expr)
    (hs : p.SameScope s s') :
    sim.Matched p Value.Alike (Evaluation.evalField run left key s) (Evaluation.evalField run' left key s') := by
  refine (hrun p left s s' hs).bindValue fun q hpq target target' htarget => ?_
  refine (hrun q key s s' (hpq.1 _ _ hs)).bindValue fun r hqr field field' hfield => ?_
  exact matched_lookup hlook (htarget.mono hqr) hfield

/-- Every rule is matched by itself, and so is the failure on a tree that there is no rule for. -/
theorem matched_step {host : Host} (hhost : host.Matched sim) (hrun : sim.Evaluates run run')
    (hlook : sim.LooksUp run run') (e : Expr) (hs : p.SameScope s s') :
    sim.Matched p Value.Alike (Evaluation.step host run e s) (Evaluation.step host run' e s') := by
  unfold Evaluation.step
  split
  · unfold Evaluation.evalNode
    split
    · exact matched_value fun _ => .string _
    · exact matched_value fun _ => .number _
    · exact matched_value fun _ => .bool _
    · exact hlook p s s' _ _ hs (.string _)
    · exact matched_evalUnary hrun _ _ hs
    · exact matched_evalUnary hrun _ _ hs
    · exact matched_evalUnary hrun _ _ hs
    · exact matched_evalLogic hrun _ _ _ hs
    · exact matched_evalLogic hrun _ _ _ hs
    · exact matched_evalField hrun hlook _ _ hs
    · exact matched_evalCall hhost hrun hlook _ _ hs
    · exact matched_evalClosure _ hs
    · split
      · exact matched_evalBinary hrun _ _ _ hs
      · exact matched_throw _
    · exact matched_throw _
  · exact matched_throw _

theorem matched_chooseBranch (hrun : sim.Evaluates run run') (args : List Expr) (hs : p.SameScope s s') :
    sim.Matched p Value.Alike (Host.chooseBranch run args s) (Host.chooseBranch run' args s') := by
  unfold Host.chooseBranch
  split
  · rename_i condition yes no
    split
    · exact matched_value fun _ => .error _
    · refine (hrun p condition s s' hs).bind fun q hpq v v' hv => ?_
      cases hv with
      | bool b =>
        cases b with
        | true => exact hrun q yes s s' (hpq.1 _ _ hs)
        | false => exact hrun q no s s' (hpq.1 _ _ hs)
      | _ => exact matched_value fun _ => .error _
  · exact matched_value fun _ => .error _

/-! ## Evaluation -/

/-- Expression nodes are counted on both sides. -/
structure Nests (sim : Simulation) : Prop where
  enterNode {p : Pairing} {m m' : Machine} :
    sim.Linked p m m' → sim.Linked p (m.within Context.enterNode) (m'.within Context.enterNode)
  leaveNode {p : Pairing} {m m' : Machine} :
    sim.Linked p m m' → sim.Linked p (m.within Context.leaveNode) (m'.within Context.leaveNode)

theorem Matched.inNode (hnests : sim.Nests) {work work' : Eval Value} (h : sim.Matched p Value.Alike work work') :
    sim.Matched p Value.Alike (Eval.inNode work) (Eval.inNode work') where
  grows := grows_value fun m _ => (grows_any h.grows).inNode m trivial
  follows m m' hm hfinal hok := by
    obtain ⟨q, hpq, hlinked, houtcome⟩ := h.follows _ _ (hnests.enterNode hm)
      (sim.final (Machine.settles_within _ Context.leaveNode (fun _ => rfl) fun _ => rfl) hfinal) hok
    exact ⟨q, hpq, hnests.leaveNode hlinked, houtcome⟩

/-- Evaluation with at least as much room does the same, if the room is the same or a run that is followed is never
refused anything. -/
theorem evaluates_evalWithin {host : Host} (hhost : host.Matched sim) (hnests : sim.Nests)
    (hlook : ∀ room room', sim.Evaluates (evalWithin host room) (evalWithin host room') →
      sim.LooksUp (evalWithin host room) (evalWithin host room')) {room room' : Nat} (hroom : room ≤ room')
    (hexact : room = room' ∨ ∀ p m m', sim.Linked p m m' → ¬ sim.Final m.refused) :
    sim.Evaluates (evalWithin host room) (evalWithin host room') := by
  induction room generalizing room' with
  | zero =>
    intro p e s s' hs
    cases room' with
    | zero => exact (matched_checkInterrupt (hhost.stops p)).bind fun q _ _ _ _ => matched_refuse _
    | succ room' =>
      have hnever := hexact.resolve_left (Nat.zero_ne_add_one room')
      refine (matched_checkInterrupt (hhost.stops p)).bind fun q _ _ _ _ => ⟨grows_value (Eval.meets_refuse _), ?_⟩
      exact fun m m' hm hfinal _ => absurd hfinal (hnever q m m' hm)
  | succ room ih =>
    intro p e s s' hs
    cases room' with
    | zero => exact absurd hroom (Nat.not_succ_le_zero room)
    | succ room' =>
      have hrun := ih (Nat.le_of_succ_le_succ hroom) (hexact.imp_left Nat.succ.inj)
      refine (matched_checkInterrupt (hhost.stops p)).bind fun q hpq _ _ _ => Matched.inNode hnests ?_
      exact matched_step hhost hrun (hlook _ _ hrun) e (hpq.1 _ _ hs)

end Simulation

namespace Host

variable {p : Pairing}

theorem makeError_alike {args args' : List Value} (h : List.Forall₂ (Value.Alike p) args args') :
    (makeError args).Alike p (makeError args') := by
  cases h with
  | nil => exact .error _
  | cons hv hrest =>
    cases hrest with
    | nil => cases hv <;> exact .error _
    | cons _ _ => cases hv <;> exact .error _

theorem makeObject_alike {args args' : List Value} (h : List.Forall₂ (Value.Alike p) args args') :
    (makeObject args).Alike p (makeObject args') := by
  cases h with
  | nil => exact .error _
  | cons hv hrest =>
    cases hrest with
    | nil => exact hv
    | cons _ _ => exact .error _

theorem matched_builtin (sim : Simulation) : builtin.Matched sim where
  stops _ _ _ hm := by rw [stops_builtin, stops_builtin, sim.interrupted hm]
  function p code function args args' hfunction hargs := by
    simp only [builtin] at hfunction
    split at hfunction <;> cases hfunction
    · exact Simulation.matched_value fun _ => makeError_alike hargs
    · exact Simulation.matched_value fun _ => makeObject_alike hargs
  lazyFunction p code function run run' args s s' hfunction hrun hs := by
    simp only [builtin] at hfunction
    split at hfunction <;> cases hfunction
    exact Simulation.matched_chooseBranch hrun args hs

/-- Where linked machines have checked as often, threads may also ask to stop in the course of the runs. -/
theorem matched_interruptedBy {sim : Simulation}
    (hchecks : ∀ p m m', sim.Linked p m m' → m.context.checks = m'.context.checks) (interrupts : Nat → Bool) :
    (interruptedBy interrupts).Matched sim where
  stops p m m' hm := by rw [Host.stops, Host.stops, sim.interrupted hm, hchecks p m m' hm]
  function := (matched_builtin sim).function
  lazyFunction := (matched_builtin sim).lazyFunction

end Host

end DynamicConfig

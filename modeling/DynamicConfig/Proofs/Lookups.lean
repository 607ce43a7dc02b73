import DynamicConfig.Proofs.Earliest
import Mathlib.Algebra.Order.BigOperators.Group.Finset
/-!
# The order of lookups

The first lookup of a name decides its value: once it has an answer, every later lookup of the name has the same one,
whatever is done in between (`first_answer_stays`). What has been looked up before it does not matter for a name whose
own lookup, if it came first, would go round in no circle (`acyclic_lookups_in_any_order`). For other names it does:
where bindings refer to each other in a circle, a value that comes from the circle having been noticed is kept for the
name that was met on the way, not only for the name where the circle was closed (`order_of_lookups_matters`).
-/

namespace DynamicConfig

/-! ## Where a name is found -/

namespace Scopes

variable {before after : Scopes}

theorem Settles.findIn (h : before.Settles after) (name : Value) {ids : List ScopeId}
    (hids : ∀ id ∈ ids, id < before.size) :
    (after.findIn? name ids).map (fun found => (found.1, found.2.1)) =
      (before.findIn? name ids).map fun found => (found.1, found.2.1) := by
  induction ids with
  | nil => rfl
  | cons id rest ih =>
    obtain ⟨hid, hrest⟩ := List.forall_mem_cons.1 hids
    have hplace : ((after.get id).bindings.find? name).map Prod.fst =
        ((before.get id).bindings.find? name).map Prod.fst := by
      rw [Bindings.fst_find_names, Bindings.fst_find_names, h.names id hid]
    rw [findIn?, findIn?]
    cases hbefore : (before.get id).bindings.find? name with
    | none =>
      cases hafter : (after.get id).bindings.find? name with
      | none => exact ih hrest
      | some found => rw [hbefore, hafter] at hplace; cases hplace
    | some found =>
      cases hafter : (after.get id).bindings.find? name with
      | none => rw [hbefore, hafter] at hplace; cases hplace
      | some found' =>
        rw [hbefore, hafter, Option.map_some, Option.map_some, Option.some.injEq] at hplace
        rw [Option.map_some, Option.map_some, hplace]

/-- A name is found at the same place of the same scope later on. -/
theorem Settles.find (h : before.Settles after) (name : Value) {scope : ScopeId} (hscope : scope < before.size)
    (henclosing : ∀ id ∈ (before.get scope).enclosing, id < before.size) :
    (after.find? scope name).map (fun found => (found.1, found.2.1)) =
      (before.find? scope name).map fun found => (found.1, found.2.1) := by
  rw [find?, find?, h.enclosing scope hscope]
  exact h.findIn name (List.forall_mem_cons.2 ⟨hscope, henclosing⟩)

theorem exists_found {found found' : Option (ScopeId × Nat × Entry)}
    (h : found'.map (fun found => (found.1, found.2.1)) = found.map fun found => (found.1, found.2.1))
    {holder : ScopeId} {place : Nat} {entry : Entry} (hfound : found = some (holder, place, entry)) :
    ∃ entry', found' = some (holder, place, entry') := by
  subst hfound
  obtain ⟨⟨holder', place', entry'⟩, hfound', heq⟩ := Option.map_eq_some_iff.1 h
  cases heq
  exact ⟨entry', hfound'⟩

/-- A binding that gets back the state it had is as it was. -/
theorem setState_back {scopes : Scopes} {id : ScopeId} {place : Nat} {entry : Entry}
    (hentry : (scopes.get id).bindings[place]? = some entry) (between : EntryState) :
    (scopes.setState id place between).setState id place entry.state = scopes := by
  have hid : id < scopes.size := lt_size_of_getElem? hentry
  have hthere : scopes[id].bindings[place]? = some entry := by
    rw [get, Array.getD_eq_getD_getElem?, Array.getElem?_eq_getElem hid] at hentry
    exact hentry
  refine Array.ext (by simp [setState]) fun i hi hi' => ?_
  simp only [setState, Array.getElem_modify]
  split
  · rename_i hi
    subst hi
    refine congrArg (Scope.mk _) (List.ext_getElem? fun j => ?_)
    change _ = scopes[id].bindings[j]?
    by_cases hj : place = j
    · subst hj
      rw [List.getElem?_modify_eq, List.getElem?_modify_eq, hthere]
      rfl
    · rw [List.getElem?_modify_ne _ _ hj, List.getElem?_modify_ne _ _ hj]
  · rfl

end Scopes

/-! ## Answers -/

/-- What a name has been found to be: there is a binding with this value, or none at all. -/
def Machine.Answers (m : Machine) (scope : ScopeId) (name value : Value) : Prop :=
  (∃ holder place key, m.scopes.find? scope name = some (holder, place, ⟨key, .evaluated value⟩)) ∨
    m.scopes.find? scope name = none ∧ value = .error ("name not found: " ++ name.displayName)

theorem Machine.Answers.lookupName {m : Machine} {scope : ScopeId} {name value : Value} (h : m.Answers scope name value)
    (host : Host) : (DynamicConfig.lookupName host scope name).run.run m = (.ok value, m) := by
  rw [DynamicConfig.lookupName, Evaluation.run_lookupName]
  rcases h with ⟨holder, place, key, hfind⟩ | ⟨hfind, rfl⟩
  · rw [hfind]
    rfl
  · rw [hfind]
    rfl

/-- An answer does not change while bindings change forward. -/
theorem Machine.Answers.settles {m m' : Machine} {scope : ScopeId} {name value : Value} (h : m.Answers scope name value)
    (hsettles : m.scopes.Settles m'.scopes) (hscope : scope < m.scopes.size)
    (henclosing : ∀ id ∈ (m.scopes.get scope).enclosing, id < m.scopes.size) : m'.Answers scope name value := by
  have hfind := hsettles.find name hscope henclosing
  rcases h with ⟨holder, place, key, hfound⟩ | ⟨hfound, rfl⟩
  · obtain ⟨entry, hfound'⟩ := Scopes.exists_found hfind hfound
    have hknown := hsettles.known _ _ _ _ (Scopes.getElem?_of_find? hfound)
    rw [Scopes.getElem?_of_find? hfound'] at hknown
    cases hknown
    exact .inl ⟨holder, place, key, hfound'⟩
  · rw [hfound] at hfind
    exact .inr ⟨Option.map_eq_none_iff.1 hfind, rfl⟩

theorem grows_lookupName (m : Machine) (scope : ScopeId) (name : Value) :
    m.Grows ((lookupName Host.builtin scope name).run.run m).2 := by
  have hhost : Host.builtin.Meets growthContract := Host.meets_builtin
  exact (Evaluation.meets_lookupName (Contract.meets_evaluate hhost 0) scope name m trivial).1

/-- The answer of a lookup is there afterwards, or else the limit on calls has refused to evaluate the binding, which is
as it was before. -/
theorem answers_or_refused {m between : Machine} (hidle : m.Idle) {scope : ScopeId} (hscope : scope < m.scopes.size)
    (henclosing : ∀ id ∈ (m.scopes.get scope).enclosing, id < m.scopes.size) {name value : Value}
    (hrun : (lookupName Host.builtin scope name).run.run m = (.ok value, between)) :
    between.Answers scope name value ∧ (between = m ∨ m.context.depth < m.context.limits.maxCallDepth) ∨
      ¬ m.context.depth < m.context.limits.maxCallDepth ∧ between = m.refused := by
  have hgrows := grows_lookupName m scope name
  rw [hrun] at hgrows
  rw [lookupName, Evaluation.run_lookupName] at hrun
  cases hfind : m.scopes.find? scope name with
  | none =>
    rw [hfind] at hrun
    cases hrun
    exact .inl ⟨.inr ⟨hfind, rfl⟩, .inl rfl⟩
  | some found =>
    obtain ⟨holder, place, key, state⟩ := found
    rw [hfind] at hrun
    have hentry := Scopes.getElem?_of_find? hfind
    cases state with
    | inProgress => exact absurd rfl (hidle holder _ (List.mem_of_getElem? hentry))
    | evaluated known =>
      cases hrun
      exact .inl ⟨.inl ⟨holder, place, key, hfind⟩, .inl rfl⟩
    | unevaluated expr =>
      dsimp only at hrun
      rw [Evaluation.run_resolve_waiting] at hrun
      dsimp only at hrun
      by_cases hdepth : m.context.depth < m.context.limits.maxCallDepth
      · rw [if_pos hdepth] at hrun
        generalize (evaluate Host.builtin expr holder).run.run _ = ended at hrun
        obtain ⟨outcome, after⟩ := ended
        cases outcome with
        | error failure => cases hrun
        | ok result =>
          cases hrun
          obtain ⟨entry, hfound⟩ := Scopes.exists_found (hgrows.settles.scopes.find name hscope henclosing) hfind
          have hknown := Machine.known_done hentry hgrows.scopes
          have hthere := Scopes.getElem?_of_find? hfound
          change ((after.scopes.setState holder place (.evaluated value)).get holder).bindings[place]? = _ at hthere
          rw [hknown] at hthere
          cases hthere
          exact .inl ⟨.inl ⟨holder, place, key, hfound⟩, .inr hdepth⟩
      · rw [if_neg hdepth] at hrun
        cases hrun
        have hsame : (m.updated holder place .inProgress).updated holder place (.unevaluated expr) = m :=
          congrArg (fun scopes => { m with scopes }) (Scopes.setState_back hentry .inProgress)
        exact .inr ⟨hdepth, congrArg Machine.refused hsame⟩

/-- The answer of a lookup of which nothing has been refused is there afterwards. -/
theorem answers_of_lookupName {m between : Machine} (hidle : m.Idle) {scope : ScopeId} (hscope : scope < m.scopes.size)
    (henclosing : ∀ id ∈ (m.scopes.get scope).enclosing, id < m.scopes.size) {name value : Value}
    (hrun : (lookupName Host.builtin scope name).run.run m = (.ok value, between))
    (hrefusals : between.context.refusals = m.context.refusals) : between.Answers scope name value := by
  rcases answers_or_refused hidle hscope henclosing hrun with ⟨hanswers, -⟩ | ⟨-, rfl⟩
  · exact hanswers
  · exact absurd hrefusals (Nat.succ_ne_self _)

theorem forward_performAll (m : Machine) (operations : List Operation) :
    m.scopes.Forward (operations.foldl (Machine.perform Host.builtin) m).scopes := by
  induction operations generalizing m with
  | nil => exact .refl m.scopes
  | cons operation rest ih => exact (forward_perform Host.meets_builtin m operation).trans (ih _)

/-- Whatever is done after a name has an answer, looking it up has this answer and changes nothing. -/
theorem Machine.Answers.performAll {m : Machine} {scope : ScopeId} {name value : Value} (h : m.Answers scope name value)
    (hscope : scope < m.scopes.size) (henclosing : ∀ id ∈ (m.scopes.get scope).enclosing, id < m.scopes.size)
    (operations : List Operation) :
    (DynamicConfig.lookupName Host.builtin scope name).run.run (operations.foldl (Machine.perform Host.builtin) m) =
      (.ok value, operations.foldl (Machine.perform Host.builtin) m) :=
  (h.settles (forward_performAll m operations).settles hscope henclosing).lookupName Host.builtin

/-- Whatever is done after a name has been looked up, looking it up again has the same answer and changes nothing. -/
theorem first_answer_stays (m : Machine) (hclosed : m.Closed) (hidle : m.Idle) (scope : ScopeId)
    (hscope : scope < m.scopes.size) (name value : Value) (between : Machine)
    (hrun : (lookupName Host.builtin scope name).run.run m = (.ok value, between))
    (hrefusals : between.context.refusals = m.context.refusals) (operations : List Operation) :
    (lookupName Host.builtin scope name).run.run (operations.foldl (Machine.perform Host.builtin) between) =
      (.ok value, operations.foldl (Machine.perform Host.builtin) between) := by
  have henclosing : ∀ id ∈ (m.scopes.get scope).enclosing, id < m.scopes.size := fun id hid =>
    (hclosed.enclosing scope ⟨rfl, hscope⟩ id hid).2
  have hgrows := grows_lookupName m scope name
  rw [hrun] at hgrows
  have hforward := hgrows.scopes
  have hanswers := answers_of_lookupName hidle hscope henclosing hrun hrefusals
  refine hanswers.performAll (Nat.lt_of_lt_of_le hscope hforward.size) (fun id hid => ?_) operations
  rw [(hforward.old scope hscope).1] at hid
  exact Nat.lt_of_lt_of_le (henclosing id hid) hforward.size

/-! ## Lookups in another order -/

/-- The machine after names have been looked up one after the other, whatever their values. -/
def Machine.lookUpAll (m : Machine) (scope : ScopeId) (names : List String) : Machine :=
  (names.map fun name => Operation.lookupName scope (.string name)).foldl (Machine.perform Host.builtin) m

theorem grows_lookUpAll (m : Machine) (scope : ScopeId) (names : List String) : m.Grows (m.lookUpAll scope names) := by
  induction names generalizing m with
  | nil => exact .refl m
  | cons name rest ih => exact (grows_lookupName m scope (.string name)).trans (ih _)

/-- A machine that is ahead stays so while names are looked up on both. -/
theorem Ahead.lookUpAll {s : Machine} {early : Early s} (hclosed : s.Closed) {p : Pairing} {m m' : Machine}
    (h : Ahead early p m m') {scope scope' : ScopeId} (hscope : p.SameScope scope scope') (names : List String)
    (hrefusals : (m.lookUpAll scope names).context.refusals ≤ s.context.refusals) :
    ∃ q, p ≤ q ∧ Ahead early q (m.lookUpAll scope names) (m'.lookUpAll scope' names) := by
  induction names generalizing p m m' with
  | nil => exact ⟨p, le_refl p, h⟩
  | cons name rest ih =>
    have hgrows := grows_lookUpAll (m.perform Host.builtin (.lookupName scope (.string name))) scope rest
    have hfirst := Nat.le_trans hgrows.refusals hrefusals
    obtain ⟨q, hpq, hnext, -⟩ := h.lookupName hclosed hscope name hfirst
    obtain ⟨r, hqr, hlast⟩ := ih hnext (hpq.1 _ _ hscope) hrefusals
    exact ⟨r, hpq.trans hqr, hlast⟩

/-! ## How much is left to be evaluated -/

/-- Whether a binding waits for its evaluation. -/
def Entry.isWaiting (entry : Entry) : Bool :=
  match entry.state with
  | .unevaluated _ => true
  | _ => false

/-- How many bindings wait for their evaluation. -/
def Scopes.waiting (scopes : Scopes) : Nat :=
  ∑ id ∈ Finset.range scopes.size, (scopes.get id).bindings.countP Entry.isWaiting

theorem Bindings.countP_modify_lt {bindings : Bindings} {place : Nat} {name value : Value} {expr : Expr}
    (hentry : bindings[place]? = some ⟨name, .unevaluated expr⟩) :
    (bindings.modify place fun entry => { entry with state := .evaluated value }).countP Entry.isWaiting <
      bindings.countP Entry.isWaiting := by
  induction bindings generalizing place with
  | nil => cases hentry
  | cons entry rest ih =>
    cases place with
    | zero =>
      cases hentry
      simp [List.countP_cons, Entry.isWaiting]
    | succ place =>
      have hrest := ih hentry
      simp only [List.modify_succ_cons, List.countP_cons]
      omega

/-- A binding that has been evaluated ahead waits no more, so if nothing has been made then there is less to wait for. -/
theorem Early.waiting_done_lt {s : Machine} (early : Early s) (hsize : early.done.scopes.size = s.scopes.size) :
    early.done.scopes.waiting < s.scopes.waiting := by
  rw [Scopes.waiting, Scopes.waiting, hsize]
  refine Finset.sum_lt_sum (fun x hx => ?_) ⟨early.id, Finset.mem_range.2 early.id_lt, ?_⟩
  · rw [early.get_done (Finset.mem_range.1 hx), Scopes.get_setState]
    split
    · rename_i hid
      subst hid
      exact Nat.le_of_lt (Bindings.countP_modify_lt early.entry)
    · exact Nat.le_refl _
  · rw [early.get_done early.id_lt, Scopes.get_setState, if_pos rfl]
    exact Bindings.countP_modify_lt early.entry

/-! ## The order of lookups -/

/-- What a lookup makes known was known before or is left. -/
theorem answers_of_noNews {m between : Machine} (hidle : m.Idle) {scope : ScopeId} (hscope : scope < m.scopes.size)
    (henclosing : ∀ id ∈ (m.scopes.get scope).enclosing, id < m.scopes.size) {name value : Value}
    (hrun : (lookupName Host.builtin scope name).run.run m = (.ok value, between))
    (hrefusals : between.context.refusals = m.context.refusals) (hnews : m.scopes.NoNews between.scopes) :
    m.Answers scope name value := by
  have hgrows := grows_lookupName m scope name
  rw [hrun] at hgrows
  have hfind := hgrows.settles.scopes.find name hscope henclosing
  rcases answers_of_lookupName hidle hscope henclosing hrun hrefusals with ⟨holder, place, key, hfound⟩ | ⟨hfound, rfl⟩
  · obtain ⟨entry, hbefore⟩ := Scopes.exists_found hfind.symm hfound
    have hentry := Scopes.getElem?_of_find? hbefore
    have hknown := hnews _ (Scopes.lt_size_of_getElem? hentry) _ _ _ (Scopes.getElem?_of_find? hfound)
    rw [hentry] at hknown
    cases hknown
    exact .inl ⟨_, _, key, hbefore⟩
  · rw [hfound] at hfind
    exact .inr ⟨Option.map_eq_none_iff.1 hfind.symm, rfl⟩

/-- Where the first machine has evaluated the binding too, what is left on the machine that is ahead is less than what was
left before: fewer scopes are made from there on, or as many, and fewer bindings wait. -/
theorem Ahead.decreases {s : Machine} {early : Early s} {q : Pairing} {E E₁ : Machine} (h : Ahead early q E E₁)
    (hgrows : early.done.Grows E₁) {value : Value}
    (hknown : (E.scopes.get early.id).bindings[early.place]? = some ⟨early.key, .evaluated value⟩) :
    Prod.Lex (· < ·) (· < ·) (E₁.scopes.size - early.done.scopes.size, early.done.scopes.waiting)
      (E.scopes.size - s.scopes.size, s.scopes.waiting) := by
  rcases h.progress with hp | hc
  · have hwaiting := hp.waiting
    rw [hknown] at hwaiting
    cases hwaiting
  · have hsame := hc.size
    have hmade := hgrows.scopes.size
    have hdone := early.forward_done.size
    rcases Nat.eq_or_lt_of_le hdone with heq | hlt
    · rw [hsame, ← heq]
      exact .right _ (early.waiting_done_lt heq.symm)
    · exact .left _ _ (by omega)

/-- Where the first lookup of a name goes round in no circle, the name has the same value after other lookups. By
induction on what is left to be evaluated: a binding that depends on nothing but what is known might as well have been
evaluated ahead of either lookup. -/
theorem lookups_agree (s E : Machine) (hclosed : s.Closed) (hidle : s.Idle) {scope : ScopeId}
    (hscope : scope < s.scopes.size) (name : String) {value : Value}
    (hrun : (lookupName Host.builtin scope (.string name)).run.run s = (.ok value, E))
    (hrefusals : E.context.refusals = s.context.refusals) (hcircles : E.context.circles = s.context.circles)
    (names : List String)
    (hlater : ((lookupName Host.builtin scope (.string name)).run.run (s.lookUpAll scope names)).2.context.refusals =
      s.context.refusals) :
    ∃ q again after, (lookupName Host.builtin scope (.string name)).run.run (s.lookUpAll scope names) =
      (.ok again, after) ∧ value.Alike q again := by
  rcases exists_early hclosed hscope name hrun (Nat.le_of_eq hrefusals) (Nat.le_of_eq hcircles) with
    ⟨early, known, hknown⟩ | hnews
  · have hself : s.existing.SameScope scope scope := ⟨rfl, hscope⟩
    have hstart := Ahead.start early hclosed
    have hgrows := grows_lookupName early.done scope (.string name)
    -- The same lookup on the machine that is ahead.
    obtain ⟨q, -, hfirst, houtcome⟩ := hstart.lookupName hclosed hself name (by rw [hrun]; exact Nat.le_of_eq hrefusals)
    rw [hrun] at hfirst houtcome
    generalize hrun₁ : (lookupName Host.builtin scope (.string name)).run.run early.done = ended₁ at *
    obtain ⟨outcome₁, E₁⟩ := ended₁
    -- The later lookup on the machine that is ahead.
    have hbetween : (s.lookUpAll scope names).context.refusals ≤ s.context.refusals :=
      Nat.le_trans (grows_lookupName _ scope (.string name)).refusals (Nat.le_of_eq hlater)
    obtain ⟨r, hr, hlast⟩ := hstart.lookUpAll hclosed hself names hbetween
    obtain ⟨t, -, hend, hlaterOutcome⟩ := hlast.lookupName hclosed (hr.1 _ _ hself) name (Nat.le_of_eq hlater)
    cases houtcome with
    | ok halike =>
      rename_i value₁
      have hdecreases := hfirst.decreases hgrows hknown
      obtain ⟨u, again₁, after₁, hagain₁, halike₁⟩ := lookups_agree early.done E₁ (early.closed_done hclosed)
        (early.idle_done hidle) (Nat.lt_of_lt_of_le hscope early.forward_done.size) name hrun₁
        (hfirst.context.refusals.symm.trans hrefusals) (hfirst.context.circles.symm.trans hcircles) names
        (hend.context.refusals.symm.trans hlater)
      rw [hagain₁] at hlaterOutcome
      generalize (lookupName Host.builtin scope (.string name)).run.run (s.lookUpAll scope names) = ended at *
      obtain ⟨outcome, after⟩ := ended
      cases hlaterOutcome with
      | ok halike' => exact ⟨_, _, after, rfl, (halike.trans halike₁).trans halike'.symm⟩
  · have henclosing : ∀ id ∈ (s.scopes.get scope).enclosing, id < s.scopes.size := fun id hid =>
      (hclosed.enclosing scope ⟨rfl, hscope⟩ id hid).2
    have hanswers := answers_of_noNews hidle hscope henclosing hrun hrefusals hnews
    have hlater := hanswers.settles (grows_lookUpAll s scope names).settles.scopes hscope henclosing
    exact ⟨⊤, value, _, hlater.lookupName Host.builtin, .refl Pairing.reflexive_top value⟩
termination_by (E.scopes.size - s.scopes.size, s.scopes.waiting)
decreasing_by exact hdecreases

/-- Where nothing is in progress, the order of lookups does not matter for a name whose lookup, if it comes first, goes
round in no circle and is refused nothing by a limit: if it comes later then it has a value with the same source text,
and an equal one if it is plain data. -/
theorem acyclic_lookups_in_any_order (m : Machine) (hclosed : m.Closed) (hidle : m.Idle) (scope : ScopeId)
    (hscope : scope < m.scopes.size) (name : String) (value : Value) (first : Machine)
    (hrun : (lookupName Host.builtin scope (.string name)).run.run m = (.ok value, first))
    (hrefusals : first.context.refusals = m.context.refusals) (hcircles : first.context.circles = m.context.circles)
    (names : List String)
    (hlater : ((lookupName Host.builtin scope (.string name)).run.run (m.lookUpAll scope names)).2.context.refusals =
      m.context.refusals) :
    ∃ again after, (lookupName Host.builtin scope (.string name)).run.run (m.lookUpAll scope names) = (.ok again, after) ∧
      again.code = value.code ∧ (value.IsPlain → (again == value) = true) := by
  obtain ⟨q, again, after, hagain, halike⟩ := lookups_agree m first hclosed hidle hscope name hrun hrefusals hcircles
    names hlater
  exact ⟨again, after, hagain, halike.code_eq.symm, fun hplain => halike.beq_of_isPlain hplain⟩

/-- A fresh scope of expressions inside that of the built-in names. -/
def Machine.holding (context : Context) (bindings : Bindings) : Machine :=
  (Machine.initial context).extended globalScope bindings

/-- Where bindings of expressions have just been made, nothing is in progress and there is no dangling reference. -/
theorem Bindings.Waiting.holding {bindings : Bindings} (h : bindings.Waiting) (context : Context) :
    (Machine.holding context bindings).Closed ∧ (Machine.holding context bindings).Idle :=
  ⟨(Machine.closed_initial context).extended Nat.zero_lt_one h,
    (Machine.idle_initial context).forward ((Machine.initial context).scopes.forward_add (some globalScope) h.idle)⟩

/-- A name that depends on another one has its value also after that one and a name that refers to itself:
`x = !y`, `y = true` and `z = z`. -/
theorem dependent_name_in_any_order :
    let m := Machine.holding { limits := ⟨8, 16⟩ } [⟨.string "x", .unevaluated (.node .not ⟨0, 1⟩ [.nameLeaf ⟨1, 2⟩ "y"])⟩,
      ⟨.string "y", .unevaluated (.boolLeaf ⟨0, 4⟩ true)⟩, ⟨.string "z", .unevaluated (.nameLeaf ⟨0, 1⟩ "z")⟩]
    ∃ again after, (lookupName Host.builtin 1 (.string "x")).run.run (m.lookUpAll 1 ["y", "z"]) = (.ok again, after) ∧
      again.code = (Value.bool false).code ∧ ((Value.bool false).IsPlain → (again == Value.bool false) = true) := by
  intro m
  have hwaiting : Bindings.Waiting [⟨.string "x", .unevaluated (.node .not ⟨0, 1⟩ [.nameLeaf ⟨1, 2⟩ "y"])⟩,
      ⟨.string "y", .unevaluated (.boolLeaf ⟨0, 4⟩ true)⟩, ⟨.string "z", .unevaluated (.nameLeaf ⟨0, 1⟩ "z")⟩] := by
    refine List.forall_mem_cons.2 ⟨⟨"x", _, rfl⟩, List.forall_mem_cons.2 ⟨⟨"y", _, rfl⟩, List.forall_mem_singleton.2 ?_⟩⟩
    exact ⟨"z", _, rfl⟩
  obtain ⟨hclosed, hidle⟩ := hwaiting.holding { limits := ⟨8, 16⟩ }
  have hvalue : ((lookupName Host.builtin 1 (.string "x")).run.run m).1 = .ok (.bool false) := by cbv
  have hrun : (lookupName Host.builtin 1 (.string "x")).run.run m =
      (.ok (.bool false), ((lookupName Host.builtin 1 (.string "x")).run.run m).2) := Prod.ext hvalue rfl
  exact acyclic_lookups_in_any_order m hclosed hidle 1 (by decide) "x" (.bool false) _ hrun (by decide +kernel)
    (by decide +kernel) ["y", "z"] (by decide +kernel)

/-- Two bindings that refer to each other: `a = { true }(x = b)` and `b = !a`. -/
def circle : Bindings :=
  let a : Expr := .node .call ⟨8, 9⟩ [.node .closure ⟨0, 1⟩ [.boolLeaf ⟨2, 6⟩ true],
    .node .assign ⟨11, 12⟩ [.stringLeaf ⟨9, 10⟩ "x", .nameLeaf ⟨13, 14⟩ "b"]]
  let b : Expr := .node .not ⟨0, 1⟩ [.nameLeaf ⟨1, 2⟩ "a"]
  [⟨.string "a", .unevaluated a⟩, ⟨.string "b", .unevaluated b⟩]

/-- In the circle the order of lookups matters. If `b` is looked up first, then its value is `false`. If `a` is looked
up before, then it is an error: while `a` is in progress, so is `b`, for which `a` is a circle. No limit refuses
anything. -/
theorem order_of_lookups_matters :
    let m := Machine.holding { limits := ⟨8, 16⟩ } circle
    let later := m.lookUpAll 1 ["a"]
    ((lookupName Host.builtin 1 (.string "b")).run.run m).1 = .ok (.bool false) ∧
    ((lookupName Host.builtin 1 (.string "b")).run.run later).1 = .ok (.error "recursion detected: a") ∧
    ((lookupName Host.builtin 1 (.string "b")).run.run m).2.context.refusals = 0 ∧
    ((lookupName Host.builtin 1 (.string "b")).run.run later).2.context.refusals = 0 := by
  refine ⟨by cbv, by cbv, by decide +kernel, by decide +kernel⟩

end DynamicConfig

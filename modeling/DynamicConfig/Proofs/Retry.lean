import DynamicConfig.Proofs.Lookups
/-!
# Looking up again under higher limits

A binding that the limit on calls refuses to evaluate is as if nothing had asked for it, so a later lookup evaluates it
after all. Where the binding itself is admitted, its answer is kept for good, also an error that comes from a limit having
refused something below: a node of the expression, or another binding that it refers to. So a retry answers as a first
lookup does only where the refusal was at the binding itself (`retried_as_fresh_iff`); it does not where the refusal was
further down (`refusal_below_is_kept`).
-/

namespace DynamicConfig

/-- The limit on calls admits one more closure or binding. -/
def Context.Admits (c : Context) : Prop :=
  c.depth < c.limits.maxCallDepth

/-- A name is looked up in one context and then, on the machine as that leaves it, in another one. The second lookup
is that of a machine where the first one has not been if the limit on calls has not admitted the binding. If it has, then
the first answer stays whatever is done; so the retry answers as a first lookup would only if that has the same answer. -/
theorem retried_as_fresh_iff (m : Machine) (hclosed : m.Closed) (hidle : m.Idle) (scope : ScopeId)
    (hscope : scope < m.scopes.size) (name answer : Value) (first second : Context) (after : Machine)
    (hfirst : (lookupName Host.builtin scope name).run.run (m.within fun _ => first) = (.ok answer, after)) :
    let retried := (lookupName Host.builtin scope name).run.run (after.within fun _ => second)
    let fresh := (lookupName Host.builtin scope name).run.run (m.within fun _ => second)
    (¬ first.Admits → retried = fresh) ∧
    (first.Admits → ∀ operations : List Operation,
      (lookupName Host.builtin scope name).run.run (operations.foldl (Machine.perform Host.builtin) after) =
        (.ok answer, operations.foldl (Machine.perform Host.builtin) after)) ∧
    (retried.1 = fresh.1 ↔ (first.Admits → fresh.1 = .ok answer)) := by
  intro retried fresh
  have henclosing : ∀ id ∈ (m.scopes.get scope).enclosing, id < m.scopes.size := fun id hid =>
    (hclosed.enclosing scope ⟨rfl, hscope⟩ id hid).2
  have hgrows := grows_lookupName (m.within fun _ => first) scope name
  rw [hfirst] at hgrows
  have hsize : m.scopes.size ≤ after.scopes.size := hgrows.scopes.size
  have hafter : ∀ id ∈ (after.scopes.get scope).enclosing, id < after.scopes.size := by
    intro id hid
    have hsame : (after.scopes.get scope).enclosing = (m.scopes.get scope).enclosing := (hgrows.scopes.old scope hscope).1
    rw [hsame] at hid
    exact Nat.lt_of_lt_of_le (henclosing id hid) hsize
  have hended := answers_or_refused (m := m.within fun _ => first) hidle hscope henclosing hfirst
  have hrefused : ¬ first.Admits → retried = fresh := by
    intro hfull
    rcases hended with ⟨-, rfl | hadmits⟩ | ⟨-, rfl⟩
    · rfl
    · exact absurd hadmits hfull
    · rfl
  have hkept : first.Admits → after.Answers scope name answer := by
    intro hadmits
    rcases hended with ⟨hanswers, -⟩ | ⟨hfull, -⟩
    · exact hanswers
    · exact absurd hadmits hfull
  have hstays (hadmits : first.Admits) (operations : List Operation) :=
    (hkept hadmits).performAll (Nat.lt_of_lt_of_le hscope hsize) hafter operations
  refine ⟨hrefused, hstays, ?_⟩
  by_cases hadmits : first.Admits
  · have hretried : retried.1 = .ok answer := congrArg Prod.fst (hstays hadmits [.setContext second])
    rw [hretried]
    exact ⟨fun hsame _ => hsame.symm, fun hsame => (hsame hadmits).symm⟩
  · exact ⟨fun _ hcontra => absurd hcontra hadmits, fun _ => congrArg Prod.fst (hrefused hadmits)⟩

/-- A name that refers to another one: `a = b` and `b = true`. -/
def reference : Bindings :=
  [⟨.string "a", .unevaluated (.nameLeaf ⟨0, 1⟩ "b")⟩, ⟨.string "b", .unevaluated (.boolLeaf ⟨0, 4⟩ true)⟩]

theorem Bindings.waiting_reference : Bindings.Waiting reference :=
  List.forall_mem_cons.2 ⟨⟨"a", _, rfl⟩, List.forall_mem_singleton.2 ⟨"b", _, rfl⟩⟩

/-- Where no call is allowed at all, `a` is refused and can be retried, and the retry is the first lookup. -/
theorem refused_reference_retried :
    let m := Machine.holding {} reference
    let after := ((lookupName Host.builtin 1 (.string "a")).run.run (m.within fun _ => { limits := ⟨0, 16⟩ })).2
    let second : Context := { limits := ⟨8, 16⟩ }
    (lookupName Host.builtin 1 (.string "a")).run.run (after.within fun _ => second) =
      (lookupName Host.builtin 1 (.string "a")).run.run (m.within fun _ => second) := by
  intro m after second
  obtain ⟨hclosed, hidle⟩ := Bindings.waiting_reference.holding {}
  have hanswer : ((lookupName Host.builtin 1 (.string "a")).run.run (m.within fun _ => { limits := ⟨0, 16⟩ })).1 =
      .ok (.error "maximum call depth exceeded") := by cbv
  have hfirst : (lookupName Host.builtin 1 (.string "a")).run.run (m.within fun _ => { limits := ⟨0, 16⟩ }) =
      (.ok (.error "maximum call depth exceeded"), after) := Prod.ext hanswer rfl
  exact (retried_as_fresh_iff m hclosed hidle 1 (by decide) (.string "a") _ { limits := ⟨0, 16⟩ } second after hfirst).1
    (Nat.not_lt_zero 0)

/-- Where one call is allowed, `a` is admitted and `b` is refused; where no node is allowed, `a` is admitted and its
expression is refused. Either way the error is still there under limits that refuse nothing, where a first lookup of `a`
gives `true`. -/
theorem refusal_below_is_kept :
    let m := Machine.holding {} reference
    let lookUp (c : Context) (m : Machine) := (lookupName Host.builtin 1 (.string "a")).run.run (m.within fun _ => c)
    let enough : Context := { limits := ⟨8, 16⟩ }
    let fewCalls : Context := { limits := ⟨1, 16⟩ }
    let noNodes : Context := { limits := ⟨8, 0⟩ }
    (lookUp fewCalls m).1 = .ok (.error "maximum call depth exceeded") ∧
    (lookUp enough (lookUp fewCalls m).2).1 = .ok (.error "maximum call depth exceeded") ∧
    (lookUp noNodes m).1 = .ok (.error "maximum nesting depth exceeded") ∧
    (lookUp enough (lookUp noNodes m).2).1 = .ok (.error "maximum nesting depth exceeded") ∧
    (lookUp enough m).1 = .ok (.bool true) ∧ (lookUp enough m).2.context.refusals = 0 := by
  refine ⟨by cbv, by cbv, by cbv, by cbv, by cbv, by decide +kernel⟩

end DynamicConfig

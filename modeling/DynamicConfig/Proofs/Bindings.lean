import DynamicConfig.Proofs.NamedArguments
import DynamicConfig.Proofs.Reordering
/-!
# The bindings of a scope

Where clauses, the bindings among the arguments of a call and the items of a closure each bind names in a scope of their
own. However the bindings are made of items, they are those of the items, and no name is bound twice
(`Bindings.MadeOf.bound`). So a name of a scope has one binding, and a change of its state leaves the other names alone
(`Machine.binding?_updated_of_ne`).
-/

namespace DynamicConfig

open DynamicConfig.Expr (IsBinding boundNames bound boundBy whereItems otherArgs inlineItems)

/-! ## Where chains are bound -/

theorem Evaluation.bindChains_of_namedArgs {run : Evaluator} {scope : ScopeId} {args : List Expr}
    {fields collected : List (Value × Value)} {inline bindings : Bindings} {m : Machine}
    (h : ((namedArgs run scope args fields inline).run.run m).1 = .ok (.ok (collected, bindings))) :
    (inlineItems args).foldlM Bindings.bindChain inline = .ok bindings := by
  induction args generalizing fields inline m with
  | nil =>
    cases h
    rfl
  | cons arg rest ih =>
    unfold namedArgs at h
    cases hname : arg.asName? with
    | some name =>
      rw [Expr.inlineItems_cons_of_asName? rest hname]
      rw [hname] at h
      dsimp only at h
      split at h
      · cases h
      · rcases hlookup : (lookupName run scope (.string name)).run.run m with ⟨outcome, between⟩
        cases outcome with
        | error failure =>
          rw [Eval.run_bind_of_error hlookup] at h
          cases h
        | ok value =>
          rw [Eval.run_bind_of_ok hlookup] at h
          exact ih h
    | none =>
      rw [hname] at h
      dsimp only at h
      split at h
      · rename_i hassign
        rw [Expr.inlineItems_cons_of_isAssign rest hassign, List.foldlM_cons]
        cases hchain : inline.bindChain arg with
        | error reason =>
          rw [hchain] at h
          cases h
        | ok between =>
          rw [hchain] at h
          exact ih h
      · cases h

theorem Evaluation.bindChains_of_closureItems {items : List Expr} {body found : Option Expr}
    {bindings bindings' : Bindings} (h : closureItems items body bindings = .ok (found, bindings')) :
    (inlineItems items).foldlM Bindings.bindChain bindings = .ok bindings' := by
  induction items generalizing body bindings with
  | nil =>
    cases h
    rfl
  | cons item rest ih =>
    unfold closureItems at h
    split at h
    · rename_i hassign
      rw [Expr.inlineItems_cons_of_isAssign rest hassign, List.foldlM_cons]
      cases hchain : bindings.bindChain item with
      | error reason =>
        rw [hchain] at h
        cases h
      | ok between =>
        rw [hchain] at h
        exact ih h
    · rename_i hassign
      split at h
      · cases h
      · have hskip : inlineItems (item :: rest) = inlineItems rest := List.filter_cons_of_neg hassign
        rw [hskip]
        exact ih h

namespace Bindings

/-- The bindings of one scope and the items that they are made of: the items of where clauses, bindings among arguments,
or those of a closure. -/
inductive MadeOf : List Expr → Bindings → Prop
  | clauses {args others : List Expr} {bindings : Bindings} (h : takeWhere [] args = .ok (others, bindings)) :
    MadeOf (whereItems args) bindings
  | arguments {run : Evaluator} {scope : ScopeId} {args : List Expr} {m : Machine} {fields : List (Value × Value)}
    {bindings : Bindings}
    (h : ((Evaluation.namedArgs run scope args [] []).run.run m).1 = .ok (.ok (fields, bindings))) :
    MadeOf (inlineItems args) bindings
  | closure {items : List Expr} {body : Expr} {bindings : Bindings}
    (h : Evaluation.closureParts items = .ok (body, bindings)) :
    MadeOf (whereItems items ++ inlineItems (otherArgs items)) bindings

/-- However bindings are made of items, each item binds names, no name is bound twice, and there are no other bindings. -/
theorem MadeOf.bound {items : List Expr} {bindings : Bindings} (h : MadeOf items bindings) :
    (∀ item ∈ items, item.IsBinding) ∧ (boundNames items).Nodup ∧ bindings = boundBy items := by
  cases h with
  | clauses h =>
    obtain ⟨hitems, hnodup, -, hbound⟩ := (takeWhere_nil_eq_ok_iff _).1 h
    exact ⟨hitems, hnodup, hbound⟩
  | arguments h =>
    exact (binds_nil.bindChains_eq_ok_iff List.nodup_nil _).1 (Evaluation.bindChains_of_namedArgs h)
  | closure h =>
    unfold Evaluation.closureParts at h
    obtain ⟨⟨others, clauses⟩, hwhere, h⟩ := bind_eq_ok_iff.1 h
    obtain ⟨⟨found, all⟩, hitems, h⟩ := bind_eq_ok_iff.1 h
    have hall : all = bindings := by
      cases found with
      | none => cases h
      | some body =>
        dsimp only at h
        split at h
        · cases h
        · cases h
          rfl
    obtain ⟨hclauses, hdistinct, rfl, rfl⟩ := (takeWhere_nil_eq_ok_iff _).1 hwhere
    obtain ⟨hinline, hnodup, rfl⟩ := ((binds_boundBy _).bindChains_eq_ok_iff hdistinct _).1
      (Evaluation.bindChains_of_closureItems hitems)
    refine ⟨List.forall_mem_append.2 ⟨hclauses, hinline⟩, ?_, hall.symm.trans ?_⟩
    · rwa [boundNames, List.flatMap_append]
    · rw [boundBy, boundBy, boundBy, List.flatMap_append]

end Bindings

/-! ## The binding of a name -/

namespace Bindings

/-- A name is found at the same place where the state of a binding is another one. -/
theorem find?_modify (bindings : Bindings) (place : Nat) (state : EntryState) (name : Value) :
    Bindings.find? (bindings.modify place fun entry => { entry with state }) name =
      (bindings.find? name).map fun found => (found.1, if found.1 = place then { found.2 with state } else found.2) := by
  have hplace : (bindings.modify place fun entry => { entry with state }).findIdx? (fun entry => name == entry.name) =
      bindings.findIdx? fun entry => name == entry.name := by
    rw [← fst_find, ← fst_find, fst_find_names, fst_find_names, names_modify]
  rw [find?, find?, hplace]
  cases bindings.findIdx? fun entry => name == entry.name with
  | none => rfl
  | some i =>
    simp only [Option.bind_eq_bind, Option.bind_some, List.getElem?_modify]
    cases bindings[i]? with
    | none => rfl
    | some entry =>
      by_cases hi : place = i
      · subst hi
        simp
      · simp [hi, Ne.symm hi]

/-- Different texts are bound at different places. -/
theorem eq_of_find?_string {bindings : Bindings} {name other : String} {place : Nat} {entry entry' : Entry}
    (h : bindings.find? (.string name) = some (place, entry))
    (h' : bindings.find? (.string other) = some (place, entry')) : name = other := by
  obtain ⟨hentry, hname⟩ := of_find? h
  obtain ⟨hentry', hother⟩ := of_find? h'
  rw [hentry] at hentry'
  cases hentry'
  cases hkey : entry.name with
  | string text =>
    rw [hkey] at hname hother
    exact (eq_of_beq (show (name == text) = true from hname)).trans
      (eq_of_beq (show (other == text) = true from hother)).symm
  | _ =>
    rw [hkey] at hname
    cases hname

/-- A text that is bound once has the binding that is there for it. -/
theorem Binds.find?_of_mem {bindings : Bindings} {names : List String} (h : bindings.Binds names) (hnodup : names.Nodup)
    {name : String} {state : EntryState} (hmem : ⟨.string name, state⟩ ∈ bindings) :
    ∃ place, bindings.find? (.string name) = some (place, ⟨.string name, state⟩) := by
  have hsame : (Value.string name == .string name) = true := beq_self_eq_true name
  cases hfind : bindings.find? (.string name) with
  | none =>
    have hnone := of_find?_eq_none hfind _ hmem
    rw [hsame] at hnone
    cases hnone
  | some found =>
    obtain ⟨place, entry⟩ := found
    obtain ⟨hentry, hname⟩ := of_find? hfind
    obtain ⟨i, hi⟩ := List.mem_iff_getElem?.1 hmem
    obtain ⟨other, -, hkey⟩ := h.getElem? hentry
    rw [hkey] at hname
    obtain rfl : name = other := eq_of_beq hname
    exact ⟨place, by rw [h.eq_of_name_eq hnodup hentry hi hkey]⟩

end Bindings

/-- A name that a scope binds itself is found there. -/
theorem Scopes.find?_own {scopes : Scopes} {scope : ScopeId} {name : Value} {place : Nat} {entry : Entry}
    (h : (scopes.get scope).bindings.find? name = some (place, entry)) :
    scopes.find? scope name = some (scope, place, entry) := by
  rw [find?, findIn?, h]

/-- Wherever a name is found, its scope binds it. -/
theorem Scopes.find?_of_holder {scopes : Scopes} {scope holder : ScopeId} {name : Value} {place : Nat} {entry : Entry}
    (h : scopes.find? scope name = some (holder, place, entry)) :
    (scopes.get holder).bindings.find? name = some (place, entry) := by
  rw [find?] at h
  generalize scope :: (scopes.get scope).enclosing = ids at h
  induction ids with
  | nil => cases h
  | cons id rest ih =>
    rw [findIn?] at h
    split at h
    · rename_i hfind
      cases h
      exact hfind
    · exact ih h

namespace Machine

/-- The place and the binding of a name of a scope. -/
def binding? (m : Machine) (scope : ScopeId) (name : String) : Option (Nat × Entry) :=
  (m.scopes.get scope).bindings.find? (.string name)

/-- What a scope knows of one of its names. -/
def state? (m : Machine) (scope : ScopeId) (name : String) : Option EntryState :=
  (m.binding? scope name).map fun found => found.2.state

variable {m m' : Machine} {scope : ScopeId} {name other : String} {place : Nat} {entry : Entry}

theorem state?_congr (h : m'.binding? scope name = m.binding? scope name) :
    m'.state? scope name = m.state? scope name := by
  rw [state?, state?, h]

theorem binding?_updated (h : m.binding? scope name = some (place, entry)) (state : EntryState) :
    (m.updated scope place state).binding? scope name = some (place, { entry with state }) := by
  rw [binding?, updated, Scopes.get_setState, if_pos rfl, Bindings.find?_modify]
  rw [binding?] at h
  rw [h]
  simp

theorem binding?_updated_of_ne (h : m.binding? scope name = some (place, entry)) (hne : other ≠ name)
    (state : EntryState) : (m.updated scope place state).binding? scope other = m.binding? scope other := by
  rw [binding?, updated, Scopes.get_setState, if_pos rfl, Bindings.find?_modify, binding?]
  cases hother : (m.scopes.get scope).bindings.find? (.string other) with
  | none => rfl
  | some found =>
    obtain ⟨place', entry'⟩ := found
    have hplace : place' ≠ place := by
      rintro rfl
      exact hne (Bindings.eq_of_find?_string hother h)
    simp [hplace]

theorem state?_of_binding? (h : m.binding? scope name = some (place, entry)) :
    m.state? scope name = some entry.state := by
  rw [state?, h]
  rfl

end Machine

end DynamicConfig

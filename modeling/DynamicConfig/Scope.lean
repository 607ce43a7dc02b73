import DynamicConfig.Value.Printer
/-!
# Scopes

A scope binds names to values, some of which are still to be evaluated, and has the scopes around it.
A binding is evaluated when it is first looked up, inside the scope that holds it, so the bindings of
one scope may use each other:

    unevaluated ──looked up──> in progress ──done──> evaluated

Scopes are made once and never get another binding; only the states of their bindings change.
-/

namespace DynamicConfig

/-- What is known of a binding. -/
inductive EntryState
  /-- Nothing has asked for it yet. -/
  | unevaluated (expr : Expr)
  /-- It is being evaluated; to ask for it now is to go round in a circle. -/
  | inProgress
  | evaluated (value : Value)

/-- A binding: a name and what is known of its value. -/
structure Entry where
  name : Value
  state : EntryState

/-- Bindings by their names, in the order in which they were made, no name twice. -/
abbrev Bindings := List Entry

namespace Bindings

/-- The place and the binding of a name. -/
def find? (bindings : Bindings) (name : Value) : Option (Nat × Entry) := do
  let place ← bindings.findIdx? fun entry => name == entry.name
  return (place, ← bindings[place]?)

/-- Whether a name is bound. -/
def contains (bindings : Bindings) (name : Value) : Bool :=
  bindings.any fun entry => name == entry.name

/-- Adds a binding. It fails, with the name, if the name is bound already. -/
def bind (bindings : Bindings) (name : Value) (state : EntryState) : Except String Bindings :=
  if bindings.contains name then .error name.displayName else .ok (bindings ++ [⟨name, state⟩])

/-- Adds a binding that is to be evaluated on its first use. -/
def bindExpr (bindings : Bindings) (name : Value) (expr : Expr) : Except String Bindings :=
  bindings.bind name (.unevaluated expr)

/-- Adds a binding of a value. -/
def bindValue (bindings : Bindings) (name value : Value) : Except String Bindings :=
  bindings.bind name (.evaluated value)

end Bindings

/-- The reason why a name cannot be bound once more. -/
def duplicateName (name : String) : String :=
  "duplicate name: " ++ name

/-- Bindings and the scopes around them, the nearest first. -/
structure Scope where
  enclosing : List ScopeId
  bindings : Bindings

/-- Every scope that has been made, each at the place that is its identity. -/
abbrev Scopes := Array Scope

namespace Scopes

/-- The scope of an identity. What is no identity of a scope counts as an empty one. -/
def get (scopes : Scopes) (id : ScopeId) : Scope :=
  scopes.getD id ⟨[], []⟩

/-- The scope right around a scope. -/
def parent? (scopes : Scopes) (id : ScopeId) : Option ScopeId :=
  (scopes.get id).enclosing.head?

/-- A new scope inside another one, or inside none. -/
def add (scopes : Scopes) (parent : Option ScopeId) (bindings : Bindings) : ScopeId × Scopes :=
  let enclosing := match parent with
    | some id => id :: (scopes.get id).enclosing
    | none => []
  (scopes.size, scopes.push ⟨enclosing, bindings⟩)

/-- Where a name is bound: the first of some scopes that binds it, the place and the binding. -/
def findIn? (scopes : Scopes) (name : Value) : List ScopeId → Option (ScopeId × Nat × Entry)
  | [] => none
  | id :: rest =>
    match (scopes.get id).bindings.find? name with
    | some (place, entry) => some (id, place, entry)
    | none => findIn? scopes name rest

/-- Where a name is bound, seen from a scope: in it or in one around it, the nearest one counts. -/
def find? (scopes : Scopes) (id : ScopeId) (name : Value) : Option (ScopeId × Nat × Entry) :=
  scopes.findIn? name (id :: (scopes.get id).enclosing)

/-- What is found is a binding of the scope that holds it. -/
theorem getElem?_of_find? {scopes : Scopes} {id holder : ScopeId} {name : Value} {place : Nat} {entry : Entry}
    (h : scopes.find? id name = some (holder, place, entry)) : (scopes.get holder).bindings[place]? = some entry := by
  rw [find?] at h
  generalize id :: (scopes.get id).enclosing = ids at h
  induction ids with
  | nil => cases h
  | cons id rest ih =>
    rw [findIn?] at h
    split at h
    · rename_i hbind
      cases h
      simp only [Bindings.find?, Option.bind_eq_bind, Option.bind_eq_some_iff] at hbind
      obtain ⟨i, _, e, he, hp⟩ := hbind
      cases hp
      exact he
    · exact ih h

/-- Changes the state of the binding at a place of a scope. -/
def setState (scopes : Scopes) (id : ScopeId) (place : Nat) (state : EntryState) : Scopes :=
  scopes.modify id fun scope =>
    { scope with bindings := scope.bindings.modify place fun entry => { entry with state := state } }

end Scopes

end DynamicConfig

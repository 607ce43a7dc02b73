import DynamicConfig.Proofs.Clean
import Mathlib.Data.List.Nodup
/-!
# What where clauses bind

The where clauses among arguments bind the names of all their items, in order. They can be taken out exactly if every
item is a binding and no name is bound twice (`Bindings.takeWhere_eq_ok_iff`); the same is true of a single chain of
bindings (`Bindings.bindChain_eq_ok_iff`).
-/

namespace DynamicConfig

/-! ## Items and their names -/

namespace Expr

/-- The items of all where clauses among arguments, in order. -/
def whereItems (args : List Expr) : List Expr :=
  args.flatMap fun arg => arg.whereArgs?.getD []

/-- The arguments that are no where clauses. -/
def otherArgs (args : List Expr) : List Expr :=
  args.filter fun arg => arg.whereArgs?.isNone

/-- Whether an item binds a name. -/
def IsBinding (item : Expr) : Prop :=
  item.bindingChain.1 ≠ []

/-- The names that items bind, each name of a chain by itself. -/
def boundNames (items : List Expr) : List String :=
  items.flatMap fun item => item.bindingChain.1

/-- The bindings of an item, which wait for their evaluation. -/
def bound (item : Expr) : Bindings :=
  (aliases (item.location?.getD ⟨0, 0⟩) item.bindingChain.2 item.bindingChain.1).map fun pair =>
    ⟨.string pair.1, .unevaluated pair.2⟩

/-- The bindings of several items. -/
def boundBy (items : List Expr) : Bindings :=
  items.flatMap bound

/-- An item binds a name exactly if it is recognised as a binding. -/
theorem isBinding_iff (item : Expr) : item.IsBinding ↔ item.asBinding?.isSome = true := by
  unfold IsBinding
  cases hbinding : item.asBinding? with
  | none => simp [bindingChain_of_asBinding?_eq_none hbinding]
  | some pair =>
    obtain ⟨head, kind, text, rfl, -⟩ := asBinding?_eq_some_iff.1 hbinding
    rw [bindingChain, hbinding]
    simp

/-- A canonical item is recognised as a binding exactly if its node is one. -/
theorem Canonical.isSome_asBinding? {item : Expr} (h : item.Canonical .item) :
    item.asBinding?.isSome = item.isAssign := by
  cases h with
  | item h => rw [h.asBinding?_eq_none, h.not_isAssign, Option.isSome_none]
  | assign _ =>
    rw [asBinding?_assign]
    rfl

/-- A canonical item is a binding exactly if its node is one. -/
theorem Canonical.isBinding_iff {item : Expr} (h : item.Canonical .item) : item.IsBinding ↔ item.isAssign = true := by
  rw [Expr.isBinding_iff, h.isSome_asBinding?]

end Expr

open DynamicConfig.Expr (IsBinding boundNames bound boundBy whereItems otherArgs)

/-- The first name of a chain stands for the value, each other one for the name before it. -/
theorem aliases_eq_zip (location : Location) (value : Expr) (names : List String) :
    aliases location value names = names.zip (value :: names.map (.nameLeaf location)) := by
  induction names generalizing value with
  | nil => rfl
  | cons name rest ih => exact congrArg ((name, value) :: ·) (ih _)

theorem fst_aliases (location : Location) (value : Expr) (names : List String) :
    (aliases location value names).map Prod.fst = names := by
  rw [aliases_eq_zip]
  exact List.map_fst_zip (by simp)

theorem Value.any_string_beq_iff (name : String) (names : List String) :
    (names.map Value.string).any (Value.string name == ·) = true ↔ name ∈ names := by
  rw [List.any_map, List.any_eq_true]
  constructor
  · rintro ⟨other, hother, hsame⟩
    have hsame : (name == other) = true := hsame
    exact beq_iff_eq.1 hsame ▸ hother
  · intro hname
    exact ⟨name, hname, (beq_self_eq_true name : (name == name) = true)⟩

/-! ## Bindings of texts -/

namespace Bindings

/-- The bindings have these texts as names, in this order. -/
def Binds (bindings : Bindings) (names : List String) : Prop :=
  bindings.map Entry.name = names.map Value.string

variable {bindings bindings' : Bindings} {names : List String}

theorem binds_nil : Binds [] [] := rfl

theorem Binds.append {added : Bindings} {others : List String} (h : bindings.Binds names) (hadded : added.Binds others) :
    Binds (bindings ++ added) (names ++ others) := by
  unfold Binds at h hadded ⊢
  rw [List.map_append, List.map_append, h, hadded]

theorem binds_bound (item : Expr) : item.bound.Binds item.bindingChain.1 := by
  unfold Binds bound
  rw [List.map_map]
  conv => rhs; rw [← fst_aliases (item.location?.getD ⟨0, 0⟩) item.bindingChain.2 item.bindingChain.1]
  rw [List.map_map]
  rfl

theorem binds_boundBy (items : List Expr) : (boundBy items).Binds (boundNames items) := by
  induction items with
  | nil => rfl
  | cons item rest ih => exact (binds_bound item).append ih

theorem Binds.contains_iff (h : bindings.Binds names) (name : String) :
    bindings.contains (.string name) = true ↔ name ∈ names := by
  have hany : bindings.contains (.string name) = (bindings.map Entry.name).any (Value.string name == ·) := by
    rw [contains, List.any_map]
    rfl
  rw [hany, h]
  exact Value.any_string_beq_iff name names

/-! ## What is added -/

/-- An item can be added exactly if it is a binding, no name occurs twice and all names are new. -/
theorem bindChain_eq_ok_iff (bindings : Bindings) (item : Expr) :
    bindings.bindChain item = .ok bindings' ↔
      item.IsBinding ∧ item.bindingChain.1.Nodup ∧
        (∀ name ∈ item.bindingChain.1, bindings.contains (.string name) = false) ∧ bindings' = bindings ++ item.bound := by
  unfold bindChain IsBinding bound
  split
  · rename_i value hchain
    rw [hchain]
    simp
  · rename_i chain value hne hchain
    rw [hchain, bindAll_eq_ok_iff, fst_aliases]
    exact ⟨fun hall => ⟨hne, hall⟩, And.right⟩

/-- A binding that cannot be added has a name that is bound already. -/
theorem of_bindChain_eq_error {bindings : Bindings} {item : Expr} (hbinding : item.IsBinding) {reason : String}
    (h : bindings.bindChain item = .error reason) : ∃ name ∈ item.bindingChain.1, reason = duplicateName name := by
  unfold bindChain at h
  split at h
  · rename_i value hchain
    exact absurd (congrArg Prod.fst hchain) hbinding
  · rename_i chain value _ hchain
    obtain ⟨name, hname, hreason⟩ := of_bindAll_eq_error h
    rw [fst_aliases] at hname
    exact ⟨name, hchain ▸ hname, hreason⟩

/-- Only what is no binding is refused as none. -/
theorem bindChain_eq_missing_iff (bindings : Bindings) (item : Expr) :
    bindings.bindChain item = .error "missing = in where" ↔ ¬ item.IsBinding := by
  constructor
  · intro hmissing hbinding
    obtain ⟨name, -, hreason⟩ := of_bindChain_eq_error hbinding hmissing
    -- The two reasons differ in their first letters.
    have hchars := congrArg String.toList hreason
    simp [duplicateName] at hchars
  · intro hbinding
    unfold bindChain
    split
    · rfl
    · rename_i chain value hne hchain
      rw [IsBinding, hchain, not_not] at hbinding
      exact (hne hbinding).elim

/-- An item can be added to bindings of texts exactly if it is a binding and no name occurs twice. -/
theorem Binds.bindChain_eq_ok_iff (h : bindings.Binds names) (hnodup : names.Nodup) (item : Expr) :
    bindings.bindChain item = .ok bindings' ↔
      item.IsBinding ∧ (names ++ item.bindingChain.1).Nodup ∧ bindings' = bindings ++ item.bound := by
  have hnew : (∀ name ∈ item.bindingChain.1, bindings.contains (.string name) = false) ↔
      names.Disjoint item.bindingChain.1 := by
    simp only [← Bool.not_eq_true, h.contains_iff]
    exact ⟨fun hall name hname hitem => hall name hitem hname, fun hall name hitem hname => hall hname hitem⟩
  rw [Bindings.bindChain_eq_ok_iff, hnew, List.nodup_append', and_assoc, and_assoc]
  simp only [hnodup, true_and]

/-- Items can be added one after the other exactly if all of them are bindings and no name occurs twice. -/
theorem Binds.bindChains_eq_ok_iff (h : bindings.Binds names) (hnodup : names.Nodup) (items : List Expr) :
    items.foldlM bindChain bindings = .ok bindings' ↔
      (∀ item ∈ items, item.IsBinding) ∧ (names ++ boundNames items).Nodup ∧ bindings' = bindings ++ boundBy items := by
  induction items generalizing bindings names with
  | nil => simp [boundNames, boundBy, hnodup, pure, Except.pure, eq_comm]
  | cons item rest ih =>
    have hbinds : Binds (bindings ++ item.bound) (names ++ item.bindingChain.1) := h.append (binds_bound item)
    have hnames : names ++ boundNames (item :: rest) = names ++ item.bindingChain.1 ++ boundNames rest := by
      simp [boundNames]
    have hbound : bindings ++ boundBy (item :: rest) = bindings ++ item.bound ++ boundBy rest := by simp [boundBy]
    rw [List.foldlM_cons, bind_eq_ok_iff, List.forall_mem_cons, hnames, hbound]
    constructor
    · rintro ⟨between, hbind, hrest⟩
      obtain ⟨hitem, hfirst, rfl⟩ := (h.bindChain_eq_ok_iff hnodup item).1 hbind
      obtain ⟨hitems, hall, rfl⟩ := (ih hbinds hfirst).1 hrest
      exact ⟨⟨hitem, hitems⟩, hall, rfl⟩
    · rintro ⟨⟨hitem, hitems⟩, hall, rfl⟩
      have hfirst := hall.of_append_left
      exact ⟨_, (h.bindChain_eq_ok_iff hnodup item).2 ⟨hitem, hfirst, rfl⟩, (ih hbinds hfirst).2 ⟨hitems, hall, rfl⟩⟩

/-- Where clauses can be taken out exactly if all their items are bindings and no name occurs twice. -/
theorem Binds.takeWhere_eq_ok_iff (h : bindings.Binds names) (hnodup : names.Nodup) (args : List Expr) {others : List Expr} :
    bindings.takeWhere args = .ok (others, bindings') ↔
      (∀ item ∈ whereItems args, item.IsBinding) ∧ (names ++ boundNames (whereItems args)).Nodup ∧
        others = otherArgs args ∧ bindings' = bindings ++ boundBy (whereItems args) := by
  induction args generalizing bindings names others with
  | nil => simp [takeWhere, whereItems, otherArgs, boundNames, boundBy, hnodup, eq_comm]
  | cons arg rest ih =>
    rw [takeWhere]
    cases harg : arg.whereArgs? with
    | some clauses =>
      have hitems : whereItems (arg :: rest) = clauses ++ whereItems rest := by simp [whereItems, harg]
      have hothers : otherArgs (arg :: rest) = otherArgs rest := by simp [otherArgs, harg]
      have hbinds : Binds (bindings ++ boundBy clauses) (names ++ boundNames clauses) := h.append (binds_boundBy clauses)
      have hnames : names ++ boundNames (clauses ++ whereItems rest) =
          names ++ boundNames clauses ++ boundNames (whereItems rest) := by simp [boundNames]
      have hbound : bindings ++ boundBy (clauses ++ whereItems rest) =
          bindings ++ boundBy clauses ++ boundBy (whereItems rest) := by simp [boundBy]
      dsimp only
      rw [bind_eq_ok_iff, hitems, hothers, List.forall_mem_append, hnames, hbound]
      constructor
      · rintro ⟨between, hbind, hrest⟩
        obtain ⟨hclauses, hfirst, rfl⟩ := (h.bindChains_eq_ok_iff hnodup clauses).1 hbind
        obtain ⟨hothers, hall, hrest⟩ := (ih hbinds hfirst).1 hrest
        exact ⟨⟨hclauses, hothers⟩, hall, hrest⟩
      · rintro ⟨⟨hclauses, hothers⟩, hall, hrest⟩
        have hfirst := hall.of_append_left
        exact ⟨_, (h.bindChains_eq_ok_iff hnodup clauses).2 ⟨hclauses, hfirst, rfl⟩,
          (ih hbinds hfirst).2 ⟨hothers, hall, hrest⟩⟩
    | none =>
      have hitems : whereItems (arg :: rest) = whereItems rest := by simp [whereItems, harg]
      have hothers : otherArgs (arg :: rest) = arg :: otherArgs rest := by simp [otherArgs, harg]
      dsimp only
      rw [bind_eq_ok_iff, hitems, hothers]
      constructor
      · rintro ⟨⟨left, between⟩, hrest, hdone⟩
        cases hdone
        obtain ⟨hbindings, hall, rfl, hbound⟩ := (ih h hnodup).1 hrest
        exact ⟨hbindings, hall, rfl, hbound⟩
      · rintro ⟨hbindings, hall, rfl, rfl⟩
        exact ⟨_, (ih h hnodup).2 ⟨hbindings, hall, rfl, rfl⟩, rfl⟩

/-- The where clauses of a call. -/
theorem takeWhere_nil_eq_ok_iff (args : List Expr) {others : List Expr} :
    takeWhere [] args = .ok (others, bindings') ↔
      (∀ item ∈ whereItems args, item.IsBinding) ∧ (boundNames (whereItems args)).Nodup ∧
        others = otherArgs args ∧ bindings' = boundBy (whereItems args) :=
  binds_nil.takeWhere_eq_ok_iff List.nodup_nil args

end Bindings

end DynamicConfig

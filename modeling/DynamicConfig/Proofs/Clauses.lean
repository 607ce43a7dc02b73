import DynamicConfig.Evaluation
/-!
# Bindings among arguments

What where clauses and bindings add to some bindings is still to be evaluated. So a property of bindings that each item
keeps is kept by all of them (`Bindings.Kept.takeWhere`, `Bindings.Kept.closureParts`), and the other arguments are those
that were given. The states of bindings are a case of it (`ItemKind`), and so is that they all wait for their evaluation
(`Bindings.Waiting`).
-/

namespace DynamicConfig

namespace Bindings

variable {bindings bindings' : Bindings}

/-! ## What is added -/

theorem bind_eq_ok_iff {ε α β : Type} {first : Except ε α} {next : α → Except ε β} {b : β} :
    (first >>= next) = .ok b ↔ ∃ a, first = .ok a ∧ next a = .ok b := by
  cases first with
  | error e => simp [Bind.bind, Except.bind]
  | ok a => simp [Bind.bind, Except.bind]

theorem contains_concat_iff (bindings : Bindings) (other : String) (state : EntryState) (name : String) :
    contains (bindings ++ [⟨.string other, state⟩]) (.string name) = false ↔
      bindings.contains (.string name) = false ∧ name ≠ other := by
  have hsame : (Value.string name == .string other) = (name == other) := rfl
  rw [contains, List.any_append, List.any_cons, List.any_nil, Bool.or_false, Bool.or_eq_false_iff, hsame,
    beq_eq_false_iff_ne, contains]

/-- A binding can be added exactly if its name is new. -/
theorem bindExpr_eq_ok_iff (bindings : Bindings) (name : String) (expr : Expr) :
    (bindings.bindExpr (.string name) expr).mapError duplicateName = .ok bindings' ↔
      bindings.contains (.string name) = false ∧ bindings' = bindings ++ [⟨.string name, .unevaluated expr⟩] := by
  unfold bindExpr bind
  split
  · rename_i hthere
    constructor
    · intro hok
      cases hok
    · rintro ⟨hnew, -⟩
      rw [hthere] at hnew
      cases hnew
  · rename_i hnew
    constructor
    · intro hok
      cases hok
      exact ⟨Bool.eq_false_iff.2 hnew, rfl⟩
    · rintro ⟨-, rfl⟩
      rfl

/-- Several bindings can be added exactly if no name occurs twice and all names are new. -/
theorem bindAll_eq_ok_iff (bindings : Bindings) (pairs : List (String × Expr)) :
    bindings.bindAll pairs = .ok bindings' ↔
      (pairs.map Prod.fst).Nodup ∧ (∀ name ∈ pairs.map Prod.fst, bindings.contains (.string name) = false) ∧
        bindings' = bindings ++ pairs.map fun pair => ⟨.string pair.1, .unevaluated pair.2⟩ := by
  induction pairs generalizing bindings with
  | nil =>
    have hnone : bindings.bindAll [] = .ok bindings := rfl
    simp [hnone, @eq_comm _ bindings]
  | cons pair rest ih =>
    obtain ⟨name, expr⟩ := pair
    rw [bindAll, List.foldlM_cons, bind_eq_ok_iff, List.map_cons, List.map_cons, List.nodup_cons, List.forall_mem_cons]
    constructor
    · rintro ⟨between, hfirst, hrest⟩
      obtain ⟨hnew, rfl⟩ := (bindExpr_eq_ok_iff bindings name expr).1 hfirst
      obtain ⟨hnodup, hall, rfl⟩ := (ih _).1 hrest
      have hsplit := fun other hother => (contains_concat_iff bindings name _ other).1 (hall other hother)
      refine ⟨⟨fun hthere => (hsplit name hthere).2 rfl, hnodup⟩, ⟨hnew, fun other hother => (hsplit other hother).1⟩, ?_⟩
      exact List.append_assoc bindings _ _
    · rintro ⟨⟨hname, hnodup⟩, ⟨hnew, hall⟩, rfl⟩
      refine ⟨_, (bindExpr_eq_ok_iff bindings name expr).2 ⟨hnew, rfl⟩, (ih _).2 ⟨hnodup, fun other hother => ?_, ?_⟩⟩
      · refine (contains_concat_iff bindings name _ other).2 ⟨hall other hother, ?_⟩
        rintro rfl
        exact hname hother
      · exact (List.append_assoc bindings [_] _).symm

/-- What cannot be added is a name that is bound already. -/
theorem of_bindAll_eq_error {bindings : Bindings} {pairs : List (String × Expr)} {reason : String}
    (h : bindings.bindAll pairs = .error reason) : ∃ name ∈ pairs.map Prod.fst, reason = duplicateName name := by
  induction pairs generalizing bindings with
  | nil => cases h
  | cons pair rest ih =>
    rw [bindAll, List.foldlM_cons, bindExpr, bind] at h
    split at h
    · cases h
      exact ⟨pair.1, List.mem_cons_self, rfl⟩
    · obtain ⟨name, hname, hreason⟩ := ih h
      exact ⟨name, List.mem_cons_of_mem _ hname, hreason⟩

theorem forall_of_bindAll {Fine : Entry → Prop} (hb : ∀ entry ∈ bindings, Fine entry) {pairs : List (String × Expr)}
    (hp : ∀ pair ∈ pairs, Fine ⟨.string pair.1, .unevaluated pair.2⟩) (h : bindings.bindAll pairs = .ok bindings') :
    ∀ entry ∈ bindings', Fine entry := by
  obtain ⟨-, -, rfl⟩ := (bindAll_eq_ok_iff bindings pairs).1 h
  refine List.forall_mem_append.2 ⟨hb, fun entry hentry => ?_⟩
  obtain ⟨pair, hpair, rfl⟩ := List.mem_map.1 hentry
  exact hp pair hpair

theorem forall_of_bindChain {Fine : Entry → Prop} (hb : ∀ entry ∈ bindings, Fine entry) {arg : Expr}
    (hp : ∀ location, ∀ pair ∈ aliases location arg.bindingChain.2 arg.bindingChain.1,
      Fine ⟨.string pair.1, .unevaluated pair.2⟩) (h : bindings.bindChain arg = .ok bindings') :
    ∀ entry ∈ bindings', Fine entry := by
  unfold bindChain at h
  split at h
  · cases h
  · rename_i names value _ hchain
    rw [hchain] at hp
    exact forall_of_bindAll hb (hp _) h

/-! ## What is kept -/

/-- Adding an item keeps a property of bindings, and what where clauses hold are items, too. -/
structure Kept (Item : Expr → Prop) (P : Bindings → Prop) : Prop where
  clauses {arg : Expr} {clauses : List Expr} :
    Item arg → arg.whereArgs? = some clauses → ∀ clause ∈ clauses, Item clause
  chain {bindings bindings' : Bindings} {arg : Expr} :
    P bindings → Item arg → bindings.bindChain arg = .ok bindings' → P bindings'

namespace Kept

variable {Item : Expr → Prop} {P : Bindings → Prop}

theorem bindChains (hkept : Kept Item P) (hb : P bindings) {args : List Expr} (ha : ∀ arg ∈ args, Item arg)
    (h : args.foldlM bindChain bindings = .ok bindings') : P bindings' := by
  induction args generalizing bindings with
  | nil => cases h; exact hb
  | cons arg rest ih =>
    obtain ⟨harg, hrest⟩ := List.forall_mem_cons.1 ha
    rw [List.foldlM_cons] at h
    obtain ⟨between, hchain, h⟩ := bind_eq_ok_iff.1 h
    exact ih (hkept.chain hb harg hchain) hrest h

/-- What where clauses leave are items. -/
theorem takeWhere (hkept : Kept Item P) (hb : P bindings) {args others : List Expr} (ha : ∀ arg ∈ args, Item arg)
    (h : bindings.takeWhere args = .ok (others, bindings')) : (∀ arg ∈ others, Item arg) ∧ P bindings' := by
  induction args generalizing bindings others with
  | nil => cases h; exact ⟨ha, hb⟩
  | cons arg rest ih =>
    obtain ⟨harg, hrest⟩ := List.forall_mem_cons.1 ha
    unfold Bindings.takeWhere at h
    split at h
    · rename_i clauses hclauses
      obtain ⟨between, hfold, h⟩ := bind_eq_ok_iff.1 h
      exact ih (hkept.bindChains hb (hkept.clauses harg hclauses) hfold) hrest h
    · obtain ⟨⟨left, between⟩, hwhere, h⟩ := bind_eq_ok_iff.1 h
      cases h
      obtain ⟨hleft, hall⟩ := ih hb hrest hwhere
      exact ⟨List.forall_mem_cons.2 ⟨harg, hleft⟩, hall⟩

theorem closureItems (hkept : Kept Item P) (hb : P bindings) {items : List Expr} (hi : ∀ item ∈ items, Item item)
    {body found : Option Expr} (hbody : ∀ e ∈ body, Item e ∧ e.isAssign = false)
    (h : Evaluation.closureItems items body bindings = .ok (found, bindings')) :
    (∀ e ∈ found, Item e ∧ e.isAssign = false) ∧ P bindings' := by
  induction items generalizing body bindings with
  | nil => cases h; exact ⟨hbody, hb⟩
  | cons item rest ih =>
    obtain ⟨hitem, hrest⟩ := List.forall_mem_cons.1 hi
    unfold Evaluation.closureItems at h
    split at h
    · obtain ⟨between, hchain, h⟩ := bind_eq_ok_iff.1 h
      exact ih (hkept.chain hb hitem hchain) hrest hbody h
    · rename_i hassign
      split at h
      · cases h
      · refine ih hb hrest (fun e he => ?_) h
        cases he
        exact ⟨hitem, Bool.eq_false_iff.2 hassign⟩

/-- The body of a closure is an item that is no binding. -/
theorem closureParts (hkept : Kept Item P) (hnil : P []) {items : List Expr} (hi : ∀ item ∈ items, Item item)
    {body : Expr} (h : Evaluation.closureParts items = .ok (body, bindings)) :
    (Item body ∧ body.isAssign = false) ∧ P bindings := by
  unfold Evaluation.closureParts at h
  obtain ⟨⟨others, between⟩, hwhere, h⟩ := bind_eq_ok_iff.1 h
  obtain ⟨⟨found, all⟩, hitems, h⟩ := bind_eq_ok_iff.1 h
  obtain ⟨hothers, hbetween⟩ := hkept.takeWhere hnil hi hwhere
  obtain ⟨hfound, hall⟩ := hkept.closureItems hbetween hothers (by simp) hitems
  cases found with
  | none => cases h
  | some e =>
    dsimp only at h
    split at h
    · cases h
    · cases h
      exact ⟨hfound _ rfl, hall⟩

end Kept

end Bindings

/-! ## States of bindings -/

/-- Every binding is in a state with a property. -/
def Bindings.All (P : EntryState → Prop) (bindings : Bindings) : Prop :=
  ∀ entry ∈ bindings, P entry.state

theorem Bindings.all_nil {P : EntryState → Prop} : Bindings.All P [] := by
  simp [All]

/-- A kind of items of argument lists and closures, with the terms among them and the states that bindings of
its expressions have. -/
structure ItemKind where
  Item : Expr → Prop
  Term : Expr → Prop
  State : EntryState → Prop
  clauses {arg : Expr} {clauses : List Expr} :
    Item arg → arg.whereArgs? = some clauses → ∀ clause ∈ clauses, Item clause
  chain {arg : Expr} : Item arg → ∀ location,
    ∀ pair ∈ aliases location arg.bindingChain.2 arg.bindingChain.1, State (.unevaluated pair.2)
  term {item : Expr} : Item item → item.isAssign = false → Term item

namespace ItemKind

variable (kind : ItemKind) {bindings bindings' : Bindings}

theorem kept : Bindings.Kept kind.Item (Bindings.All kind.State) where
  clauses := kind.clauses
  chain hb ha h := Bindings.forall_of_bindChain hb (kind.chain ha) h

theorem bindChain {arg : Expr} (hb : bindings.All kind.State) (ha : kind.Item arg)
    (h : bindings.bindChain arg = .ok bindings') : bindings'.All kind.State :=
  kind.kept.chain hb ha h

/-- What where clauses leave are items. -/
theorem takeWhere {args others : List Expr} (hb : bindings.All kind.State) (ha : ∀ arg ∈ args, kind.Item arg)
    (h : bindings.takeWhere args = .ok (others, bindings')) :
    (∀ arg ∈ others, kind.Item arg) ∧ bindings'.All kind.State :=
  kind.kept.takeWhere hb ha h

/-- The body of a closure is a term. -/
theorem closureParts {items : List Expr} (hi : ∀ item ∈ items, kind.Item item) {body : Expr}
    (h : Evaluation.closureParts items = .ok (body, bindings)) : kind.Term body ∧ bindings.All kind.State := by
  obtain ⟨⟨hitem, hassign⟩, hall⟩ := kind.kept.closureParts Bindings.all_nil hi h
  exact ⟨kind.term hitem hassign, hall⟩

end ItemKind

/-! ## Bindings of expressions -/

namespace Bindings

variable {bindings bindings' : Bindings}

/-- Bindings of texts to expressions that are still to be evaluated. -/
def Waiting (bindings : Bindings) : Prop :=
  ∀ entry ∈ bindings, ∃ name expr, entry = ⟨.string name, .unevaluated expr⟩

theorem Waiting.names (h : bindings.Waiting) : ∃ names : List String, bindings.map Entry.name = names.map Value.string := by
  induction bindings with
  | nil => exact ⟨[], rfl⟩
  | cons entry rest ih =>
    obtain ⟨⟨name, expr, rfl⟩, hrest⟩ := List.forall_mem_cons.1 h
    obtain ⟨names, hnames⟩ := ih hrest
    exact ⟨name :: names, congrArg (Value.string name :: ·) hnames⟩

theorem waiting_nil : Waiting [] :=
  fun _ h => by cases h

/-- Any item is bound to wait. -/
theorem kept_waiting : Kept (fun _ => True) Waiting where
  clauses _ _ _ _ := trivial
  chain hb _ h := forall_of_bindChain hb (fun _ pair _ => ⟨pair.1, pair.2, rfl⟩) h

theorem Waiting.bindChain (hb : bindings.Waiting) {arg : Expr} (h : bindings.bindChain arg = .ok bindings') :
    bindings'.Waiting :=
  kept_waiting.chain hb trivial h

theorem Waiting.takeWhere (hb : bindings.Waiting) {args others : List Expr}
    (h : bindings.takeWhere args = .ok (others, bindings')) : bindings'.Waiting :=
  (kept_waiting.takeWhere hb (fun _ _ => trivial) h).2

theorem waiting_closureParts {items : List Expr} {body : Expr}
    (h : Evaluation.closureParts items = .ok (body, bindings)) : bindings.Waiting :=
  (kept_waiting.closureParts waiting_nil (fun _ _ => trivial) h).2

end Bindings

end DynamicConfig

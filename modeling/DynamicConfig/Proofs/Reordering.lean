import DynamicConfig.Proofs.Budgets
import DynamicConfig.Proofs.Lockstep
import DynamicConfig.Proofs.WhereClauses
/-!
# The order of where bindings

The where clauses of a call bind names in a scope of the call's own. Evaluation looks names up and never asks where in a
scope they are bound, so a call whose where bindings come in another order has the same outcome and leaves the same
machine, but for the order of the bindings in that one scope (`where_bindings_in_any_order`). The proof is a simulation of
two machines that differ in the order of the bindings of one scope.
-/

namespace DynamicConfig

open DynamicConfig.Expr (IsBinding boundNames bound boundBy whereItems otherArgs)

theorem Value.eq_string_of_beq {v : Value} {name : String} (h : (v == .string name) = true) : v = .string name := by
  cases v with
  | string text => rw [eq_of_beq (show (text == name) = true from h)]
  | _ => cases h

/-! ## Bindings in another order -/

namespace Bindings

variable {bindings bindings' : Bindings} {names names' : List String}

theorem of_find? {name : Value} {place : Nat} {entry : Entry} (h : bindings.find? name = some (place, entry)) :
    bindings[place]? = some entry ∧ (name == entry.name) = true := by
  have hplace := bindings.fst_find name
  rw [h, Option.map_some] at hplace
  obtain ⟨hlt, hname, -⟩ := List.findIdx?_eq_some_iff_getElem.1 hplace.symm
  rw [find?, ← hplace] at h
  have hentry : bindings[place]? = some entry := by simpa [List.getElem?_eq_getElem hlt] using h
  obtain ⟨_, rfl⟩ := List.getElem?_eq_some_iff.1 hentry
  exact ⟨hentry, hname⟩

theorem of_find?_eq_none {name : Value} (h : bindings.find? name = none) :
    ∀ entry ∈ bindings, (name == entry.name) = false := by
  have hplace := bindings.fst_find name
  rw [h] at hplace
  exact List.findIdx?_eq_none_iff.1 hplace.symm

theorem Binds.getElem? (h : bindings.Binds names) {place : Nat} {entry : Entry} (hentry : bindings[place]? = some entry) :
    ∃ name, names[place]? = some name ∧ entry.name = .string name := by
  have hname := congrArg (·[place]?) h
  rw [List.getElem?_map, hentry, List.getElem?_map] at hname
  obtain ⟨name, hplace, heq⟩ := Option.map_eq_some_iff.1 hname.symm
  exact ⟨name, hplace, heq.symm⟩

/-- A name is bound once, so there is one binding of it. -/
theorem Binds.eq_of_name_eq (h : bindings.Binds names) (hnodup : names.Nodup) {i j : Nat} {entry other : Entry}
    (hentry : bindings[i]? = some entry) (hother : bindings[j]? = some other) (hname : entry.name = other.name) :
    entry = other := by
  obtain ⟨name, hi, heq⟩ := h.getElem? hentry
  obtain ⟨_, hj, hsame⟩ := h.getElem? hother
  rw [heq, hsame, Value.string.injEq] at hname
  subst hname
  have hplace : i = j := (List.getElem?_inj (List.getElem?_eq_some_iff.1 hi).1 hnodup).1 (hi.trans hj.symm)
  rw [hplace, hother] at hentry
  exact (Option.some.inj hentry).symm

/-- A name has the same binding in another order. -/
theorem Binds.find_perm (h : bindings.Binds names) (h' : bindings'.Binds names') (hnodup : names'.Nodup)
    (hperm : bindings.Perm bindings') (name : Value) :
    Option.Rel (fun found found' => found.2 = found'.2 ∧ ∃ key, names[found.1]? = some key ∧ names'[found'.1]? = some key)
      (bindings.find? name) (bindings'.find? name) := by
  cases hfound : bindings.find? name with
  | none =>
    cases hfound' : bindings'.find? name with
    | none => exact .none
    | some found' =>
      obtain ⟨hentry, hname⟩ := of_find? hfound'
      rw [of_find?_eq_none hfound _ (hperm.mem_iff.2 (List.mem_of_getElem? hentry))] at hname
      cases hname
  | some found =>
    obtain ⟨hentry, hname⟩ := of_find? hfound
    have hmem := hperm.mem_iff.1 (List.mem_of_getElem? hentry)
    cases hfound' : bindings'.find? name with
    | none =>
      rw [of_find?_eq_none hfound' _ hmem] at hname
      cases hname
    | some found' =>
      obtain ⟨hentry', hname'⟩ := of_find? hfound'
      obtain ⟨key, hkey, heq⟩ := h.getElem? hentry
      obtain ⟨key', hkey', heq'⟩ := h'.getElem? hentry'
      rw [heq] at hname
      rw [heq', Value.eq_string_of_beq hname] at hname'
      obtain rfl : key = key' := eq_of_beq hname'
      obtain ⟨place, hthere⟩ := List.mem_iff_getElem?.1 hmem
      exact .some ⟨h'.eq_of_name_eq hnodup hthere hentry' (heq.trans heq'.symm), key, hkey, hkey'⟩

theorem contains_perm (hperm : bindings.Perm bindings') (name : Value) :
    bindings.contains name = bindings'.contains name :=
  hperm.any_eq

/-- The binding at the place of a name is the one that has the name. -/
theorem Binds.modify_eq_map (h : bindings.Binds names) (hnodup : names.Nodup) {place : Nat} {name : String}
    (hplace : names[place]? = some name) (change : Entry → Entry) :
    bindings.modify place change =
      bindings.map fun entry => if Value.string name == entry.name then change entry else entry := by
  refine List.ext_getElem? fun i => ?_
  rw [List.getElem?_modify, List.getElem?_map]
  cases hentry : bindings[i]? with
  | none => rfl
  | some entry =>
    obtain ⟨other, hother, hname⟩ := h.getElem? hentry
    rw [Option.map_some, hname]
    by_cases hsame : place = i
    · subst hsame
      rw [hplace, Option.some.injEq] at hother
      subst hother
      have hfound : (Value.string name == .string name) = true := beq_self_eq_true name
      simp [hfound]
    · have hdistinct : ¬ (Value.string name == .string other) = true := by
        intro heq
        obtain rfl : name = other := eq_of_beq heq
        exact hsame ((List.getElem?_inj (List.getElem?_eq_some_iff.1 hplace).1 hnodup).1 (hplace.trans hother.symm))
      simp [hsame, hdistinct]

/-- A change of the binding of one name keeps the order. -/
theorem Binds.modify_perm (h : bindings.Binds names) (h' : bindings'.Binds names') (hnodup : names.Nodup)
    (hnodup' : names'.Nodup) (hperm : bindings.Perm bindings') {place place' : Nat} {name : String}
    (hplace : names[place]? = some name) (hplace' : names'[place']? = some name) (change : Entry → Entry) :
    (bindings.modify place change).Perm (bindings'.modify place' change) := by
  rw [h.modify_eq_map hnodup hplace, h'.modify_eq_map hnodup' hplace']
  exact hperm.map _

end Bindings

/-! ## Machines with the bindings of one scope in another order -/

/-- Machines that differ in nothing but the order of the bindings of one scope. -/
structure Machine.Reordered (own : ScopeId) (m m' : Machine) : Prop where
  context : m.context = m'.context
  nextId : m.nextId = m'.nextId
  log : m.log = m'.log
  size : m.scopes.size = m'.scopes.size
  others : ∀ id, id ≠ own → m.scopes.get id = m'.scopes.get id
  enclosing : (m.scopes.get own).enclosing = (m'.scopes.get own).enclosing
  bindings : (m.scopes.get own).bindings.Perm (m'.scopes.get own).bindings

namespace Machine.Reordered

variable {own : ScopeId} {m m' : Machine}

theorem refl (own : ScopeId) (m : Machine) : m.Reordered own m where
  context := rfl
  nextId := rfl
  log := rfl
  size := rfl
  others _ _ := rfl
  enclosing := rfl
  bindings := .refl _

theorem within (h : m.Reordered own m') (change : Context → Context) :
    (m.within change).Reordered own (m'.within change) where
  context := congrArg change h.context
  nextId := h.nextId
  log := h.log
  size := h.size
  others := h.others
  enclosing := h.enclosing
  bindings := h.bindings

theorem enclosing_eq (h : m.Reordered own m') (id : ScopeId) :
    (m.scopes.get id).enclosing = (m'.scopes.get id).enclosing := by
  by_cases hid : id = own
  · subst hid
    exact h.enclosing
  · rw [h.others id hid]

theorem perm (h : m.Reordered own m') (id : ScopeId) :
    (m.scopes.get id).bindings.Perm (m'.scopes.get id).bindings := by
  by_cases hid : id = own
  · subst hid
    exact h.bindings
  · rw [h.others id hid]

end Machine.Reordered

/-- A scope in which names are bound in two orders. -/
structure Rearrangement where
  own : ScopeId
  names : List String
  names' : List String
  nodup : names.Nodup
  nodup' : names'.Nodup

namespace Rearrangement

/-- The places at which bindings stand for each other: those of one name in the scope, the same place anywhere else. -/
inductive SamePlace (r : Rearrangement) : ScopeId → Nat → Nat → Prop
  | own {name : String} {place place' : Nat} (hname : r.names[place]? = some name)
      (hname' : r.names'[place']? = some name) : SamePlace r r.own place place'
  | other {id : ScopeId} {place : Nat} (hid : id ≠ r.own) : SamePlace r id place place

/-- The bindings of the scope are in the one order on the first machine and in the other order on the second one. -/
structure Links (r : Rearrangement) (m m' : Machine) : Prop extends m.Reordered r.own m' where
  own_lt : r.own < m.scopes.size
  binds : (m.scopes.get r.own).bindings.Binds r.names
  binds' : (m'.scopes.get r.own).bindings.Binds r.names'

namespace Links

variable {r : Rearrangement} {m m' : Machine}

theorem within (h : r.Links m m') (change : Context → Context) : r.Links (m.within change) (m'.within change) where
  toReordered := h.toReordered.within change
  own_lt := h.own_lt
  binds := h.binds
  binds' := h.binds'

theorem named (h : r.Links m m') : r.Links m.named m'.named where
  context := h.context
  nextId := congrArg (· + 1) h.nextId
  log := h.log
  size := h.size
  others := h.others
  enclosing := h.enclosing
  bindings := h.bindings
  own_lt := h.own_lt
  binds := h.binds
  binds' := h.binds'

/-- A new scope is the same on both machines. -/
theorem extended (h : r.Links m m') (parent : ScopeId) (bindings : Bindings) :
    r.Links (m.extended parent bindings) (m'.extended parent bindings) := by
  have hne : r.own ≠ m.scopes.size := Nat.ne_of_lt h.own_lt
  have hown := m.get_extended_of_ne parent r.own bindings hne
  have hown' := m'.get_extended_of_ne parent r.own bindings (h.size ▸ hne)
  refine
    { context := h.context
      nextId := h.nextId
      log := h.log
      size := ?_
      others := fun id hid => ?_
      enclosing := ?_
      bindings := ?_
      own_lt := ?_
      binds := ?_
      binds' := ?_ }
  · rw [Machine.size_extended, Machine.size_extended, h.size]
  · by_cases hnew : id = m.scopes.size
    · subst hnew
      have hnew' := m'.get_extended_new parent bindings
      rw [← h.size, ← h.enclosing_eq parent] at hnew'
      rw [m.get_extended_new, hnew']
    · rw [m.get_extended_of_ne _ _ _ hnew, m'.get_extended_of_ne _ _ _ (h.size ▸ hnew)]
      exact h.others id hid
  · rw [hown, hown']
    exact h.enclosing
  · rw [hown, hown']
    exact h.bindings
  · rw [Machine.size_extended]
    exact Nat.lt_succ_of_lt h.own_lt
  · rw [hown]
    exact h.binds
  · rw [hown']
    exact h.binds'

/-- Bindings that stand for each other change in the same way. -/
theorem updated (h : r.Links m m') {id : ScopeId} {place place' : Nat} (hplace : r.SamePlace id place place')
    (state : EntryState) : r.Links (m.updated id place state) (m'.updated id place' state) where
  context := h.context
  nextId := h.nextId
  log := h.log
  size := by
    rw [Machine.size_updated, Machine.size_updated]
    exact h.size
  others other hother := by
    cases hplace with
    | own _ _ =>
      rw [m.get_updated_of_ne _ _ _ _ hother.symm, m'.get_updated_of_ne _ _ _ _ hother.symm]
      exact h.others other hother
    | other _ =>
      rw [Machine.updated, Machine.updated, Scopes.get_setState, Scopes.get_setState, h.others other hother]
  enclosing := by
    rw [Machine.enclosing_updated, Machine.enclosing_updated]
    exact h.enclosing
  bindings := by
    cases hplace with
    | own hname hname' =>
      rw [Machine.updated, Machine.updated, Scopes.get_setState, Scopes.get_setState, if_pos rfl, if_pos rfl]
      exact h.binds.modify_perm h.binds' r.nodup r.nodup' h.bindings hname hname' _
    | other hid =>
      rw [m.get_updated_of_ne _ _ _ _ hid, m'.get_updated_of_ne _ _ _ _ hid]
      exact h.bindings
  own_lt := by
    rw [Machine.size_updated]
    exact h.own_lt
  binds := (m.names_updated ..).trans h.binds
  binds' := (m'.names_updated ..).trans h.binds'

/-- A name is found in the same scope, and the bindings that are found stand for each other. -/
theorem find (h : r.Links m m') (scope : ScopeId) (name : Value) :
    Option.Rel (fun found found' => found.1 = found'.1 ∧ found.2.2 = found'.2.2 ∧ r.SamePlace found.1 found.2.1 found'.2.1)
      (m.scopes.find? scope name) (m'.scopes.find? scope name) := by
  rw [Scopes.find?, Scopes.find?, ← h.enclosing_eq scope]
  induction scope :: (m.scopes.get scope).enclosing with
  | nil => exact .none
  | cons id rest ih =>
    rw [Scopes.findIn?, Scopes.findIn?]
    by_cases hid : id = r.own
    · subst hid
      have hfind := h.binds.find_perm h.binds' r.nodup' h.bindings name
      generalize (m.scopes.get r.own).bindings.find? name = found at hfind ⊢
      generalize (m'.scopes.get r.own).bindings.find? name = found' at hfind ⊢
      cases hfind with
      | none => exact ih
      | some hsame =>
        obtain ⟨hentry, key, hkey, hkey'⟩ := hsame
        exact .some ⟨rfl, hentry, .own hkey hkey'⟩
    · rw [← h.others id hid]
      cases (m.scopes.get id).bindings.find? name with
      | none => exact ih
      | some found => exact .some ⟨rfl, rfl, .other hid⟩

end Links

/-! ## Evaluation -/

/-- Everything stands for itself, but in the scope names are bound in another order. -/
def simulation (r : Rearrangement) : Simulation where
  Linked p m m' := p = .same ∧ r.Links m m'
  Final _ := True
  InStep id _ := id ≠ r.own
  failing := True
  final _ _ := trivial
  oneToOne h := h.1 ▸ .of_le_same (le_refl _)
  interrupted h := congrArg (·.interrupted) h.2.context
  admits h hdepth := h.2.context ▸ hdepth
  denies h _ hdepth := h.2.context ▸ hdepth
  refused h _ := ⟨h.1, h.2.within fun c => { c with refusals := c.refusals + 1 }⟩
  circled h _ := ⟨h.1, h.2.within fun c => { c with circles := c.circles + 1 }⟩
  enterCall h := ⟨h.1, h.2.within _⟩
  leaveCall h := ⟨h.1, h.2.within _⟩
  checked h := ⟨h.1, h.2.within _⟩
  named := by
    rintro p m m' ⟨rfl, h⟩
    exact ⟨.same, le_refl _, h.nextId, rfl, h.named⟩
  extended := by
    rintro p m m' parent parent' bindings bindings' ⟨rfl, h⟩ rfl hbindings
    obtain rfl := hbindings.eq (le_refl _)
    exact ⟨.same, le_refl _, h.size, rfl, h.extended parent bindings⟩
  enclosing := by
    rintro p m m' s s' ⟨rfl, h⟩ rfl
    rw [h.enclosing_eq s]
    exact List.forall₂_same.2 fun _ _ => rfl
  contains := by
    rintro p m m' s s' name ⟨rfl, h⟩ rfl
    exact Bindings.contains_perm (h.perm s) _
  bindings := by
    rintro p m m' s s' place entry ⟨rfl, h⟩ rfl hid hentry
    rw [← h.others s hid]
    exact ⟨entry, hentry, .refl Pairing.reflexive_same entry⟩
  updated := by
    rintro p m m' s s' state state' place ⟨rfl, h⟩ rfl hid _ hstate
    obtain rfl := hstate.eq (le_refl _)
    exact ⟨rfl, h.updated (.other hid) state⟩

variable {r : Rearrangement} {run run' : Evaluator}

/-- A name is looked up alike whatever the place of its binding. -/
theorem looksUp (hrun : r.simulation.Evaluates run run') : r.simulation.LooksUp run run' := by
  refine fun p s s' name name' hs hname =>
    ⟨Simulation.grows_value (Evaluation.meets_lookupName hrun.grows s name), ?_⟩
  rintro m m' ⟨rfl, h⟩
  obtain rfl : s = s' := hs
  obtain rfl := hname.eq (le_refl _)
  have hfind := h.find s name
  have hentry {holder : ScopeId} {place : Nat} {entry : Entry} (hfound : m.scopes.find? s name = some (holder, place, entry)) :
      (m.scopes.get holder).bindings[place]? = some entry := Scopes.getElem?_of_find? hfound
  unfold Simulation.Follows
  rw [Evaluation.run_lookupName, Evaluation.run_lookupName]
  generalize m.scopes.find? s name = found at hfind hentry ⊢
  generalize m'.scopes.find? s name = found' at hfind ⊢
  cases hfind with
  | none => exact fun _ _ => ⟨.same, le_refl _, ⟨rfl, h⟩, .ok (.error _)⟩
  | @some found found' hsame =>
    obtain ⟨holder, place, entry⟩ := found
    obtain ⟨holder', place', entry'⟩ := found'
    obtain ⟨rfl, rfl, hplace⟩ := hsame
    refine Simulation.follows_resolve hrun ⟨rfl, h⟩ rfl ?_ hname (hentry rfl) (.refl Pairing.reflexive_same _)
    rintro q n n' state state' - ⟨rfl, hlinked⟩ - hstate
    obtain rfl := hstate.eq (le_refl _)
    exact ⟨rfl, hlinked.updated hplace state⟩

theorem evaluates_evalWithin {host : Host} (hhost : host.Matched r.simulation) (room : Nat) :
    r.simulation.Evaluates (evalWithin host room) (evalWithin host room) := by
  have hnests : r.simulation.Nests := ⟨fun h => ⟨h.1, h.2.within _⟩, fun h => ⟨h.1, h.2.within _⟩⟩
  exact Simulation.evaluates_evalWithin hhost hnests (fun _ _ => looksUp) (Nat.le_refl room) (.inl rfl)

/-- The same context has been checked as often. -/
theorem matched (r : Rearrangement) (interrupts : Nat → Bool) : (Host.interruptedBy interrupts).Matched r.simulation :=
  Host.matched_interruptedBy (fun _ _ _ hm => congrArg Context.checks (And.right hm).context) interrupts

end Rearrangement

/-! ## Calls -/

namespace Expr

/-- The same where bindings, in another order and maybe spread over the where clauses in another way, and the same other
arguments in the same order. -/
structure RearrangedArgs (args args' : List Expr) : Prop where
  items : (whereItems args).Perm (whereItems args')
  others : otherArgs args = otherArgs args'

/-- Where clauses that have bindings only, no two of one name. -/
structure DistinctBindings (args : List Expr) : Prop where
  binding : ∀ item ∈ whereItems args, item.IsBinding
  distinct : (boundNames (whereItems args)).Nodup

variable {args args' : List Expr}

theorem RearrangedArgs.distinctBindings (h : RearrangedArgs args args') (hargs : DistinctBindings args) :
    DistinctBindings args' where
  binding item hitem := hargs.binding item (h.items.mem_iff.2 hitem)
  distinct := (h.items.flatMap_right _).nodup_iff.1 hargs.distinct

theorem DistinctBindings.takeWhere (h : DistinctBindings args) :
    Bindings.takeWhere [] args = .ok (otherArgs args, boundBy (whereItems args)) :=
  (Bindings.takeWhere_nil_eq_ok_iff args).2 ⟨h.binding, h.distinct, rfl, rfl⟩

end Expr

open DynamicConfig.Expr (RearrangedArgs DistinctBindings)

variable {args args' : List Expr}

/-- A new scope with the bindings in another order. -/
theorem Machine.exists_links_extended (m : Machine) (scope : ScopeId) (h : RearrangedArgs args args')
    (hargs : DistinctBindings args) : ∃ r : Rearrangement, r.own = m.scopes.size ∧
      r.Links (m.extended scope (boundBy (whereItems args))) (m.extended scope (boundBy (whereItems args'))) := by
  let r : Rearrangement := ⟨m.scopes.size, _, _, hargs.distinct, (h.distinctBindings hargs).distinct⟩
  refine ⟨r, rfl,
    { context := rfl
      nextId := rfl
      log := rfl
      size := ?_
      others := fun id hid => ?_
      enclosing := ?_
      bindings := ?_
      own_lt := ?_
      binds := ?_
      binds' := ?_ }⟩
  · rw [Machine.size_extended, Machine.size_extended]
  · rw [m.get_extended_of_ne _ _ _ hid, m.get_extended_of_ne _ _ _ hid]
  · rw [m.enclosing_extended, m.enclosing_extended]
  · rw [m.bindings_extended, m.bindings_extended]
    exact h.items.flatMap_right _
  · rw [Machine.size_extended]
    exact Nat.lt_succ_self _
  · rw [m.bindings_extended]
    exact Bindings.binds_boundBy _
  · rw [m.bindings_extended]
    exact Bindings.binds_boundBy _

/-- Two runs with one outcome, that leave the same machine but for the order of the bindings of one scope, which there was
not on the machine before. -/
structure Machine.SameRuns (m : Machine) (run run' : Except FatalError Value × Machine) : Prop where
  outcome : run.1 = run'.1
  reordered : ∃ own, m.scopes.size ≤ own ∧ run.2.Reordered own run'.2

theorem Machine.SameRuns.refl (m : Machine) (run : Except FatalError Value × Machine) : m.SameRuns run run :=
  ⟨rfl, m.scopes.size, Nat.le_refl _, .refl _ _⟩

/-- Work that is matched by itself, on machines with the bindings of a new scope in another order. -/
theorem Rearrangement.Links.sameRuns {r : Rearrangement} {before m m' : Machine} (h : r.Links m m')
    (hnew : before.scopes.size ≤ r.own) {work work' : Eval Value}
    (hwork : r.simulation.Matched .same Value.Alike work work') : before.SameRuns (work.run.run m) (work'.run.run m') := by
  obtain ⟨q, -, ⟨rfl, hlinks⟩, houtcome⟩ := hwork.follows m m' ⟨rfl, h⟩ trivial (.inl trivial)
  exact ⟨houtcome.eq, r.own, hnew, hlinks.toReordered⟩

section

variable {host : Host} (hhost : ∀ r : Rearrangement, host.Matched r.simulation) (hgrowing : host.Meets growthContract)
include hhost hgrowing

/-- The callee is the same, and so is what is done with the other arguments in a scope with the bindings. -/
theorem sameRuns_evalCall (room : Nat) (callee : Expr) (h : RearrangedArgs args args') (hargs : DistinctBindings args)
    (scope : ScopeId) (m : Machine) :
    m.SameRuns ((Evaluation.evalCall host (evalWithin host room) callee args scope).run.run m)
      ((Evaluation.evalCall host (evalWithin host room) callee args' scope).run.run m) := by
  have hgrows := (Contract.meets_evalWithin hgrowing room callee scope m trivial).1
  unfold Evaluation.evalCall
  rw [hargs.takeWhere, (h.distinctBindings hargs).takeWhere, ← h.others]
  cases hcallee : (evalWithin host room callee scope).run.run m with
  | mk outcome m₁ =>
    rw [hcallee] at hgrows
    cases outcome with
    | error failure =>
      rw [Eval.run_bind_of_error hcallee, Eval.run_bind_of_error hcallee]
      exact .refl _ _
    | ok function =>
      rw [Eval.run_bind_of_ok hcallee, Eval.run_bind_of_ok hcallee]
      split
      · exact .refl _ _
      · obtain ⟨r, hown, hlinks⟩ := m₁.exists_links_extended scope h hargs
        have hnew : m.scopes.size ≤ r.own := hown ▸ hgrows.scopes.size
        have hrun := Rearrangement.evaluates_evalWithin (hhost r) room
        have hscope : Pairing.same.SameScope m₁.scopes.size m₁.scopes.size := rfl
        dsimp only
        rw [Eval.run_newScope_bind, Eval.run_newScope_bind]
        refine hlinks.sameRuns hnew ?_
        have hstrict := Simulation.matched_callStrict (hhost r) hrun (Rearrangement.looksUp hrun)
          (.refl Pairing.reflexive_same function) (otherArgs args) hscope
        cases function with
        | lazyFunction code => exact Simulation.matched_callLazy (hhost r) hrun code _ hscope
        | _ => exact hstrict

/-- Where as many nodes may come under evaluation. -/
theorem sameRuns_evalWithin (room : Nat) (location location' : Location) (callee : Expr) (h : RearrangedArgs args args')
    (hargs : DistinctBindings args) (scope : ScopeId) (m : Machine) :
    m.SameRuns ((evalWithin host room (.node .call location (callee :: args)) scope).run.run m)
      ((evalWithin host room (.node .call location' (callee :: args')) scope).run.run m) := by
  cases room with
  | zero => exact .refl _ _
  | succ room =>
    rw [run_evalWithin_succ, run_evalWithin_succ]
    split
    · exact .refl _ _
    · obtain ⟨houtcome, own, hnew, hreordered⟩ := sameRuns_evalCall hhost hgrowing room callee h hargs scope m.entered
      exact ⟨houtcome, own, hnew, hreordered.within Context.leaveNode⟩

end

/-- Two calls in the same scope of the same machine, with the same callee and the same where bindings in any order, spread
over the where clauses in any way, come to the same: the outcome is the same, and so is the machine afterwards, but for
the order of the bindings in the scope of the call. All scopes that there were are in the same state. If evaluation is
asked to stop at one of its checks, it is so in both cases. -/
theorem where_bindings_in_any_order (interrupts : Nat → Bool) (location location' : Location) (callee : Expr)
    (args args' : List Expr) (h : RearrangedArgs args args') (hargs : DistinctBindings args) (scope : ScopeId)
    (m : Machine) :
    let host := Host.interruptedBy interrupts
    let run := (evaluate host (.node .call location (callee :: args)) scope).run.run m
    let run' := (evaluate host (.node .call location' (callee :: args')) scope).run.run m
    m.SameRuns run run' ∧ ∀ id < m.scopes.size, run.2.scopes.get id = run'.2.scopes.get id := by
  intro host run run'
  have hsame : m.SameRuns run run' := sameRuns_evalWithin (fun r => r.matched interrupts)
    (Host.meets_interruptedBy interrupts) m.context.room location location' callee h hargs scope m
  obtain ⟨own, hnew, hreordered⟩ := hsame.reordered
  exact ⟨hsame, fun id hid => hreordered.others id (Nat.ne_of_lt (Nat.lt_of_lt_of_le hid hnew))⟩

/-- `object(where(a = b), where(b = c = true), a)` and `object(a, where(b = c = true, a = b))`. -/
theorem bindings_of_two_clauses_in_one :
    let toB : Expr := .node .assign ⟨0, 1⟩ [.stringLeaf ⟨0, 1⟩ "a", .nameLeaf ⟨0, 1⟩ "b"]
    let chain : Expr := .node .assign ⟨0, 1⟩ [.stringLeaf ⟨0, 1⟩ "b",
      .node .assign ⟨0, 1⟩ [.stringLeaf ⟨0, 1⟩ "c", .boolLeaf ⟨0, 1⟩ true]]
    let clause (items : List Expr) : Expr := .node .call ⟨0, 1⟩ (.nameLeaf ⟨0, 1⟩ "where" :: items)
    let args : List Expr := [clause [toB], clause [chain], .nameLeaf ⟨0, 1⟩ "a"]
    let args' : List Expr := [.nameLeaf ⟨0, 1⟩ "a", clause [chain, toB]]
    let ended (args : List Expr) :=
      (evaluate Host.builtin (.node .call ⟨0, 1⟩ (.nameLeaf ⟨0, 1⟩ "object" :: args)) globalScope).run.run (.initial {})
    RearrangedArgs args args' ∧ DistinctBindings args ∧ (ended args').1 = .ok (.bool true) ∧
      (Machine.initial {}).SameRuns (ended args) (ended args') ∧
      ∀ id < (Machine.initial {}).scopes.size, (ended args).2.scopes.get id = (ended args').2.scopes.get id := by
  intro toB chain clause args args' ended
  have hitems : (whereItems args).Perm (whereItems args') := List.Perm.swap chain toB []
  have hrearranged : RearrangedArgs args args' := ⟨hitems, rfl⟩
  have hnames : boundNames (whereItems args) = ["a", "b", "c"] := by rfl
  have hargs : DistinctBindings args := by
    refine ⟨List.forall_mem_cons.2 ⟨?_, List.forall_mem_singleton.2 ?_⟩, hnames ▸ by decide⟩
    · exact List.cons_ne_nil _ _
    · exact List.cons_ne_nil _ _
  exact ⟨hrearranged, hargs, rfl,
    where_bindings_in_any_order (fun _ => false) _ _ _ args args' hrearranged hargs globalScope _⟩

end DynamicConfig

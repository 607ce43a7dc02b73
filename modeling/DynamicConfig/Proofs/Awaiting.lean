import DynamicConfig.Proofs.Grammar
/-!
# What frames wait for

What the next term of a frame has to be, so that everything between the brackets can be what it has to
be (`Frame.Wants`): the operators that wait already leave only some trees. Each term or operator that the
grammar allows in a place keeps the frame on its way (`Frame.Awaits`, `Frame.Filled`), and where the
grammar allows an end, the frame ends as what it has to be (`Frame.Filled.finish`).
-/

namespace DynamicConfig

/-- An infix operator binds tighter than a binding does. -/
theorem Symbol.priority_of_isInfix {symbol : Symbol} (hs : symbol.isInfix = true) :
    Symbol.assign.priority < symbol.priority := by
  cases symbol <;> first | decide | cases hs

theorem Symbol.isBracket_of_isInfix {symbol : Symbol} (hs : symbol.isInfix = true) :
    symbol.isBracket = false := by
  cases symbol <;> first | rfl | cases hs

theorem Symbol.isBracket_of_mayLead {symbol : Symbol} (hs : symbol.mayLead = true) :
    symbol.isBracket = false := by
  cases symbol <;> first | rfl | cases hs

/-! ## Trees that mean something -/

namespace RawTree

/-- The tree means something in the place. -/
def IsA (t : RawTree) (place : Place) : Prop :=
  ∃ es, t.Means place es

variable {t left right : RawTree} {location : Location}

theorem IsA.exists_sole (h : t.IsA .term) : ∃ e, t.Means .term [e] := by
  obtain ⟨es, h⟩ := h
  cases h with
  | leaf l location => exact ⟨_, .leaf l location⟩
  | round h => exact ⟨_, .round h⟩
  | curly h => exact ⟨_, .curly h⟩
  | apply hc ha => exact ⟨_, .apply hc ha⟩
  | lead hs hop hr => exact ⟨_, .lead hs hop hr⟩
  | binary hop hne hl hr => exact ⟨_, .binary hop hne hl hr⟩
  | dot hl hr => exact ⟨_, .dot hl hr⟩

/-- What is a term is a key, too. -/
theorem exists_key {k : Expr} (h : t.Means .term [k]) (dot : Location) (target : Expr) :
    ∃ e, t.Means (.key dot target) [e] := by
  induction t generalizing k with
  | apply location callee args ihc iha =>
    cases h with
    | apply hc ha =>
      obtain ⟨c, hc⟩ := ihc hc
      exact ⟨_, .keyApply hc ha⟩
  | leaf l location =>
    cases l with
    | name name => exact ⟨_, .keyName dot target name location⟩
    | _ => exact ⟨_, .keyTerm (by simp) (by simp) h⟩
  | _ => exact ⟨_, .keyTerm (by simp) (by simp) h⟩

theorem isA_binary {symbol : Symbol} (hs : symbol.isInfix = true) (hl : left.IsA .term) (hr : right.IsA .term) :
    (binary symbol location left right).IsA .term := by
  obtain ⟨a, ha⟩ := hl.exists_sole
  obtain ⟨b, hb⟩ := hr.exists_sole
  have hop : symbol = .dot ∨ ∃ op, Meaning.infixOp? symbol = some op ∧ op ≠ .not := by
    cases symbol <;> first | cases hs; done | exact .inl rfl | exact .inr ⟨_, rfl, by simp⟩
  rcases hop with rfl | ⟨op, hop, hne⟩
  · obtain ⟨e, he⟩ := exists_key hb location a
    exact ⟨_, .dot ha he⟩
  · exact ⟨_, .binary hop hne ha hb⟩

theorem isA_lead {symbol : Symbol} (hs : symbol.mayLead = true) (offset : Nat) (hr : right.IsA .term) :
    (binary symbol location (.missing offset) right).IsA .term := by
  obtain ⟨e, he⟩ := hr.exists_sole
  have hop : ∃ op, Meaning.infixOp? symbol = some op := by
    cases symbol <;> first | exact ⟨_, rfl⟩ | cases hs
  obtain ⟨op, hop⟩ := hop
  exact ⟨_, .lead hs hop he⟩

theorem isA_apply {callee args : RawTree} (hc : callee.IsA .term) (ha : args.IsA .args) :
    (apply location callee args).IsA .term := by
  obtain ⟨c, hc⟩ := hc.exists_sole
  obtain ⟨es, ha⟩ := ha
  exact ⟨_, .apply hc ha⟩

theorem IsA.item (h : t.IsA .term) : t.IsA .item := by
  obtain ⟨e, he⟩ := h.exists_sole
  exact ⟨_, .item he⟩

theorem IsA.exists_sole_item (h : t.IsA .item) : ∃ e, t.Means .item [e] := by
  obtain ⟨es, h⟩ := h
  cases h with
  | item h => exact ⟨_, .item h⟩
  | assign h => exact ⟨_, .assign h⟩

theorem IsA.items (h : t.IsA .item) : t.IsA .items := by
  obtain ⟨e, he⟩ := h.exists_sole_item
  exact ⟨_, .one he⟩

theorem isA_assign {name : String} {nameLocation : Location} (hr : right.IsA .item) :
    (binary .assign location (.leaf (.name name) nameLocation) right).IsA .item := by
  obtain ⟨e, he⟩ := hr.exists_sole_item
  exact ⟨_, .assign he⟩

theorem isA_comma (hl : left.IsA .items) (hr : right.IsA .item) : (binary .comma location left right).IsA .items := by
  obtain ⟨es, hl⟩ := hl
  obtain ⟨e, he⟩ := hr.exists_sole_item
  exact ⟨_, .comma hl he⟩

end RawTree

/-! ## What frames want -/

namespace Frame

open RawTree (Place)

variable {f : Frame} {goal need : Place} {ops : List PendingOp} {terms : List (RawTree × Nat)}

/-- What the next term of a frame has to be, so that everything between the brackets can be what it has
to be: the waiting operators and their left operands go with it. -/
inductive Wants (goal : Place) : Place → List PendingOp → List (RawTree × Nat) → Prop
  | start : Wants goal goal [] []
  | item {ops : List PendingOp} {terms : List (RawTree × Nat)} (h : Wants goal .items ops terms) :
    Wants goal .item ops terms
  | term {ops : List PendingOp} {terms : List (RawTree × Nat)} (h : Wants goal .item ops terms) :
    Wants goal .term ops terms
  | lead {symbol : Symbol} {location : Location} {offset height : Nat} {ops : List PendingOp}
    {terms : List (RawTree × Nat)} (hs : symbol.mayLead = true) (h : Wants goal .term ops terms) :
    Wants goal .term (⟨symbol, location, Symbol.not.priority⟩ :: ops) ((.missing offset, height) :: terms)
  | binary {symbol : Symbol} {location : Location} {left : RawTree} {height : Nat} {ops : List PendingOp}
    {terms : List (RawTree × Nat)} (hs : symbol.isInfix = true) (hl : left.IsA .term)
    (h : Wants goal .term ops terms) :
    Wants goal .term (⟨symbol, location, symbol.priority⟩ :: ops) ((left, height) :: terms)
  | assign {location nameLocation : Location} {name : String} {height : Nat} {ops : List PendingOp}
    {terms : List (RawTree × Nat)} (h : Wants goal .item ops terms) :
    Wants goal .item (⟨.assign, location, Symbol.assign.priority⟩ :: ops)
      ((.leaf (.name name) nameLocation, height) :: terms)
  | comma {location : Location} {left : RawTree} {height : Nat} {ops : List PendingOp}
    {terms : List (RawTree × Nat)} (hl : left.IsA .items) (h : Wants goal .items ops terms) :
    Wants goal .item (⟨.comma, location, Symbol.comma.priority⟩ :: ops) ((left, height) :: terms)

/-- A frame that goes on with a term. -/
def Awaits (goal need : Place) (f : Frame) : Prop :=
  f.afterTerm = false ∧ Wants goal need f.ops f.terms

/-- The last term is what the operators before it want. -/
def Tops (goal need : Place) (ops : List PendingOp) (terms : List (RawTree × Nat)) : Prop :=
  ∃ t height rest, terms = (t, height) :: rest ∧ Wants goal need ops rest ∧ t.IsA need

/-- A frame that may end, or go on with an operator. -/
def Filled (goal : Place) (f : Frame) : Prop :=
  f.afterTerm = true ∧ Tops goal .term f.ops f.terms

theorem awaits_initial (goal : Place) : Awaits goal goal {} :=
  ⟨rfl, .start⟩

/-- An operator that takes its operands becomes what was wanted before it. -/
theorem Wants.reduce {op : PendingOp} {left right : RawTree} {height : Nat}
    (h : Wants goal need (op :: ops) ((left, height) :: terms)) (hr : right.IsA need) :
    ∃ need', Wants goal need' ops terms ∧ (RawTree.binary op.symbol op.location left right).IsA need' := by
  generalize hops : op :: ops = ops' at h
  generalize hterms : (left, height) :: terms = terms' at h
  induction h with
  | start => cases hops
  | item _ ih => exact ih hr.items hops hterms
  | term _ ih => exact ih hr.item hops hterms
  | lead hs h => cases hops; cases hterms; exact ⟨_, h, RawTree.isA_lead hs _ hr⟩
  | binary hs hl h => cases hops; cases hterms; exact ⟨_, h, RawTree.isA_binary hs hl hr⟩
  | assign h => cases hops; cases hterms; exact ⟨_, h, RawTree.isA_assign hr⟩
  | comma hl h => cases hops; cases hterms; exact ⟨_, h, RawTree.isA_comma hl hr⟩

/-- An operator between operands that takes them is an operand again. -/
theorem Wants.reduce_term {op : PendingOp} {left right : RawTree} {height : Nat}
    (h : Wants goal .term (op :: ops) ((left, height) :: terms)) (hp : Symbol.assign.priority < op.priority)
    (hr : right.IsA .term) :
    Wants goal .term ops terms ∧ (RawTree.binary op.symbol op.location left right).IsA .term := by
  cases h with
  | lead hs h => exact ⟨h, RawTree.isA_lead hs _ hr⟩
  | binary hs hl h => exact ⟨h, RawTree.isA_binary hs hl hr⟩
  | term h =>
    cases h with
    | item h => cases h
    | assign _ => exact absurd hp (by simp [Symbol.priority])
    | comma _ _ => exact absurd hp (by simp [Symbol.priority])

theorem Wants.exists_left {op : PendingOp} (h : Wants goal need (op :: ops) terms) :
    ∃ left height rest, terms = (left, height) :: rest := by
  generalize hops : op :: ops = ops' at h
  induction h with
  | start => cases hops
  | item _ ih | term _ ih => exact ih hops
  | _ => exact ⟨_, _, _, rfl⟩

/-- An infix operator takes operands only from operators that have such. -/
theorem tops_unwind {symbol : Symbol} (hs : Symbol.assign.priority < symbol.priority)
    (h : Tops goal .term ops f.terms) :
    Tops goal .term (unwind none (waitsFor symbol) ops f).ops (unwind none (waitsFor symbol) ops f).terms := by
  refine unwind_induction (fun op ops f hwaits htops => ?_) h
  obtain ⟨t, height, below, hterms, hwants, ht⟩ := htops
  obtain ⟨left, leftHeight, below, rfl⟩ := hwants.exists_left
  -- What does not wait for the symbol binds at least as tightly, so it is no binding and no comma.
  have hp : Symbol.assign.priority < op.priority := by
    simp only [waitsFor, Bool.or_eq_false_iff, decide_eq_false_iff_not] at hwaits
    omega
  obtain ⟨hbelow, hbinary⟩ := hwants.reduce_term hp ht
  exact ⟨_, _, below, reduce_none_terms hterms, hbelow, hbinary⟩

/-- When all operators take their operands, what is left is what everything has to be. -/
theorem unwind_all {waitsOn : PendingOp → Bool} (hw : ∀ op ∈ ops, waitsOn op = false)
    (h : Tops goal need ops f.terms) :
    ∃ t height, unwind none waitsOn ops f = { unwind none waitsOn ops f with ops := [], terms := [(t, height)] } ∧
      t.IsA goal := by
  induction ops generalizing f need with
  | nil =>
    obtain ⟨t, height, below, hterms, hwants, ht⟩ := h
    generalize hops : ([] : List PendingOp) = ops at hwants
    induction hwants with
    | start => exact ⟨t, height, by simp [unwind, hterms], ht⟩
    | item _ ih => exact ih hterms ht.items hops
    | term _ ih => exact ih hterms ht.item hops
    | _ => cases hops
  | cons op rest ih =>
    obtain ⟨t, height, below, hterms, hwants, ht⟩ := h
    obtain ⟨left, leftHeight, below, rfl⟩ := hwants.exists_left
    obtain ⟨need', hbelow, hbinary⟩ := hwants.reduce ht
    obtain ⟨hop, hrest⟩ := List.forall_mem_cons.1 hw
    unfold unwind
    rw [hop]
    exact ih hrest ⟨_, _, below, reduce_none_terms hterms, hbelow, hbinary⟩

/-! ## Terms and operators -/

/-- A term is what a frame waits for. -/
theorem Awaits.addTerm (h : f.Awaits goal .term) {t : RawTree} (ht : t.IsA .term) (height : Nat)
    (location : Location) : (f.addTerm none t height location).Filled goal := by
  obtain ⟨hf, hwants⟩ := h
  rw [addTerm_of_no_callee (by simp [hf]), push_none]
  exact ⟨rfl, t, height, _, rfl, hwants, ht⟩

/-- Arguments after a term are a call of it. -/
theorem Filled.addArgs (h : f.Filled goal) {args : RawTree} (ha : args.IsA .args) (height : Nat)
    (location : Location) : (f.addTerm none args height location).Filled goal := by
  obtain ⟨hf, t, calleeHeight, rest, hterms, hwants, ht⟩ := h
  rw [addTerm_of_afterTerm hf hterms, push_none]
  exact ⟨rfl, _, _, rest, rfl, hwants, RawTree.isA_apply ht ha⟩

theorem Awaits.addLead (h : f.Awaits goal .term) {symbol : Symbol} (hs : symbol.mayLead = true)
    (location : Location) : (f.addOp none symbol location).Awaits goal .term := by
  obtain ⟨hf, hwants⟩ := h
  rw [addOp_of_mayLead hf hs]
  exact ⟨rfl, hwants.lead hs⟩

theorem Filled.addInfix (h : f.Filled goal) {symbol : Symbol} (hs : symbol.isInfix = true)
    (location : Location) : (f.addOp none symbol location).Awaits goal .term := by
  obtain ⟨hf, htops⟩ := h
  obtain ⟨t, height, rest, hterms, hwants, ht⟩ := tops_unwind (Symbol.priority_of_isInfix hs) htops
  rw [addOp_of_afterTerm hf]
  refine ⟨rfl, ?_⟩
  simp only [await, hterms]
  exact hwants.binary hs ht

theorem Wants.priority_pos (h : Wants goal need ops terms) : ∀ op ∈ ops, Symbol.comma.priority ≤ op.priority := by
  induction h with
  | start => simp
  | item _ ih | term _ ih => exact ih
  | binary hs _ _ ih =>
    have hp := Symbol.priority_of_isInfix hs
    exact List.forall_mem_cons.2 ⟨Nat.le_of_lt (Nat.lt_trans (by decide) hp), ih⟩
  | lead _ _ ih | assign _ ih | comma _ _ ih => exact List.forall_mem_cons.2 ⟨by simp [Symbol.priority], ih⟩

theorem Filled.addComma (h : f.Filled .items) (location : Location) :
    (f.addOp none .comma location).Awaits .items .item := by
  obtain ⟨hf, htops⟩ := h
  have hw : ∀ op ∈ f.ops, waitsFor .comma op = false := by
    obtain ⟨t, height, rest, hterms, hwants, ht⟩ := htops
    intro op hop
    have := hwants.priority_pos op hop
    simp [waitsFor, Symbol.groupsRight]
    omega
  obtain ⟨t, height, hunwind, ht⟩ := unwind_all hw htops
  rw [addOp_of_afterTerm hf, hunwind]
  exact ⟨rfl, .comma ht .start⟩

theorem Wants.waitsFor_assign {op : PendingOp} (h : Wants goal .item (op :: ops) terms) :
    waitsFor .assign op = true := by
  cases h with
  | item h => cases h
  | assign _ => simp [waitsFor, Symbol.groupsRight]
  | comma _ _ => simp [waitsFor, Symbol.priority]

/-- A name that is bound. -/
theorem Awaits.addBinding (h : f.Awaits goal .item) (name : String) (nameLocation location : Location) :
    ((f.addTerm none (.leaf (.name name) nameLocation) 1 nameLocation).addOp none .assign location).Awaits goal
      .item := by
  obtain ⟨hf, hwants⟩ := h
  rw [addTerm_of_no_callee (by simp [hf]), push_none, addOp_of_afterTerm rfl]
  -- What waits for an item is a binding or a comma, and waits on.
  have hunwind : unwind none (waitsFor .assign) f.ops
      { f with terms := (.leaf (.name name) nameLocation, 1) :: f.terms, afterTerm := true } =
      { f with terms := (.leaf (.name name) nameLocation, 1) :: f.terms, afterTerm := true } := by
    cases hops : f.ops with
    | nil => rfl
    | cons op ops =>
      rw [hops] at hwants
      simp [unwind, hwants.waitsFor_assign]
  rw [hunwind]
  exact ⟨rfl, hwants.assign⟩

/-- A frame that may end is what it has to be. -/
theorem Filled.finish (h : f.Filled goal) (stop : Nat) : (f.finish none stop).tree.IsA goal := by
  obtain ⟨hf, htops⟩ := h
  have hw : ∀ op ∈ f.ops, (fun _ => false : PendingOp → Bool) op = false := fun _ _ => rfl
  obtain ⟨t, height, hunwind, ht⟩ := unwind_all hw htops
  have hclosed : f.closed none stop = unwind none (fun _ => false) f.ops f := by simp [closed, ended, hf]
  rw [finish_eq, hclosed, hunwind]
  exact ht

theorem Awaits.item (h : f.Awaits goal .items) : f.Awaits goal .item :=
  ⟨h.1, h.2.item⟩

theorem Awaits.term (h : f.Awaits goal .item) : f.Awaits goal .term :=
  ⟨h.1, h.2.term⟩

/-- Only a frame whose contents are to be items waits for items. -/
theorem Awaits.goal_eq (h : f.Awaits goal .items) : goal = .items := by
  obtain ⟨_, hwants⟩ := h
  generalize f.ops = ops, f.terms = terms at hwants
  cases hwants
  rfl

end Frame

end DynamicConfig

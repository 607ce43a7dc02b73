import DynamicConfig.Proofs.Canonical
/-!
# What stands beside a dot or before arguments

Nothing binds tighter than arguments and the dot: what is applied is a single token or stands between
brackets, and so is what follows a dot, arguments and leading operators aside (`RawTree.Tidy`). It is the
frames that keep it so: a dot never waits for an operator between two operands (`Frame.Kept`).
-/

namespace DynamicConfig

namespace RawTree

/-- A leaf, an application or a pair of brackets. -/
def IsClosed : RawTree → Prop
  | leaf _ _ | apply _ _ _ | group _ _ _ => True
  | _ => False

/-- What may follow a dot. An operator may only lead it. -/
def IsKey : RawTree → Prop
  | binary _ _ (missing _) _ => True
  | binary _ _ _ _ => False
  | _ => True

/-- Everywhere in the tree, what is applied is closed and what follows a dot is a key. -/
def Tidy : RawTree → Prop
  | binary symbol _ left right => left.Tidy ∧ right.Tidy ∧ (symbol = .dot → right.IsKey)
  | apply _ callee args => callee.IsClosed ∧ callee.Tidy ∧ args.Tidy
  | group _ _ inner => inner.Tidy
  | missing _ | cutOff _ | leaf _ _ => True

theorem IsClosed.isKey {t : RawTree} (h : t.IsClosed) : t.IsKey := by
  cases t <;> trivial

end RawTree

namespace Frame

variable {f : Frame} {strict : Bool} {ops : List PendingOp} {terms : List (RawTree × Nat)}

/-! ## Operators that wait -/

/-- Waiting operators with their left operands, and whether their next operand has to be a key: after a
dot, it has. -/
inductive Kept : (strict : Bool) → List PendingOp → List (RawTree × Nat) → Prop
  | nil : Kept false [] []
  | dot {location : Location} {left : RawTree} {height : Nat} {ops : List PendingOp} {terms : List (RawTree × Nat)}
    (hl : left.Tidy) (h : Kept false ops terms) :
    Kept true (⟨.dot, location, Symbol.dot.priority⟩ :: ops) ((left, height) :: terms)
  | binary {symbol : Symbol} {location : Location} {left : RawTree} {height : Nat} {ops : List PendingOp}
    {terms : List (RawTree × Nat)} (hs : symbol ≠ .dot) (hl : left.Tidy) (h : Kept false ops terms) :
    Kept false (⟨symbol, location, symbol.priority⟩ :: ops) ((left, height) :: terms)
  | lead {strict : Bool} {symbol : Symbol} {location : Location} {offset height : Nat} {ops : List PendingOp}
    {terms : List (RawTree × Nat)} (hs : symbol ≠ .dot) (h : Kept strict ops terms) :
    Kept false (⟨symbol, location, Symbol.not.priority⟩ :: ops) ((.missing offset, height) :: terms)

/-- The last term may be the operand of the operators before it. -/
def Ready (ops : List PendingOp) (terms : List (RawTree × Nat)) : Prop :=
  ∃ t height rest strict, terms = (t, height) :: rest ∧ Kept strict ops rest ∧ t.Tidy ∧ (strict = true → t.IsKey)

/-- A frame with tidy terms. After a term, that term is closed. -/
def Tidy (f : Frame) : Prop :=
  if f.afterTerm then
    ∃ t height rest strict, f.terms = (t, height) :: rest ∧ Kept strict f.ops rest ∧ t.Tidy ∧ t.IsClosed
  else ∃ strict, Kept strict f.ops f.terms

theorem tidy_initial : Tidy {} :=
  ⟨false, .nil⟩

theorem Tidy.ready (h : f.Tidy) (hf : f.afterTerm = true) : Ready f.ops f.terms := by
  simp only [Tidy, hf, if_true] at h
  obtain ⟨t, height, rest, strict, hterms, hkept, ht, hclosed⟩ := h
  exact ⟨t, height, rest, strict, hterms, hkept, ht, fun _ => hclosed.isKey⟩

theorem Kept.ready_missing (h : Kept strict ops terms) (offset height : Nat) :
    Ready ops ((.missing offset, height) :: terms) :=
  ⟨.missing offset, height, terms, strict, rfl, h, trivial, fun _ => trivial⟩

/-- An operator that is kept has a left operand. Where it takes both, it may be an operand of those before it. -/
theorem Kept.reduce {op : PendingOp} {right : RawTree} (h : Kept strict (op :: ops) terms) (hr : right.Tidy)
    (hkey : strict = true → right.IsKey) :
    ∃ left height below strict', terms = (left, height) :: below ∧ Kept strict' ops below ∧
      (RawTree.binary op.symbol op.location left right).Tidy ∧
      (strict' = true → (RawTree.binary op.symbol op.location left right).IsKey) := by
  cases h with
  | dot hl h => exact ⟨_, _, _, false, rfl, h, ⟨hl, hr, fun _ => hkey rfl⟩, by simp⟩
  | binary hs hl h => exact ⟨_, _, _, false, rfl, h, ⟨hl, hr, fun hdot => (hs hdot).elim⟩, by simp⟩
  | lead hs h => exact ⟨_, _, _, _, rfl, h, ⟨trivial, hr, fun hdot => (hs hdot).elim⟩, fun _ => trivial⟩

theorem ready_reduce {op : PendingOp} (h : Ready (op :: ops) f.terms) : Ready ops (f.reduce none op).terms := by
  obtain ⟨right, rightHeight, rest, strict, hterms, hkept, hr, hkey⟩ := h
  obtain ⟨left, leftHeight, below, strict', rfl, hbelow, hbinary, hkey'⟩ := hkept.reduce hr hkey
  exact ⟨_, _, below, strict', reduce_none_terms hterms, hbelow, hbinary, hkey'⟩

theorem ready_unwind (waitsOn : PendingOp → Bool) (h : Ready ops f.terms) :
    Ready (unwind none waitsOn ops f).ops (unwind none waitsOn ops f).terms :=
  unwind_induction (P := Ready) (fun _ _ _ _ h => ready_reduce h) h

/-- No dot goes on waiting when an operator comes that is not a leading one. -/
theorem waitsFor_dot (symbol : Symbol) (location : Location) :
    waitsFor symbol ⟨.dot, location, Symbol.dot.priority⟩ = false := by
  cases symbol <;> first | decide | rfl

/-- After an operator has come, there is a left operand for it, and no dot waits right before. -/
theorem exists_left_of_ready (symbol : Symbol) (h : Ready ops f.terms) :
    ∃ left height rest, (unwind none (waitsFor symbol) ops f).terms = (left, height) :: rest ∧
      Kept false (unwind none (waitsFor symbol) ops f).ops rest ∧ left.Tidy := by
  obtain ⟨left, height, rest, strict, hterms, hkept, hl, -⟩ := ready_unwind (waitsFor symbol) h
  refine ⟨left, height, rest, hterms, ?_, hl⟩
  generalize hops : (unwind none (waitsFor symbol) ops f).ops = ops' at hkept
  cases hkept with
  | dot _ _ =>
    have hwaits := head_unwind hops
    rw [waitsFor_dot] at hwaits
    cases hwaits
  | nil => exact .nil
  | binary hs hl h => exact .binary hs hl h
  | lead hs h => exact .lead hs h

theorem Kept.await {left : RawTree} {height : Nat} (h : Kept false ops terms) (hl : left.Tidy) (symbol : Symbol)
    (location : Location) :
    ∃ strict, Kept strict (⟨symbol, location, symbol.priority⟩ :: ops) ((left, height) :: terms) := by
  by_cases hs : symbol = .dot
  · subst hs
    exact ⟨true, .dot hl h⟩
  · exact ⟨false, .binary hs hl h⟩

/-! ## Frames -/

theorem Tidy.addOp (h : f.Tidy) (symbol : Symbol) (location : Location) : (f.addOp none symbol location).Tidy := by
  cases hf : f.afterTerm with
  | true =>
    rw [addOp_of_afterTerm hf]
    obtain ⟨left, height, rest, hterms, hkept, hl⟩ := exists_left_of_ready symbol (h.ready hf)
    simp only [Tidy, await, Bool.false_eq_true, if_false, hterms]
    exact hkept.await hl symbol location
  | false =>
    simp only [Tidy, hf, Bool.false_eq_true, if_false] at h
    obtain ⟨strict, hkept⟩ := h
    cases hlead : symbol.mayLead with
    -- A leading operator takes no operand from those that wait, a dot among them.
    | true =>
      rw [addOp_of_mayLead hf hlead]
      have hs : symbol ≠ .dot := by rintro rfl; cases hlead
      exact ⟨false, hkept.lead hs⟩
    | false =>
      rw [addOp_of_missing hf hlead]
      have hready : Ready f.ops (f.miss location.start).terms := hkept.ready_missing _ _
      obtain ⟨left, height, rest, hterms, hkept, hl⟩ := exists_left_of_ready symbol hready
      simp only [Tidy, await, Bool.false_eq_true, if_false, hterms]
      exact hkept.await hl symbol location

theorem Tidy.addTerm (h : f.Tidy) {t : RawTree} (ht : t.Tidy) (hclosed : t.IsClosed) (height : Nat)
    (location : Location) : (f.addTerm none t height location).Tidy := by
  cases hf : f.afterTerm with
  | true =>
    simp only [Tidy, hf, if_true] at h
    obtain ⟨callee, calleeHeight, rest, strict, hterms, hkept, hc, hcallee⟩ := h
    rw [addTerm_of_afterTerm hf hterms, push_none]
    exact ⟨_, _, rest, strict, rfl, hkept, ⟨hcallee, hc, ht⟩, trivial⟩
  | false =>
    simp only [Tidy, hf, Bool.false_eq_true, if_false] at h
    obtain ⟨strict, hkept⟩ := h
    rw [addTerm_of_no_callee (by simp [hf]), push_none]
    exact ⟨t, _, _, strict, rfl, hkept, ht, hclosed⟩

theorem Tidy.finish (h : f.Tidy) (stop : Nat) : (f.finish none stop).tree.Tidy := by
  have hlast (hready : Ready f.ops (f.ended stop).terms) : (f.finish none stop).tree.Tidy := by
    obtain ⟨t, height, rest, strict, hterms, -, ht, -⟩ := ready_unwind (fun _ => false) hready
    have hclosed : (f.closed none stop).terms = (t, height) :: rest := by rw [closed, ended_ops, hterms]
    rw [finish_eq, pop_fst_of_cons hclosed]
    exact ht
  cases hf : f.afterTerm with
  | true => exact hlast (by simpa [ended, hf] using h.ready hf)
  | false =>
    simp only [Tidy, hf, Bool.false_eq_true, if_false] at h
    obtain ⟨strict, hkept⟩ := h
    cases hops : f.ops with
    | cons op rest => exact hlast (by simpa [ended, hf, hops, miss] using hkept.ready_missing stop 1)
    -- Nothing has been read, so the frame ends as a missing term.
    | nil =>
      rw [hops] at hkept
      generalize hterms : f.terms = terms at hkept
      cases hkept
      rw [finish_eq]
      simp [closed, ended, hf, hops, unwind, pop, hterms, RawTree.Tidy]

end Frame

namespace Reading

variable {r next : Reading}

/-- All frames are tidy. -/
def Tidy (r : Reading) : Prop :=
  r.current.Tidy ∧ ∀ o ∈ r.opened, o.around.Tidy

theorem tidy_initial : Tidy {} :=
  ⟨Frame.tidy_initial, by simp⟩

theorem Tidy.step (h : r.Tidy) {token : Token} (hstep : Step none r token next []) : next.Tidy := by
  obtain ⟨hcurrent, hopened⟩ := h
  generalize hf : ([] : List ParseError) = faults at hstep
  cases hstep with
  | opening _ => exact ⟨Frame.tidy_initial, List.forall_mem_cons.2 ⟨hcurrent, hopened⟩⟩
  | closing _ ho =>
    rw [ho] at hopened
    obtain ⟨haround, houter⟩ := List.forall_mem_cons.1 hopened
    exact ⟨Frame.Tidy.addTerm haround (t := .group _ _ _) (hcurrent.finish _) trivial _ _, houter⟩
  | operator _ _ => exact ⟨hcurrent.addOp _ _, hopened⟩
  | term hs =>
    obtain ⟨l, -, hterm⟩ := RawTree.ofToken_of_no_fault hs hf.symm
    rw [hterm]
    exact ⟨hcurrent.addTerm (t := .leaf l _) trivial trivial _ _, hopened⟩

theorem Tidy.reads {tokens : List Token} (h : r.Tidy) (hreads : Reads r tokens next) : next.Tidy := by
  induction hreads with
  | nil => exact h
  | cons hstep _ ih => exact ih (h.step hstep)

end Reading

/-- The raw tree of a source text without faults is tidy. -/
theorem RawTree.tidy_of_ofSource {source : String} {tree : RawTree}
    (h : RawTree.ofSource none source = (tree, [])) : tree.Tidy := by
  obtain ⟨tokens, next, -, hreads, -, rfl⟩ := Reading.reads_of_run h
  exact (Reading.tidy_initial.reads hreads).1.finish _

end DynamicConfig

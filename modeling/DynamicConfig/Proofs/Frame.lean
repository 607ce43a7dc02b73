import DynamicConfig.Proofs.Meaning
import DynamicConfig.RawTree.Reading
/-!
# The terms of a frame

A frame keeps one term for each waiting operator, and one more after a term (`Frame.InStep`), so no
operator misses an operand that was read, and no term is left over at the end. Hence a part that is
cut off shows in the term that the frame ends as (`Frame.isWhole_of_finish`), and where nothing is cut off
the limit does not matter (`Frame.finish_uncut`).
-/

namespace DynamicConfig

namespace Frame

variable {limit : Option Nat} {f : Frame}

/-! ## Operators and terms in step -/

/-- There is a term for each waiting operator, and one more after a term. -/
def InStep (f : Frame) : Prop :=
  f.terms.length = f.ops.length + if f.afterTerm then 1 else 0

@[simp]
theorem push_ops (t : RawTree) (height offset : Nat) : (f.push limit t height offset).ops = f.ops := by
  unfold push; split <;> rfl

@[simp]
theorem push_afterTerm (t : RawTree) (height offset : Nat) :
    (f.push limit t height offset).afterTerm = f.afterTerm := by
  unfold push; split <;> rfl

@[simp]
theorem push_length (t : RawTree) (height offset : Nat) :
    (f.push limit t height offset).terms.length = f.terms.length + 1 := by
  unfold push; split <;> rfl

@[simp]
theorem pop_ops (offset : Nat) : (f.pop offset).2.ops = f.ops := by
  unfold pop; split <;> rfl

@[simp]
theorem pop_afterTerm (offset : Nat) : (f.pop offset).2.afterTerm = f.afterTerm := by
  unfold pop; split <;> rfl

@[simp]
theorem pop_cutAt (offset : Nat) : (f.pop offset).2.cutAt = f.cutAt := by
  unfold pop; split <;> rfl

@[simp]
theorem pop_terms (offset : Nat) : (f.pop offset).2.terms = f.terms.tail := by
  unfold pop; split <;> simp_all

theorem pop_fst_of_cons {t : RawTree × Nat} {rest : List (RawTree × Nat)} (h : f.terms = t :: rest)
    (offset : Nat) : (f.pop offset).1 = t := by
  unfold pop; split <;> simp_all

/-- An operator takes the last two terms. -/
theorem reduce_eq (op : PendingOp) :
    f.reduce limit op =
      let right := f.pop op.location.stop
      let left := right.2.pop op.location.start
      left.2.push limit (.binary op.symbol op.location left.1.1 right.1.1) (max left.1.2 right.1.2 + 1)
        op.location.start := rfl

@[simp]
theorem reduce_ops (op : PendingOp) : (f.reduce limit op).ops = f.ops := by
  simp [reduce_eq]

@[simp]
theorem reduce_afterTerm (op : PendingOp) : (f.reduce limit op).afterTerm = f.afterTerm := by
  simp [reduce_eq]

@[simp]
theorem reduce_length (op : PendingOp) : (f.reduce limit op).terms.length = f.terms.length - 2 + 1 := by
  simp [reduce_eq, Nat.sub_sub]

/-- What each operator that takes its operands preserves is preserved by all that take theirs. -/
theorem unwind_induction {waitsOn : PendingOp → Bool} {P : List PendingOp → List (RawTree × Nat) → Prop}
    (hreduce : ∀ (op : PendingOp) (ops : List PendingOp) (f : Frame), waitsOn op = false → P (op :: ops) f.terms →
      P ops (f.reduce limit op).terms)
    {ops : List PendingOp} (h : P ops f.terms) :
    P (unwind limit waitsOn ops f).ops (unwind limit waitsOn ops f).terms := by
  induction ops generalizing f with
  | nil => exact h
  | cons op rest ih =>
    unfold unwind
    split
    case isTrue => exact h
    case isFalse hwaits => exact ih (hreduce op rest f (by simpa using hwaits) h)

/-- The last operator that waits on is one that has to. -/
theorem head_unwind {waitsOn : PendingOp → Bool} {ops rest : List PendingOp} {op : PendingOp}
    (h : (unwind limit waitsOn ops f).ops = op :: rest) : waitsOn op = true := by
  induction ops generalizing f with
  | nil => cases h
  | cons top below ih =>
    unfold unwind at h
    split at h
    · rename_i hwaits
      cases h
      exact hwaits
    · exact ih h

/-- Taking operators leaves the waiting ones and the terms in step. -/
theorem unwind_inStep (limit : Option Nat) (waitsOn : PendingOp → Bool) (ops : List PendingOp)
    (h : f.terms.length = ops.length + 1) :
    (unwind limit waitsOn ops f).terms.length = (unwind limit waitsOn ops f).ops.length + 1 := by
  have hstep (op : PendingOp) (ops : List PendingOp) (f : Frame) (_ : waitsOn op = false)
      (h : f.terms.length = (op :: ops).length + 1) : (f.reduce limit op).terms.length = ops.length + 1 := by
    simp only [reduce_length, List.length_cons] at h ⊢
    omega
  exact unwind_induction (P := fun ops terms => terms.length = ops.length + 1) hstep h

@[simp]
theorem unwind_afterTerm (waitsOn : PendingOp → Bool) (ops : List PendingOp) :
    (unwind limit waitsOn ops f).afterTerm = f.afterTerm := by
  induction ops generalizing f with
  | nil => rfl
  | cons op rest ih =>
    unfold unwind
    split
    · rfl
    · rw [ih, reduce_afterTerm]

/-- The frame with a missing term. -/
def miss (f : Frame) (offset : Nat) : Frame :=
  { f with terms := (.missing offset, 1) :: f.terms }

/-- The frame with an operator that waits for its right operand. -/
def await (f : Frame) (symbol : Symbol) (location : Location) (priority : Nat) : Frame :=
  { f with ops := ⟨symbol, location, priority⟩ :: f.ops, afterTerm := false }

theorem addOp_of_afterTerm (h : f.afterTerm = true) (symbol : Symbol) (location : Location) :
    f.addOp limit symbol location =
      (unwind limit (waitsFor symbol) f.ops f).await symbol location symbol.priority := by
  simp [addOp, h, await]

theorem addOp_of_mayLead (h : f.afterTerm = false) {symbol : Symbol} (hs : symbol.mayLead = true)
    (location : Location) :
    f.addOp limit symbol location = (f.miss location.start).await symbol location Symbol.not.priority := by
  simp [addOp, h, hs, await, miss]

theorem addOp_of_missing (h : f.afterTerm = false) {symbol : Symbol} (hs : symbol.mayLead = false)
    (location : Location) :
    f.addOp limit symbol location =
      (unwind limit (waitsFor symbol) f.ops (f.miss location.start)).await symbol location symbol.priority := by
  simp [addOp, h, hs, await, miss]

theorem addTerm_of_afterTerm (hf : f.afterTerm = true) {callee : RawTree} {calleeHeight : Nat}
    {rest : List (RawTree × Nat)} (ht : f.terms = (callee, calleeHeight) :: rest) (t : RawTree) (height : Nat)
    (location : Location) :
    f.addTerm limit t height location =
      { { f with terms := rest }.push limit (.apply (.empty location.start) callee t)
          (max calleeHeight height + 1) location.start with afterTerm := true } := by
  unfold addTerm
  split <;> simp_all

theorem addTerm_of_no_callee (h : f.afterTerm = true → f.terms = []) (t : RawTree) (height : Nat)
    (location : Location) :
    f.addTerm limit t height location = { f.push limit t height location.start with afterTerm := true } := by
  unfold addTerm
  split
  case h_1 hf ht => simp [h hf] at ht
  case h_2 => rfl

theorem callee_or_not (f : Frame) :
    (∃ callee calleeHeight rest, f.afterTerm = true ∧ f.terms = (callee, calleeHeight) :: rest) ∨
      (f.afterTerm = true → f.terms = []) := by
  cases ht : f.terms with
  | nil => exact .inr fun _ => rfl
  | cons term rest =>
    cases hf : f.afterTerm with
    | true => exact .inl ⟨term.1, term.2, rest, rfl, rfl⟩
    | false => exact .inr fun h => by cases h

theorem inStep_addOp (h : f.InStep) (symbol : Symbol) (location : Location) :
    (f.addOp limit symbol location).InStep := by
  unfold InStep at h
  cases hf : f.afterTerm with
  | true =>
    rw [addOp_of_afterTerm hf]
    simpa [InStep, await] using
      unwind_inStep limit (waitsFor symbol) f.ops (by simpa [hf] using h)
  | false =>
    have hlen : f.terms.length + 1 = f.ops.length + 1 := by simpa [hf] using h
    cases hs : symbol.mayLead with
    | true =>
      rw [addOp_of_mayLead hf hs]
      simpa [InStep, await, miss] using hlen
    | false =>
      rw [addOp_of_missing hf hs]
      simpa [InStep, await] using
        unwind_inStep limit (f := f.miss location.start) (waitsFor symbol) f.ops hlen

/-- A term is one more, or takes the place of its callee. -/
theorem inStep_addTerm (h : f.InStep) (t : RawTree) (height : Nat) (location : Location) :
    (f.addTerm limit t height location).InStep := by
  unfold InStep at h
  rcases f.callee_or_not with ⟨callee, calleeHeight, rest, hf, ht⟩ | hf
  · rw [addTerm_of_afterTerm hf ht]
    simp only [hf, ht, List.length_cons, if_true] at h
    simpa [InStep] using h
  · have hfalse : f.afterTerm = false := by
      cases hb : f.afterTerm with
      | false => rfl
      | true => simp [hb, hf hb] at h
    rw [addTerm_of_no_callee hf]
    simpa [InStep, hfalse] using h

theorem unwind_false_ops (ops : List PendingOp) : (unwind limit (fun _ => false) ops f).ops = [] := by
  induction ops generalizing f with
  | nil => rfl
  | cons op rest ih => simpa [unwind] using ih

/-- The frame at its end, where an operator without a right operand misses it. -/
def ended (f : Frame) (stop : Nat) : Frame :=
  if !f.afterTerm && !f.ops.isEmpty then f.miss stop else f

@[simp]
theorem ended_ops (stop : Nat) : (f.ended stop).ops = f.ops := by
  unfold ended; split <;> rfl

/-- The frame after its end, when no operator waits any more. -/
def closed (limit : Option Nat) (f : Frame) (stop : Nat) : Frame :=
  unwind limit (fun _ => false) (f.ended stop).ops (f.ended stop)

theorem finish_eq (stop : Nat) :
    f.finish limit stop =
      ⟨((f.closed limit stop).pop stop).1.1, ((f.closed limit stop).pop stop).1.2, (f.closed limit stop).cutAt⟩ := by
  rw [← pop_cutAt stop]
  rfl

/-- A frame in step has nothing in it, or a term more than operators at its end. -/
theorem length_ended (h : f.InStep) (stop : Nat) :
    (f.ops = [] ∧ f.terms = [] ∧ f.afterTerm = false) ∨ (f.ended stop).terms.length = (f.ended stop).ops.length + 1 := by
  unfold InStep at h
  cases hf : f.afterTerm with
  | true => exact .inr (by simpa [ended, hf] using h)
  | false =>
    cases hops : f.ops with
    | nil => exact .inl ⟨rfl, by simpa [hf, hops] using h, rfl⟩
    | cons op rest => exact .inr (by simpa [ended, hf, hops, miss] using h)

/-- A frame in step has nothing in it, or ends as its only term. -/
theorem terms_of_ended (limit : Option Nat) (h : f.InStep) (stop : Nat) :
    (f.ops = [] ∧ f.terms = [] ∧ f.afterTerm = false) ∨
      ∃ t, (f.closed limit stop).terms = [t] := by
  refine (length_ended h stop).imp id fun hlen => ?_
  have hu := unwind_inStep limit (fun _ => false) (f.ended stop).ops hlen
  rw [unwind_false_ops] at hu
  exact List.length_eq_one_iff.1 hu

/-! ## What all terms have -/

/-- A term has the property if the terms that it is made of do. What is too high need not have it: it is cut off, and
what stands in its place has the property. -/
structure Inherited (limit : Option Nat) (P : RawTree × Nat → Prop) : Prop where
  missing : ∀ offset, P (.missing offset, 1)
  cutOff : ∀ offset height, exceeds limit height = true → P (.cutOff offset, 1)
  ofToken : ∀ token, P ((RawTree.ofToken token).1, 1)
  binary : ∀ symbol location {left right}, P left → P right → exceeds limit (max left.2 right.2 + 1) = false →
    P (.binary symbol location left.1 right.1, max left.2 right.2 + 1)
  apply : ∀ location {callee args}, P callee → P args → exceeds limit (max callee.2 args.2 + 1) = false →
    P (.apply location callee.1 args.1, max callee.2 args.2 + 1)
  group : ∀ bracket location {inner}, P inner → exceeds limit (inner.2 + 1) = false →
    P (.group bracket location inner.1, inner.2 + 1)

/-- All terms have the property. -/
def All (P : RawTree × Nat → Prop) (f : Frame) : Prop :=
  ∀ term ∈ f.terms, P term

theorem exceeds_mono {low high : Nat} (hle : low ≤ high) (h : exceeds limit high = false) : exceeds limit low = false := by
  cases limit with
  | none => rfl
  | some n => simp only [exceeds, Option.any_some, decide_eq_false_iff_not] at h ⊢; omega

section All

variable {P : RawTree × Nat → Prop} (hP : Inherited limit P)
include hP

theorem all_push (h : f.All P) {t : RawTree} {height : Nat} (ht : exceeds limit height = false → P (t, height))
    (offset : Nat) : (f.push limit t height offset).All P := by
  unfold push
  split
  case isTrue hc => exact List.forall_mem_cons.2 ⟨hP.cutOff offset height hc, h⟩
  case isFalse hc => exact List.forall_mem_cons.2 ⟨ht (by simpa using hc), h⟩

theorem all_pop (h : f.All P) (offset : Nat) : P (f.pop offset).1 ∧ (f.pop offset).2.All P := by
  unfold pop
  split
  case h_1 => exact ⟨hP.missing offset, h⟩
  case h_2 term rest ht =>
    rw [All, ht] at h
    exact List.forall_mem_cons.1 h

theorem all_reduce (h : f.All P) (op : PendingOp) : (f.reduce limit op).All P := by
  obtain ⟨hright, hrest⟩ := all_pop hP h op.location.stop
  obtain ⟨hleft, hrest⟩ := all_pop hP hrest op.location.start
  rw [reduce_eq]
  exact all_push hP hrest (hP.binary op.symbol op.location hleft hright) _

theorem all_unwind (h : f.All P) (waitsOn : PendingOp → Bool) (ops : List PendingOp) :
    (unwind limit waitsOn ops f).All P :=
  unwind_induction (P := fun _ terms => ∀ term ∈ terms, P term) (fun op _ _ _ h => all_reduce hP h op) h

theorem all_miss (h : f.All P) (offset : Nat) : (f.miss offset).All P :=
  List.forall_mem_cons.2 ⟨hP.missing offset, h⟩

theorem all_addOp (h : f.All P) (symbol : Symbol) (location : Location) : (f.addOp limit symbol location).All P := by
  cases hf : f.afterTerm with
  | true =>
    rw [addOp_of_afterTerm hf]
    exact all_unwind hP h (waitsFor symbol) f.ops
  | false =>
    have hmiss := all_miss hP h location.start
    cases hs : symbol.mayLead with
    | true =>
      rw [addOp_of_mayLead hf hs]
      exact hmiss
    | false =>
      rw [addOp_of_missing hf hs]
      exact all_unwind hP hmiss (waitsFor symbol) f.ops

theorem all_addTerm (h : f.All P) {t : RawTree} {height : Nat} (ht : exceeds limit height = false → P (t, height))
    (location : Location) : (f.addTerm limit t height location).All P := by
  rcases f.callee_or_not with ⟨callee, calleeHeight, rest, hf, hterms⟩ | hf
  · rw [addTerm_of_afterTerm hf hterms]
    rw [All, hterms] at h
    obtain ⟨hcallee, hrest⟩ := List.forall_mem_cons.1 h
    refine all_push hP (f := { f with terms := rest }) hrest (fun hlow => ?_) _
    exact hP.apply _ hcallee (ht (exceeds_mono (by omega) hlow)) hlow
  · rw [addTerm_of_no_callee hf]
    exact all_push hP h ht _

/-- The term that a frame ends as has what all its terms have. -/
theorem all_finish (h : f.All P) (stop : Nat) : P ((f.finish limit stop).tree, (f.finish limit stop).height) := by
  have hended : (f.ended stop).All P := by
    unfold ended
    split
    · exact all_miss hP h stop
    · exact h
  rw [finish_eq]
  exact (all_pop hP (all_unwind hP hended _ _) stop).1

end All

/-! ## What is cut off shows -/

/-- No part of a term is cut off. -/
def AllWhole (f : Frame) : Prop :=
  ∀ t ∈ f.terms, t.1.IsWhole

/-- If the terms of a later frame are whole, those of an earlier one were whole, and none was cut off in
between. -/
def WholeBefore (f later : Frame) : Prop :=
  later.AllWhole → f.AllWhole ∧ later.cutAt = f.cutAt

theorem WholeBefore.trans {f g k : Frame} (h1 : f.WholeBefore g) (h2 : g.WholeBefore k) : f.WholeBefore k := by
  intro h
  obtain ⟨hg, hc⟩ := h2 h
  obtain ⟨hf, hc'⟩ := h1 hg
  exact ⟨hf, hc.trans hc'⟩

theorem isWhole_of_push {t : RawTree} {height offset : Nat} (h : (f.push limit t height offset).AllWhole) :
    t.IsWhole ∧ f.AllWhole ∧ (f.push limit t height offset).cutAt = f.cutAt := by
  unfold push at h ⊢
  split
  case isTrue hc => rw [if_pos hc] at h; exact (h (.cutOff offset, 1) List.mem_cons_self).elim
  case isFalse hc =>
    rw [if_neg hc] at h
    exact ⟨h _ List.mem_cons_self, fun u hu => h u (List.mem_cons_of_mem _ hu), rfl⟩

theorem isWhole_of_pop {offset : Nat} (h1 : (f.pop offset).1.1.IsWhole) (h2 : (f.pop offset).2.AllWhole) :
    f.AllWhole := by
  unfold pop at h1 h2
  split at h1
  case h_1 ht => simp [AllWhole, ht]
  case h_2 t rest ht =>
    rw [ht] at h2
    intro u hu
    rw [ht] at hu
    rcases List.mem_cons.1 hu with rfl | hu
    · exact h1
    · exact h2 u hu

theorem wholeBefore_reduce (op : PendingOp) : f.WholeBefore (f.reduce limit op) := by
  intro h
  rw [reduce_eq] at h ⊢
  obtain ⟨⟨hl, hr⟩, hrest, hc⟩ := isWhole_of_push h
  refine ⟨isWhole_of_pop hr (isWhole_of_pop hl hrest), ?_⟩
  simpa using hc

theorem wholeBefore_unwind (waitsOn : PendingOp → Bool) (ops : List PendingOp) :
    f.WholeBefore (unwind limit waitsOn ops f) := by
  induction ops generalizing f with
  | nil => exact fun h => ⟨h, rfl⟩
  | cons op rest ih =>
    unfold unwind
    split
    · exact fun h => ⟨h, rfl⟩
    · exact (wholeBefore_reduce op).trans ih

theorem wholeBefore_miss (offset : Nat) : f.WholeBefore (f.miss offset) :=
  fun h => ⟨fun u hu => h u (List.mem_cons_of_mem _ hu), rfl⟩

theorem wholeBefore_addOp (symbol : Symbol) (location : Location) :
    f.WholeBefore (f.addOp limit symbol location) := by
  cases hf : f.afterTerm with
  | true =>
    rw [addOp_of_afterTerm hf]
    exact wholeBefore_unwind (waitsFor symbol) f.ops
  | false =>
    cases hs : symbol.mayLead with
    | true =>
      rw [addOp_of_mayLead hf hs]
      exact wholeBefore_miss location.start
    | false =>
      rw [addOp_of_missing hf hs]
      exact (wholeBefore_miss location.start).trans (wholeBefore_unwind (waitsFor symbol) f.ops)

theorem isWhole_of_addTerm {t : RawTree} {height : Nat} {location : Location}
    (h : (f.addTerm limit t height location).AllWhole) :
    t.IsWhole ∧ f.AllWhole ∧ (f.addTerm limit t height location).cutAt = f.cutAt := by
  rcases f.callee_or_not with ⟨callee, calleeHeight, rest, hf, ht⟩ | hf
  · rw [addTerm_of_afterTerm hf ht] at h ⊢
    obtain ⟨⟨hc, hw⟩, hrest, hcut⟩ := isWhole_of_push h
    refine ⟨hw, fun u hu => ?_, hcut⟩
    rw [ht] at hu
    rcases List.mem_cons.1 hu with rfl | hu
    · exact hc
    · exact hrest u hu
  · rw [addTerm_of_no_callee hf] at h ⊢
    exact isWhole_of_push h

theorem wholeBefore_ended (stop : Nat) : f.WholeBefore (f.ended stop) := by
  unfold ended
  split
  · exact wholeBefore_miss stop
  · exact fun h => ⟨h, rfl⟩

/-- A frame in step ends as its only term, so what is cut off in the frame is cut off in the term. -/
theorem isWhole_of_finish (hs : f.InStep) {stop : Nat} (h : (f.finish limit stop).tree.IsWhole) :
    f.AllWhole ∧ (f.finish limit stop).cutAt = f.cutAt := by
  rw [finish_eq] at h ⊢
  rcases terms_of_ended limit hs stop with ⟨hops, hterms, hf⟩ | ⟨t, ht⟩
  · refine ⟨by simp [AllWhole, hterms], ?_⟩
    simp [closed, ended, hops, hf, unwind]
  · refine (wholeBefore_ended stop).trans (wholeBefore_unwind _ _) ?_
    rw [pop_fst_of_cons ht] at h
    simpa [AllWhole, ht] using h

/-! ## Where nothing is cut off, the limit does not matter -/

theorem push_uncut {t : RawTree} {height offset : Nat} (h : (f.push limit t height offset).cutAt = none) :
    f.push limit t height offset = f.push none t height offset ∧ f.cutAt = none := by
  unfold push at h ⊢
  split
  case isTrue hc =>
    rw [if_pos hc] at h
    cases hcut : f.cutAt <;> simp [hcut] at h
  case isFalse hc =>
    rw [if_neg hc] at h
    exact ⟨rfl, h⟩

theorem reduce_uncut {op : PendingOp} (h : (f.reduce limit op).cutAt = none) :
    f.reduce limit op = f.reduce none op ∧ f.cutAt = none := by
  rw [reduce_eq] at h
  obtain ⟨heq, hc⟩ := push_uncut h
  exact ⟨by rw [reduce_eq, reduce_eq, heq], by simpa using hc⟩

theorem unwind_uncut {waitsOn : PendingOp → Bool} {ops : List PendingOp}
    (h : (unwind limit waitsOn ops f).cutAt = none) :
    unwind limit waitsOn ops f = unwind none waitsOn ops f ∧ f.cutAt = none := by
  induction ops generalizing f with
  | nil => exact ⟨rfl, h⟩
  | cons op rest ih =>
    unfold unwind at h ⊢
    split
    case isTrue hw =>
      rw [if_pos hw] at h
      exact ⟨rfl, h⟩
    case isFalse hw =>
      rw [if_neg hw] at h
      obtain ⟨heq, hc⟩ := ih h
      obtain ⟨hr, hc⟩ := reduce_uncut hc
      exact ⟨heq.trans (by rw [hr]), hc⟩

theorem addOp_uncut {symbol : Symbol} {location : Location} (h : (f.addOp limit symbol location).cutAt = none) :
    f.addOp limit symbol location = f.addOp none symbol location ∧ f.cutAt = none := by
  cases hf : f.afterTerm with
  | true =>
    rw [addOp_of_afterTerm hf] at h ⊢
    obtain ⟨heq, hc⟩ := unwind_uncut (f := f) h
    exact ⟨by rw [addOp_of_afterTerm hf, heq], hc⟩
  | false =>
    cases hs : symbol.mayLead with
    | true =>
      rw [addOp_of_mayLead hf hs] at h ⊢
      exact ⟨(addOp_of_mayLead hf hs _).symm, h⟩
    | false =>
      rw [addOp_of_missing hf hs] at h ⊢
      obtain ⟨heq, hc⟩ := unwind_uncut (f := f.miss location.start) h
      exact ⟨by rw [addOp_of_missing hf hs, heq], hc⟩

theorem addTerm_uncut {t : RawTree} {height : Nat} {location : Location}
    (h : (f.addTerm limit t height location).cutAt = none) :
    f.addTerm limit t height location = f.addTerm none t height location ∧ f.cutAt = none := by
  rcases f.callee_or_not with ⟨callee, calleeHeight, rest, hf, ht⟩ | hf
  · rw [addTerm_of_afterTerm hf ht] at h ⊢
    obtain ⟨heq, hc⟩ := push_uncut h
    exact ⟨by rw [addTerm_of_afterTerm hf ht, heq], hc⟩
  · rw [addTerm_of_no_callee hf] at h ⊢
    obtain ⟨heq, hc⟩ := push_uncut h
    exact ⟨by rw [addTerm_of_no_callee hf, heq], hc⟩

theorem finish_uncut {stop : Nat} (h : (f.finish limit stop).cutAt = none) :
    f.finish limit stop = f.finish none stop ∧ f.cutAt = none := by
  rw [finish_eq] at h ⊢
  obtain ⟨heq, hc⟩ := unwind_uncut h
  refine ⟨by rw [finish_eq, closed, heq, closed], ?_⟩
  unfold ended at hc
  split at hc <;> exact hc

end Frame

end DynamicConfig

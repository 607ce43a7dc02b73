import DynamicConfig.Proofs.Frame
/-!
# Operands of operators

Operators and terms are fed to a frame one after the other. Its operators and terms stay in step, so that every operator
that takes its operands finds them, and the term that a frame ends as is the only one left (`operands_are_always_there`).
That no operand is made up is said by a stricter way to take terms, which fails where there is none (`Frame.pop?`): fed to
it, a frame is the same.
-/

namespace DynamicConfig

/-- Whether a term may be fed to a frame: a token or a pair of brackets. -/
def RawTree.IsOperand : RawTree → Prop
  | leaf _ _ | group _ _ _ => True
  | _ => False

/-- Whether a term is there: what has been fed, an application, or what stands where one of these was too high. -/
def RawTree.IsPresent : RawTree → Prop
  | leaf _ _ | group _ _ _ | apply _ _ _ | cutOff _ => True
  | _ => False

theorem RawTree.IsOperand.isPresent {tree : RawTree} (h : tree.IsOperand) : tree.IsPresent := by
  cases tree <;> trivial

namespace Frame

/-- What is fed to a frame: an operator, or a term of some height. -/
inductive Input
  | operator (symbol : Symbol) (location : Location)
  | term (tree : RawTree) (height : Nat) (location : Location)

/-- Whether the term that is fed, if it is one, is a token or a pair of brackets. -/
def Input.IsProper : Input → Prop
  | operator _ _ => True
  | term tree _ _ => tree.IsOperand

variable {limit : Option Nat} {f : Frame}

/-- Feeds an operator or a term to a frame. -/
def feed (limit : Option Nat) (f : Frame) : Input → Frame
  | .operator symbol location => f.addOp limit symbol location
  | .term tree height location => f.addTerm limit tree height location

/-! ## Taking only what is there -/

/-- Takes the last term, if there is one. -/
def pop? (f : Frame) : Option ((RawTree × Nat) × Frame) :=
  match f.terms with
  | [] => none
  | term :: rest => some (term, { f with terms := rest })

/-- Gives an operator its two operands, if both are there. -/
def reduce? (limit : Option Nat) (f : Frame) (op : PendingOp) : Option Frame := do
  let ((right, rightHeight), f) ← f.pop?
  let ((left, leftHeight), f) ← f.pop?
  return f.push limit (.binary op.symbol op.location left right) (max leftHeight rightHeight + 1) op.location.start

/-- Gives waiting operators their operands, the last one first, up to one that has to wait on, if all are there. -/
def unwind? (limit : Option Nat) (waitsOn : PendingOp → Bool) : List PendingOp → Frame → Option Frame
  | [], f => some { f with ops := [] }
  | top :: rest, f =>
    if waitsOn top then some { f with ops := top :: rest }
    else (f.reduce? limit top).bind (unwind? limit waitsOn rest)

/-- Adds an operator, if the waiting ones that it makes take their operands find them. -/
def addOp? (limit : Option Nat) (f : Frame) (symbol : Symbol) (location : Location) : Option Frame :=
  if f.afterTerm then
    (unwind? limit (waitsFor symbol) f.ops f).map (·.await symbol location symbol.priority)
  else if symbol.mayLead then some ((f.miss location.start).await symbol location Symbol.not.priority)
  else
    (unwind? limit (waitsFor symbol) f.ops (f.miss location.start)).map (·.await symbol location symbol.priority)

/-- Feeds an operator or a term to a frame, if all operands that are taken then are there. -/
def feed? (limit : Option Nat) (f : Frame) : Input → Option Frame
  | .operator symbol location => f.addOp? limit symbol location
  | .term tree height location => some (f.addTerm limit tree height location)

/-- Gives every waiting operator its operands and takes a term, if all are there. The frame that is left goes with it. -/
def finish? (limit : Option Nat) (f : Frame) (stop : Nat) : Option (Finished × Frame) := do
  let f ← unwind? limit (fun _ => false) (f.ended stop).ops (f.ended stop)
  let ((tree, height), f) ← f.pop?
  return (⟨tree, height, f.cutAt⟩, f)

/-- Two terms are operands enough. -/
theorem reduce?_of_two (h : 2 ≤ f.terms.length) (op : PendingOp) : f.reduce? limit op = some (f.reduce limit op) := by
  obtain ⟨right, more, hright⟩ := List.exists_cons_of_length_pos (show 0 < f.terms.length by omega)
  rw [hright, List.length_cons] at h
  obtain ⟨left, rest, rfl⟩ := List.exists_cons_of_length_pos (show 0 < more.length by omega)
  simp [reduce?, reduce, pop?, pop, hright]

/-- One term more than operators are operands enough for all of them. -/
theorem unwind?_eq (waitsOn : PendingOp → Bool) {ops : List PendingOp} (h : f.terms.length = ops.length + 1) :
    unwind? limit waitsOn ops f = some (unwind limit waitsOn ops f) := by
  induction ops generalizing f with
  | nil => rfl
  | cons top rest ih =>
    rw [unwind?, unwind]
    split
    · rfl
    · rw [List.length_cons] at h
      rw [reduce?_of_two (by omega), Option.bind_some, ih (by rw [reduce_length]; omega)]

/-- An operator finds the operands of those before it that do not wait on. -/
theorem addOp?_eq (h : f.InStep) (symbol : Symbol) (location : Location) :
    f.addOp? limit symbol location = some (f.addOp limit symbol location) := by
  unfold InStep at h
  cases hf : f.afterTerm with
  | true =>
    rw [addOp?, if_pos hf, unwind?_eq _ (by simpa [hf] using h), Option.map_some, addOp_of_afterTerm hf]
  | false =>
    rw [addOp?, if_neg (by simp [hf])]
    cases hs : symbol.mayLead with
    | true => rw [if_pos rfl, addOp_of_mayLead hf hs]
    | false =>
      have hlen : (f.miss location.start).terms.length = f.ops.length + 1 := by simpa [hf, miss] using h
      rw [if_neg (by simp), unwind?_eq _ hlen, Option.map_some, addOp_of_missing hf hs]

theorem feed?_eq (h : f.InStep) (input : Input) : f.feed? limit input = some (f.feed limit input) := by
  cases input with
  | operator symbol location => exact addOp?_eq h symbol location
  | term tree height location => rfl

/-- A frame that is not empty ends as a term that is there, and no other one is left. -/
theorem finish?_eq (h : f.InStep) (hf : f.afterTerm = true ∨ f.ops ≠ []) (stop : Nat) :
    ∃ rest, f.finish? limit stop = some (f.finish limit stop, rest) ∧ rest.terms = [] ∧ rest.ops = [] := by
  have hlen : (f.ended stop).terms.length = (f.ended stop).ops.length + 1 := by
    refine (length_ended h stop).resolve_left ?_
    rintro ⟨hops, -, hterm⟩
    simp [hops, hterm] at hf
  obtain ⟨term, hterm⟩ : ∃ term, (f.closed limit stop).terms = [term] := by
    refine (terms_of_ended limit h stop).resolve_left ?_
    rintro ⟨hops, -, hterm⟩
    simp [hops, hterm] at hf
  refine ⟨((f.closed limit stop).pop stop).2, ?_, by rw [pop_terms, hterm, List.tail_cons], ?_⟩
  · rw [finish?, unwind?_eq _ hlen, ← closed, finish_eq]
    simp [pop?, pop, hterm]
  · rw [pop_ops, closed, unwind_false_ops]

/-! ## In step -/

theorem feed_inStep (h : f.InStep) (input : Input) : (f.feed limit input).InStep := by
  cases input with
  | operator symbol location => exact inStep_addOp h symbol location
  | term tree height location => exact inStep_addTerm h tree height location

theorem foldl_feed_inStep (h : f.InStep) (inputs : List Input) : (inputs.foldl (feed limit) f).InStep := by
  induction inputs generalizing f with
  | nil => exact h
  | cons input rest ih => exact ih (feed_inStep h input)

theorem foldlM_feed? (h : f.InStep) (inputs : List Input) :
    inputs.foldlM (feed? limit) f = some (inputs.foldl (feed limit) f) := by
  induction inputs generalizing f with
  | nil => rfl
  | cons input rest ih =>
    rw [List.foldlM_cons, feed?_eq h input, List.foldl_cons]
    exact ih (feed_inStep h input)

/-! ## The last term -/

/-- After a term the last one is there. -/
def EndsPresent (f : Frame) : Prop :=
  f.afterTerm = true → ∃ tree height rest, f.terms = (tree, height) :: rest ∧ tree.IsPresent

@[simp]
theorem addOp_afterTerm (symbol : Symbol) (location : Location) : (f.addOp limit symbol location).afterTerm = false := by
  cases hf : f.afterTerm with
  | true =>
    rw [addOp_of_afterTerm hf]
    rfl
  | false =>
    cases hs : symbol.mayLead with
    | true =>
      rw [addOp_of_mayLead hf hs]
      rfl
    | false =>
      rw [addOp_of_missing hf hs]
      rfl

theorem push_isPresent {tree : RawTree} (h : tree.IsPresent) (height offset : Nat) :
    ∃ tree' height' rest, (f.push limit tree height offset).terms = (tree', height') :: rest ∧ tree'.IsPresent := by
  unfold push
  split
  · exact ⟨_, _, _, rfl, trivial⟩
  · exact ⟨_, _, _, rfl, h⟩

theorem feed_endsPresent {input : Input} (h : input.IsProper) : (f.feed limit input).EndsPresent := by
  cases input with
  | operator symbol location =>
    intro hterm
    rw [feed, addOp_afterTerm] at hterm
    cases hterm
  | term tree height location =>
    intro _
    rw [feed]
    rcases f.callee_or_not with ⟨callee, calleeHeight, rest, hf, ht⟩ | hf
    · have happly : (RawTree.apply (.empty location.start) callee tree).IsPresent := trivial
      rw [addTerm_of_afterTerm hf ht]
      exact push_isPresent happly _ _
    · rw [addTerm_of_no_callee hf]
      exact push_isPresent h.isPresent _ _

theorem foldl_feed_endsPresent {inputs : List Input} (h : ∀ input ∈ inputs, input.IsProper) (hf : f.EndsPresent) :
    (inputs.foldl (feed limit) f).EndsPresent := by
  induction inputs generalizing f with
  | nil => exact hf
  | cons input rest ih =>
    obtain ⟨hinput, hrest⟩ := List.forall_mem_cons.1 h
    exact ih hrest (feed_endsPresent hinput)

/-- A frame that something has been fed to is not empty. -/
theorem not_empty_of_feed (f : Frame) (input : Input) :
    (f.feed limit input).afterTerm = true ∨ (f.feed limit input).ops ≠ [] := by
  cases input with
  | operator symbol location =>
    right
    rw [feed]
    cases hf : f.afterTerm with
    | true => simp [addOp_of_afterTerm hf, await]
    | false =>
      cases hs : symbol.mayLead with
      | true => simp [addOp_of_mayLead hf hs, await]
      | false => simp [addOp_of_missing hf hs, await]
  | term tree height location => exact .inl rfl

/-- The operators and terms of a frame stay in step. Whatever has been fed to it, no operand has been made up; there is one
term for each operator that waits, and after a term one more, the last of which is there. A frame that something has been
fed to finds all operands at its end, and no term is left then; an empty one has nothing but a missing term. -/
theorem operands_are_always_there (limit : Option Nat) {inputs : List Input}
    (hproper : ∀ input ∈ inputs, input.IsProper) (stop : Nat) :
    let f : Frame := inputs.foldl (feed limit) {}
    inputs.foldlM (feed? limit) {} = some f ∧
      f.terms.length = f.ops.length + (if f.afterTerm then 1 else 0) ∧
      (f.afterTerm = true → ∃ tree height rest, f.terms = (tree, height) :: rest ∧ tree.IsPresent) ∧
      (inputs = [] → f.finish? limit stop = none ∧ f.finish limit stop = ⟨.missing stop, 1, none⟩) ∧
      (inputs ≠ [] → ∃ rest, f.finish? limit stop = some (f.finish limit stop, rest) ∧ rest.terms = [] ∧ rest.ops = []) := by
  intro f
  have hstart : InStep {} := rfl
  have hstep : f.InStep := foldl_feed_inStep hstart inputs
  have hpresent : f.EndsPresent := foldl_feed_endsPresent hproper fun hterm => by cases hterm
  refine ⟨foldlM_feed? hstart inputs, hstep, hpresent, ?_, fun hne => ?_⟩
  · rintro rfl
    exact ⟨rfl, rfl⟩
  · obtain ⟨first, last, rfl⟩ := List.eq_nil_or_concat inputs |>.resolve_left hne
    refine finish?_eq hstep ?_ stop
    simp only [f, List.concat_eq_append, List.foldl_append, List.foldl_cons, List.foldl_nil]
    exact not_empty_of_feed _ last

/-- The operator that leads `b` waits for it while the sum waits for the product, and the last product misses an operand:
`a + -b c *`. -/
theorem operands_of_leading_operator_are_there :
    let name (text : String) (place : Nat) : Input := .term (.leaf (.name text) ⟨place, place + 1⟩) 1 ⟨place, place + 1⟩
    let inputs : List Input :=
      [name "a" 0, .operator .plus ⟨2, 3⟩, .operator .minus ⟨4, 5⟩, name "b" 5, name "c" 7, .operator .times ⟨9, 10⟩]
    (∀ input ∈ inputs, input.IsProper) ∧ inputs ≠ [] ∧
      ∃ f rest, inputs.foldlM (feed? (some maxHeight)) {} = some f ∧
        f.finish? (some maxHeight) 10 = some (f.finish (some maxHeight) 10, rest) ∧ rest.terms = [] := by
  intro name inputs
  have hproper : ∀ input ∈ inputs, input.IsProper := by simp [inputs, name, Input.IsProper, RawTree.IsOperand]
  have hne : inputs ≠ [] := List.cons_ne_nil _ _
  obtain ⟨hfed, -, -, -, hend⟩ := operands_are_always_there (some maxHeight) hproper 10
  obtain ⟨rest, hfinish, hterms, -⟩ := hend hne
  exact ⟨hproper, hne, _, rest, hfed, hfinish, hterms⟩

end Frame

end DynamicConfig

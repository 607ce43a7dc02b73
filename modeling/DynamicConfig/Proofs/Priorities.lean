import DynamicConfig.Proofs.Tokens
/-!
# Operators bind by their priorities

In the raw tree of any source text, faults and all, each operator binds its operands by priority: what binds less
tightly is never an operand without brackets around it (`operators_bind_by_priority`). The operators that wait are not
sorted by priority, as a leading one takes nothing from those before it, and neither does an `=` after another `=`.
But each of them waits for what stands above it, and has a left operand that did not wait for it
(`Frame.Waiting`).
-/

namespace DynamicConfig

namespace RawTree

/-- The trees in a tree, itself the first of them. -/
def parts : RawTree → List RawTree
  | missing offset => [missing offset]
  | cutOff offset => [cutOff offset]
  | leaf l location => [leaf l location]
  | binary symbol location left right => binary symbol location left right :: (left.parts ++ right.parts)
  | apply location callee args => apply location callee args :: (callee.parts ++ args.parts)
  | group bracket location inner => group bracket location inner :: inner.parts

/-- Whether the tree is an operator with its operands, and no brackets around it. -/
def isOperator : RawTree → Bool
  | binary _ _ _ _ => true
  | _ => false

/-- Whether the tree is an operator that leads its only operand. -/
def isLed : RawTree → Bool
  | binary symbol _ (missing _) _ => symbol.mayLead
  | _ => false

/-- The operator that stands between the operands of the tree, if it is one without brackets around it. An operand may
be missing. -/
def between? : RawTree → Option Symbol
  | binary symbol location left right => if (binary symbol location left right).isLed then none else some symbol
  | _ => none

/-- The operands of a single node, if it is an operator or an application, are ones that it can have without
brackets around them. -/
def KeepsPriority : RawTree → Prop
  | binary symbol location left right =>
    if (binary symbol location left right).isLed then ∀ inner, right.between? = some inner → inner = .dot
    else
      (∀ inner, right.between? = some inner → symbol.priority < inner.priority ∨ symbol = .assign ∧ inner = .assign) ∧
      (∀ inner, left.between? = some inner → symbol.priority ≤ inner.priority ∧ ¬ (symbol = .assign ∧ inner = .assign)) ∧
      (left.isLed → symbol.priority ≤ 30)
  | apply _ callee args => callee.isOperator = false ∧ args.isOperator = false
  | _ => True

example (a b c : Leaf) (place : Location) :
    ¬ (binary .times place (binary .plus place (leaf a place) (leaf b place)) (leaf c place)).KeepsPriority := by
  simp [KeepsPriority, isLed, between?, Symbol.priority]

/-- Every node keeps priority. -/
def Ordered (t : RawTree) : Prop :=
  ∀ node ∈ t.parts, node.KeepsPriority

/-- A single term, which is there. -/
def IsTerm : RawTree → Prop
  | binary _ _ _ _ | missing _ => False
  | _ => True

/-- The operator of the tree as it waited for its right operand. -/
def pending? : RawTree → Option PendingOp
  | binary symbol location left right =>
    some ⟨symbol, location,
      if (binary symbol location left right).isLed then Symbol.not.priority else symbol.priority⟩
  | _ => none

/-- The operator waits for the tree to be its right operand. -/
def AwaitedBy (t : RawTree) (op : PendingOp) : Prop :=
  ∀ symbol, t.between? = some symbol → Frame.waitsFor symbol op = true

/-- The tree does not wait when the operator comes, which may then have it as its left operand. -/
def Precedes (t : RawTree) (symbol : Symbol) : Prop :=
  (∀ op, t.pending? = some op → Frame.waitsFor symbol op = false) ∧ ∀ offset, t = missing offset → symbol.mayLead = false

variable {t left right : RawTree} {symbol : Symbol} {location : Location} {op : PendingOp}

theorem IsTerm.isOperator (h : t.IsTerm) : t.isOperator = false := by
  cases t <;> first | rfl | exact h.elim

theorem IsTerm.between? (h : t.IsTerm) : t.between? = none := by
  cases t <;> first | rfl | exact h.elim

theorem IsTerm.pending? (h : t.IsTerm) : t.pending? = none := by
  cases t <;> first | rfl | exact h.elim

theorem IsTerm.precedes (h : t.IsTerm) (symbol : Symbol) : t.Precedes symbol := by
  refine ⟨by simp [h.pending?], ?_⟩
  rintro offset rfl
  exact h.elim

theorem precedes_missing (offset : Nat) (h : symbol.mayLead = false) : (missing offset).Precedes symbol :=
  ⟨by simp [pending?], fun _ _ => h⟩

theorem awaitedBy_missing (offset : Nat) (op : PendingOp) : (missing offset).AwaitedBy op := by
  simp [AwaitedBy, RawTree.between?]

theorem IsTerm.awaitedBy (h : t.IsTerm) (op : PendingOp) : t.AwaitedBy op := by
  simp [AwaitedBy, h.between?]

theorem ordered_missing (offset : Nat) : (missing offset).Ordered := by
  simp [Ordered, parts, KeepsPriority]

theorem ordered_cutOff (offset : Nat) : (cutOff offset).Ordered := by
  simp [Ordered, parts, KeepsPriority]

theorem ordered_leaf (l : Leaf) (location : Location) : (leaf l location).Ordered := by
  simp [Ordered, parts, KeepsPriority]

theorem Ordered.group (h : t.Ordered) (bracket : Bracket) (location : Location) : (group bracket location t).Ordered :=
  List.forall_mem_cons.2 ⟨trivial, h⟩

theorem Ordered.binary (hl : left.Ordered) (hr : right.Ordered)
    (h : (binary symbol location left right).KeepsPriority) : (binary symbol location left right).Ordered :=
  List.forall_mem_cons.2 ⟨h, List.forall_mem_append.2 ⟨hl, hr⟩⟩

theorem Ordered.apply (hl : left.Ordered) (hr : right.Ordered) (hcallee : left.IsTerm) (hargs : right.IsTerm) :
    (apply location left right).Ordered :=
  List.forall_mem_cons.2 ⟨⟨hcallee.isOperator, hargs.isOperator⟩, List.forall_mem_append.2 ⟨hl, hr⟩⟩

/-- An operator leads its operand if it may and the left operand is missing. -/
theorem isLed_binary_missing (symbol : Symbol) (location : Location) (offset : Nat) (right : RawTree) :
    (RawTree.binary symbol location (missing offset) right).isLed = symbol.mayLead := rfl

theorem Precedes.isLed_binary (h : left.Precedes symbol) : (RawTree.binary symbol location left right).isLed = false := by
  cases left with
  | missing offset => exact h.2 offset rfl
  | _ => rfl

theorem pending?_of_isLed (h : t.isLed = true) :
    ∃ symbol location, t.pending? = some ⟨symbol, location, Symbol.not.priority⟩ := by
  cases t with
  | binary symbol location left right => exact ⟨symbol, location, by rw [pending?, if_pos h]⟩
  | _ => cases h

theorem pending?_of_between? (h : t.between? = some symbol) :
    ∃ location, t.pending? = some ⟨symbol, location, symbol.priority⟩ := by
  cases t with
  | binary s location left right =>
    rw [RawTree.between?] at h
    split at h
    · cases h
    · rename_i hled
      obtain rfl := Option.some.inj h
      exact ⟨location, by rw [pending?, if_neg hled]⟩
  | _ => cases h

end RawTree

namespace Frame

variable {limit : Option Nat} {f : Frame} {ops : List PendingOp} {terms : List (RawTree × Nat)}
  {symbol : Symbol} {location : Location} {left right : RawTree}

theorem waitsFor_eq_true_iff {op : PendingOp} :
    waitsFor symbol op = true ↔ op.priority < symbol.priority ∨ symbol = .assign ∧ op.symbol = .assign := by
  simp only [waitsFor, Symbol.groupsRight, Bool.or_eq_true, Bool.and_eq_true, decide_eq_true_eq, beq_iff_eq]
  exact or_congr_right (and_congr_right fun h => by rw [h])

/-- Only a dot binds tighter than a leading operator. -/
theorem eq_dot_of_waitsFor {inner : Symbol} (h : waitsFor inner ⟨symbol, location, Symbol.not.priority⟩ = true)
    (hs : symbol.mayLead = true) : inner = .dot := by
  rcases waitsFor_eq_true_iff.1 h with hlt | ⟨-, rfl⟩
  · revert hlt
    cases inner <;> simp [Symbol.priority]
  · cases hs

/-- A leading operator that waits for its operand keeps priority. -/
theorem keepsPriority_led {offset : Nat} (hs : symbol.mayLead = true)
    (hr : right.AwaitedBy ⟨symbol, location, Symbol.not.priority⟩) :
    (RawTree.binary symbol location (.missing offset) right).KeepsPriority := by
  rw [RawTree.KeepsPriority, RawTree.isLed_binary_missing, if_pos hs]
  exact fun inner hinner => eq_dot_of_waitsFor (hr inner hinner) hs

/-- An operator keeps priority that waits for its right operand, and for which the left one did not wait. -/
theorem keepsPriority_between (hl : left.Precedes symbol)
    (hr : right.AwaitedBy ⟨symbol, location, symbol.priority⟩) :
    (RawTree.binary symbol location left right).KeepsPriority := by
  rw [RawTree.KeepsPriority, if_neg (by simp [hl.isLed_binary])]
  refine ⟨fun inner hinner => ?_, fun inner hinner => ?_, fun hled => ?_⟩
  · exact (waitsFor_eq_true_iff.1 (hr inner hinner)).imp_right And.symm
  · obtain ⟨place, hpending⟩ := RawTree.pending?_of_between? hinner
    have hnot := mt waitsFor_eq_true_iff.2 (Bool.eq_false_iff.1 (hl.1 _ hpending))
    exact ⟨Nat.le_of_not_lt fun hlt => hnot (.inl hlt), fun hboth => hnot (.inr hboth)⟩
  · obtain ⟨s, place, hpending⟩ := RawTree.pending?_of_isLed hled
    have hnot := mt waitsFor_eq_true_iff.2 (Bool.eq_false_iff.1 (hl.1 _ hpending))
    exact Nat.le_of_not_lt fun hlt => hnot (.inl hlt)

/-! ## Operators that wait -/

/-- Waiting operators with their left operands. One between two operands came when its left operand waited no more, and
the operator below it waits for it. -/
inductive Waiting : List PendingOp → List (RawTree × Nat) → Prop
  | nil : Waiting [] []
  | led {symbol : Symbol} {location : Location} {offset height : Nat} {ops : List PendingOp}
    {terms : List (RawTree × Nat)} (hs : symbol.mayLead = true) (h : Waiting ops terms) :
    Waiting (⟨symbol, location, Symbol.not.priority⟩ :: ops) ((.missing offset, height) :: terms)
  | between {symbol : Symbol} {location : Location} {left : RawTree} {height : Nat} {ops : List PendingOp}
    {terms : List (RawTree × Nat)} (hl : left.Ordered) (hleft : left.Precedes symbol)
    (hbelow : ∀ op ∈ ops.head?, waitsFor symbol op = true) (h : Waiting ops terms) :
    Waiting (⟨symbol, location, symbol.priority⟩ :: ops) ((left, height) :: terms)

/-- The last term may be the operand of the operators before it, and fits what comes next. -/
def Poised (fits : RawTree → Prop) (ops : List PendingOp) (terms : List (RawTree × Nat)) : Prop :=
  ∃ t height rest, terms = (t, height) :: rest ∧ Waiting ops rest ∧ t.Ordered ∧
    (∀ op ∈ ops.head?, t.AwaitedBy op) ∧ fits t

/-- An operator that waits has a left operand. Where it takes both, it may be an operand of those before it. -/
theorem Waiting.reduce {op : PendingOp} (h : Waiting (op :: ops) terms) (hr : right.Ordered)
    (hawaited : right.AwaitedBy op) :
    ∃ left height below, terms = (left, height) :: below ∧
      let t := RawTree.binary op.symbol op.location left right
      Waiting ops below ∧ t.Ordered ∧ (∀ below ∈ ops.head?, t.AwaitedBy below) ∧ t.pending? = some op := by
  cases h with
  | led hs h =>
    refine ⟨_, _, _, rfl, h, (RawTree.ordered_missing _).binary hr (keepsPriority_led hs hawaited), fun below hbelow => ?_, ?_⟩
    · simp [RawTree.AwaitedBy, RawTree.between?, RawTree.isLed_binary_missing, hs]
    · rw [RawTree.pending?, RawTree.isLed_binary_missing, if_pos hs]
  | between hl hleft hbelow h =>
    refine ⟨_, _, _, rfl, h, hl.binary hr (keepsPriority_between hleft hawaited), fun below hmem => ?_, ?_⟩
    · rintro inner hinner
      rw [RawTree.between?, hleft.isLed_binary] at hinner
      obtain rfl := Option.some.inj hinner
      exact hbelow below hmem
    · rw [RawTree.pending?, hleft.isLed_binary]
      rfl

section Poised

variable (limit : Option Nat) {fits : RawTree → Prop} (hterm : ∀ t : RawTree, t.IsTerm → fits t)
include hterm

theorem poised_push {t : RawTree} (h : Waiting ops f.terms) (ht : t.Ordered) (hawaited : ∀ op ∈ ops.head?, t.AwaitedBy op)
    (hfits : fits t) (height offset : Nat) : Poised fits ops (f.push limit t height offset).terms := by
  unfold push
  split
  · have hsingle : (RawTree.cutOff offset).IsTerm := trivial
    exact ⟨_, 1, f.terms, rfl, h, RawTree.ordered_cutOff offset, fun op _ => hsingle.awaitedBy op, hterm _ hsingle⟩
  · exact ⟨t, height, f.terms, rfl, h, ht, hawaited, hfits⟩

/-- Operators take their operands, up to one that waits on. What they become fits, as they have not waited on. -/
theorem poised_unwind (waitsOn : PendingOp → Bool)
    (htaken : ∀ (t : RawTree) (op : PendingOp), t.pending? = some op → waitsOn op = false → fits t)
    (h : Poised fits ops f.terms) :
    Poised fits (unwind limit waitsOn ops f).ops (unwind limit waitsOn ops f).terms := by
  refine unwind_induction (fun op ops f hwaits h => ?_) h
  obtain ⟨right, rightHeight, rest, hterms, hwaiting, hr, hawaited, -⟩ := h
  obtain ⟨left, leftHeight, below, rfl, hbelow, ht, hawaited, hpending⟩ := hwaiting.reduce hr (hawaited op rfl)
  have hreduce := poised_push limit (f := { f with terms := below }) hterm hbelow ht hawaited
    (htaken _ op hpending hwaits) (max leftHeight rightHeight + 1) op.location.start
  rw [reduce_eq]
  simpa only [pop, hterms] using hreduce

end Poised

/-- A tree that an operator has become precedes each one that it has not waited for. -/
theorem precedes_of_pending {t : RawTree} {op : PendingOp} (h : t.pending? = some op) (hwaits : waitsFor symbol op = false) :
    t.Precedes symbol := by
  refine ⟨fun op' h' => ?_, ?_⟩
  · obtain rfl : op = op' := Option.some.inj (h.symm.trans h')
    exact hwaits
  · rintro offset rfl
    cases h

/-- When an operator comes that may have a left operand, the last term is one for it. -/
theorem Waiting.await (h : Poised (·.Precedes symbol) ops f.terms) (location : Location) :
    Waiting (⟨symbol, location, symbol.priority⟩ :: (unwind limit (waitsFor symbol) ops f).ops)
      (unwind limit (waitsFor symbol) ops f).terms := by
  have hunwind := poised_unwind limit (fun t ht => ht.precedes symbol) (waitsFor symbol)
    (fun t op => precedes_of_pending) h
  obtain ⟨left, height, rest, hterms, hwaiting, hl, -, hleft⟩ := hunwind
  rw [hterms]
  refine .between hl hleft (fun op hop => ?_) hwaiting
  obtain ⟨below, hops⟩ := List.head?_eq_some_iff.1 hop
  exact head_unwind hops

/-! ## Frames -/

/-- The operators of the frame wait for what is above them. After a term, that is the last one. -/
def Orderly (f : Frame) : Prop :=
  if f.afterTerm then
    ∃ t height rest, f.terms = (t, height) :: rest ∧ Waiting f.ops rest ∧ t.Ordered ∧ t.IsTerm
  else Waiting f.ops f.terms

theorem orderly_initial : Orderly {} :=
  .nil

theorem Orderly.poised (h : f.Orderly) (hf : f.afterTerm = true) {fits : RawTree → Prop}
    (hterm : ∀ t : RawTree, t.IsTerm → fits t) : Poised fits f.ops f.terms := by
  simp only [Orderly, hf, if_true] at h
  obtain ⟨t, height, rest, hterms, hwaiting, ht, hsingle⟩ := h
  exact ⟨t, height, rest, hterms, hwaiting, ht, fun op _ => hsingle.awaitedBy op, hterm t hsingle⟩

theorem Orderly.waiting (h : f.Orderly) (hf : f.afterTerm = false) : Waiting f.ops f.terms := by
  simpa only [Orderly, hf, Bool.false_eq_true, if_false] using h

theorem Waiting.poised_miss (h : Waiting f.ops f.terms) {fits : RawTree → Prop} (hfits : ∀ o, fits (.missing o))
    (offset : Nat) : Poised fits f.ops (f.miss offset).terms :=
  ⟨.missing offset, 1, f.terms, rfl, h, RawTree.ordered_missing offset, fun op _ => RawTree.awaitedBy_missing offset op,
    hfits offset⟩

theorem Orderly.addOp (h : f.Orderly) (symbol : Symbol) (location : Location) :
    (f.addOp limit symbol location).Orderly := by
  cases hf : f.afterTerm with
  | true =>
    rw [addOp_of_afterTerm hf]
    exact Waiting.await (h.poised hf fun t ht => ht.precedes symbol) location
  | false =>
    cases hlead : symbol.mayLead with
    -- A leading operator takes no operand from those that wait, so they may bind tighter.
    | true =>
      rw [addOp_of_mayLead hf hlead]
      exact Waiting.led hlead (h.waiting hf)
    | false =>
      rw [addOp_of_missing hf hlead]
      exact Waiting.await ((h.waiting hf).poised_miss (fun o => RawTree.precedes_missing o hlead) location.start) location

theorem Orderly.addTerm (h : f.Orderly) {t : RawTree} (ht : t.Ordered) (hsingle : t.IsTerm) (height : Nat)
    (location : Location) : (f.addTerm limit t height location).Orderly := by
  have hpush {g : Frame} {u : RawTree} (hg : Waiting g.ops g.terms) (hu : u.Ordered) (husingle : u.IsTerm)
      (height : Nat) : Orderly { g.push limit u height location.start with afterTerm := true } := by
    have hpoised : Poised RawTree.IsTerm g.ops (g.push limit u height location.start).terms :=
      poised_push limit (fun _ h => h) hg hu (fun op _ => husingle.awaitedBy op) husingle height location.start
    obtain ⟨t, height, rest, hterms, hwaiting, ht, -, hsingle⟩ := hpoised
    simp only [Orderly, if_true, push_ops]
    exact ⟨t, height, rest, hterms, hwaiting, ht, hsingle⟩
  cases hf : f.afterTerm with
  | true =>
    simp only [Orderly, hf, if_true] at h
    obtain ⟨callee, calleeHeight, rest, hterms, hwaiting, hc, hcallee⟩ := h
    rw [addTerm_of_afterTerm hf hterms]
    exact hpush (g := { f with terms := rest }) hwaiting (hc.apply ht hcallee hsingle) trivial _
  | false =>
    rw [addTerm_of_no_callee (by simp [hf])]
    exact hpush (h.waiting hf) ht hsingle height

theorem Orderly.finish (h : f.Orderly) (stop : Nat) : (f.finish limit stop).tree.Ordered := by
  have hlast (hpoised : Poised (fun _ => True) f.ops (f.ended stop).terms) : (f.finish limit stop).tree.Ordered := by
    have hunwind := poised_unwind limit (fun _ _ => trivial) (fun _ => false)
      (fun _ _ _ _ => trivial) hpoised
    obtain ⟨t, height, rest, hterms, -, ht, -, -⟩ := hunwind
    have hclosed : (f.closed limit stop).terms = (t, height) :: rest := by rw [closed, ended_ops, hterms]
    rw [finish_eq, pop_fst_of_cons hclosed]
    exact ht
  cases hf : f.afterTerm with
  | true => exact hlast (by simpa [ended, hf] using h.poised hf fun _ _ => trivial)
  | false =>
    have hwaiting := h.waiting hf
    cases hops : f.ops with
    | cons op rest => exact hlast (by simpa [ended, hf, hops] using hwaiting.poised_miss (fun _ => trivial) stop)
    -- Nothing has been read, so the frame ends as a missing term.
    | nil =>
      rw [hops] at hwaiting
      generalize hterms : f.terms = terms at hwaiting
      cases hwaiting
      rw [finish_eq]
      simpa [closed, ended, hf, hops, unwind, pop, hterms] using RawTree.ordered_missing stop

end Frame

namespace Reading

variable {limit : Option Nat} {r next : Reading} {token : Token} {faults : List ParseError} {lexemes : List Lexeme}
  {stop : Nat}

/-- All frames are orderly. -/
def Orderly (r : Reading) : Prop :=
  r.current.Orderly ∧ ∀ o ∈ r.opened, o.around.Orderly

theorem orderly_initial : Orderly {} :=
  ⟨Frame.orderly_initial, by simp⟩

theorem Orderly.closeBracket (h : r.Orderly) {innermost : OpenBracket} {outer : List OpenBracket}
    (ho : r.opened = innermost :: outer) (stop : Nat) (location : Location) :
    (r.closeBracket limit innermost outer stop location).Orderly := by
  obtain ⟨hcurrent, hopened⟩ := h
  rw [ho] at hopened
  obtain ⟨haround, houter⟩ := List.forall_mem_cons.1 hopened
  exact ⟨haround.addTerm ((hcurrent.finish stop).group _ _) trivial _ _, houter⟩

theorem Orderly.step (h : r.Orderly) (hstep : Step limit r token next faults) (hproper : token.IsProper) :
    next.Orderly := by
  cases hstep with
  | opening _ => exact ⟨Frame.orderly_initial, List.forall_mem_cons.2 h⟩
  | closing _ ho => exact h.closeBracket ho _ _
  | operator _ _ => exact ⟨h.1.addOp _ _, h.2⟩
  | term hs =>
    rcases hproper with hsymbol | ⟨l, hl, -⟩
    · rw [Token.symbol?, hs] at hsymbol
      cases hsymbol
    · rw [RawTree.ofToken, hl]
      exact ⟨h.1.addTerm (RawTree.ordered_leaf l _) trivial _ _, h.2⟩

theorem Orderly.closeAll {opened : List OpenBracket} (ho : r.opened = opened) (h : r.Orderly) :
    (closeAll limit stop opened r).Orderly := by
  induction opened generalizing r with
  | nil => exact ⟨h.1, by simp [Reading.closeAll]⟩
  | cons o outer ih => exact ih rfl (h.closeBracket ho _ _)

theorem Orderly.finish (h : r.Orderly) : (r.finish limit stop).1.Ordered :=
  (h.closeAll rfl).1.finish stop

/-- What is read of proper tokens is ordered, wherever the reading ends. -/
theorem Orderly.run (h : r.Orderly) (hproper : ∀ token, Lexeme.token token ∈ lexemes → token.IsProper) :
    (run limit stop r lexemes).1.Ordered := by
  induction lexemes generalizing r with
  | nil => exact h.finish
  | cons lexeme rest ih =>
    have hrest := fun token hmem => hproper token (List.mem_cons_of_mem _ hmem)
    cases lexeme with
    | fault e => exact ih h hrest
    | token token =>
      rcases step_or_error limit r token with ⟨next, faults, hstep⟩ | ⟨e, he⟩
      · rw [run_step hstep]
        exact ih (h.step hstep (hproper token List.mem_cons_self)) hrest
      · rw [run_error (he limit)]
        exact h.finish

end Reading

/-- In the raw tree of a source text every node keeps priority, whatever is missing or cut off there. -/
theorem operators_bind_by_priority (limit : Option Nat) (source : String) :
    (RawTree.ofSource limit source).1.Ordered :=
  Reading.orderly_initial.run fun _ hmem => (pieces_tokenize source).isProper _ (mem_tokenize_iff.2 hmem)

end DynamicConfig

import Mathlib.Data.Nat.Choose.Basic
import DynamicConfig.Proofs.Faults
import DynamicConfig.Proofs.Nesting
/-!
# What raw trees are turned into

Whatever is wrong with a raw tree, turning it into an expression adds only faults of missing terms and operators, and
the expression nests no deeper than the tree, but for the calls that are raised: arguments after the key of a dot are a
call of the whole field access, so the call stands above the target of the dot, which it did not in the tree
(`RawTree.bounded_meaning`). The number of calls raised on one way down a tree is bounded by the height of the tree
(`RawTree.raised_le`).
-/

namespace DynamicConfig

/-! ## Calls that are raised -/

namespace RawTree

/-- The number of argument lists right after the first term of applications. -/
def argumentLists : RawTree → Nat
  | apply _ callee (group .round _ _) => callee.argumentLists + 1
  | _ => 0

/-- How many calls are raised above the target of a dot, at most, on one way down the tree. -/
def raised : RawTree → Nat
  | binary .dot _ left right => max (left.raised + right.argumentLists) right.raised
  | binary _ _ left right => max left.raised right.raised
  | apply _ callee args => max callee.raised args.raised
  | group _ _ inner => inner.raised
  | missing _ | cutOff _ | leaf _ _ => 0

theorem height_pos (t : RawTree) : 0 < t.height := by
  cases t <;> simp [height]

theorem raised_binary_of_ne_dot {symbol : Symbol} (h : symbol ≠ .dot) (location : Location) (left right : RawTree) :
    (binary symbol location left right).raised = max left.raised right.raised := by
  cases symbol <;> first | rfl | exact (h rfl).elim

/-- Each argument list is one level, and the last one is two. -/
theorem argumentLists_le (t : RawTree) : t.argumentLists ≤ t.height - 2 := by
  induction t with
  | apply location callee args ihc =>
    unfold argumentLists
    split
    · rename_i inner heq
      obtain ⟨-, rfl, rfl⟩ := RawTree.apply.inj heq
      have := inner.height_pos
      simp only [height]
      omega
    · exact Nat.zero_le _
  | _ => exact Nat.zero_le _

/-- The pairs among some things are those with the first one, and those among the others. -/
theorem choose_two_pred (n : Nat) : n - 1 + (n - 1).choose 2 = n.choose 2 := by
  cases n with
  | zero => rfl
  | succ n => rw [Nat.add_sub_cancel, Nat.choose_succ_succ, Nat.choose_one_right]

/-- A tree has as many raised calls as its height allows if each dot has the highest target and the most argument lists
that it can have, all the way down: none below the fourth level, one more there, two more at the fifth and so on. -/
theorem raised_le (t : RawTree) : t.raised ≤ (t.height - 2).choose 2 := by
  have hmono {m n : Nat} (h : m ≤ n) : (m - 2).choose 2 ≤ (n - 2).choose 2 :=
    Nat.choose_le_choose 2 (Nat.sub_le_sub_right h 2)
  -- One operand or part of the tree has at most as many as the tree may have.
  have hpart {part : RawTree} {n : Nat} (h : part.raised ≤ (part.height - 2).choose 2) (hn : part.height ≤ n) :
      part.raised ≤ (n + 1 - 2).choose 2 :=
    Nat.le_trans h (hmono (Nat.le_succ_of_le hn))
  induction t with
  | missing | cutOff | leaf => exact Nat.zero_le _
  | group bracket location inner ih => exact Nat.le_trans ih (hmono (Nat.le_succ _))
  | apply location callee args ihc iha =>
    exact Nat.max_le.2 ⟨hpart ihc (Nat.le_max_left _ _), hpart iha (Nat.le_max_right _ _)⟩
  | binary symbol location left right ihl ihr =>
    by_cases hdot : symbol = .dot
    · subst hdot
      refine Nat.max_le.2 ⟨?_, hpart ihr (Nat.le_max_right _ _)⟩
      generalize hn : max left.height right.height = n
      have hleft : left.raised ≤ (n - 2).choose 2 := Nat.le_trans ihl (hmono (by omega))
      have hlists : right.argumentLists ≤ n - 2 := Nat.le_trans right.argumentLists_le (by omega)
      have hheight : (binary .dot location left right).height - 2 = n - 1 := by
        rw [height, hn, Nat.add_sub_add_right n 1 1]
      calc left.raised + right.argumentLists
        _ ≤ (n - 2).choose 2 + (n - 2) := Nat.add_le_add hleft hlists
        _ = (n - 1).choose 2 := by rw [Nat.add_comm, ← choose_two_pred (n - 1), Nat.sub_sub]
        _ = _ := by rw [hheight]
    · rw [raised_binary_of_ne_dot hdot]
      exact Nat.max_le.2 ⟨hpart ihl (Nat.le_max_left _ _), hpart ihr (Nat.le_max_right _ _)⟩

end RawTree

/-! ## What work ends with -/

/-- Whether the fault is that of a term or an operator that is not there. -/
def ParseError.IsMissing (e : ParseError) : Prop :=
  e.kind = .missingTerm ∨ e.kind = .missingOperator

namespace Collect

/-- If the work ends well, it has such a result, and it has added only faults of missing terms and operators. -/
abbrev Ensures {α : Type} (w : Collect α) (P : α → Prop) : Prop :=
  w.Ends ParseError.IsMissing (fun _ => True) P

end Collect

/-! ## The readings of a tree -/

namespace Meaning

open DynamicConfig.Expr (nesting nesting_node_le_iff)

/-- The expressions that the readings give nest no deeper than so many levels. Arguments that follow a key are levels
above the target. -/
structure Bounded (m : Meaning) (levels lists : Nat) : Prop where
  term : m.term.Ensures (nesting · ≤ levels)
  item : m.item.Ensures (nesting · ≤ levels)
  items : m.items.Ensures (∀ e ∈ ·, nesting e ≤ levels)
  key : ∀ dot target, (m.key dot target).Ensures (nesting · ≤ max (nesting target + lists) levels + 1)
  args : ∀ work, m.args = some work → work.Ensures (∀ e ∈ ·, nesting e ≤ levels)

variable {l r m : Meaning} {levels lists : Nat} {location : Location} {left : RawTree}

theorem bounded_plain {term : Collect Expr} (h : term.Ensures (nesting · ≤ levels)) (lists : Nat) :
    (plain term).Bounded levels lists where
  term := h
  item := h
  items := h.map fun e he => List.forall_mem_singleton.2 he
  key dot target := h.map fun e he => nesting_node_le_iff.2 (by simp; omega)
  args _ hw := by cases hw

/-- A call is one level above its callee and its arguments. -/
theorem ensures_call {args : Option (Collect (List Expr))} {n : Nat}
    (hargs : ∀ work, args = some work → work.Ensures (∀ e ∈ ·, nesting e ≤ n)) {callee : Expr}
    (hcallee : ∀ work, args = some work → nesting callee ≤ n) :
    (call args location callee).Ensures (nesting · ≤ n + 1) := by
  cases args with
  | none => exact Collect.ends_fault (.inr rfl) (Nat.le_add_left 1 n)
  | some work =>
    exact (hargs work rfl).map fun es hes =>
      nesting_node_le_iff.2 (List.forall_mem_cons.2 ⟨hcallee work rfl, hes⟩)

theorem ensures_target (location : Location) (left : RawTree) : (target location left).Ensures (nesting · ≤ 1) := by
  unfold target
  split
  · exact Collect.ends_pure (Nat.le_refl 1)
  · exact Collect.ends_fault (.inl rfl) (Nat.le_refl 1)
  · exact Collect.ends_throw trivial

theorem ensures_infixTerm (op : Op) (location : Location) (left : RawTree) (hl : l.term.Ensures (nesting · ≤ levels))
    (hr : r.term.Ensures (nesting · ≤ levels)) : (infixTerm op location left l r).Ensures (nesting · ≤ levels + 1) := by
  unfold infixTerm
  split
  case h_4 => exact Collect.ends_fault (.inr rfl) (Nat.le_add_left 1 levels)
  case h_5 => exact hl.both hr fun a b ha hb => nesting_node_le_iff.2 (by simp [ha, hb])
  all_goals exact hr.map fun b hb => nesting_node_le_iff.2 (by simp [hb])

theorem bounded_ofLeaf (l : Leaf) (location : Location) : (ofLeaf l location).Bounded 1 0 := by
  have hterm : (pure (leafExpr location l) : Collect Expr).Ensures (nesting · ≤ 1) :=
    Collect.ends_pure (Expr.nesting_leafExpr location l).le
  cases l
  case name name =>
    have hname : nesting (.stringLeaf location name) = 1 := Expr.nesting_leafExpr location (.string name)
    refine { bounded_plain hterm 0 with key := fun dot target => Collect.ends_pure (nesting_node_le_iff.2 ?_) }
    simp only [List.forall_mem_cons, hname]
    exact ⟨by omega, by omega, by simp⟩
  all_goals exact bounded_plain hterm 0

theorem bounded_ofBinary (symbol : Symbol) (location : Location) (left : RawTree) {a b n k : Nat} (hl : l.Bounded a n)
    (hr : r.Bounded b lists) (ha : a ≤ k) (hb : b ≤ k) (hk : 1 ≤ k) (hdot : symbol = .dot → a + lists ≤ k) :
    (ofBinary symbol location left l r).Bounded (k + 1) 0 := by
  have hlterm := hl.term.imp fun e he => Nat.le_trans he ha
  have hrterm := hr.term.imp fun e he => Nat.le_trans he hb
  have hbinding : (binding location left r).Ensures (nesting · ≤ k + 1) :=
    (ensures_target location left).both hr.item fun name value hname hvalue => nesting_node_le_iff.2 (by simp; omega)
  unfold ofBinary
  split
  case h_1 =>
    refine { bounded_plain (Collect.ends_throw trivial) 0 with items := hl.items.both hr.item fun xs x hxs hx => ?_ }
    refine List.forall_mem_append.2 ⟨fun e he => ?_, List.forall_mem_singleton.2 (by omega)⟩
    have := hxs e he
    omega
  case h_2 =>
    exact { bounded_plain (Collect.ends_throw trivial) 0 with
      item := hbinding
      items := hbinding.map fun e he => List.forall_mem_singleton.2 he }
  case h_3 =>
    have hroom : a + lists ≤ k := hdot rfl
    refine bounded_plain (hl.term.bind fun target htarget => (hr.key location target).imp fun e he => ?_) 0
    omega
  case h_4 =>
    split
    · exact bounded_plain (ensures_infixTerm _ _ _ hlterm hrterm) 0
    · exact bounded_plain (Collect.ends_throw trivial) 0

/-- Only round brackets are arguments. -/
theorem exists_round_of_args {t : RawTree} {work : Collect (List Expr)} (h : t.meaning.args = some work) :
    ∃ location inner, t = .group .round location inner := by
  cases t with
  | group bracket location inner =>
    cases bracket with
    | round => exact ⟨location, inner, rfl⟩
    | curly => cases h
  | leaf l location => cases l <;> cases h
  | binary symbol location left right =>
    cases symbol <;> cases h
  | _ => cases h

end Meaning

/-- What is read of a raw tree nests no deeper than the tree, but for the calls that are raised in it. -/
theorem RawTree.bounded_meaning (t : RawTree) : t.meaning.Bounded (t.height + t.raised) t.argumentLists := by
  induction t with
  | missing offset => exact Meaning.bounded_plain (Collect.ends_fault (.inl rfl) (Nat.le_refl 1)) 0
  | cutOff offset => exact Meaning.bounded_plain (Collect.ends_pure (Nat.le_refl 1)) 0
  | leaf l location => exact Meaning.bounded_ofLeaf l location
  | binary symbol location left right ihl ihr =>
    have hpos := left.height_pos
    have hraised : max left.raised right.raised ≤ (binary symbol location left right).raised := by
      by_cases hdot : symbol = .dot
      · subst hdot
        simp only [raised]
        omega
      · exact (raised_binary_of_ne_dot hdot location left right).ge
    -- Both operands are as low as the tree without its root, and at a dot so is the target with all calls of the key.
    have hbound := Meaning.bounded_ofBinary symbol location left (k := max left.height right.height +
      (binary symbol location left right).raised) ihl ihr (by omega) (by omega) (by omega) (by
        rintro rfl
        simp only [raised]
        omega)
    rwa [Nat.add_right_comm] at hbound
  | apply location callee args ihc iha =>
    have hlevels : (apply location callee args).height + (apply location callee args).raised =
        max callee.height args.height + max callee.raised args.raised + 1 := Nat.add_right_comm _ _ _
    rw [hlevels]
    generalize hn : max callee.height args.height + max callee.raised args.raised = n
    have hterm : (do Meaning.call args.meaning.args location (← callee.meaning.term) : Collect Expr).Ensures
        (Expr.nesting · ≤ n + 1) :=
      ihc.term.bind fun c hc => Meaning.ensures_call
        (fun work hw => (iha.args work hw).imp fun es hes e he => Nat.le_trans (hes e he) (by omega))
        fun _ _ => Nat.le_trans hc (by omega)
    refine { Meaning.bounded_plain hterm 0 with key := fun dot target => ?_ }
    refine (ihc.key dot target).bind fun c hc => Meaning.ensures_call ?_ ?_
    · exact fun work hw => (iha.args work hw).imp fun es hes e he => Nat.le_trans (hes e he) (by omega)
    -- After a key the arguments are a list more, which is the level of the call above the target.
    · intro work hw
      obtain ⟨place, inner, rfl⟩ := Meaning.exists_round_of_args hw
      have hlists : (apply location callee (group .round place inner)).argumentLists = callee.argumentLists + 1 := rfl
      omega
  | group bracket location inner ih =>
    have hlevels : (group bracket location inner).height + (group bracket location inner).raised =
        inner.height + inner.raised + 1 := Nat.add_right_comm _ _ _
    rw [hlevels]
    generalize inner.height + inner.raised = n at ih
    cases bracket with
    | curly => exact Meaning.bounded_plain (ih.items.map fun es hes => Expr.nesting_node_le_iff.2 hes) 0
    | round =>
      have hterm := ih.term.imp fun e (he : e.nesting ≤ n) => Nat.le_succ_of_le he
      refine { Meaning.bounded_plain hterm 0 with args := fun work hw => ?_ }
      cases hw
      split
      · exact Collect.ends_pure (by simp)
      · exact ih.items.imp fun es hes e he => Nat.le_succ_of_le (hes e he)

section Parse

variable {source : String} {parsed : Parsed} (h : parse source = .ok parsed)
include h

/-- The faults of a raw tree are found after those of the text. They are faults of missing terms and operators. -/
theorem exists_faults_of_parse :
    ∃ more, parsed.errors = (RawTree.ofSource (some Frame.maxHeight) source).2 ++ more ∧ ∀ e ∈ more, e.IsMissing :=
  ((RawTree.bounded_meaning _).term.of_run_eq_ok (ofRaw_of_parse h)).2

theorem nesting_le_of_parse :
    parsed.expr.nesting ≤ (RawTree.ofSource (some Frame.maxHeight) source).1.height +
      (RawTree.ofSource (some Frame.maxHeight) source).1.raised :=
  ((RawTree.bounded_meaning _).term.of_run_eq_ok (ofRaw_of_parse h)).1

end Parse

end DynamicConfig

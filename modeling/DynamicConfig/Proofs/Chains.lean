import Mathlib.Algebra.GroupWithZero.Nat
import DynamicConfig.Proofs.Heights
import DynamicConfig.Proofs.Outcomes
import DynamicConfig.Proofs.Readable
/-!
# How deep source texts nest

The limit on heights bounds the raw tree of a source text, not its expression: arguments after the key of a dot are
below the dot in the raw tree, and above its target in the expression. So an expression nests no deeper than its raw tree
and the calls that are raised in it (`nesting_bounded_by_raised_calls`). Each dot may raise nearly as many calls as the tree
above it is high, and chains of such calls reach the bound (`parse_longest_chain`).
-/

namespace DynamicConfig

namespace Expr

/-! ## Chains of calls -/

/-- Calls without arguments, one after the other. -/
def calls (callee : Expr) : Nat → Expr
  | 0 => callee
  | n + 1 => .node .call (.empty 0) [calls callee n]

/-- A name, and after it dots with keys that are called so many times, the last one first. -/
def chain : List Nat → Expr
  | [] => .nameLeaf (.empty 0) "a"
  | n :: rest => calls (.node .field (.empty 0) [chain rest, .stringLeaf (.empty 0) "f"]) n

theorem Readable.calls {e : Expr} (h : Readable .term e) (n : Nat) : Readable .term (calls e n) := by
  induction n with
  | zero => exact h
  | succ n ih => exact ih.call (.empty 0) (by simp)

theorem readable_chain (counts : List Nat) : Readable .term (chain counts) ∧ (chain counts).endsWhole = false := by
  induction counts with
  | nil => exact ⟨readable_nameLeaf _ (by decide), rfl⟩
  | cons n rest ih => exact ⟨(ih.1.field _ _ ih.2 (by decide)).calls n, by cases n <;> rfl⟩

theorem nesting_calls (callee : Expr) (n : Nat) : (calls callee n).nesting = callee.nesting + n := by
  induction n with
  | zero => rfl
  | succ n ih => rw [calls, nesting_node, nestingAll, nestingAll, Nat.max_eq_left (Nat.zero_le _), ih, Nat.add_assoc]

/-- Each dot and each call is a level. -/
theorem nesting_chain (counts : List Nat) : (chain counts).nesting = counts.sum + counts.length + 1 := by
  induction counts with
  | nil => rfl
  | cons n rest ih =>
    have hkey : (stringLeaf (.empty 0) "f").nesting = 1 := rfl
    rw [chain, nesting_calls, nesting_node]
    simp only [nestingAll, hkey, ih, List.sum_cons, List.length_cons]
    omega

/-- The height of a key with so many argument lists. -/
def keyCallsHeight (n : Nat) : Nat :=
  if n = 0 then 1 else n + 2

/-- Names, calls and accesses to fields are the operands of calls and of dots without brackets. -/
theorem operandLevels_bare {e : Expr} {op parent : Op} (hop : e.op? = some op) (hb : needsBrackets op parent = false)
    (levels : Levels) : operandLevels parent e levels = levels := by
  simp [operandLevels, hop, hb]

theorem op?_calls {field : Expr} (hop : field.op? = some .field) (n : Nat) :
    (calls field n).op? = some .field ∨ (calls field n).op? = some .call := by
  cases n with
  | zero => exact .inl hop
  | succ n => exact .inr rfl

theorem levels_calls {field : Expr} (hop : field.op? = some .field) (hlast : field.levels.last = 1) (n : Nat) :
    (calls field n).levels = ⟨keyCallsHeight n, field.levels.front⟩ := by
  induction n with
  | zero => exact congrArg (Levels.mk · field.levels.front) hlast
  | succ n ih =>
    -- No brackets are printed around a callee that is a call or an access to a field itself.
    have hbare : operandLevels .call (calls field n) (calls field n).levels = (calls field n).levels := by
      rcases op?_calls hop n with h | h <;> exact operandLevels_bare h rfl _
    show (operandLevels .call (calls field n) (calls field n).levels).applied (Levels.joined [] + 1) = _
    rw [hbare, ih]
    cases n <;> simp [Levels.applied, Levels.joined, keyCallsHeight]

theorem op?_chain (counts : List Nat) :
    (chain counts).op? = some .name ∨ (chain counts).op? = some .field ∨ (chain counts).op? = some .call := by
  cases counts with
  | nil => exact .inl rfl
  | cons n rest => exact .inr (op?_calls rfl n)

theorem textHeight_chain_cons (n : Nat) (rest : List Nat) :
    (chain (n :: rest)).textHeight = max (chain rest).textHeight (keyCallsHeight n) + 1 := by
  have hbare : operandLevels .field (chain rest) (chain rest).levels = (chain rest).levels := by
    rcases op?_chain rest with h | h | h <;> exact operandLevels_bare h rfl _
  have hfield : (node .field (.empty 0) [chain rest, stringLeaf (.empty 0) "f"]).levels =
      ⟨1, some (operandLevels .field (chain rest) (chain rest).levels).total⟩ := rfl
  rw [hbare] at hfield
  rw [chain, textHeight, levels_calls rfl (by rw [hfield]), hfield]
  rfl

/-- The calls of the longest chain that is so many levels high, below its name: at each dot as many as the tree is high
above it. -/
def longest : Nat → List Nat
  | 0 => []
  | n + 1 => (n - 1) :: longest n

theorem textHeight_chain_longest (n : Nat) : (chain (longest n)).textHeight = n + 1 := by
  induction n with
  | zero => rfl
  | succ n ih =>
    rw [longest, textHeight_chain_cons, ih, keyCallsHeight]
    split <;> omega

theorem nesting_chain_longest (n : Nat) : (chain (longest n)).nesting = n + 1 + (n - 1).choose 2 := by
  rw [nesting_chain]
  induction n with
  | zero => rfl
  | succ n ih =>
    rw [longest, List.sum_cons, List.length_cons, Nat.add_sub_cancel, ← RawTree.choose_two_pred n]
    omega

theorem textHeight_chain_replicate_le (n : Nat) : (chain (List.replicate n 1)).textHeight ≤ n + 3 := by
  induction n with
  | zero => decide
  | succ n ih =>
    rw [List.replicate_succ, textHeight_chain_cons, show keyCallsHeight 1 = 3 from rfl]
    omega

/-- One call at each dot. -/
theorem sourceText_chain_replicate (n : Nat) :
    (chain (List.replicate n 1)).sourceText = Nat.repeat (· ++ ".f()") n "a" := by
  induction n with
  | zero => rfl
  | succ n ih =>
    have hbare (text : String) : operandText .field (chain (List.replicate n 1)) text = text := by
      rcases op?_chain (List.replicate n 1) with h | h | h <;>
        simp [operandText, h, needsBrackets, Op.isLeaf, Op.precedence]
    show operandText .field (chain (List.replicate n 1)) (chain (List.replicate n 1)).sourceText ++
      "." ++ "f" ++ "(" ++ "" ++ ")" = Nat.repeat (· ++ ".f()") n "a" ++ ".f()"
    rw [hbare, ih]
    simp only [String.append_assoc]
    rfl

mutual

theorem nesting_unlocated : (e : Expr) → e.unlocated.nesting = e.nesting
  | list items => by rw [unlocated, nesting, nestingAll_unlocatedAll items, nesting]
  | tag _ | string _ | number _ | bool _ | nil => rfl

theorem nestingAll_unlocatedAll : (es : List Expr) → nestingAll (unlocatedAll es) = nestingAll es
  | [] => rfl
  | e :: rest => by rw [unlocatedAll, nestingAll, nesting_unlocated e, nestingAll_unlocatedAll rest, nestingAll]

end

end Expr

/-! ## Source texts -/

/-- The most levels that the expression of a source text may have. -/
def mostLevels : Nat :=
  Frame.maxHeight + (Frame.maxHeight - 2).choose 2

example : mostLevels = 32387 := by decide +kernel

/-- The limit leaves room for so many levels: those of the highest raw tree, and the calls that are raised in it. -/
theorem levels_le_mostLevels {raw : RawTree} (h : raw.height ≤ Frame.maxHeight) :
    raw.height + raw.raised ≤ mostLevels :=
  Nat.add_le_add h (Nat.le_trans raw.raised_le (Nat.choose_le_choose 2 (Nat.sub_le_sub_right h 2)))

/-- A chain that is not too high is parsed with as many levels as it has dots and calls. -/
theorem parse_chain (counts : List Nat) (hheight : (Expr.chain counts).textHeight ≤ Frame.maxHeight) :
    ∃ parsed, parse (Expr.chain counts).sourceText = .ok parsed ∧ parsed.errors = [] ∧
      parsed.expr.nesting = (Expr.chain counts).nesting := by
  obtain ⟨hreadable, -⟩ := Expr.readable_chain counts
  obtain ⟨found, hparse, heq⟩ := hreadable.canonical.parse_sourceText hreadable.legible hheight
  exact ⟨⟨found, []⟩, hparse, rfl, by rw [← Expr.nesting_unlocated, heq, Expr.nesting_unlocated]⟩

/-- The longest chain that is as high as the limit is parsed with as many levels as any expression may have. -/
theorem parse_longest_chain :
    ∃ parsed, parse (Expr.chain (Expr.longest (Frame.maxHeight - 1))).sourceText = .ok parsed ∧ parsed.errors = [] ∧
      parsed.expr.nesting = mostLevels := by
  have hpos : 1 ≤ Frame.maxHeight := by decide
  obtain ⟨parsed, hparse, hok, hnesting⟩ := parse_chain (Expr.longest (Frame.maxHeight - 1))
    (by rw [Expr.textHeight_chain_longest, Nat.sub_add_cancel hpos])
  refine ⟨parsed, hparse, hok, ?_⟩
  rw [hnesting, Expr.nesting_chain_longest, Nat.sub_add_cancel hpos, Nat.sub_sub, mostLevels]

/-- The expression of a source text has no more levels than its raw tree, which the limit bounds, and calls that are
raised in it. So the functions of trees go no deeper, but for what a leaf holds. No bound below that holds of every source
text without faults. -/
theorem nesting_bounded_by_raised_calls :
    (∀ source parsed, parse source = .ok parsed →
      (RawTree.ofSource (some Frame.maxHeight) source).1.height ≤ Frame.maxHeight ∧
        parsed.expr.nesting ≤ (RawTree.ofSource (some Frame.maxHeight) source).1.height +
          (RawTree.ofSource (some Frame.maxHeight) source).1.raised ∧
        parsed.expr.nesting ≤ mostLevels ∧ parsed.expr.WithinCalls (mostLevels + 1)) ∧
    ∃ source parsed, parse source = .ok parsed ∧ parsed.errors = [] ∧ parsed.expr.nesting = mostLevels := by
  refine ⟨fun source parsed h => ?_, _, parse_longest_chain⟩
  have hraw := RawTree.height_ofSource_le (n := Frame.maxHeight) (by decide) source
  have hlevels := nesting_le_of_parse h
  have hmost := Nat.le_trans hlevels (levels_le_mostLevels hraw)
  exact ⟨hraw, hlevels, hmost, Expr.withinCalls_of_nesting_le hmost⟩

/-- Both calls are raised above the targets of their dots. -/
theorem raised_call_within_bound :
    ∃ parsed, parse "a.f().g()" = .ok parsed ∧
      (RawTree.ofSource (some Frame.maxHeight) "a.f().g()").1.height ≤ Frame.maxHeight ∧ parsed.expr.nesting ≤ 7 := by
  have hok : (parse "a.f().g()").isOk = true := by decide +kernel
  have hlevels : (RawTree.ofSource (some Frame.maxHeight) "a.f().g()").1.height +
      (RawTree.ofSource (some Frame.maxHeight) "a.f().g()").1.raised = 7 := by decide +kernel
  cases hparse : parse "a.f().g()" with
  | error e =>
    rw [hparse] at hok
    cases hok
  | ok parsed =>
    obtain ⟨hraw, hbound, -⟩ := nesting_bounded_by_raised_calls.1 _ parsed hparse
    exact ⟨parsed, rfl, hraw, hlevels ▸ hbound⟩

/-- A name with 128 dots after it, each with a key that is called, has one level more than a raw tree may have. -/
theorem chain_of_calls_above_limit :
    ∃ parsed, parse (Nat.repeat (· ++ ".f()") 128 "a") = .ok parsed ∧ parsed.errors = [] ∧
      parsed.expr.nesting = 257 ∧ Frame.maxHeight < parsed.expr.nesting := by
  have hheight := Nat.le_trans (Expr.textHeight_chain_replicate_le 128) (show 128 + 3 ≤ Frame.maxHeight by decide)
  obtain ⟨parsed, hparse, hok, hnesting⟩ := parse_chain _ hheight
  rw [Expr.sourceText_chain_replicate] at hparse
  have hlevels : parsed.expr.nesting = 257 := by
    rw [hnesting, Expr.nesting_chain, List.sum_replicate_nat, List.length_replicate]
  exact ⟨parsed, hparse, hok, hlevels, by rw [hlevels]; decide⟩

end DynamicConfig

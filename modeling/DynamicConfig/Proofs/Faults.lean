import DynamicConfig.Expr.Parse
/-!
# Faults only get more

The work that turns a raw tree into an expression keeps the faults that were found before it
(`RawTree.grows_meaning`). So a sequence finds no fault exactly if no part of it does
(`Collect.gives_bind_iff`).
-/

namespace DynamicConfig

/-! ## Work that collects faults -/

namespace Collect

variable {α β γ : Type} {P : α → Prop} {Q : β → Prop} {R : γ → Prop}

theorem run_bind_eq_ok {w : Collect α} {f : α → Collect β} {errors errors' : List ParseError} {b : β}
    (h : (w >>= f).run errors = .ok (b, errors')) :
    ∃ a between, w.run errors = .ok (a, between) ∧ (f a).run between = .ok (b, errors') := by
  rw [StateT.run_bind] at h
  cases hw : w.run errors with
  | error e => rw [hw] at h; cases h
  | ok p => rw [hw] at h; exact ⟨p.1, p.2, rfl, h⟩

section Ends

variable {Fault : ParseError → Prop} {Fatal : FatalError → Prop}

/-- What the work may end with: a failure of some kind, or a result of some kind after faults of some kind, which it has
added to those found before it. -/
def Ends (Fault : ParseError → Prop) (Fatal : FatalError → Prop) (w : Collect α) (P : α → Prop) : Prop :=
  ∀ errors, match w.run errors with
    | .ok (a, errors') => P a ∧ ∃ more, errors' = errors ++ more ∧ ∀ e ∈ more, Fault e
    | .error fatal => Fatal fatal

theorem Ends.of_run_eq_ok {w : Collect α} (hw : w.Ends Fault Fatal P) {errors errors' : List ParseError} {a : α}
    (h : w.run errors = .ok (a, errors')) : P a ∧ ∃ more, errors' = errors ++ more ∧ ∀ e ∈ more, Fault e := by
  have hends := hw errors
  rwa [h] at hends

theorem Ends.of_run_eq_error {w : Collect α} (hw : w.Ends Fault Fatal P) {errors : List ParseError} {fatal : FatalError}
    (h : w.run errors = .error fatal) : Fatal fatal := by
  have hends := hw errors
  rwa [h] at hends

theorem ends_pure {a : α} (h : P a) : Ends Fault Fatal (pure a) P :=
  fun _ => ⟨h, [], (List.append_nil _).symm, by simp⟩

theorem ends_throw {fatal : FatalError} (h : Fatal fatal) : Ends Fault Fatal (throw fatal) P :=
  fun _ => h

/-- A fault, and what stands in place of what is missing. -/
theorem ends_fault {kind : ParseError.Kind} {offset : Nat} (h : Fault ⟨kind, offset⟩) {a : α} (ha : P a) :
    Ends Fault Fatal (do fault kind offset; return a) P :=
  fun _ => ⟨ha, [⟨kind, offset⟩], rfl, List.forall_mem_singleton.2 h⟩

theorem Ends.bind {w : Collect α} {f : α → Collect β} (hw : w.Ends Fault Fatal P)
    (hf : ∀ a, P a → (f a).Ends Fault Fatal Q) : (w >>= f).Ends Fault Fatal Q := by
  intro errors
  rw [StateT.run_bind]
  cases hfirst : w.run errors with
  | error fatal => exact hw.of_run_eq_error hfirst
  | ok result =>
    obtain ⟨a, between⟩ := result
    obtain ⟨ha, first, rfl, hmore⟩ := hw.of_run_eq_ok hfirst
    show match (f a).run (errors ++ first) with
      | .ok (b, errors') => Q b ∧ ∃ more, errors' = errors ++ more ∧ ∀ e ∈ more, Fault e
      | .error fatal => Fatal fatal
    cases hsecond : (f a).run (errors ++ first) with
    | error fatal => exact (hf a ha).of_run_eq_error hsecond
    | ok result =>
      obtain ⟨b, after⟩ := result
      obtain ⟨hb, second, rfl, hmore'⟩ := (hf a ha).of_run_eq_ok hsecond
      exact ⟨hb, first ++ second, List.append_assoc _ _ _, List.forall_mem_append.2 ⟨hmore, hmore'⟩⟩

theorem Ends.map {w : Collect α} (hw : w.Ends Fault Fatal P) {f : α → β} (hf : ∀ a, P a → Q (f a)) :
    Ends Fault Fatal (do return f (← w)) Q :=
  hw.bind fun a ha => ends_pure (hf a ha)

theorem Ends.imp {w : Collect α} {P' : α → Prop} (hw : w.Ends Fault Fatal P) (h : ∀ a, P a → P' a) :
    w.Ends Fault Fatal P' := by
  have hmap := hw.map (f := id) h
  rwa [show (do return id (← w)) = w from bind_pure w] at hmap

theorem Ends.both {v : Collect α} {w : Collect β} (hv : v.Ends Fault Fatal P) (hw : w.Ends Fault Fatal Q) {f : α → β → γ}
    (hf : ∀ a b, P a → Q b → R (f a b)) : Ends Fault Fatal (do return f (← v) (← w)) R :=
  hv.bind fun a ha => hw.map fun b hb => hf a b ha hb

end Ends

/-- The work keeps the faults found before it, in front of its own. -/
abbrev Grows (w : Collect α) : Prop :=
  w.Ends (fun _ => True) (fun _ => True) fun _ => True

theorem Grows.isPrefix {w : Collect α} (hw : w.Grows) {errors errors' : List ParseError} {a : α}
    (h : w.run errors = .ok (a, errors')) : errors <+: errors' := by
  obtain ⟨-, more, rfl, -⟩ := hw.of_run_eq_ok h
  exact List.prefix_append errors more

theorem grows_pure (a : α) : Grows (pure a) :=
  ends_pure trivial

theorem grows_throw (fatal : FatalError) : Grows (throw fatal : Collect α) :=
  ends_throw trivial

theorem grows_fault (kind : ParseError.Kind) (offset : Nat) : Grows (fault kind offset) :=
  ends_fault trivial trivial

theorem grows_bind {w : Collect α} {f : α → Collect β} (hw : w.Grows) (hf : ∀ a, (f a).Grows) : (w >>= f).Grows :=
  hw.bind fun a _ => hf a

theorem grows_map {w : Collect α} (hw : w.Grows) {f : α → β} : Grows (do return f (← w)) :=
  hw.map fun _ _ => trivial

theorem grows_both {v : Collect α} {w : Collect β} (hv : v.Grows) (hw : w.Grows) {f : α → β → γ} :
    Grows (do return f (← v) (← w)) :=
  hv.both hw fun _ _ _ _ => trivial

/-- The work gives a result and finds no fault. -/
def Gives (w : Collect α) (errors : List ParseError) (a : α) : Prop :=
  w.run errors = .ok (a, errors)

theorem gives_pure_iff {errors : List ParseError} {a b : α} : Gives (pure a) errors b ↔ b = a := by
  constructor
  · intro h; cases h; rfl
  · rintro rfl; rfl

theorem not_gives_throw {e : FatalError} {errors : List ParseError} {a : α} : ¬ Gives (throw e) errors a := by
  intro h; cases h

/-- A sequence finds no fault exactly if neither part does. -/
theorem gives_bind_iff {w : Collect α} {f : α → Collect β} (hw : Grows w) (hf : ∀ a, Grows (f a))
    {errors : List ParseError} {b : β} :
    Gives (w >>= f) errors b ↔ ∃ a, Gives w errors a ∧ Gives (f a) errors b := by
  constructor
  · intro h
    obtain ⟨a, between, h1, h2⟩ := run_bind_eq_ok h
    have : between = errors := ((hf a).isPrefix h2).eq_of_length_le (hw.isPrefix h1).length_le
    subst this
    exact ⟨a, h1, h2⟩
  · rintro ⟨a, h1, h2⟩
    rw [Gives, StateT.run_bind, h1]
    exact h2

theorem gives_map_iff {w : Collect α} (hw : Grows w) {f : α → β} {errors : List ParseError} {b : β} :
    Gives (do return f (← w)) errors b ↔ ∃ a, Gives w errors a ∧ b = f a := by
  simp only [gives_bind_iff hw fun _ => grows_pure _, gives_pure_iff]

theorem gives_both_iff {v : Collect α} {w : Collect β} (hv : Grows v) (hw : Grows w) {f : α → β → γ}
    {errors : List ParseError} {c : γ} :
    Gives (do return f (← v) (← w)) errors c ↔ ∃ a b, Gives v errors a ∧ Gives w errors b ∧ c = f a b := by
  simp only [gives_bind_iff hv fun _ => grows_map hw, gives_map_iff hw, exists_and_left]

/-- A fault is not undone by what comes after it. -/
theorem not_gives_fault_bind {kind : ParseError.Kind} {offset : Nat} {w : Collect α} (hw : Grows w)
    {errors : List ParseError} {a : α} : ¬ Gives (do fault kind offset; w) errors a := by
  intro h
  obtain ⟨u, h1, _⟩ := (gives_bind_iff (grows_fault kind offset) (fun _ => hw)).1 h
  have h2 : (Except.ok ((), errors ++ [⟨kind, offset⟩]) : Except FatalError _) = .ok (u, errors) := h1
  simp at h2

end Collect

/-! ## The readings of a tree -/

namespace Meaning

/-- Every reading keeps the faults found before it. -/
structure Grows (m : Meaning) : Prop where
  term : m.term.Grows
  item : m.item.Grows
  items : m.items.Grows
  key : ∀ location target, (m.key location target).Grows
  args : ∀ work, m.args = some work → work.Grows

theorem grows_plain {term : Collect Expr} (h : term.Grows) : (plain term).Grows where
  term := h
  item := h
  items := Collect.grows_map h
  key _ _ := Collect.grows_map h
  args _ hw := by cases hw

theorem grows_call {args : Option (Collect (List Expr))} (h : ∀ work, args = some work → work.Grows)
    (location : Location) (callee : Expr) : (call args location callee).Grows := by
  cases args with
  | none => exact Collect.grows_map (Collect.grows_fault _ _)
  | some work => exact Collect.grows_map (h work rfl)

theorem grows_target (location : Location) (left : RawTree) : (target location left).Grows := by
  unfold target
  split
  · exact Collect.grows_pure _
  · exact Collect.grows_map (Collect.grows_fault _ _)
  · exact Collect.grows_throw _

theorem grows_infixTerm (op : Op) (location : Location) (left : RawTree) {l r : Meaning} (hl : l.Grows)
    (hr : r.Grows) : (infixTerm op location left l r).Grows := by
  unfold infixTerm
  split
  case h_4 => exact Collect.grows_map (Collect.grows_fault _ _)
  case h_5 =>
    exact Collect.grows_both hl.term hr.term
  all_goals exact Collect.grows_map hr.term

/-- The work of a binding. -/
def binding (location : Location) (left : RawTree) (r : Meaning) : Collect Expr := do
  let name ← target location left
  return .node .assign location [name, ← r.item]

theorem grows_binding (location : Location) (left : RawTree) {r : Meaning} (hr : r.Grows) :
    (binding location left r).Grows :=
  Collect.grows_both (grows_target location left) hr.item

theorem grows_ofBinary (symbol : Symbol) (location : Location) (left : RawTree) {l r : Meaning}
    (hl : l.Grows) (hr : r.Grows) : (ofBinary symbol location left l r).Grows := by
  unfold ofBinary
  split
  · exact { grows_plain (Collect.grows_throw _) with
      items := Collect.grows_both hl.items hr.item }
  · exact { grows_plain (Collect.grows_throw _) with
      item := grows_binding location left hr
      items := Collect.grows_map (grows_binding location left hr) }
  · exact grows_plain (Collect.grows_bind hl.term fun _ => hr.key _ _)
  · split
    · exact grows_plain (grows_infixTerm _ _ _ hl hr)
    · exact grows_plain (Collect.grows_throw _)

end Meaning

theorem RawTree.grows_meaning (t : RawTree) : t.meaning.Grows := by
  induction t with
  | missing offset =>
    exact Meaning.grows_plain (Collect.grows_map (Collect.grows_fault _ _))
  | cutOff offset => exact Meaning.grows_plain (Collect.grows_pure _)
  | leaf l location =>
    cases l
    case name =>
      exact { Meaning.grows_plain (Collect.grows_pure _) with key := fun _ _ => Collect.grows_pure _ }
    all_goals exact Meaning.grows_plain (Collect.grows_pure _)
  | binary symbol location left right ihl ihr => exact Meaning.grows_ofBinary _ _ _ ihl ihr
  | apply location callee args ihc iha =>
    exact { Meaning.grows_plain (Collect.grows_bind ihc.term fun _ => Meaning.grows_call iha.args _ _) with
      key := fun _ _ => Collect.grows_bind (ihc.key _ _) fun _ => Meaning.grows_call iha.args _ _ }
  | group bracket location inner ih =>
    cases bracket with
    | curly => exact Meaning.grows_plain (Collect.grows_map ih.items)
    | round =>
      refine { Meaning.grows_plain ih.term with args := fun work hw => ?_ }
      cases hw
      split
      · exact Collect.grows_pure _
      · exact ih.items

/-- Where no fault is found in the end, none was found before. -/
theorem Expr.found_eq_nil_of_ofRaw {raw : RawTree} {found : List ParseError} {e : Expr}
    (h : Expr.ofRaw raw found = .ok (e, [])) : found = [] :=
  List.prefix_nil.1 (raw.grows_meaning.term.isPrefix h)

/-- What a source text is parsed as is made of its raw tree. -/
theorem ofRaw_of_parse {source : String} {parsed : Parsed} (h : parse source = .ok parsed) :
    Expr.ofRaw (RawTree.ofSource (some Frame.maxHeight) source).1 (RawTree.ofSource (some Frame.maxHeight) source).2 =
      .ok (parsed.expr, parsed.errors) := by
  rw [parse] at h
  generalize RawTree.ofSource (some Frame.maxHeight) source = result at h
  cases hraw : Expr.ofRaw result.1 result.2 with
  | error e => simp [hraw, bind, Except.bind] at h
  | ok found =>
    obtain rfl : Parsed.mk found.1 found.2 = parsed := by simpa [hraw, bind, Except.bind, pure, Except.pure] using h
    rfl

end DynamicConfig

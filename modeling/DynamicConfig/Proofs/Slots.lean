import DynamicConfig.Pattern.Trees
import DynamicConfig.Proofs.Matching
/-!
# Slots between patterns

What a pattern makes of a view depends on the slots that an `auto` of it looks at, and a match or a mismatch leaves alone
the slots that it does not fill (`Pattern.result_eq_of_agree`, `Pattern.views_check`). So the second side of an `or` may
depend on what its failed first side has left in a slot, and on nothing else of it (`Pattern.check_or_of_not_succeeds`).
A list item by item is its first item, its second one and so on, slots included (`Pattern.chain`).
-/

namespace DynamicConfig

theorem Captures.fill_of_ne {β : Type} {slots : String → Option β} {slot other : String} (h : other ≠ slot) (content : β) :
    fill slots slot content other = slots other :=
  if_neg h

namespace Pattern

variable {α : Type}

mutual

/-- The parts of a pattern that have no parts themselves. -/
def leaves : Pattern α → List (Pattern α)
  | and p q | or p q | first p q | last p q => leaves p ++ leaves q
  | not p => leaves p
  | list ps => leavesAll ps
  | p => [p]

def leavesAll : List (Pattern α) → List (Pattern α)
  | [] => []
  | p :: ps => leaves p ++ leavesAll ps

end

/-! ## Outcomes side by side -/

/-- The same match or mismatch, with related contents of the view slots afterwards. -/
def Related (R : (String → Option (View α)) → (String → Option (View α)) → Prop) (first second : Outcome α) : Prop :=
  first.1 = second.1 ∧ R first.2.views second.2.views

section Related

variable {R : (String → Option (View α)) → (String → Option (View α)) → Prop}

theorem related_andThen {o o' : Outcome α} {next next' : Captures α → Outcome α} (h : Related R o o')
    (hnext : ∀ c d, R c.views d.views → Related R (next c) (next' d)) :
    Related R (andThen o next) (andThen o' next') := by
  obtain ⟨result, c⟩ := o
  obtain ⟨result', d⟩ := o'
  obtain ⟨rfl, hviews⟩ := h
  cases result with
  | ok => exact hnext c d hviews
  | error e => exact ⟨rfl, hviews⟩

/-- Only captures of views change view slots. -/
theorem related_keep {β : Type} {part : Option β} {otherwise : Mismatch} {store store' : β → Captures α}
    {c d : Captures α} (h : R c.views d.views) (hc : ∀ x, (store x).views = c.views)
    (hd : ∀ x, (store' x).views = d.views) : Related R (keep part otherwise store c) (keep part otherwise store' d) := by
  cases part with
  | none => exact ⟨rfl, h⟩
  | some x => exact ⟨rfl, by simpa [keep, hc, hd] using h⟩

end Related

variable [Treelike α] [BEq α]

/-! ## Success -/

/-- The pattern matches the view, with these contents of the slots before. -/
def Succeeds (p : Pattern α) (view : View α) (c : Captures α) : Prop :=
  (p.check view c).1 = .ok ()

theorem succeeds_iff {p : Pattern α} {view : View α} {c : Captures α} :
    p.Succeeds view c ↔ ∃ c', p.Matches view c c' := by
  unfold Succeeds Matches
  constructor
  · intro h
    exact ⟨(p.check view c).2, Prod.ext h rfl⟩
  · rintro ⟨c', h⟩
    rw [h]

theorem check_or_of_succeeds {p : Pattern α} {view : View α} {c : Captures α} (h : p.Succeeds view c) (q : Pattern α) :
    (or p q).check view c = p.check view c := by
  obtain ⟨c', hmatch⟩ := succeeds_iff.1 h
  unfold Matches at hmatch
  rw [check, hmatch]

/-- The second side begins with what the first one has left in the slots. -/
theorem check_or_of_not_succeeds {p : Pattern α} {view : View α} {c : Captures α} (h : ¬ p.Succeeds view c)
    (q : Pattern α) : (or p q).check view c = q.check view (p.check view c).2 := by
  unfold Succeeds at h
  rw [check]
  generalize p.check view c = outcome at h
  obtain ⟨result, c'⟩ := outcome
  cases result with
  | ok => exact absurd rfl h
  | error e => rfl

/-- What a pattern leaves in the slots stays there when it is turned round. -/
theorem check_not (p : Pattern α) (view : View α) (c : Captures α) :
    (not p).check view c = (ensure (p.check view c).1.toOption.isNone .noMatch, (p.check view c).2) := by
  rw [check]
  generalize p.check view c = outcome
  obtain ⟨result, c'⟩ := outcome
  cases result <;> rfl

/-! ## What depends on slots -/

/-- The captures of views in a pattern keep a relation between the contents of view slots. -/
structure Keeps (R : (String → Option (View α)) → (String → Option (View α)) → Prop) (p : Pattern α) : Prop where
  capture : ∀ slot, captureView slot ∈ p.leaves → ∀ view s t, R s t →
    R (Captures.fill s slot view) (Captures.fill t slot view)
  auto : ∀ slot, auto slot ∈ p.leaves → ∀ view c d, R c.views d.views →
    Related R ((Pattern.auto slot).check view c) ((Pattern.auto slot).check view d)

section Keeps

variable {R : (String → Option (View α)) → (String → Option (View α)) → Prop} {p q : Pattern α}

theorem Keeps.part (h : Keeps R p) (hpart : ∀ leaf ∈ q.leaves, leaf ∈ p.leaves) : Keeps R q where
  capture slot hmem := h.capture slot (hpart _ hmem)
  auto slot hmem := h.auto slot (hpart _ hmem)

/-- Whatever a pattern of two parts keeps, both parts keep. -/
theorem Keeps.both {whole : Pattern α} (h : Keeps R whole) (hleaves : whole.leaves = p.leaves ++ q.leaves) :
    Keeps R p ∧ Keeps R q := by
  constructor
  · exact h.part fun _ hleaf => hleaves ▸ List.mem_append_left _ hleaf
  · exact h.part fun _ hleaf => hleaves ▸ List.mem_append_right _ hleaf

mutual

/-- A relation between the contents of view slots is kept by a whole pattern if its captures of views keep it. -/
theorem Keeps.check : ∀ {p : Pattern α}, Keeps R p → ∀ (view : View α) {c d : Captures α}, R c.views d.views →
    Related R (p.check view c) (p.check view d)
  | any, _, _, _, _, h | nothing, _, _, _, _, h | nil, _, _, _, _, h | equals _, _, _, _, _, h | isString, _, _, _, _, h
  | isNumber, _, _, _, _, h | isBool, _, _, _, _, h | isList, _, _, _, _, h | satisfies _, _, _, _, _, h => ⟨rfl, h⟩
  | text _, _, view, _, _, h | startingWith _, _, view, _, _, h => by
    unfold Pattern.check
    split <;> exact ⟨rfl, h⟩
  | and p q, hp, view, c, d, h => by
    obtain ⟨hfirst, hsecond⟩ : Keeps R p ∧ Keeps R q := hp.both rfl
    exact related_andThen (hfirst.check view h) fun _ _ => hsecond.check view
  | or p q, hp, view, c, d, h => by
    obtain ⟨hfirst, hsecond⟩ : Keeps R p ∧ Keeps R q := hp.both rfl
    obtain ⟨heq, hviews⟩ := hfirst.check view h
    by_cases hs : p.Succeeds view c
    · rw [check_or_of_succeeds hs, check_or_of_succeeds (heq.symm.trans hs)]
      exact ⟨heq, hviews⟩
    · rw [check_or_of_not_succeeds hs, check_or_of_not_succeeds fun hd => hs (heq.trans hd)]
      exact hsecond.check view hviews
  | not p, hp, view, c, d, h => by
    have hinner : Keeps R p := hp.part fun _ => id
    obtain ⟨heq, hviews⟩ := hinner.check view h
    rw [check_not, check_not, heq]
    exact ⟨rfl, hviews⟩
  | first p q, hp, view, c, d, h => by
    obtain ⟨hfirst, hsecond⟩ : Keeps R p ∧ Keeps R q := hp.both rfl
    unfold Pattern.check
    split
    · exact ⟨rfl, h⟩
    · exact ⟨rfl, h⟩
    · exact related_andThen (hfirst.check _ h) fun _ _ => hsecond.check _
  | last p q, hp, view, c, d, h => by
    obtain ⟨hfirst, hsecond⟩ : Keeps R p ∧ Keeps R q := hp.both rfl
    unfold Pattern.check
    split
    · exact ⟨rfl, h⟩
    · split
      · exact ⟨rfl, h⟩
      · exact related_andThen (hfirst.check _ h) fun _ _ => hsecond.check _
  | list ps, hp, view, c, d, h => by
    unfold Pattern.check
    split
    · exact ⟨rfl, h⟩
    · split
      · exact Keeps.checkAll ps hp _ h
      · exact ⟨rfl, h⟩
  | captureView slot, hp, view, _, _, h => ⟨rfl, hp.capture slot (List.mem_singleton_self _) view _ _ h⟩
  | captureNode _, _, _, _, _, h | captureText _, _, _, _, _, h | captureNumber _, _, _, _, _, h
  | captureBool _, _, _, _, _, h | captureItems _, _, _, _, _, h => related_keep h (fun _ => rfl) fun _ => rfl
  | .auto slot, hp, view, _, _, h => hp.auto slot (List.mem_singleton_self _) view _ _ h

theorem Keeps.checkAll : ∀ (ps : List (Pattern α)), Keeps R (list ps) → ∀ (items : List α) {c d : Captures α},
    R c.views d.views → Related R (checkAll ps items c) (checkAll ps items d)
  | [], _, _, _, _, h => ⟨rfl, h⟩
  | _ :: _, _, [], _, _, h => ⟨rfl, h⟩
  | p :: ps, hp, item :: items, c, d, h => by
    obtain ⟨hfirst, hrest⟩ : Keeps R p ∧ Keeps R (list ps) := hp.both rfl
    unfold Pattern.checkAll
    exact related_andThen (hfirst.check _ h) fun _ _ => Keeps.checkAll ps hrest items

end

end Keeps

/-- A pattern leaves a slot alone unless it captures a view there, or looks at it with an `auto` while it is empty. -/
theorem views_check {p : Pattern α} {slot : String} (hcapture : captureView slot ∉ p.leaves) {c : Captures α}
    (hauto : auto slot ∈ p.leaves → (c.views slot).isSome) (view : View α) :
    (p.check view c).2.views slot = c.views slot := by
  have hkeeps : Keeps (fun s t => s = t ∧ t slot = c.views slot) p := by
    refine ⟨fun other hother view s t h => ?_, fun other hother view d e h => ?_⟩
    · obtain ⟨rfl, hslot⟩ := h
      have hne : slot ≠ other := fun heq => hcapture (heq ▸ hother)
      exact ⟨rfl, (Captures.fill_of_ne hne _).trans hslot⟩
    · obtain ⟨heq, hslot⟩ := h
      simp only [Related, check, heq]
      split
      · exact ⟨rfl, heq, hslot⟩
      · rename_i hnone
        have hne : slot ≠ other := by
          rintro rfl
          have hsome := hauto hother
          rw [← hslot, hnone] at hsome
          cases hsome
        exact ⟨rfl, rfl, (Captures.fill_of_ne hne _).trans hslot⟩
  exact (hkeeps.check view ⟨rfl, rfl⟩).2.2

/-- Whether a pattern matches depends on no slots but those that an `auto` of it looks at. -/
theorem result_eq_of_agree {p : Pattern α} {c d : Captures α}
    (h : ∀ slot, auto slot ∈ p.leaves → c.views slot = d.views slot) (view : View α) :
    (p.check view c).1 = (p.check view d).1 := by
  have hkeeps : Keeps (fun s t => ∀ slot, auto slot ∈ p.leaves → s slot = t slot) p := by
    refine ⟨fun other _ view s t h slot hslot => ?_, fun other hother view d e h => ?_⟩
    · simp only [Captures.fill, h slot hslot]
    · simp only [Related, check, h other hother]
      split
      · exact ⟨rfl, h⟩
      · exact ⟨rfl, fun slot hslot => by simp only [Captures.fill, h slot hslot]⟩
  exact (hkeeps.check view h).1

/-! ## Alternatives -/

/-- A pattern of two sides matches if the first one does, or if the second one does with what the first one has left in
the slots. Of these the first one changes only those where it captures a view, and empty ones that an `auto` of it looks
at. Where none of the slots is changed that an `auto` of the second side looks at, either side is enough. -/
theorem or_is_either_side_where_slots_are_kept (p q : Pattern α) (view : View α) (c : Captures α) :
    ((or p q).Succeeds view c ↔ p.Succeeds view c ∨ q.Succeeds view (p.check view c).2) ∧
      (∀ slot, captureView slot ∉ p.leaves → (auto slot ∈ p.leaves → (c.views slot).isSome) →
        (p.check view c).2.views slot = c.views slot) ∧
      ((¬ p.Succeeds view c → ∀ slot, auto slot ∈ q.leaves → (p.check view c).2.views slot = c.views slot) →
        ((or p q).Succeeds view c ↔ p.Succeeds view c ∨ q.Succeeds view c)) := by
  by_cases hp : p.Succeeds view c
  · have hor : (or p q).Succeeds view c := by
      rw [Succeeds, check_or_of_succeeds hp]
      exact hp
    exact ⟨by simp [hor, hp], fun _ hcapture hauto => views_check hcapture hauto view, by simp [hor, hp]⟩
  · have hor : (or p q).Succeeds view c ↔ q.Succeeds view (p.check view c).2 := by
      rw [Succeeds, check_or_of_not_succeeds hp, Succeeds]
    refine ⟨by simp [hor, hp], fun _ hcapture hauto => views_check hcapture hauto view, fun hslots => ?_⟩
    rw [hor, Succeeds, result_eq_of_agree (hslots hp), ← Succeeds]
    simp [hp]

/-- A pattern that captures the first item of a list and then fails. -/
def captureAndFail (slot : String) : Pattern α :=
  and (first (captureView slot) any) nothing

/-- Both sides capture a view in the slot `a`, and the second one compares two items by the slot `b`. -/
theorem either_side_of_shared_capture :
    let second : Pattern Json := list [auto "b", captureView "a", auto "b"]
    let items : View Json := .node (.array [.string "x", .string "y", .string "x"])
    (¬ (captureAndFail "a").Succeeds items {} → ∀ slot, auto slot ∈ second.leaves →
        ((captureAndFail "a").check items {}).2.views slot = ({} : Captures Json).views slot) ∧
      ((or (captureAndFail "a") second).Succeeds items {} ↔
        (captureAndFail "a").Succeeds items {} ∨ second.Succeeds items {}) := by
  intro second items
  obtain ⟨-, hleft, heither⟩ := or_is_either_side_where_slots_are_kept (captureAndFail "a") second items {}
  have hslots : ∀ slot, auto slot ∈ second.leaves →
      ((captureAndFail "a").check items {}).2.views slot = ({} : Captures Json).views slot := by
    intro slot hslot
    have heq : slot = "b" := by simpa [second, leaves, leavesAll] using hslot
    subst heq
    exact hleft "b" (by simp [captureAndFail, leaves]) (by simp [captureAndFail, leaves])
  exact ⟨fun _ => hslots, heither fun _ => hslots⟩

/-- What a failed first side has captured may keep the second side from a match, and may bring it to one. -/
theorem failed_side_decides_by_slot :
    let items : View Json := .node (.array [.string "x", .string "y"])
    let filled : Captures Json := { views := Captures.fill (fun _ => none) "s" (.node .null) }
    ((list [any, auto "s"]).Succeeds items {} ∧
        ¬ (or (captureAndFail "s") (list [any, auto "s"])).Succeeds items {}) ∧
      ((or (captureAndFail "s") (list [auto "s", any])).Succeeds items filled ∧
        ¬ (captureAndFail "s").Succeeds items filled ∧ ¬ (list [auto "s", any]).Succeeds items filled) := by
  refine ⟨⟨rfl, ?_⟩, rfl, ?_, ?_⟩ <;> (intro h; cases h)

/-! ## Lists -/

/-- A list by its first item, then the rest of it by its first item and so on, and then nothing more. -/
def chain (ps : List (Pattern α)) : Pattern α :=
  ps.foldr first (list [])

theorem matches_chain_rest_iff {ps : List (Pattern α)} {items : List α} {c c' : Captures α} :
    (chain ps).Matches (.rest items) c c' ↔ MatchesAll ps items c c' := by
  induction ps generalizing items c with
  | nil =>
    rw [chain, List.foldr_nil, matches_list_iff]
    simp [View.items?]
  | cons p ps ih =>
    rw [chain, List.foldr_cons, ← chain, matches_first_iff, matchesAll_cons_iff]
    simp only [ih, View.items?, Option.some.injEq]

/-- A list item by item is the chain of its items: the one matches where the other one does, and then both leave the
same in all slots. -/
theorem list_is_chain (ps : List (Pattern α)) (view : View α) (c : Captures α) :
    ((list ps).Succeeds view c ↔ (chain ps).Succeeds view c) ∧
      ∀ c', (list ps).Matches view c c' ↔ (chain ps).Matches view c c' := by
  have hmatches (c' : Captures α) : (list ps).Matches view c c' ↔ (chain ps).Matches view c c' := by
    cases ps with
    | nil => rw [chain, List.foldr_nil]
    | cons p ps =>
      rw [chain, List.foldr_cons, ← chain, matches_list_iff, matches_first_iff]
      simp only [matchesAll_cons_iff, matches_chain_rest_iff]
      constructor
      · rintro ⟨_, hitems, item, rest, between, rfl, hp, hps⟩
        exact ⟨item, rest, between, hitems, hp, hps⟩
      · rintro ⟨item, rest, between, hitems, hp, hps⟩
        exact ⟨_, hitems, item, rest, between, rfl, hp, hps⟩
  exact ⟨by simp only [succeeds_iff, hmatches], hmatches⟩

end Pattern

end DynamicConfig

import DynamicConfig.Proofs.Reading
/-!
# How high trees are read

A frame keeps each term with its height, so no tree is higher than the limit that it is read under
(`RawTree.height_ofSource_le`). A tree that is not higher than the limit without one is read in the same way under
it (`RawTree.ofSource_of_height_le`): no part of a tree is higher than the tree.
-/

namespace DynamicConfig

variable {limit : Option Nat} {n : Nat}

theorem RawTree.height_ofToken (token : Token) : (RawTree.ofToken token).1.height = 1 := by
  unfold RawTree.ofToken
  split <;> rfl

namespace Frame

variable {f : Frame}

/-! ## The limit bounds what is read -/

/-- The height of a term is the one that is kept with it, and not above the limit. -/
def Fits (limit : Option Nat) (term : RawTree × Nat) : Prop :=
  term.2 = term.1.height ∧ exceeds limit term.2 = false

/-- All terms fit. -/
def Measured (limit : Option Nat) (f : Frame) : Prop :=
  ∀ term ∈ f.terms, Fits limit term

theorem inherited_fits (hone : exceeds limit 1 = false) : Inherited limit (Fits limit) where
  missing _ := ⟨rfl, hone⟩
  cutOff _ _ _ := ⟨rfl, hone⟩
  ofToken token := ⟨(RawTree.height_ofToken token).symm, hone⟩
  binary _ _ _ _ hleft hright hlow := ⟨by rw [hleft.1, hright.1]; rfl, hlow⟩
  apply _ _ _ hcallee hargs hlow := ⟨by rw [hcallee.1, hargs.1]; rfl, hlow⟩
  group _ _ _ hinner hlow := ⟨by rw [hinner.1]; rfl, hlow⟩

/-! ## What is low enough is read in the same way -/

/-- No term is higher than the bound. -/
def Within (n : Nat) (f : Frame) : Prop :=
  ∀ term ∈ f.terms, term.2 ≤ n

theorem push_within {t : RawTree} {height offset : Nat} (h : (f.push none t height offset).Within n) :
    f.push (some n) t height offset = f.push none t height offset ∧ height ≤ n ∧ f.Within n := by
  obtain ⟨ht, hf⟩ := List.forall_mem_cons.1 h
  have hlow : exceeds (some n) height = false := by simpa [exceeds] using ht
  exact ⟨by simp only [push, hlow]; rfl, ht, hf⟩

theorem within_of_pop {offset : Nat} (h1 : (f.pop offset).1.2 ≤ n) (h2 : (f.pop offset).2.Within n) : f.Within n := by
  unfold pop at h1 h2
  split at h1
  case h_1 ht => simp [Within, ht]
  case h_2 term rest ht =>
    rw [ht] at h2
    rw [Within, ht]
    exact List.forall_mem_cons.2 ⟨h1, h2⟩

theorem reduce_within {op : PendingOp} (h : (f.reduce none op).Within n) :
    f.reduce (some n) op = f.reduce none op ∧ f.Within n := by
  rw [reduce_eq] at h
  obtain ⟨heq, hmax, hrest⟩ := push_within h
  have hright : (f.pop op.location.stop).2.Within n := within_of_pop (by omega) hrest
  exact ⟨by rw [reduce_eq, reduce_eq, heq], within_of_pop (by omega) hright⟩

theorem unwind_within {waitsOn : PendingOp → Bool} {ops : List PendingOp}
    (h : (unwind none waitsOn ops f).Within n) :
    unwind (some n) waitsOn ops f = unwind none waitsOn ops f ∧ f.Within n := by
  induction ops generalizing f with
  | nil => exact ⟨rfl, h⟩
  | cons op rest ih =>
    unfold unwind at h ⊢
    split
    case isTrue hw =>
      rw [if_pos hw] at h
      exact ⟨rfl, h⟩
    case isFalse hw =>
      rw [if_neg hw] at h
      obtain ⟨heq, hreduced⟩ := ih h
      obtain ⟨hr, hf⟩ := reduce_within hreduced
      exact ⟨by rw [hr, heq], hf⟩

theorem within_of_miss {offset : Nat} (h : (f.miss offset).Within n) : f.Within n :=
  (List.forall_mem_cons.1 h).2

theorem addOp_within {symbol : Symbol} {location : Location} (h : (f.addOp none symbol location).Within n) :
    f.addOp (some n) symbol location = f.addOp none symbol location ∧ f.Within n := by
  cases hf : f.afterTerm with
  | true =>
    rw [addOp_of_afterTerm hf] at h ⊢
    obtain ⟨heq, hw⟩ := unwind_within (f := f) h
    exact ⟨by rw [addOp_of_afterTerm hf, heq], hw⟩
  | false =>
    cases hs : symbol.mayLead with
    | true =>
      rw [addOp_of_mayLead hf hs] at h ⊢
      exact ⟨(addOp_of_mayLead hf hs location).symm, within_of_miss h⟩
    | false =>
      rw [addOp_of_missing hf hs] at h ⊢
      obtain ⟨heq, hw⟩ := unwind_within (f := f.miss location.start) h
      exact ⟨by rw [addOp_of_missing hf hs, heq], within_of_miss hw⟩

theorem addTerm_within {t : RawTree} {height : Nat} {location : Location}
    (h : (f.addTerm none t height location).Within n) :
    f.addTerm (some n) t height location = f.addTerm none t height location ∧ height ≤ n ∧ f.Within n := by
  rcases f.callee_or_not with ⟨callee, calleeHeight, rest, hf, ht⟩ | hf
  · rw [addTerm_of_afterTerm hf ht] at h ⊢
    obtain ⟨heq, hmax, hrest⟩ := push_within (f := { f with terms := rest }) h
    refine ⟨by rw [addTerm_of_afterTerm hf ht, heq], by omega, ?_⟩
    rw [Within, ht]
    exact List.forall_mem_cons.2 ⟨by dsimp only; omega, hrest⟩
  · rw [addTerm_of_no_callee hf] at h ⊢
    obtain ⟨heq, hle, hw⟩ := push_within (f := f) h
    exact ⟨by rw [addTerm_of_no_callee hf, heq], hle, hw⟩

/-- A frame in step ends as its only term, which all others are parts of. -/
theorem finish_within (hs : f.InStep) {stop : Nat} (h : (f.finish none stop).height ≤ n) :
    f.finish (some n) stop = f.finish none stop ∧ f.Within n := by
  rcases terms_of_ended none hs stop with ⟨hops, hterms, hf⟩ | ⟨term, hterm⟩
  · refine ⟨?_, by simp [Within, hterms]⟩
    simp [finish_eq, closed, ended, hops, hf, unwind]
  · rw [finish_eq, pop_fst_of_cons hterm] at h
    have hclosed : (f.closed none stop).Within n := by simpa [Within, hterm] using h
    obtain ⟨heq, hended⟩ := unwind_within hclosed
    refine ⟨by rw [finish_eq, finish_eq, closed, heq, closed], ?_⟩
    unfold ended at hended
    split at hended
    · exact within_of_miss hended
    · exact hended

end Frame

namespace Reading

variable {r next : Reading} {token : Token} {faults : List ParseError} {lexemes : List Lexeme} {stop : Nat}

/-! ## Readings under a limit -/

/-- All terms fit, inside every open bracket. -/
def Measured (limit : Option Nat) (r : Reading) : Prop :=
  r.current.Measured limit ∧ ∀ o ∈ r.opened, o.around.Measured limit

/-- What is read is not above the limit. -/
theorem height_run (hone : Frame.exceeds limit 1 = false) (h : r.Measured limit) :
    Frame.exceeds limit (run limit stop r lexemes).1.height = false := by
  obtain ⟨height, heq, hlow⟩ := all_run (Frame.inherited_fits hone) h
  exact heq ▸ hlow

/-! ## Readings of what is low enough -/

/-- No term is higher than the bound, inside every open bracket. -/
def Within (n : Nat) (r : Reading) : Prop :=
  r.current.Within n ∧ ∀ o ∈ r.opened, o.around.Within n

theorem closeBracket_within {innermost : OpenBracket} {outer : List OpenBracket} {location : Location} (hs : r.InStep)
    (ho : r.opened = innermost :: outer) (h : (r.closeBracket none innermost outer stop location).Within n) :
    r.closeBracket (some n) innermost outer stop location = r.closeBracket none innermost outer stop location ∧
      r.Within n := by
  obtain ⟨hcurrent, hopened⟩ := h
  obtain ⟨haround, hgroup, hafter⟩ := Frame.addTerm_within hcurrent
  obtain ⟨hinner, hwithin⟩ := Frame.finish_within hs.1 (Nat.le_of_succ_le hgroup)
  refine ⟨by rw [closeBracket, hinner, haround, closeBracket], hwithin, ?_⟩
  rw [ho]
  exact List.forall_mem_cons.2 ⟨hafter, hopened⟩

theorem Step.within (h : Step none r token next faults) (hs : r.InStep) (hw : next.Within n) :
    Step (some n) r token next faults ∧ r.Within n := by
  cases h with
  | opening hsymbol => exact ⟨.opening hsymbol, List.forall_mem_cons.1 hw.2⟩
  | closing hsymbol ho =>
    obtain ⟨heq, hr⟩ := closeBracket_within hs ho hw
    exact ⟨heq ▸ .closing hsymbol ho, hr⟩
  | operator hsymbol hb =>
    obtain ⟨heq, hf⟩ := Frame.addOp_within hw.1
    exact ⟨heq ▸ .operator hsymbol hb, hf, hw.2⟩
  | term hsymbol =>
    obtain ⟨heq, -, hf⟩ := Frame.addTerm_within hw.1
    exact ⟨heq ▸ .term hsymbol, hf, hw.2⟩

theorem closeAll_within {opened : List OpenBracket} (hs : r.InStep) (ho : r.opened = opened)
    (h : (closeAll none stop opened r).Within n) :
    closeAll (some n) stop opened r = closeAll none stop opened r ∧ r.Within n := by
  induction opened generalizing r with
  | nil => exact ⟨rfl, h.1, by simp [ho]⟩
  | cons o outer ih =>
    obtain ⟨heq, hclosed⟩ := ih (inStep_closeBracket hs ho) rfl h
    obtain ⟨hbracket, hr⟩ := closeBracket_within hs ho hclosed
    exact ⟨by rw [closeAll, hbracket, heq, closeAll], hr⟩

theorem finish_within (hs : r.InStep) (hm : r.Measured none) (hle : (r.finish none stop).1.height ≤ n) :
    r.finish (some n) stop = r.finish none stop ∧ r.Within n := by
  -- The bound is on the tree, and holds of the height that is kept with it, since all terms are measured.
  have hmeasured : (closeAll none stop r.opened r).Measured none := all_closeAll (Frame.inherited_fits rfl) rfl hm
  obtain ⟨hheight, -⟩ := Frame.all_finish (Frame.inherited_fits rfl) hmeasured.1 stop
  have hroot : ((closeAll none stop r.opened r).current.finish none stop).height ≤ n :=
    Nat.le_trans (Nat.le_of_eq hheight) hle
  obtain ⟨heq, hcurrent⟩ := Frame.finish_within (inStep_closeAll rfl hs).1 hroot
  obtain ⟨hclosed, hr⟩ := closeAll_within hs rfl ⟨hcurrent, by simp [opened_closeAll]⟩
  exact ⟨by simp only [finish, hclosed, heq], hr⟩

/-- A reading whose tree is low enough is the same under the limit. -/
theorem run_within (hs : r.InStep) (hm : r.Measured none) (hle : (run none stop r lexemes).1.height ≤ n) :
    run (some n) stop r lexemes = run none stop r lexemes ∧ r.Within n := by
  -- Only the tree at the end is known to be low enough, so the bound goes back from each reading to the one before it.
  induction lexemes generalizing r with
  | nil =>
    obtain ⟨heq, hr⟩ := finish_within hs hm hle
    exact ⟨by rw [run_nil, run_nil, endFaults, endFaults, heq], hr⟩
  | cons lexeme rest ih =>
    cases lexeme with
    | fault e =>
      obtain ⟨heq, hr⟩ := ih hs hm hle
      exact ⟨by rw [run_fault, run_fault, heq], hr⟩
    | token token =>
      rcases step_or_error none r token with ⟨next, faults, hstep⟩ | ⟨e, he⟩
      · rw [run_step hstep] at hle ⊢
        obtain ⟨hrun, hw⟩ := ih (hstep.inStep hs) (hstep.all (Frame.inherited_fits rfl) hm) hle
        obtain ⟨hlimited, hr⟩ := hstep.within hs hw
        exact ⟨by rw [run_step hlimited, hrun], hr⟩
      · rw [run_error (he none)] at hle ⊢
        obtain ⟨heq, hr⟩ := finish_within hs hm hle
        exact ⟨by rw [run_error (he _), heq], hr⟩

end Reading

/-! ## Source texts -/

/-- No tree is higher than the limit that its source text is read under. -/
theorem RawTree.height_ofSource_le (hn : 0 < n) (source : String) : (RawTree.ofSource (some n) source).1.height ≤ n := by
  have hone : Frame.exceeds (some n) 1 = false := by
    simp only [Frame.exceeds, Option.any_some, decide_eq_false_iff_not]
    omega
  have hrun : Frame.exceeds (some n) (RawTree.ofSource (some n) source).1.height = false :=
    Reading.height_run hone (Reading.all_initial _)
  simpa [Frame.exceeds] using hrun

/-- A source text whose tree is not higher than the limit is read under it as without one. -/
theorem RawTree.ofSource_of_height_le {source : String} (hle : (RawTree.ofSource none source).1.height ≤ n) :
    RawTree.ofSource (some n) source = RawTree.ofSource none source :=
  (Reading.run_within Reading.inStep_initial (Reading.all_initial _) hle).1

end DynamicConfig

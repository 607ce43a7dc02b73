import DynamicConfig.Proofs.Frame
/-!
# Reading with and without a limit

If nothing is cut off from the tree of a source text, the limit on heights has not changed anything: the
tree and the faults are those that are found without a limit (`RawTree.ofSource_of_isWhole`,
`RawTree.ofSource_of_no_errors`).
-/

namespace DynamicConfig

/-- Whether a symbol is a bracket. -/
def Symbol.isBracket : Symbol → Bool
  | opening _ | closing _ => true
  | _ => false

namespace Reading

variable {limit : Option Nat} {r : Reading}

/-- The operators and terms of every frame are in step. -/
def InStep (r : Reading) : Prop :=
  r.current.InStep ∧ ∀ o ∈ r.opened, o.around.InStep

/-- No part of a term is cut off. -/
def AllWhole (r : Reading) : Prop :=
  r.current.AllWhole ∧ ∀ o ∈ r.opened, o.around.AllWhole

/-- No term was cut off. -/
def Uncut (r : Reading) : Prop :=
  r.cutAt = none ∧ r.current.cutAt = none ∧ ∀ o ∈ r.opened, o.around.cutAt = none

theorem inStep_initial : InStep {} :=
  ⟨rfl, by simp⟩

theorem uncut_initial : Uncut {} :=
  ⟨rfl, rfl, by simp⟩

/-! ## Brackets -/

section Brackets

variable {innermost : OpenBracket} {outer : List OpenBracket} {stop : Nat} {location : Location}

theorem inStep_closeBracket (h : r.InStep) (ho : r.opened = innermost :: outer) :
    (r.closeBracket limit innermost outer stop location).InStep := by
  refine ⟨Frame.inStep_addTerm (h.2 innermost (by simp [ho])) _ _ _, fun o hm => h.2 o ?_⟩
  rw [ho]
  exact List.mem_cons_of_mem _ hm

theorem closeBracket_uncut (ho : r.opened = innermost :: outer)
    (h : (r.closeBracket limit innermost outer stop location).Uncut) :
    r.closeBracket limit innermost outer stop location = r.closeBracket none innermost outer stop location ∧
      r.Uncut := by
  obtain ⟨hcut, hcurrent, houter⟩ := h
  obtain ⟨hc, hi⟩ : r.cutAt = none ∧ (r.current.finish limit stop).cutAt = none := by
    simpa [closeBracket, Option.or_eq_none_iff] using hcut
  obtain ⟨hf, hi⟩ := Frame.finish_uncut hi
  obtain ⟨ha, haround⟩ := Frame.addTerm_uncut hcurrent
  refine ⟨?_, hc, hi, ?_⟩
  · rw [hf] at ha
    simp only [closeBracket, hf, ha]
  · intro o hm
    rcases List.mem_cons.1 (ho ▸ hm) with rfl | hm
    · exact haround
    · exact houter o hm

theorem closeBracket_allWhole (hs : r.InStep) (ho : r.opened = innermost :: outer)
    (h : (r.closeBracket limit innermost outer stop location).AllWhole) :
    r.AllWhole ∧ (r.Uncut → (r.closeBracket limit innermost outer stop location).Uncut) := by
  obtain ⟨hcurrent, houter⟩ := h
  obtain ⟨hgroup, haround, hac⟩ := Frame.isWhole_of_addTerm hcurrent
  obtain ⟨hwhole, hfc⟩ := Frame.isWhole_of_finish hs.1 hgroup
  refine ⟨⟨hwhole, fun o hm => ?_⟩, fun hu => ⟨?_, hac.trans (hu.2.2 innermost (by simp [ho])), fun o hm => ?_⟩⟩
  · rcases List.mem_cons.1 (ho ▸ hm) with rfl | hm
    · exact haround
    · exact houter o hm
  · simp [closeBracket, hfc, hu.1, hu.2.1]
  · exact hu.2.2 o (by rw [ho]; exact List.mem_cons_of_mem _ hm)

end Brackets

/-! ## Tokens -/

/-- What a token does to a reading that it does not end. -/
inductive Step (limit : Option Nat) (r : Reading) (token : Token) : Reading → List ParseError → Prop
  | opening {bracket : Bracket} (hs : Symbol.ofText? token.text = some (.opening bracket)) :
    Step limit r token (r.openBracket bracket token.location.start) []
  | closing {innermost : OpenBracket} {outer : List OpenBracket}
    (hs : Symbol.ofText? token.text = some (.closing innermost.bracket)) (ho : r.opened = innermost :: outer) :
    Step limit r token
      (r.closeBracket limit innermost outer token.location.start ⟨innermost.start, token.location.stop⟩) []
  | operator {symbol : Symbol} (hs : Symbol.ofText? token.text = some symbol) (hb : symbol.isBracket = false) :
    Step limit r token { r with current := r.current.addOp limit symbol token.location } []
  | term (hs : Symbol.ofText? token.text = none) :
    Step limit r token
      { r with current := r.current.addTerm limit (RawTree.ofToken token).1 1 token.location }
      (RawTree.ofToken token).2

theorem feed_eq_ok_iff {token : Token} {next : Reading} {faults : List ParseError} :
    r.feed limit token = .ok (next, faults) ↔ Step limit r token next faults := by
  constructor
  · intro h
    unfold feed at h
    split at h
    case h_1 bracket hs => cases h; exact .opening hs
    case h_2 bracket hs =>
      split at h
      case h_1 innermost outer ho =>
        split at h
        case isTrue hb => subst hb; cases h; exact .closing hs ho
        case isFalse => cases h
      case h_2 => cases h
    case h_3 symbol ho hc hs =>
      cases h
      refine .operator hs ?_
      cases symbol <;> simp_all [Symbol.isBracket]
    case h_4 hs => cases h; exact .term hs
  · intro h
    cases h with
    | opening hs => simp [feed, hs]
    | closing hs ho => simp [feed, hs, ho]
    | @operator symbol hs hb => cases symbol <;> first | (simp [feed, hs]; done) | cases hb
    | term hs => simp [feed, hs]

theorem Step.inStep {token : Token} {next : Reading} {faults : List ParseError}
    (h : Step limit r token next faults) (hs : r.InStep) : next.InStep := by
  cases h with
  | opening _ =>
    refine ⟨rfl, fun o hm => ?_⟩
    rcases List.mem_cons.1 hm with rfl | hm
    · exact hs.1
    · exact hs.2 o hm
  | closing _ ho => exact inStep_closeBracket hs ho
  | operator _ _ => exact ⟨Frame.inStep_addOp hs.1 _ _, hs.2⟩
  | term _ => exact ⟨Frame.inStep_addTerm hs.1 _ _ _, hs.2⟩

theorem Step.uncut {token : Token} {next : Reading} {faults : List ParseError}
    (h : Step limit r token next faults) (hu : next.Uncut) : Step none r token next faults ∧ r.Uncut := by
  cases h with
  | opening hs =>
    exact ⟨.opening hs, hu.1, hu.2.2 _ List.mem_cons_self, fun o hm => hu.2.2 o (List.mem_cons_of_mem _ hm)⟩
  | closing hs ho =>
    obtain ⟨heq, hr⟩ := closeBracket_uncut ho hu
    exact ⟨heq ▸ .closing hs ho, hr⟩
  | operator hs hb =>
    obtain ⟨heq, hc⟩ := Frame.addOp_uncut hu.2.1
    exact ⟨heq ▸ .operator hs hb, hu.1, hc, hu.2.2⟩
  | term hs =>
    obtain ⟨heq, hc⟩ := Frame.addTerm_uncut hu.2.1
    exact ⟨heq ▸ .term hs, hu.1, hc, hu.2.2⟩

theorem Step.allWhole {token : Token} {next : Reading} {faults : List ParseError}
    (h : Step limit r token next faults) (hs : r.InStep) (hw : next.AllWhole) :
    r.AllWhole ∧ (r.Uncut → next.Uncut) := by
  cases h with
  | opening _ =>
    refine ⟨⟨hw.2 _ List.mem_cons_self, fun o hm => hw.2 o (List.mem_cons_of_mem _ hm)⟩,
      fun hu => ⟨hu.1, rfl, fun o hm => ?_⟩⟩
    rcases List.mem_cons.1 hm with rfl | hm
    · exact hu.2.1
    · exact hu.2.2 o hm
  | closing _ ho => exact closeBracket_allWhole hs ho hw
  | operator _ _ =>
    obtain ⟨hc, hcut⟩ := Frame.wholeBefore_addOp _ _ hw.1
    exact ⟨⟨hc, hw.2⟩, fun hu => ⟨hu.1, hcut.trans hu.2.1, hu.2.2⟩⟩
  | term _ =>
    obtain ⟨-, hc, hcut⟩ := Frame.isWhole_of_addTerm hw.1
    exact ⟨⟨hc, hw.2⟩, fun hu => ⟨hu.1, hcut.trans hu.2.1, hu.2.2⟩⟩

/-! ## What all terms have -/

/-- All terms have the property, inside every open bracket. -/
def All (P : RawTree × Nat → Prop) (r : Reading) : Prop :=
  r.current.All P ∧ ∀ o ∈ r.opened, o.around.All P

theorem all_initial (P : RawTree × Nat → Prop) : All P {} :=
  ⟨by simp [Frame.All], by simp⟩

section All

variable {P : RawTree × Nat → Prop} (hP : Frame.Inherited limit P)
include hP

theorem all_closeBracket {innermost : OpenBracket} {outer : List OpenBracket} (h : r.All P)
    (ho : r.opened = innermost :: outer) (stop : Nat) (location : Location) :
    (r.closeBracket limit innermost outer stop location).All P := by
  obtain ⟨hcurrent, hopened⟩ := h
  rw [ho] at hopened
  obtain ⟨haround, houter⟩ := List.forall_mem_cons.1 hopened
  exact ⟨Frame.all_addTerm hP haround (hP.group _ _ (Frame.all_finish hP hcurrent stop)) location, houter⟩

theorem Step.all {token : Token} {next : Reading} {faults : List ParseError} (h : Step limit r token next faults)
    (hr : r.All P) : next.All P := by
  cases h with
  | opening _ => exact ⟨(all_initial P).1, List.forall_mem_cons.2 hr⟩
  | closing _ ho => exact all_closeBracket hP hr ho _ _
  | operator _ _ => exact ⟨Frame.all_addOp hP hr.1 _ _, hr.2⟩
  | term _ => exact ⟨Frame.all_addTerm hP hr.1 (fun _ => hP.ofToken token) _, hr.2⟩

theorem all_closeAll {opened : List OpenBracket} {stop : Nat} (ho : r.opened = opened) (h : r.All P) :
    (closeAll limit stop opened r).All P := by
  induction opened generalizing r with
  | nil => exact ⟨h.1, by simp [closeAll]⟩
  | cons o outer ih => exact ih rfl (all_closeBracket hP h ho _ _)

/-- The tree of what has been read has what all its terms have, with some height. -/
theorem all_finish {stop : Nat} (h : r.All P) : ∃ height, P ((r.finish limit stop).1, height) :=
  ⟨_, Frame.all_finish hP (all_closeAll hP rfl h).1 stop⟩

end All

/-! ## The end of a source text -/

section End

variable {stop : Nat} {opened : List OpenBracket}

theorem opened_closeAll : (closeAll limit stop opened r).opened = [] := by
  induction opened generalizing r with
  | nil => rfl
  | cons o outer ih => exact ih

theorem inStep_closeAll (ho : r.opened = opened) (h : r.InStep) : (closeAll limit stop opened r).InStep := by
  induction opened generalizing r with
  | nil => exact ⟨h.1, by simp [closeAll]⟩
  | cons o outer ih => exact ih rfl (inStep_closeBracket h ho)

theorem closeAll_uncut (ho : r.opened = opened) (h : (closeAll limit stop opened r).Uncut) :
    closeAll limit stop opened r = closeAll none stop opened r ∧ r.Uncut := by
  induction opened generalizing r with
  | nil => exact ⟨rfl, h.1, h.2.1, by simp [ho]⟩
  | cons o outer ih =>
    obtain ⟨heq, hu⟩ := ih rfl h
    obtain ⟨hb, hr⟩ := closeBracket_uncut ho hu
    exact ⟨heq.trans (by rw [hb]; rfl), hr⟩

theorem closeAll_allWhole (ho : r.opened = opened) (hs : r.InStep)
    (h : (closeAll limit stop opened r).AllWhole) :
    r.AllWhole ∧ (r.Uncut → (closeAll limit stop opened r).Uncut) := by
  induction opened generalizing r with
  | nil => exact ⟨⟨h.1, by simp [ho]⟩, fun hu => ⟨hu.1, hu.2.1, by simp [closeAll]⟩⟩
  | cons o outer ih =>
    obtain ⟨hw, hu⟩ := ih rfl (inStep_closeBracket hs ho) h
    obtain ⟨hwhole, huncut⟩ := closeBracket_allWhole hs ho hw
    exact ⟨hwhole, fun h => hu (huncut h)⟩

theorem finish_uncut (h : (r.finish limit stop).2 = none) :
    r.finish limit stop = r.finish none stop ∧ r.Uncut := by
  obtain ⟨hc, hroot⟩ := Option.or_eq_none_iff.1 h
  obtain ⟨hf, hcurrent⟩ := Frame.finish_uncut hroot
  obtain ⟨heq, hr⟩ := closeAll_uncut rfl ⟨hc, hcurrent, by simp [opened_closeAll]⟩
  refine ⟨?_, hr⟩
  rw [heq] at hf
  simp only [finish, heq, hf]

theorem finish_isWhole (hs : r.InStep) (h : (r.finish limit stop).1.IsWhole) :
    r.AllWhole ∧ (r.Uncut → (r.finish limit stop).2 = none) := by
  obtain ⟨hw, hcut⟩ := Frame.isWhole_of_finish (inStep_closeAll rfl hs).1 h
  obtain ⟨hwhole, huncut⟩ := closeAll_allWhole rfl hs ⟨hw, by simp [opened_closeAll]⟩
  refine ⟨hwhole, fun hu => ?_⟩
  obtain ⟨hc, hcurrent, -⟩ := huncut hu
  exact Option.or_eq_none_iff.2 ⟨hc, hcut.trans hcurrent⟩

end End

/-! ## A whole source text -/

section Run

variable {stop : Nat} {rest : List Lexeme}

/-- What the end of a source text finds wrong: each open bracket, and the first term that was cut off. -/
def endFaults (limit : Option Nat) (r : Reading) (stop : Nat) : List ParseError :=
  r.opened.map (fun o => ⟨.incompleteBraces, o.start⟩) ++ ((r.finish limit stop).2.map (⟨.tooDeep, ·⟩)).toList

theorem run_nil : run limit stop r [] = ((r.finish limit stop).1, r.endFaults limit stop) := rfl

theorem run_fault (e : ParseError) :
    run limit stop r (.fault e :: rest) = ((run limit stop r rest).1, e :: (run limit stop r rest).2) := rfl

theorem run_step {token : Token} {next : Reading} {faults : List ParseError}
    (h : Step limit r token next faults) :
    run limit stop r (.token token :: rest) =
      ((run limit stop next rest).1, faults ++ (run limit stop next rest).2) := by
  rw [run, feed_eq_ok_iff.2 h]

theorem run_error {token : Token} {e : ParseError} (h : r.feed limit token = .error e) :
    run limit stop r (.token token :: rest) = ((r.finish limit stop).1, [e]) := by
  rw [run, h]

/-- A closing bracket that does not pair with the innermost open one. -/
theorem feed_mismatch {token : Token} {bracket : Bracket}
    (hs : Symbol.ofText? token.text = some (.closing bracket))
    (ho : ∀ innermost outer, r.opened = innermost :: outer → innermost.bracket ≠ bracket) :
    r.feed limit token = .error ⟨.mismatchedBraces, token.location.start⟩ := by
  unfold feed
  rw [hs]
  cases hopened : r.opened with
  | nil => rfl
  | cons innermost outer => simp [ho innermost outer hopened]

/-- A token is read, or it is a closing bracket that does not pair with the innermost open one. -/
theorem step_or_mismatch (limit : Option Nat) (r : Reading) (token : Token) :
    (∃ next faults, Step limit r token next faults) ∨
      ∃ bracket, Symbol.ofText? token.text = some (.closing bracket) ∧
        ∀ innermost outer, r.opened = innermost :: outer → innermost.bracket ≠ bracket := by
  cases hs : Symbol.ofText? token.text with
  | none => exact .inl ⟨_, _, .term hs⟩
  | some symbol =>
    cases hb : symbol.isBracket with
    | false => exact .inl ⟨_, _, .operator hs hb⟩
    | true =>
      cases symbol with
      | opening bracket => exact .inl ⟨_, _, .opening hs⟩
      | closing bracket =>
        by_cases ho : ∃ innermost outer, r.opened = innermost :: outer ∧ innermost.bracket = bracket
        · obtain ⟨innermost, outer, ho, rfl⟩ := ho
          exact .inl ⟨_, _, .closing hs ho⟩
        · exact .inr ⟨bracket, rfl, fun innermost outer h hb => ho ⟨innermost, outer, h, hb⟩⟩
      | _ => cases hb

/-- A token is read, or it is a bracket that ends the reading, whatever the limit is. -/
theorem step_or_error (limit : Option Nat) (r : Reading) (token : Token) :
    (∃ next faults, Step limit r token next faults) ∨ ∃ e, ∀ l, r.feed l token = .error e := by
  rcases step_or_mismatch limit r token with hstep | ⟨bracket, hs, ho⟩
  · exact .inl hstep
  · exact .inr ⟨_, fun l => feed_mismatch hs ho⟩

theorem all_run {P : RawTree × Nat → Prop} (hP : Frame.Inherited limit P) {lexemes : List Lexeme} (h : r.All P) :
    ∃ height, P ((run limit stop r lexemes).1, height) := by
  induction lexemes generalizing r with
  | nil => exact all_finish hP h
  | cons lexeme rest ih =>
    cases lexeme with
    | fault e => exact ih h
    | token token =>
      rcases step_or_error limit r token with ⟨next, faults, hstep⟩ | ⟨e, he⟩
      · rw [run_step hstep]
        exact ih (hstep.all hP h)
      · rw [run_error (he limit)]
        exact all_finish hP h

/-- A reading that finds no fault is one without a limit. -/
theorem run_uncut {lexemes : List Lexeme} {tree : RawTree} (h : run limit stop r lexemes = (tree, [])) :
    run none stop r lexemes = (tree, []) ∧ r.Uncut := by
  induction lexemes generalizing r with
  | nil =>
    rw [run_nil] at h
    obtain ⟨htree, hfaults⟩ := Prod.mk.inj h
    obtain ⟨hopened, hcut⟩ := List.append_eq_nil_iff.1 hfaults
    have hnone : (r.finish limit stop).2 = none := by
      cases hc : (r.finish limit stop).2 <;> simp [hc] at hcut ⊢
    obtain ⟨heq, hu⟩ := finish_uncut hnone
    exact ⟨by rw [run_nil, ← h, endFaults, endFaults, heq], hu⟩
  | cons lexeme rest ih =>
    cases lexeme with
    | fault e => cases h
    | token token =>
      rcases step_or_error limit r token with ⟨next, faults, hstep⟩ | ⟨e, he⟩
      · rw [run_step hstep] at h
        obtain ⟨htree, hfaults⟩ := Prod.mk.inj h
        obtain ⟨rfl, hrest⟩ := List.append_eq_nil_iff.1 hfaults
        obtain ⟨hrun, hu⟩ := ih (Prod.ext htree hrest)
        obtain ⟨hstep, hr⟩ := hstep.uncut hu
        exact ⟨by rw [run_step hstep, hrun]; rfl, hr⟩
      -- A bracket that ends the reading is a fault.
      · rw [run_error (he limit)] at h
        cases h

/-- The tokens are read without a fault, and without a limit. -/
inductive Reads : Reading → List Token → Reading → Prop
  | nil (r : Reading) : Reads r [] r
  | cons {r between next : Reading} {token : Token} {tokens : List Token} (h : Step none r token between [])
    (hrest : Reads between tokens next) : Reads r (token :: tokens) next

theorem Reads.single {next : Reading} {token : Token} (h : Step none r token next []) : Reads r [token] next :=
  .cons h (.nil next)

theorem Reads.append {between next : Reading} {first second : List Token} (h1 : Reads r first between)
    (h2 : Reads between second next) : Reads r (first ++ second) next := by
  induction h1 with
  | nil => exact h2
  | cons h _ ih => exact .cons h (ih h2)

theorem Reads.run {next : Reading} {tokens : List Token} (h : Reads r tokens next) (stop : Nat) :
    run none stop r (tokens.map Lexeme.token) = run none stop next [] := by
  induction h with
  | nil => rfl
  | cons h _ ih =>
    rw [List.map_cons, run_step h, ih]
    rfl

/-- A reading without faults reads all its tokens, and ends with no open bracket. -/
theorem reads_of_run {lexemes : List Lexeme} {tree : RawTree} (h : run none stop r lexemes = (tree, [])) :
    ∃ tokens next, lexemes = tokens.map Lexeme.token ∧ Reads r tokens next ∧ next.opened = [] ∧
      tree = (next.current.finish none stop).tree := by
  induction lexemes generalizing r with
  | nil =>
    rw [run_nil] at h
    obtain ⟨rfl, hfaults⟩ := Prod.mk.inj h
    have ho : r.opened = [] := List.map_eq_nil_iff.1 (List.append_eq_nil_iff.1 hfaults).1
    exact ⟨[], r, rfl, .nil r, ho, by simp [Reading.finish, ho, closeAll]⟩
  | cons lexeme rest ih =>
    cases lexeme with
    | fault e => cases h
    | token token =>
      rcases step_or_error none r token with ⟨between, faults, hstep⟩ | ⟨e, he⟩
      · rw [run_step hstep] at h
        obtain ⟨htree, hfaults⟩ := Prod.mk.inj h
        obtain ⟨rfl, hrest⟩ := List.append_eq_nil_iff.1 hfaults
        obtain ⟨tokens, next, rfl, hreads, ho, rfl⟩ := ih (Prod.ext htree hrest)
        exact ⟨token :: tokens, next, rfl, .cons hstep hreads, ho, rfl⟩
      · rw [run_error (he none)] at h
        cases h

/-- A reading whose tree is whole is one without a limit. -/
theorem run_isWhole {lexemes : List Lexeme} (hs : r.InStep) (h : (run limit stop r lexemes).1.IsWhole) :
    r.AllWhole ∧ (r.Uncut → run limit stop r lexemes = run none stop r lexemes) := by
  induction lexemes generalizing r with
  | nil =>
    obtain ⟨hw, hcut⟩ := finish_isWhole hs h
    refine ⟨hw, fun hu => ?_⟩
    rw [run_nil, run_nil, endFaults, endFaults, (finish_uncut (hcut hu)).1]
  | cons lexeme rest ih =>
    cases lexeme with
    | fault e =>
      obtain ⟨hw, hrun⟩ := ih hs h
      exact ⟨hw, fun hu => by rw [run_fault, run_fault, hrun hu]⟩
    | token token =>
      rcases step_or_error limit r token with ⟨next, faults, hstep⟩ | ⟨e, he⟩
      · rw [run_step hstep] at h ⊢
        obtain ⟨hw, hrun⟩ := ih (hstep.inStep hs) h
        obtain ⟨hwhole, hcut⟩ := hstep.allWhole hs hw
        refine ⟨hwhole, fun hu => ?_⟩
        rw [run_step (hstep.uncut (hcut hu)).1, hrun (hcut hu)]
      · rw [run_error (he limit)] at h ⊢
        obtain ⟨hw, hcut⟩ := finish_isWhole hs h
        refine ⟨hw, fun hu => ?_⟩
        rw [run_error (he none), (finish_uncut (hcut hu)).1]

end Run

end Reading

/-- A source text in which no fault is found is read as without a limit. -/
theorem RawTree.ofSource_of_no_errors {limit : Option Nat} {source : String} {tree : RawTree}
    (h : RawTree.ofSource limit source = (tree, [])) : RawTree.ofSource none source = (tree, []) :=
  (Reading.run_uncut h).1

/-- A source text from which no term is cut off is read as without a limit. -/
theorem RawTree.ofSource_of_isWhole {limit : Option Nat} {source : String}
    (h : (RawTree.ofSource limit source).1.IsWhole) :
    RawTree.ofSource limit source = RawTree.ofSource none source :=
  (Reading.run_isWhole Reading.inStep_initial h).2 Reading.uncut_initial

end DynamicConfig

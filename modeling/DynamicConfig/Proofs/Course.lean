import DynamicConfig.Proofs.Outcomes
import DynamicConfig.Proofs.Tokens
/-!
# The course of a reading

The tokens of a source text take a reading from one state to the next (`Reading.Passes`), up to the end of the text or
to a closing bracket that does not pair with the innermost open one. Up to there only single tokens have been found
wrong (`Reading.ending_ofSource`).
-/

namespace DynamicConfig

/-! ## Faults of single tokens -/

/-- Whether the fault is that of a single token, or of a character that begins none. -/
def ParseError.IsLexical (e : ParseError) : Prop :=
  e.kind = .invalidCharacter ∨ e.kind = .incompleteString

theorem Pieces.isLexical {offset : Nat} {chars : List Char} {tokens : List Token} {faults : List ParseError}
    (h : Pieces offset chars tokens faults) : ∀ e ∈ faults, e.IsLexical := by
  induction h with
  | done => simp
  | blank _ _ ih | token _ _ _ ih => exact ih
  | invalid _ _ ih => exact List.forall_mem_cons.2 ⟨.inl rfl, ih⟩
  | unclosed => exact List.forall_mem_singleton.2 (.inr rfl)

theorem isLexical_of_mem_lexemes {source : String} {e : ParseError} (h : Lexeme.fault e ∈ lexemes source) :
    e.IsLexical :=
  (pieces_tokenize source).isLexical e (List.mem_filterMap.2 ⟨_, h, rfl⟩)

theorem RawTree.isLexical_ofToken (token : Token) : ∀ e ∈ (ofToken token).2, e.IsLexical := by
  unfold ofToken
  split
  · simp
  · exact List.forall_mem_singleton.2 (.inl rfl)

/-- Whether the fault is in how the tokens stand together: with the brackets, or where nesting is too deep. -/
def ParseError.isStructural (e : ParseError) : Bool :=
  e.kind = .mismatchedBraces || e.kind = .incompleteBraces || e.kind = .tooDeep

theorem ParseError.IsLexical.not_isStructural {e : ParseError} (h : e.IsLexical) : ¬ e.isStructural := by
  rcases h with h | h <;> simp [isStructural, h]

theorem ParseError.IsMissing.not_isStructural {e : ParseError} (h : e.IsMissing) : ¬ e.isStructural := by
  rcases h with h | h <;> simp [isStructural, h]

theorem filter_isStructural_append {between faults : List ParseError} (hb : ∀ e ∈ between, e.IsLexical)
    (hf : ∀ e ∈ faults, e.isStructural) : (between ++ faults).filter ParseError.isStructural = faults := by
  rw [List.filter_append, List.filter_eq_nil_iff.2 fun e he => (hb e he).not_isStructural, List.filter_eq_self.2 hf,
    List.nil_append]

/-- No fault of the structure is found after the raw tree. -/
theorem filter_isStructural_of_parse {source : String} {parsed : Parsed} (h : parse source = .ok parsed) :
    parsed.errors.filter ParseError.isStructural =
      (RawTree.ofSource (some Frame.maxHeight) source).2.filter ParseError.isStructural := by
  obtain ⟨more, herrors, hmore⟩ := exists_faults_of_parse h
  rw [herrors, List.filter_append, List.filter_eq_nil_iff.2 fun e he => (hmore e he).not_isStructural, List.append_nil]

namespace Reading

variable {limit : Option Nat} {stop : Nat} {r next : Reading} {token : Token} {tokens : List Token}

theorem Step.isLexical {faults : List ParseError} (h : Step limit r token next faults) : ∀ e ∈ faults, e.IsLexical := by
  cases h with
  | term _ => exact RawTree.isLexical_ofToken token
  | _ => simp

/-- What the end of a source text finds wrong is in its structure. -/
theorem isStructural_endFaults : ∀ e ∈ r.endFaults limit stop, e.isStructural := by
  refine List.forall_mem_append.2 ⟨List.forall_mem_map.2 fun _ _ => rfl, ?_⟩
  cases (r.finish limit stop).2 with
  | none => simp
  | some place => exact List.forall_mem_singleton.2 rfl

/-! ## From token to token -/

/-- The tokens take one reading to another one, whatever is found wrong with them. -/
inductive Passes (limit : Option Nat) : Reading → List Token → Reading → Prop
  | nil (r : Reading) : Passes limit r [] r
  | cons {r between next : Reading} {token : Token} {tokens : List Token} {faults : List ParseError}
    (h : Step limit r token between faults) (hrest : Passes limit between tokens next) :
    Passes limit r (token :: tokens) next

theorem Passes.inStep (h : Passes limit r tokens next) (hs : r.InStep) : next.InStep := by
  induction h with
  | nil => exact hs
  | cons hstep _ ih => exact ih (hstep.inStep hs)

theorem Passes.all {P : RawTree × Nat → Prop} (hP : Frame.Inherited limit P) (h : Passes limit r tokens next)
    (hr : r.All P) : next.All P := by
  induction h with
  | nil => exact hr
  | cons hstep _ ih => exact ih (hstep.all hP hr)

/-- How a reading ends: with all tokens read, or before a closing bracket that does not pair with the innermost open
one. -/
inductive Ending (limit : Option Nat) (stop : Nat) (r : Reading) (tokens : List Token) :
    RawTree × List ParseError → Prop
  | complete {last : Reading} {between : List ParseError} (hpasses : Passes limit r tokens last)
    (hbetween : ∀ e ∈ between, e.IsLexical) :
    Ending limit stop r tokens ((last.finish limit stop).1, between ++ last.endFaults limit stop)
  | stopped {first later : List Token} {token : Token} {last : Reading} {between : List ParseError} {bracket : Bracket}
    (htokens : tokens = first ++ token :: later) (hpasses : Passes limit r first last)
    (hbetween : ∀ e ∈ between, e.IsLexical) (hs : Symbol.ofText? token.text = some (.closing bracket))
    (ho : ∀ innermost outer, last.opened = innermost :: outer → innermost.bracket ≠ bracket) :
    Ending limit stop r tokens
      ((last.finish limit stop).1, between ++ [⟨.mismatchedBraces, token.location.start⟩])

theorem Ending.fault {tree : RawTree} {errors : List ParseError} (h : Ending limit stop r tokens (tree, errors))
    {faults : List ParseError} (hf : ∀ e ∈ faults, e.IsLexical) :
    Ending limit stop r tokens (tree, faults ++ errors) := by
  cases h with
  | complete hpasses hbetween =>
    rw [← List.append_assoc]
    exact .complete hpasses (List.forall_mem_append.2 ⟨hf, hbetween⟩)
  | stopped htokens hpasses hbetween hs ho =>
    rw [← List.append_assoc]
    exact .stopped htokens hpasses (List.forall_mem_append.2 ⟨hf, hbetween⟩) hs ho

theorem Ending.step {result : RawTree × List ParseError} {faults : List ParseError}
    (hstep : Step limit r token next faults) (h : Ending limit stop next tokens result) :
    Ending limit stop r (token :: tokens) result := by
  cases h with
  | complete hpasses hbetween => exact .complete (.cons hstep hpasses) hbetween
  | stopped htokens hpasses hbetween hs ho =>
    exact .stopped (congrArg (token :: ·) htokens) (.cons hstep hpasses) hbetween hs ho

theorem ending_run {lexemes : List Lexeme} (hlex : ∀ e, Lexeme.fault e ∈ lexemes → e.IsLexical) :
    Ending limit stop r (lexemes.filterMap Lexeme.token?) (run limit stop r lexemes) := by
  induction lexemes generalizing r with
  | nil => exact Ending.complete (.nil r) (List.forall_mem_nil ParseError.IsLexical)
  | cons lexeme rest ih =>
    have hrest {r : Reading} := ih (r := r) fun e he => hlex e (List.mem_cons_of_mem _ he)
    cases lexeme with
    | fault e => exact hrest.fault (List.forall_mem_singleton.2 (hlex e List.mem_cons_self))
    | token token =>
      rcases step_or_mismatch limit r token with ⟨next, faults, hstep⟩ | ⟨bracket, hs, ho⟩
      · rw [run_step hstep]
        exact (hrest.fault hstep.isLexical).step hstep
      · rw [run_error (feed_mismatch hs ho)]
        exact Ending.stopped (List.nil_append _).symm (.nil r) (List.forall_mem_nil ParseError.IsLexical) hs ho

/-- How the reading of a source text ends. -/
theorem ending_ofSource (limit : Option Nat) (source : String) :
    Ending limit source.utf8ByteSize {} (tokenize source).1 (RawTree.ofSource limit source) :=
  ending_run fun _ => isLexical_of_mem_lexemes

end Reading

end DynamicConfig

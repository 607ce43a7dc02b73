import DynamicConfig.Proofs.Course
import DynamicConfig.Proofs.Outcomes
/-!
# Faults of brackets

Which brackets of a source text are found wrong is decided by its tokens alone, read with a stack of open brackets
(`readBrackets`). The reading of raw trees keeps the same stack along with its frames (`Reading.Passes.readBrackets`),
whatever else is wrong with the text, so its faults of brackets are exactly those of the stack
(`bracket_faults_exact`).
-/

namespace DynamicConfig

/-! ## Brackets alone -/

/-- The open brackets after a token, the innermost first, each with its place. A closing bracket that does not pair with
the innermost open one has none after it, but a place itself. -/
def readBracket (opened : List (Bracket × Nat)) (token : Token) : Except Nat (List (Bracket × Nat)) :=
  match token.symbol?, opened with
  | some (.opening bracket), _ => .ok ((bracket, token.location.start) :: opened)
  | some (.closing bracket), (innermost, _) :: outer =>
    if innermost = bracket then .ok outer else .error token.location.start
  | some (.closing _), [] => .error token.location.start
  | _, _ => .ok opened

/-- The open brackets after all tokens, or the place of the first closing bracket that does not pair. -/
def readBrackets (tokens : List Token) : Except Nat (List (Bracket × Nat)) :=
  tokens.foldlM readBracket []

/-- Whether a token is a bracket. -/
def Token.isBracket (token : Token) : Bool :=
  token.symbol?.any Symbol.isBracket

/-- Every opening bracket has its closing one, and the other way round. -/
inductive Balanced : List Token → Prop
  | nil : Balanced []
  | other {token : Token} {rest : List Token} (hb : token.isBracket = false) (hrest : Balanced rest) :
    Balanced (token :: rest)
  | pair {first last : Token} {inner rest : List Token} {bracket : Bracket}
    (hf : first.symbol? = some (.opening bracket)) (hl : last.symbol? = some (.closing bracket))
    (hinner : Balanced inner) (hrest : Balanced rest) : Balanced (first :: inner ++ last :: rest)

section Balanced

variable {opened outer : List (Bracket × Nat)} {tokens first rest : List Token} {token : Token} {bracket : Bracket}

theorem readBracket_opening (hs : token.symbol? = some (.opening bracket)) :
    readBracket opened token = .ok ((bracket, token.location.start) :: opened) := by
  simp [readBracket, hs]

theorem readBracket_closing (hs : token.symbol? = some (.closing bracket)) (place : Nat) :
    readBracket ((bracket, place) :: outer) token = .ok outer := by
  simp [readBracket, hs]

theorem readBracket_other (hb : token.isBracket = false) : readBracket opened token = .ok opened := by
  unfold readBracket
  split <;> simp_all [Token.isBracket, Symbol.isBracket]

/-- A closing bracket that does not pair with the innermost open one. -/
theorem readBracket_mismatch (hs : token.symbol? = some (.closing bracket))
    (ho : ∀ innermost place outer, opened = (innermost, place) :: outer → innermost ≠ bracket) :
    readBracket opened token = .error token.location.start := by
  cases opened with
  | nil => simp [readBracket, hs]
  | cons innermost outer => simp [readBracket, hs, ho _ _ _ rfl]

theorem foldlM_readBracket_of_ok {next : List (Bracket × Nat)} (h : readBracket opened token = .ok next) :
    (token :: rest).foldlM readBracket opened = rest.foldlM readBracket next := by
  rw [List.foldlM_cons, h]
  rfl

theorem Balanced.foldlM (h : Balanced tokens) (opened : List (Bracket × Nat)) :
    tokens.foldlM readBracket opened = .ok opened := by
  induction h generalizing opened with
  | nil => rfl
  | other hb _ ih => rw [foldlM_readBracket_of_ok (readBracket_other hb), ih]
  | pair hf hl _ _ ihinner ihrest =>
    rw [List.cons_append, foldlM_readBracket_of_ok (readBracket_opening hf), List.foldlM_append, ihinner]
    show List.foldlM readBracket _ _ = _
    rw [foldlM_readBracket_of_ok (readBracket_closing hl _), ihrest]

theorem Balanced.append (h1 : Balanced first) (h2 : Balanced rest) : Balanced (first ++ rest) := by
  induction h1 with
  | nil => exact h2
  | other hb _ ih => exact .other hb ih
  | pair hf hl hinner _ _ ih =>
    rw [List.append_assoc, List.cons_append, List.cons_append]
    exact .pair hf hl hinner ih

/-- The tokens close the open brackets, one after the other, and are balanced in between. -/
def ClosesBrackets : List (Bracket × Nat) → List Token → Prop
  | [], tokens => Balanced tokens
  | (bracket, _) :: outer, tokens => ∃ inner last rest, tokens = inner ++ last :: rest ∧ Balanced inner ∧
      last.symbol? = some (.closing bracket) ∧ ClosesBrackets outer rest

theorem ClosesBrackets.prepend (hfirst : Balanced first) (h : ClosesBrackets opened tokens) :
    ClosesBrackets opened (first ++ tokens) := by
  cases opened with
  | nil => exact hfirst.append h
  | cons innermost outer =>
    obtain ⟨inner, last, rest, rfl, hinner, hl, hrest⟩ := h
    exact ⟨first ++ inner, last, rest, (List.append_assoc _ _ _).symm, hfirst.append hinner, hl, hrest⟩

/-- What leaves no bracket open closes all that were open before. The induction is on the tokens: an opening bracket is
one more to close, and what closes it is the end of a balanced pair. -/
theorem closesBrackets_of_foldlM (h : tokens.foldlM readBracket opened = .ok []) : ClosesBrackets opened tokens := by
  induction tokens generalizing opened with
  | nil =>
    cases h
    exact .nil
  | cons token rest ih =>
    cases hb : token.isBracket with
    | false =>
      rw [foldlM_readBracket_of_ok (readBracket_other hb)] at h
      exact .prepend (.other hb .nil) (ih h)
    | true =>
      obtain ⟨symbol, hs, hb⟩ := (Option.any_eq_true _ _).1 hb
      cases symbol with
      | opening bracket =>
        rw [foldlM_readBracket_of_ok (readBracket_opening hs)] at h
        obtain ⟨inner, last, later, rfl, hinner, hl, hlater⟩ := ih h
        have hpair : Balanced (token :: inner ++ [last]) := .pair hs hl hinner .nil
        simpa using hlater.prepend hpair
      | closing bracket =>
        by_cases ho : ∃ place outer, opened = (bracket, place) :: outer
        · obtain ⟨place, outer, rfl⟩ := ho
          rw [foldlM_readBracket_of_ok (readBracket_closing hs place)] at h
          exact ⟨[], token, rest, rfl, .nil, hs, ih h⟩
        · have hne : ∀ innermost place outer, opened = (innermost, place) :: outer → innermost ≠ bracket := by
            rintro _ place outer rfl rfl
            exact ho ⟨place, outer, rfl⟩
          rw [List.foldlM_cons, readBracket_mismatch hs hne] at h
          cases h
      | _ => cases hb

/-- The brackets are balanced exactly if all pair and none is left open. -/
theorem readBrackets_eq_nil_iff : readBrackets tokens = .ok [] ↔ Balanced tokens :=
  ⟨closesBrackets_of_foldlM, fun h => h.foldlM []⟩

end Balanced

/-! ## The stack of a reading -/

namespace Reading

variable {limit : Option Nat} {r next : Reading} {token : Token} {tokens : List Token} {faults : List ParseError}

/-- The open brackets and their places. -/
def brackets (r : Reading) : List (Bracket × Nat) :=
  r.opened.map fun o => (o.bracket, o.start)

theorem Step.readBracket (h : Step limit r token next faults) : readBracket r.brackets token = .ok next.brackets := by
  cases h with
  | opening hs => exact readBracket_opening hs
  | closing hs ho =>
    rw [brackets, ho]
    exact readBracket_closing hs _
  | operator hs hb => exact readBracket_other (by simp [Token.isBracket, Token.symbol?, hs, hb])
  | term hs => exact readBracket_other (by simp [Token.isBracket, Token.symbol?, hs])

theorem Passes.readBrackets (h : Passes limit r tokens next) :
    tokens.foldlM DynamicConfig.readBracket r.brackets = .ok next.brackets := by
  induction h with
  | nil => rfl
  | cons hstep _ ih => rw [foldlM_readBracket_of_ok hstep.readBracket, ih]

/-- A closing bracket that the reading does not pair is not paired by the stack. -/
theorem readBracket_mismatch {bracket : Bracket} (hs : Symbol.ofText? token.text = some (.closing bracket))
    (ho : ∀ innermost outer, r.opened = innermost :: outer → innermost.bracket ≠ bracket) :
    DynamicConfig.readBracket r.brackets token = .error token.location.start := by
  refine DynamicConfig.readBracket_mismatch hs fun innermost place outer hb => ?_
  obtain ⟨o, rest, hopened, hinnermost, -⟩ := List.map_eq_cons_iff.1 hb
  exact (Prod.mk.inj hinnermost).1 ▸ ho o rest hopened

end Reading

/-! ## Faults -/

/-- What is found wrong with the structure of a source text, whether all brackets pair or not. -/
theorem structural_faults_cases {source : String} {parsed : Parsed} (h : parse source = .ok parsed) :
    (∃ place, readBrackets (tokenize source).1 = .error place ∧
        parsed.errors.filter ParseError.isStructural = [⟨.mismatchedBraces, place⟩]) ∨
      ∃ (opened : List (Bracket × Nat)) (cutAt : Option Nat), readBrackets (tokenize source).1 = .ok opened ∧
        parsed.errors.filter ParseError.isStructural =
          opened.map (⟨.incompleteBraces, ·.2⟩) ++ (cutAt.map (⟨.tooDeep, ·⟩)).toList := by
  rw [filter_isStructural_of_parse h]
  have hending := Reading.ending_ofSource (some Frame.maxHeight) source
  generalize RawTree.ofSource (some Frame.maxHeight) source = result at hending
  cases hending with
  | @complete last between hpasses hbetween =>
    refine .inr ⟨last.brackets, (last.finish (some Frame.maxHeight) source.utf8ByteSize).2, hpasses.readBrackets, ?_⟩
    rw [filter_isStructural_append hbetween Reading.isStructural_endFaults, Reading.endFaults, Reading.brackets,
      List.map_map]
    rfl
  | @stopped first later token last between bracket htokens hpasses hbetween hs ho =>
    refine .inl ⟨token.location.start, ?_, filter_isStructural_append hbetween (List.forall_mem_singleton.2 rfl)⟩
    -- The brackets of the tokens before it pair, so this token is where the stack stops as well.
    have hfirst : first.foldlM readBracket [] = .ok last.brackets := hpasses.readBrackets
    rw [readBrackets, htokens, List.foldlM_append, hfirst]
    show List.foldlM readBracket _ _ = _
    rw [List.foldlM_cons, Reading.readBracket_mismatch hs ho]
    rfl

/-- No bracket is found wrong exactly if they are balanced. -/
theorem no_bracket_faults_iff {source : String} {parsed : Parsed} (h : parse source = .ok parsed) :
    (∀ e ∈ parsed.errors, e.kind ≠ .mismatchedBraces ∧ e.kind ≠ .incompleteBraces) ↔
      Balanced (tokenize source).1 := by
  have hfound {e : ParseError} (he : e ∈ parsed.errors.filter ParseError.isStructural) : e ∈ parsed.errors :=
    (List.mem_filter.1 he).1
  rw [← readBrackets_eq_nil_iff]
  rcases structural_faults_cases h with ⟨place, hread, hfaults⟩ | ⟨opened, cutAt, hread, hfaults⟩
  · rw [hread]
    refine iff_of_false (fun hnone => ?_) (by simp)
    exact (hnone ⟨.mismatchedBraces, place⟩ (hfound (hfaults ▸ List.mem_singleton_self _))).1 rfl
  · rw [hread, Except.ok.injEq]
    constructor
    · intro hnone
      refine List.eq_nil_iff_forall_not_mem.2 fun o ho => ?_
      refine (hnone ⟨.incompleteBraces, o.2⟩ (hfound ?_)).2 rfl
      rw [hfaults]
      exact List.mem_append_left _ (List.mem_map_of_mem ho)
    · rintro rfl e he
      by_contra hbracket
      have hmem : e ∈ parsed.errors.filter ParseError.isStructural := by
        refine List.mem_filter.2 ⟨he, ?_⟩
        rw [ParseError.isStructural]
        grind
      rw [hfaults, List.map_nil, List.nil_append] at hmem
      cases cutAt with
      | none => cases hmem
      | some place => simp_all

/-- A source text has the faults of brackets that its tokens alone show: one at the first closing bracket that does not
pair, and then none of the structure besides; or else one at each bracket that is left open, the innermost first. -/
theorem bracket_faults_exact {source : String} {parsed : Parsed} (h : parse source = .ok parsed) :
    (∀ place, readBrackets (tokenize source).1 = .error place →
        parsed.errors.filter ParseError.isStructural = [⟨.mismatchedBraces, place⟩]) ∧
      (∀ opened, readBrackets (tokenize source).1 = .ok opened → ∃ cutAt : Option Nat,
        parsed.errors.filter ParseError.isStructural =
          opened.map (⟨.incompleteBraces, ·.2⟩) ++ (cutAt.map (⟨.tooDeep, ·⟩)).toList) ∧
      ((∀ e ∈ parsed.errors, e.kind ≠ .mismatchedBraces ∧ e.kind ≠ .incompleteBraces) ↔
        Balanced (tokenize source).1) := by
  refine ⟨fun place hplace => ?_, fun opened hopened => ?_, no_bracket_faults_iff h⟩
  · rcases structural_faults_cases h with ⟨first, hread, hfaults⟩ | ⟨opened, cutAt, hread, -⟩
    · obtain rfl := Except.error.inj (hread.symm.trans hplace)
      exact hfaults
    · cases hread.symm.trans hplace
  · rcases structural_faults_cases h with ⟨first, hread, -⟩ | ⟨left, cutAt, hread, hfaults⟩
    · cases hread.symm.trans hopened
    · obtain rfl := Except.ok.inj (hread.symm.trans hopened)
      exact ⟨cutAt, hfaults⟩

/-- A call with a bracket too many, one whose bracket is left open, and one whose brackets are balanced. -/
theorem calls_have_exact_bracket_faults :
    (∃ parsed, parse "f(a))" = .ok parsed ∧ parsed.errors.filter ParseError.isStructural = [⟨.mismatchedBraces, 4⟩] ∧
      ¬ Balanced (tokenize "f(a))").1) ∧
    (∃ parsed, parse "f(a" = .ok parsed ∧ (∃ cutAt : Option Nat, parsed.errors.filter ParseError.isStructural =
        ⟨.incompleteBraces, 1⟩ :: (cutAt.map (⟨.tooDeep, ·⟩)).toList) ∧
      ¬ Balanced (tokenize "f(a").1) ∧
    ∃ parsed, parse "f(a)" = .ok parsed ∧
      (∀ e ∈ parsed.errors, e.kind ≠ .mismatchedBraces ∧ e.kind ≠ .incompleteBraces) ∧ Balanced (tokenize "f(a)").1 := by
  refine ⟨?_, ?_, ?_⟩
  · obtain ⟨parsed, hparse⟩ : ∃ parsed, parse "f(a))" = .ok parsed := ⟨_, rfl⟩
    have hread : readBrackets (tokenize "f(a))").1 = .error 4 := by decide +kernel
    refine ⟨parsed, hparse, (bracket_faults_exact hparse).1 4 hread, fun h => ?_⟩
    cases hread.symm.trans (readBrackets_eq_nil_iff.2 h)
  · obtain ⟨parsed, hparse⟩ : ∃ parsed, parse "f(a" = .ok parsed := ⟨_, rfl⟩
    have hread : readBrackets (tokenize "f(a").1 = .ok [(.round, 1)] := by decide +kernel
    refine ⟨parsed, hparse, (bracket_faults_exact hparse).2.1 _ hread, fun h => ?_⟩
    cases hread.symm.trans (readBrackets_eq_nil_iff.2 h)
  · obtain ⟨parsed, hparse⟩ : ∃ parsed, parse "f(a)" = .ok parsed := ⟨_, rfl⟩
    have hbalanced : Balanced (tokenize "f(a)").1 := readBrackets_eq_nil_iff.1 (by decide +kernel)
    exact ⟨parsed, hparse, (bracket_faults_exact hparse).2.2.2 hbalanced, hbalanced⟩

end DynamicConfig

import DynamicConfig.Proofs.Heights
import DynamicConfig.Proofs.Rendering
/-!
# Source texts of expressions are parsed again

The source text of an expression that comes from a source text without faults is parsed as the same expression
up to locations (`sourceText_parses_again`), if all nodes are legible and the text is not nested too deep to be
read. It may be: the brackets around operands make it deeper than the text that the expression comes from
(`long_negation_too_deep_again`).
-/

namespace DynamicConfig

namespace Expr

variable {e : Expr}

/-! ## Locations are not written -/

@[simp]
theorem op?_unlocated (e : Expr) : e.unlocated.op? = e.op? := by
  cases e with
  | list items =>
    cases items with
    | nil => rfl
    | cons first rest => cases first <;> rfl
  | _ => rfl

theorem operandText_unlocated (parent : Op) (e : Expr) (text : String) :
    operandText parent e.unlocated text = operandText parent e text := by
  rw [operandText, op?_unlocated, operandText]

theorem asStringLiteral?_node {op : Op} (hop : op ≠ .string) (location : Location) (children : List Expr) :
    (node op location children).asStringLiteral? = none := by
  unfold asStringLiteral? node
  split
  · rename_i heq
    cases heq
    exact (hop rfl).elim
  · rfl

theorem Canonical.keyText_unlocated (h : e.Canonical .term) (text : String) : keyText e.unlocated text = keyText e text := by
  have hkey : e.unlocated.asStringLiteral? = e.asStringLiteral? := by
    cases h with
    | operator hn _ =>
      rw [unlocated_node, asStringLiteral?_node (by rintro rfl; cases hn), asStringLiteral?_node (by rintro rfl; cases hn)]
    | _ => rfl
  rw [keyText, hkey, keyText]

theorem sourceTexts_unlocated {es : List Expr} (h : ∀ e ∈ es, e.unlocated.sourceText = e.sourceText) :
    sourceTexts (es.map unlocated) = sourceTexts es := by
  rw [sourceTexts_eq_map, sourceTexts_eq_map, List.map_map]
  exact List.map_congr_left h

/-- The source text of a canonical expression does not depend on its locations. -/
theorem Canonical.sourceText_unlocated {role : Role} (h : e.Canonical role) : e.unlocated.sourceText = e.sourceText := by
  induction h with
  | string | number | bool | name => rfl
  | @operator op location operands hn ho ih =>
    rw [unlocated_node]
    match operands, hn with
    | [a], hn =>
      obtain ⟨symbol, -, hs⟩ := exists_lead hn
      rw [List.map_singleton, sourceText_lead hs, sourceText_lead hs, operandText_unlocated, ih a (by simp)]
    | [a, b], hn =>
      have ha := ih a (by simp)
      have hb := ih b (by simp)
      rcases exists_infix hn with rfl | ⟨-, symbol, hs⟩
      · show operandText .field a.unlocated a.unlocated.sourceText ++ "." ++ keyText b.unlocated b.unlocated.sourceText = _
        rw [operandText_unlocated, (ho b (by simp)).keyText_unlocated, ha, hb]
        rfl
      · show (node op (.empty 0) [a.unlocated, b.unlocated]).sourceText = _
        rw [sourceText_binary hs, sourceText_binary hs, operandText_unlocated, operandText_unlocated, ha, hb]
    | [], hn | _ :: _ :: _ :: _, hn => cases op <;> cases hn
  | @call location callee args _ _ ihc iha =>
    rw [unlocated_node]
    show operandText .call callee.unlocated callee.unlocated.sourceText ++ "(" ++
      ", ".intercalate (sourceTexts (args.map unlocated)) ++ ")" = _
    rw [operandText_unlocated, ihc, sourceTexts_unlocated iha]
    rfl
  | @closure location items _ _ ih =>
    rw [unlocated_node]
    show "\x7b" ++ ", ".intercalate (sourceTexts (items.map unlocated)) ++ "\x7d" = _
    rw [sourceTexts_unlocated ih]
    rfl
  | item _ ih => exact ih
  | @assign location nameLocation name value _ ih =>
    show name ++ " = " ++ value.unlocated.sourceText = _
    rw [ih]
    rfl

end Expr

/-! ## Parsing again -/

section Scans

variable {source : String} {mayFollow : Char → Prop} {priority height : Nat} {e : Expr}
  (h : Scans source mayFollow (Operand priority e height))
include h

/-- A source text of one operand is read as it. -/
theorem Scans.exists_ofSource :
    ∃ tree found, RawTree.ofSource none source = (tree, []) ∧ tree.Means .term [found] ∧
      found.unlocated = e.unlocated ∧ tree.height = height := by
  obtain ⟨tokens, hlex, hoperand⟩ := h.lexemes
  obtain ⟨next, t, hreads, ho, ht, hadds⟩ := hoperand {} rfl (by simp)
  obtain ⟨found, hmeans, heq, hheight⟩ := ht.exists_sole
  refine ⟨t, found, ?_, hmeans, heq, hheight⟩
  rw [RawTree.ofSource_of_reads hlex hreads ho, hadds.finish]

/-- A source text of one operand is parsed as it, up to locations, if it does not nest too deep. -/
theorem Scans.exists_parse (hheight : height ≤ Frame.maxHeight) :
    ∃ found, parse source = .ok ⟨found, []⟩ ∧ found.unlocated = e.unlocated := by
  obtain ⟨tree, found, hsource, hmeans, heq, htree⟩ := h.exists_ofSource
  have hwhole : (RawTree.ofSource (some Frame.maxHeight) source).1.IsWhole := by
    rw [RawTree.ofSource_of_height_le (by rwa [hsource, htree]), hsource]
    exact (RawTree.spelled_of_ofSource hsource).2.isWhole
  exact ⟨found, parse_eq_of_means hwhole hsource hmeans, heq⟩

end Scans

namespace Expr.Canonical

variable {e : Expr} (h : e.Canonical .term) (hlegible : ∀ sub ∈ e.walk, sub.Legible ∧ sub.Named)
include h hlegible

/-- A canonical expression with legible nodes is read from its source text, as a tree as high as the text. -/
theorem ofSource_sourceText :
    ∃ tree found, RawTree.ofSource none e.sourceText = (tree, []) ∧ tree.Means .term [found] ∧
      found.unlocated = e.unlocated ∧ tree.height = e.textHeight := by
  obtain ⟨op, -, hw⟩ := h.written hlegible
  exact hw.operand.exists_ofSource

/-- The source text of a canonical expression is parsed as the expression, up to locations, if it does not nest too
deep. -/
theorem parse_sourceText (hheight : e.textHeight ≤ Frame.maxHeight) :
    ∃ found, parse e.sourceText = .ok ⟨found, []⟩ ∧ found.unlocated = e.unlocated := by
  obtain ⟨op, -, hw⟩ := h.written hlegible
  exact hw.operand.exists_parse hheight

/-- A source text that nests too deep has faults. -/
theorem textHeight_le_of_parse {parsed : Parsed} (hparse : parse e.sourceText = .ok parsed) (hclean : parsed.errors = []) :
    e.textHeight ≤ Frame.maxHeight := by
  obtain ⟨tree, -, hsource, -, -, hheight⟩ := h.ofSource_sourceText hlegible
  obtain ⟨limited, hlimited, -⟩ := limited_of_parse_eq_ok hparse hclean
  obtain rfl : tree = limited :=
    congrArg Prod.fst (hsource.symm.trans (RawTree.ofSource_of_no_errors hlimited))
  have hle := RawTree.height_ofSource_le (n := Frame.maxHeight) (by decide) e.sourceText
  rw [hlimited] at hle
  exact hheight ▸ hle

end Expr.Canonical

/-- What holds of the expression of a source text without faults, as far as it can be computed. -/
theorem exists_parsed (source : String) (p : Parsed → Prop) [DecidablePred p]
    (h : (match parse source with | .ok parsed => decide (parsed.errors = [] ∧ p parsed) | .error _ => false) = true) :
    ∃ parsed, parse source = .ok parsed ∧ parsed.errors = [] ∧ p parsed := by
  split at h
  · rename_i parsed hparse
    exact ⟨parsed, hparse, of_decide_eq_true h⟩
  · cases h

/-- An expression that may be evaluated is that of a source text without faults. -/
theorem exists_parsed_of_parseClean {source : String} {e : Expr} (h : parseClean source = .ok e) :
    ∃ parsed, parse source = .ok parsed ∧ parsed.errors = [] := by
  unfold parseClean at h
  split at h
  · cases h
  · rename_i parsed hparse
    refine ⟨parsed, hparse, ?_⟩
    by_contra hne
    have hok : parsed.isOk = false := by simpa [Parsed.isOk] using hne
    rw [Parsed.result, hok] at h
    cases h

section Again

variable {source : String} {parsed : Parsed} (h : parse source = .ok parsed) (hok : parsed.errors = [])
include h hok

/-- All names of a source text without faults are names. -/
theorem allNamed_of_parse : parsed.expr.AllNamed := by
  obtain ⟨tree, hsource, hmeans⟩ := parse_eq_ok h hok
  obtain ⟨hlex, hspell⟩ := RawTree.spelled_of_ofSource hsource
  exact List.forall_mem_singleton.1
    (hmeans.allNamed hspell (laidOut_lexemes hlex).isProper (by simp [RawTree.Place.target]))

/-- The nodes of a source text without faults are read back if they are legible. -/
theorem readable_of_parse (hlegible : ∀ e ∈ parsed.expr.walk, e.Legible) :
    ∀ e ∈ parsed.expr.walk, e.Legible ∧ e.Named :=
  fun e he => ⟨hlegible e he, allNamed_of_parse h hok e he⟩

/-- A source text that is nested too deep is not parsed again without faults. -/
theorem textHeight_le_of_parses_again (hlegible : ∀ e ∈ parsed.expr.walk, e.Legible) {again : Parsed}
    (hagain : parse parsed.expr.sourceText = .ok again) (hclean : again.errors = []) :
    parsed.expr.textHeight ≤ Frame.maxHeight :=
  (canonical_of_parse h hok).textHeight_le_of_parse (readable_of_parse h hok hlegible) hagain hclean

/-- What a source text without faults is parsed as is parsed again from its own source text, up to locations. -/
theorem sourceText_parses_again (hlegible : ∀ e ∈ parsed.expr.walk, e.Legible)
    (hheight : parsed.expr.textHeight ≤ Frame.maxHeight) :
    ∃ again, parse parsed.expr.sourceText = .ok again ∧ again.errors = [] ∧
      again.expr.unlocated = parsed.expr.unlocated ∧ again.expr.sourceText = parsed.expr.sourceText := by
  have hcanonical := canonical_of_parse h hok
  obtain ⟨found, hparse, heq⟩ := hcanonical.parse_sourceText (readable_of_parse h hok hlegible) hheight
  refine ⟨⟨found, []⟩, hparse, rfl, heq, ?_⟩
  have hfound : found.Canonical .term := canonical_of_parse hparse rfl
  rw [← hfound.sourceText_unlocated, ← hcanonical.sourceText_unlocated]
  exact congrArg Expr.sourceText heq

end Again

theorem call_of_field_parses_again :
    ∃ parsed, parse "-f(a = 1.5).b" = .ok parsed ∧ parsed.errors = [] ∧
      ((∀ e ∈ parsed.expr.walk, e.Legible) ∧ parsed.expr.textHeight ≤ Frame.maxHeight) ∧
      ∃ again, parse parsed.expr.sourceText = .ok again ∧ again.errors = [] ∧
        again.expr.unlocated = parsed.expr.unlocated ∧ again.expr.sourceText = parsed.expr.sourceText := by
  obtain ⟨parsed, hparse, hok, hlegible, hheight⟩ :=
    exists_parsed "-f(a = 1.5).b"
      (fun parsed => (∀ e ∈ parsed.expr.walk, e.Legible) ∧ parsed.expr.textHeight ≤ Frame.maxHeight)
      (by decide +kernel)
  exact ⟨parsed, hparse, hok, ⟨hlegible, hheight⟩, sourceText_parses_again hparse hok hlegible hheight⟩

/-- Each operator of 129 that stand in front of a name is an operand in brackets of the one before. -/
theorem long_negation_too_deep_again :
    ∃ parsed, parse ("".pushn '!' 129 ++ "a") = .ok parsed ∧ parsed.errors = [] ∧
      ¬ ∃ again, parse parsed.expr.sourceText = .ok again ∧ again.errors = [] := by
  obtain ⟨parsed, hparse, hok, hlegible, hheight⟩ :=
    exists_parsed ("".pushn '!' 129 ++ "a")
      (fun parsed => (∀ e ∈ parsed.expr.walk, e.Legible) ∧ Frame.maxHeight < parsed.expr.textHeight)
      (by decide +kernel)
  refine ⟨parsed, hparse, hok, ?_⟩
  rintro ⟨again, hagain, hclean⟩
  have hle := textHeight_le_of_parses_again hparse hok hlegible hagain hclean
  omega

end DynamicConfig

import DynamicConfig.Proofs.Names
import DynamicConfig.Proofs.Nesting
import DynamicConfig.Proofs.Phrases
import DynamicConfig.Proofs.Scanning
/-!
# The source text of an expression

The source text of a canonical expression is read as the expression again (`Expr.Canonical.written`), if each
node is legible: its number is read back, a key that stands bare is a name, and neither a dot nor a leading sign
is taken for a part of what it stands at (`Expr.Legible`). Names have to be names (`Expr.Named`), as all of a
source text are. The tree that is read is as high as the text is (`Expr.textHeight`).
-/

namespace DynamicConfig

/-- A number that is read back from the way it is spelled. -/
def Decimal.ReadsBack (x : Float) : Prop :=
  (Literal.read? (spell x).toList).map Literal.value = some x

instance (x : Float) : Decidable (Decimal.ReadsBack x) :=
  inferInstanceAs (Decidable ((Decimal.Literal.read? (Decimal.spell x).toList).map Decimal.Literal.value = some x))

namespace Expr

/-- Whether a dot after the text of the node would be the point of a number. -/
def endsWhole : Expr → Bool
  | list [.tag ⟨.number, _⟩, .number x] => !(Decimal.spell x).toList.contains '.'
  | _ => false

/-- What the source text of a node takes to be read back, besides those of its children. -/
def Legible : Expr → Prop
  | list [.tag ⟨.number, _⟩, .number x] => Decimal.ReadsBack x
  | list [.tag ⟨.add, _⟩, operand] | list [.tag ⟨.sub, _⟩, operand] =>
    operand.op? ≠ some .mul ∧ operand.op? ≠ some .div
  | list [.tag ⟨.field, _⟩, left, key] =>
    left.endsWhole = false ∧ ∀ name, key.asStringLiteral? = some name → Text.isName name = true
  | _ => True

instance : DecidablePred Legible := by
  intro e
  unfold Legible
  split <;> infer_instance

end Expr

open Scanner (Admits)

/-! ## What may follow -/

/-- The characters that may come after an expression, other than a dot. -/
def Closes (c : Char) : Prop :=
  c ∈ [' ', '(', ')', ',', '\x7d']

/-- The characters that may come after the node: a dot, too, unless it would be the point of a number. -/
def Expr.MayPrecede (e : Expr) (c : Char) : Prop :=
  Closes c ∨ c = '.' ∧ e.endsWhole = false

theorem Closes.ends {c : Char} (h : Closes c) :
    Admits c ∧ c ≠ '=' ∧ Scanner.endsName c = true ∧ c.isDigit = false ∧ c ≠ '.' := by
  simp only [Closes, List.mem_cons, List.not_mem_nil, or_false] at h
  rcases h with rfl | rfl | rfl | rfl | rfl <;> exact ⟨fun _ => rfl, by decide, by decide, by decide, by decide⟩

theorem Expr.MayPrecede.ends {e : Expr} {c : Char} (h : e.MayPrecede c) :
    Admits c ∧ c ≠ '=' ∧ Scanner.endsName c = true ∧ c.isDigit = false := by
  rcases h with h | ⟨rfl, -⟩
  · exact ⟨h.ends.1, h.ends.2.1, h.ends.2.2.1, h.ends.2.2.2.1⟩
  · exact ⟨fun _ => rfl, by decide, by decide, by decide⟩

/-! ## Brackets -/

/-- A text between brackets. -/
theorem Scans.brackets {text : String} {P : List Token → Prop} (h : Scans text Closes P) (hopens : Opens text)
    (b : Bracket) :
    Scans ((Symbol.opening b).text ++ text ++ (Symbol.closing b).text) (fun c => Admits c ∧ c ≠ '=')
      (fun tokens => ∃ first inside last, tokens = first :: (inside ++ [last]) ∧
        first.symbol? = some (.opening b) ∧ last.symbol? = some (.closing b) ∧ P inside) := by
  obtain ⟨c, rest, htext, hc⟩ := hopens
  have hclose : ∃ d more, (Symbol.closing b).text.toList = d :: more ∧ Closes d := by
    cases b
    · exact ⟨')', [], rfl, by simp [Closes]⟩
    · exact ⟨'\x7d', [], rfl, by simp [Closes]⟩
  have hfirst : Scans ((Symbol.opening b).text ++ text) Closes
      (fun tokens => ∃ first inside, tokens = first :: inside ∧ first.symbol? = some (.opening b) ∧ P inside) := by
    refine (Scans.symbol (.opening b)).append h ⟨c, rest, htext, hc⟩ fun xs ys hx hy => ?_
    obtain ⟨first, rfl, hf⟩ := hx.symbol
    exact ⟨first, ys, rfl, hf, hy⟩
  refine hfirst.append (Scans.symbol (.closing b)) hclose fun xs ys hx hy => ?_
  obtain ⟨first, inside, rfl, hf, hP⟩ := hx
  obtain ⟨last, rfl, hl⟩ := hy.symbol
  exact ⟨first, inside, last, rfl, hf, hl, hP⟩

theorem opens_brackets (b : Bracket) (text : String) : Opens ((Symbol.opening b).text ++ text) := by
  refine (Symbol.opens ?_).append text
  cases b <;> decide

namespace Expr

/-! ## Written expressions -/

variable {e : Expr}

/-- The source text of an expression is read as the expression, where an operator has it as an operand
without brackets. An operand binds tighter than the operator; only a dot and arguments may come right after
what binds as tightly as they do. -/
structure Written (op : Op) (e : Expr) : Prop where
  op?_eq : e.op? = some op
  opens : Opens e.sourceText
  operand : Scans e.sourceText Closes (Operand (op.precedence - 1) e e.textHeight)
  led : Op.not.precedence ≤ op.precedence → Scans e.sourceText Closes (Operand Symbol.not.priority e e.textHeight)
  stem : op.precedence = Op.field.precedence → Scans e.sourceText e.MayPrecede (Stem e e.levels)

/-- The source text of an item is read as the item. -/
structure WrittenItem (e : Expr) : Prop where
  opens : Opens e.sourceText
  item : Scans e.sourceText Closes (Item e e.textHeight)

theorem written_of_stem {op : Op} (hop : e.op? = some op) (hopens : Opens e.sourceText)
    (h : Scans e.sourceText e.MayPrecede (Stem e e.levels)) : Written op e := by
  have hoperand {n : Nat} (hn : n < Symbol.dot.priority) : Scans e.sourceText Closes (Operand n e e.textHeight) :=
    h.imp (fun _ hc => .inl hc) fun _ ht => ht.operand hn
  refine ⟨hop, hopens, hoperand ?_, fun _ => hoperand (by decide), fun _ => h⟩
  cases op <;> decide

theorem Written.item {op : Op} (h : Written op e) (hlt : Symbol.assign.priority < op.precedence) : e.WrittenItem :=
  ⟨h.opens, h.operand.imp (fun _ hc => hc) fun _ ht => (ht.of_le (by omega)).item⟩

/-! ## Leaves -/

theorem written_leafExpr {l : Leaf} {location : Location} {op : Op} (hop : (Meaning.leafExpr location l).op? = some op)
    (hopens : Opens (Meaning.leafExpr location l).sourceText)
    (h : Scans (Meaning.leafExpr location l).sourceText (Meaning.leafExpr location l).MayPrecede
      fun tokens => ∃ token, tokens = [token] ∧ token.leaf? = some l) : Written op (Meaning.leafExpr location l) := by
  have hlevels : (Meaning.leafExpr location l).levels = ⟨1, none⟩ := by cases l <;> rfl
  refine written_of_stem hop hopens (h.imp (fun _ hc => hc) ?_)
  rintro tokens ⟨token, rfl, hl⟩
  rw [hlevels]
  exact (term_leafExpr hl location).stem

theorem written_stringLeaf (location : Location) (text : String) : Written .string (stringLeaf location text) :=
  written_leafExpr (l := .string text) rfl (opens_encode text) ((Scans.string text).imp (fun _ _ => trivial) fun _ ht => ht.string)

theorem written_boolLeaf (location : Location) (b : Bool) : Written .bool (boolLeaf location b) := by
  have hword : Text.isWord (if b then "true" else "false") = true := by cases b <;> decide
  exact written_leafExpr (l := .bool b) rfl (opens_word hword)
    ((Scans.word hword).imp (fun c hc => ⟨hc.ends.1, hc.ends.2.2.1⟩) fun _ ht => ht.bool)

theorem written_nameLeaf (location : Location) {name : String} (hn : Text.isName name = true) :
    Written .name (nameLeaf location name) :=
  written_leafExpr (l := .name name) rfl (opens_word (Text.isWord_of_isName hn))
    ((Scans.name hn).imp (fun _ hc => ⟨hc.ends.1, hc.ends.2.2.1⟩) fun _ ht => ht)

theorem written_numberLeaf (location : Location) {x : Float} (hx : Decimal.ReadsBack x) :
    Written .number (numberLeaf location x) := by
  have hnumeral : Decimal.IsNumeral (Decimal.spell x).toList := by
    refine Decimal.isNumeral_spell ?_
    rw [← Option.isSome_map, show _ = some x from hx]
    rfl
  have hfollow (c : Char) (hc : (numberLeaf location x).MayPrecede c) :
      Admits c ∧ c.isDigit = false ∧ (c = '.' → '.' ∈ (Decimal.spell x).toList) := by
    refine ⟨hc.ends.1, hc.ends.2.2.2, fun hdot => ?_⟩
    rcases hc with hc | ⟨-, hc⟩
    · exact absurd hdot hc.ends.2.2.2.2
    · simpa [endsWhole, numberLeaf, node] using hc
  exact written_leafExpr (l := .number x) rfl (opens_numeral hnumeral)
    ((Scans.numeral hnumeral).imp hfollow fun _ ht => ht.number hx hnumeral)

/-! ## Operands -/

section Operands

variable {parent op : Op} {symbol : Symbol}

/-- An operand in brackets. -/
theorem Written.brackets (h : Written op e) :
    Scans ("(" ++ e.sourceText ++ ")") (fun c => Admits c ∧ c ≠ '=')
      (Term (RawTree.Tells .term [e] (e.textHeight + 1))) := by
  refine (Scans.brackets h.operand h.opens .round).imp (fun _ hc => hc) ?_
  rintro tokens ⟨first, inside, last, rfl, hf, hl, hinside⟩
  exact hinside.brackets hf hl

theorem opens_operandText (h : Written op e) (parent : Op) : Opens (operandText parent e e.sourceText) := by
  unfold operandText
  split
  · split
    · exact (opens_brackets .round e.sourceText).append ")"
    · exact h.opens
  · exact h.opens

/-- The operand of an operator, from what it is without brackets where it needs none. -/
theorem Written.asOperand {mayFollow : Char → Prop} {P : Levels → List Token → Prop} (h : Written op e)
    (hfollow : ∀ c, mayFollow c → Admits c ∧ c ≠ '=')
    (hterm : ∀ tokens, Term (RawTree.Tells .term [e] (e.textHeight + 1)) tokens → P ⟨e.textHeight + 1, none⟩ tokens)
    (hbare : needsBrackets op parent = false → Scans e.sourceText mayFollow (P e.levels)) :
    Scans (operandText parent e e.sourceText) mayFollow (P (operandLevels parent e e.levels)) := by
  unfold Expr.operandText Expr.operandLevels
  rw [h.op?_eq]
  dsimp only
  split
  · exact h.brackets.imp hfollow hterm
  · rename_i hnone
    exact hbare (by simpa using hnone)

/-- What needs no brackets binds tighter, or as tightly as a dot or arguments do. -/
theorem precedence_of_needsBrackets (h : needsBrackets op parent = false) :
    parent.precedence < op.precedence ∨
      parent.precedence = Op.field.precedence ∧ op.precedence = Op.field.precedence := by
  have htop (op : Op) : op.precedence ≤ Op.field.precedence := by cases op <;> decide
  cases hleaf : op.isLeaf with
  | true =>
    have hop : op.precedence = Op.field.precedence := by cases op <;> first | rfl | cases hleaf
    have := htop parent
    omega
  | false =>
    have := htop parent
    have := htop op
    simp only [needsBrackets, hleaf, Bool.not_false, Bool.true_and, Bool.or_eq_false_iff, decide_eq_false_iff_not,
      Bool.and_eq_false_iff, beq_eq_false_iff_ne] at h
    omega

theorem precedence_of_infixOp? (h : Meaning.infixOp? symbol = some op) :
    symbol.priority = op.precedence ∧ symbol.text = op.text := by
  cases symbol <;> cases h <;> exact ⟨rfl, rfl⟩

theorem precedence_lt_of_infixOp? (h : Meaning.infixOp? symbol = some op) (hne : op ≠ .not) :
    Symbol.assign.priority < op.precedence ∧ op.precedence < Op.not.precedence := by
  cases symbol <;> cases h <;> first | exact ⟨by decide, by decide⟩ | exact (hne rfl).elim

theorem Written.binaryOperand (h : Written op e) (hs : Meaning.infixOp? symbol = some parent)
    (hne : parent ≠ .not) :
    Scans (operandText parent e e.sourceText) Closes
      (Operand symbol.priority e (operandLevels parent e e.levels).total) := by
  obtain ⟨hpriority, -⟩ := precedence_of_infixOp? hs
  obtain ⟨-, hlt⟩ := precedence_lt_of_infixOp? hs hne
  have hdot : symbol.priority < Symbol.dot.priority := by
    rw [hpriority]
    exact Nat.lt_trans hlt (by decide)
  refine h.asOperand (P := fun levels => Operand symbol.priority e levels.total)
    (fun c hc => ⟨hc.ends.1, hc.ends.2.1⟩) (fun _ ht => ht.stem.operand hdot) fun hnone => ?_
  have htighter : parent.precedence < op.precedence := by
    rcases precedence_of_needsBrackets hnone with hlt | ⟨hparent, -⟩
    · exact hlt
    · rw [hpriority, hparent] at hdot
      exact absurd hdot (by decide)
  exact h.operand.imp (fun _ hc => hc) fun _ ht => ht.of_le (by omega)

theorem Written.leadOperand (h : Written op e) (hm : symbol.mayLead = true)
    (hs : Meaning.infixOp? symbol = some parent) (hproduct : parent ≠ .not → op ≠ .mul ∧ op ≠ .div) :
    Scans (operandText parent e e.sourceText) Closes
      (Operand Symbol.not.priority e (operandLevels parent e e.levels).total) := by
  refine h.asOperand (P := fun levels => Operand Symbol.not.priority e levels.total)
    (fun c hc => ⟨hc.ends.1, hc.ends.2.1⟩) (fun _ ht => ht.stem.operand (by decide)) fun hnone => h.led ?_
  -- Only products bind tighter than a sum and less tightly than a leading sign.
  rcases precedence_of_needsBrackets hnone with hlt | ⟨-, heq⟩
  · cases symbol <;> cases hm <;> cases hs <;> cases op <;> first | decide | simp_all [Op.precedence]
  · rw [heq]
    decide

theorem Written.stemOperand (h : Written op e) (hparent : parent.precedence = Op.field.precedence) :
    Scans (operandText parent e e.sourceText) e.MayPrecede (Stem e (operandLevels parent e e.levels)) := by
  refine h.asOperand (fun c hc => ⟨hc.ends.1, hc.ends.2.1⟩) (fun _ ht => ht.stem) fun hnone => h.stem ?_
  rcases precedence_of_needsBrackets hnone with hlt | ⟨-, heq⟩
  · rw [hparent] at hlt
    cases op <;> exact absurd hlt (by decide)
  · exact heq

end Operands

/-! ## Operators -/

/-- An operator between blanks. -/
theorem scans_spaced {first second : String} {P Q : List Token → Prop} (h1 : Scans first Closes P)
    (h2 : Scans second Closes Q) (hopens : Opens second) (symbol : Symbol) :
    Scans (first ++ " " ++ symbol.text ++ " " ++ second) Closes fun tokens =>
      ∃ xs token ys, tokens = xs ++ token :: ys ∧ P xs ∧ token.symbol? = some symbol ∧ Q ys := by
  obtain ⟨c, more, hsecond, -⟩ := hopens
  obtain ⟨d, rest, hsymbol, -⟩ := symbol.exists_chars
  have hleft : Scans (first ++ " ") (fun _ => True) P := h1.blankAfter (by simp [Closes])
  have hoperator := hleft.symbolAfter symbol ⟨d, rest, hsymbol, trivial⟩
  refine (hoperator.blankAfter ⟨fun _ => rfl, by decide⟩).append h2 ⟨c, more, hsecond, trivial⟩ ?_
  rintro _ ys ⟨xs, token, rfl, hx, ht⟩ hy
  exact ⟨xs, token, ys, by simp, hx, ht, hy⟩

variable {op opa opb : Op} {location : Location} {a b : Expr}

theorem sourceText_binary {symbol : Symbol} (hs : Meaning.infixOp? symbol = some op) (location : Location) :
    (node op location [a, b]).sourceText =
      operandText op a a.sourceText ++ " " ++ symbol.text ++ " " ++ operandText op b b.sourceText := by
  cases symbol <;> cases hs <;> rfl

theorem sourceText_lead {symbol : Symbol} (hs : Meaning.infixOp? symbol = some op) (location : Location) :
    (node op location [a]).sourceText = symbol.text ++ operandText op a a.sourceText := by
  cases symbol <;> cases hs <;> rfl

theorem levels_binary {symbol : Symbol} (hs : Meaning.infixOp? symbol = some op) (location : Location) :
    (node op location [a, b]).levels =
      ⟨max (operandLevels op a a.levels).total (operandLevels op b b.levels).total + 1, none⟩ := by
  cases symbol <;> cases hs <;> rfl

theorem levels_lead {symbol : Symbol} (hs : Meaning.infixOp? symbol = some op) (location : Location) :
    (node op location [a]).levels = ⟨max 1 (operandLevels op a a.levels).total + 1, none⟩ := by
  cases symbol <;> cases hs <;> rfl

theorem written_binary {symbol : Symbol} (hs : Meaning.infixOp? symbol = some op) (hne : op ≠ .not) (ha : Written opa a)
    (hb : Written opb b) : Written op (node op location [a, b]) := by
  obtain ⟨hpriority, -⟩ := precedence_of_infixOp? hs
  obtain ⟨hleast, hlt⟩ := precedence_lt_of_infixOp? hs hne
  have hscans := scans_spaced (ha.binaryOperand hs hne) (hb.binaryOperand hs hne)
    (opens_operandText hb op) symbol
  rw [← sourceText_binary hs location] at hscans
  refine ⟨rfl, ?_, ?_, fun hle => ?_, fun heq => ?_⟩
  · rw [sourceText_binary hs]
    exact ((((opens_operandText ha op).append _).append _).append _).append _
  · refine hscans.imp (fun _ hc => hc) ?_
    rintro tokens ⟨xs, token, ys, rfl, hx, ht, hy⟩
    rw [textHeight, levels_binary hs location]
    exact hx.binary hs hne hy ht (by omega) location
  · omega
  · rw [heq] at hlt
    exact absurd hlt (by decide)

theorem written_lead {symbol : Symbol} (hm : symbol.mayLead = true) (hs : Meaning.infixOp? symbol = some op)
    (ha : Written opa a) (hproduct : op ≠ .not → opa ≠ .mul ∧ opa ≠ .div) : Written op (node op location [a]) := by
  have hle : op.precedence ≤ Op.not.precedence := by cases symbol <;> cases hm <;> cases hs <;> decide
  obtain ⟨c, rest, htext, hadmits, hne⟩ := opens_operandText ha op
  have hscans : Scans (node op location [a]).sourceText Closes
      (Operand Symbol.not.priority (node op location [a]) (node op location [a]).textHeight) := by
    rw [sourceText_lead hs, textHeight, levels_lead hs]
    refine (Scans.symbol symbol).append (ha.leadOperand hm hs hproduct) ⟨c, rest, htext, hadmits, hne⟩ ?_
    intro xs ys hx hy
    obtain ⟨token, rfl, ht⟩ := hx.symbol
    exact hy.lead hs hm ht location
  refine ⟨rfl, ?_, ?_, fun _ => hscans, fun heq => ?_⟩
  · rw [sourceText_lead hs]
    refine (Symbol.opens ?_).append _
    cases symbol <;> cases hm <;> decide
  · refine hscans.imp (fun _ hc => hc) fun _ ht => ht.of_le ?_
    exact Nat.le_trans (Nat.sub_le _ _) hle
  · rw [heq] at hle
    exact absurd hle (by decide)

/-! ## Fields -/

/-- A key after its dot: a name, or an expression between brackets. -/
theorem Written.key {key : Expr} (h : Written op key)
    (hname : ∀ name, key.asStringLiteral? = some name → Text.isName name = true) :
    Scans (keyText key key.sourceText) (fun c => Admits c ∧ c ≠ '=' ∧ Scanner.endsName c = true)
        (Term (IsKey key (keyHeight key key.levels))) ∧
      Opens (keyText key key.sourceText) := by
  unfold keyText keyHeight
  cases hkey : key.asStringLiteral? with
  | some name =>
    have hn := hname name hkey
    obtain ⟨location, rfl⟩ := asStringLiteral?_eq_some hkey
    refine ⟨(Scans.name hn).imp (fun c hc => ⟨hc.1, hc.2.2⟩) ?_, opens_word (Text.isWord_of_isName hn)⟩
    rintro tokens ⟨token, rfl, hl⟩
    exact term_keyName hl location
  | none =>
    refine ⟨(Scans.brackets h.operand h.opens .round).imp (fun c hc => ⟨hc.1, hc.2.1⟩) ?_,
      (opens_brackets .round key.sourceText).append ")"⟩
    rintro tokens ⟨first, inside, last, rfl, hf, hl, hinside⟩
    exact hinside.key hf hl

theorem written_field {left key : Expr} (hl : Written opa left) (hk : Written opb key)
    (hwhole : left.endsWhole = false)
    (hname : ∀ name, key.asStringLiteral? = some name → Text.isName name = true) :
    Written .field (node .field location [left, key]) := by
  have htext : (node .field location [left, key]).sourceText =
      operandText .field left left.sourceText ++ "." ++ keyText key key.sourceText := rfl
  obtain ⟨hscans, c, rest, hopens, hadmits, hne⟩ := hk.key hname
  have hleft : Scans (operandText .field left left.sourceText) left.MayPrecede
      (Stem left (operandLevels .field left left.levels)) := hl.stemOperand rfl
  have hdot := hleft.symbolAfter .dot ⟨'.', [], rfl, .inr ⟨rfl, hwhole⟩⟩
  refine written_of_stem rfl ?_ ?_
  · rw [htext]
    exact ((opens_operandText hl .field).append _).append _
  · rw [htext]
    refine (hdot.append hscans ⟨c, rest, hopens, hadmits, hne⟩ ?_).imp
      (fun c hc => ⟨hc.ends.1, hc.ends.2.1, hc.ends.2.2.1⟩) fun _ ht => ht
    rintro _ ys ⟨xs, token, rfl, hx, ht⟩ hy
    rw [List.append_assoc, List.singleton_append]
    exact hx.field ht hy location

/-! ## Items -/

theorem writtenItem_assign {value : Expr} {nameLocation : Location} {name : String} (hn : Text.isName name = true)
    (hv : value.WrittenItem) : (node .assign location [stringLeaf nameLocation name, value]).WrittenItem := by
  have htext : (node .assign location [stringLeaf nameLocation name, value]).sourceText =
      name ++ " " ++ Symbol.assign.text ++ " " ++ value.sourceText := by
    show name ++ " = " ++ value.sourceText = _
    simp only [String.append_assoc, show " = " = " " ++ (Symbol.assign.text ++ " ") from rfl]
  have hname : Scans name Closes fun tokens => ∃ token, tokens = [token] ∧ token.leaf? = some (.name name) :=
    (Scans.name hn).imp (fun _ hc => ⟨hc.ends.1, hc.ends.2.2.1⟩) fun _ ht => ht
  refine ⟨?_, ?_⟩
  · rw [htext]
    exact ((((opens_word (Text.isWord_of_isName hn)).append _).append _).append _).append _
  · rw [htext]
    refine (scans_spaced hname hv.item hv.opens .assign).imp (fun _ hc => hc) ?_
    rintro tokens ⟨_, token, ys, rfl, ⟨nameToken, rfl, hl⟩, ht, hy⟩
    exact Item.assign hl ht hy location nameLocation

/-- Items after others, with commas between them. -/
theorem scans_joined {text : String} {before : List Expr} {height : Nat}
    (h : Scans text Closes (Items before height)) {rest : List Expr} (hrest : ∀ e ∈ rest, e.WrittenItem) :
    Scans (", ".intercalate (text :: rest.map sourceText)) Closes
      (Items (before ++ rest) (Levels.joined (height :: rest.map textHeight))) := by
  induction rest generalizing text before height with
  | nil => simpa [String.intercalate_singleton, Levels.joined] using h
  | cons e rest ih =>
    obtain ⟨hopens, hitem⟩ := hrest e List.mem_cons_self
    obtain ⟨c, more, htext, hadmits, hne⟩ := hopens
    have hcomma := (h.symbolAfter .comma ⟨',', [], rfl, by simp [Closes]⟩).blankAfter ⟨fun _ => rfl, by decide⟩
    rw [String.append_assoc] at hcomma
    have hnext : Scans (text ++ ", " ++ e.sourceText) Closes (Items (before ++ [e]) (max height e.textHeight + 1)) := by
      refine hcomma.append hitem ⟨c, more, htext, trivial⟩ ?_
      rintro _ ys ⟨xs, token, rfl, hx, ht⟩ hy
      rw [List.append_assoc, List.singleton_append]
      exact hx.comma ht hy
    have hjoined := ih hnext fun e he => hrest e (List.mem_cons_of_mem _ he)
    rwa [List.append_assoc] at hjoined

theorem scans_items {es : List Expr} (hne : es ≠ []) (h : ∀ e ∈ es, e.WrittenItem) :
    Scans (", ".intercalate (sourceTexts es)) Closes (Items es (Levels.joined (es.map textHeight))) ∧
      Opens (", ".intercalate (sourceTexts es)) := by
  obtain ⟨e, rest, rfl⟩ := List.exists_cons_of_ne_nil hne
  obtain ⟨he, hrest⟩ := List.forall_mem_cons.1 h
  rw [sourceTexts_eq_map, List.map_cons]
  refine ⟨scans_joined (he.item.imp (fun _ hc => hc) fun _ ht => ht.items) hrest, ?_⟩
  cases rest with
  | nil => simpa [String.intercalate_singleton] using he.opens
  | cons next rest =>
    rw [List.map_cons, String.intercalate_cons_cons, String.append_assoc]
    exact he.opens.append _

theorem written_closure {items : List Expr} (hne : items ≠ []) (h : ∀ e ∈ items, e.WrittenItem) :
    Written .closure (node .closure location items) := by
  obtain ⟨hscans, hopens⟩ := scans_items hne h
  have htext : (node .closure location items).sourceText =
      (Symbol.opening .curly).text ++ ", ".intercalate (sourceTexts items) ++ (Symbol.closing .curly).text := rfl
  have hlevels : (node .closure location items).levels = ⟨Levels.joined (items.map textHeight) + 1, none⟩ := by
    rw [← map_total_levelsOf]
    rfl
  refine written_of_stem rfl ?_ ?_
  · rw [htext]
    exact (opens_brackets .curly _).append _
  · rw [htext, hlevels]
    refine (Scans.brackets hscans hopens .curly).imp (fun c hc => ⟨hc.ends.1, hc.ends.2.1⟩) ?_
    rintro tokens ⟨first, inside, last, rfl, hf, hl, hinside⟩
    exact (hinside.closure hf hl location).stem

/-- The arguments of a call. -/
theorem scans_arguments {args : List Expr} (h : ∀ e ∈ args, e.WrittenItem) :
    Scans ("(" ++ ", ".intercalate (sourceTexts args) ++ ")") (fun c => Admits c ∧ c ≠ '=')
      (Arguments args (Levels.joined (args.map textHeight) + 1)) := by
  by_cases hne : args = []
  · subst hne
    refine (Scans.symbol (.opening .round)).append (.symbol (.closing .round)) ⟨')', [], rfl, fun _ => rfl, by decide⟩ ?_
    intro xs ys hx hy
    obtain ⟨first, rfl, hf⟩ := hx.symbol
    obtain ⟨last, rfl, hl⟩ := hy.symbol
    exact arguments_nil hf hl
  · obtain ⟨hscans, hopens⟩ := scans_items hne h
    refine (Scans.brackets hscans hopens .round).imp (fun _ hc => hc) ?_
    rintro tokens ⟨first, inside, last, rfl, hf, hl, hinside⟩
    exact hinside.arguments hf hl

theorem written_call {callee : Expr} {args : List Expr} (hc : Written op callee) (ha : ∀ e ∈ args, e.WrittenItem) :
    Written .call (node .call location (callee :: args)) := by
  have htext : (node .call location (callee :: args)).sourceText =
      operandText .call callee callee.sourceText ++ ("(" ++ ", ".intercalate (sourceTexts args) ++ ")") := by
    show operandText .call callee callee.sourceText ++ "(" ++ ", ".intercalate (sourceTexts args) ++ ")" = _
    simp only [String.append_assoc]
  have hopen : ("(" ++ ", ".intercalate (sourceTexts args) ++ ")").toList =
      '(' :: ((", ".intercalate (sourceTexts args)).toList ++ [')']) := by simp
  have hlevels : (node .call location (callee :: args)).levels =
      (operandLevels .call callee callee.levels).applied (Levels.joined (args.map textHeight) + 1) := by
    rw [← map_total_levelsOf]
    rfl
  refine written_of_stem rfl ?_ ?_
  · rw [htext]
    exact (opens_operandText hc .call).append _
  · rw [htext, hlevels]
    refine ((hc.stemOperand rfl).append (scans_arguments ha) ⟨'(', _, hopen, .inl (by simp [Closes])⟩ ?_).imp
      (fun c hc => ⟨hc.ends.1, hc.ends.2.1⟩) fun _ ht => ht
    exact fun xs ys hx hy => hx.call hy location

/-! ## All expressions -/

/-- What the source text of an expression is read as in its role. -/
def Role.Written : Role → Expr → Prop
  | .term, e => ∃ op, op ≠ .assign ∧ Expr.Written op e
  | .item, e => e.WrittenItem

theorem exists_lead (h : op.takes 1 = true) : ∃ symbol, symbol.mayLead = true ∧ Meaning.infixOp? symbol = some op := by
  cases op <;> first | exact ⟨.plus, rfl, rfl⟩ | exact ⟨.minus, rfl, rfl⟩ | exact ⟨.not, rfl, rfl⟩ | cases h

theorem exists_infix (h : op.takes 2 = true) :
    op = .field ∨ op ≠ .not ∧ ∃ symbol, Meaning.infixOp? symbol = some op := by
  by_cases hfield : op = .field
  · exact .inl hfield
  · refine .inr ⟨(by rintro rfl; cases h), ?_⟩
    obtain ⟨symbol, -, hs⟩ : ∃ symbol ∈ Symbol.all, Meaning.infixOp? symbol = some op := by
      cases op <;> first | cases h; done | exact (hfield rfl).elim | decide
    exact ⟨symbol, hs⟩

/-- The operands of an operator. -/
theorem written_operator {operands : List Expr} (hn : op.takes operands.length = true)
    (hlegible : (node op location operands).Legible) (ho : ∀ e ∈ operands, Role.Written .term e) :
    Role.Written .term (node op location operands) := by
  have hassign : op ≠ .assign := by rintro rfl; cases hn
  refine ⟨op, hassign, ?_⟩
  match operands, hn with
  | [a], hn =>
    obtain ⟨opa, -, ha⟩ := ho a (by simp)
    obtain ⟨symbol, hm, hs⟩ := exists_lead hn
    refine written_lead hm hs ha fun hne => ?_
    have hproduct : a.op? ≠ some .mul ∧ a.op? ≠ some .div := by
      cases op <;> first | exact hlegible | exact (hne rfl).elim | cases hn
    simpa [ha.op?_eq] using hproduct
  | [a, b], hn =>
    obtain ⟨opa, -, ha⟩ := ho a (by simp)
    obtain ⟨opb, -, hb⟩ := ho b (by simp)
    rcases exists_infix hn with rfl | ⟨hne, symbol, hs⟩
    · exact written_field ha hb hlegible.1 hlegible.2
    · exact written_binary hs hne ha hb
  | [], hn | _ :: _ :: _ :: _, hn => cases op <;> cases hn

/-- The source text of a canonical expression is read as the expression. -/
theorem Canonical.written {role : Role} (h : e.Canonical role)
    (hlegible : ∀ sub ∈ e.walk, sub.Legible ∧ sub.Named) : role.Written e := by
  induction h with
  | string location text => exact ⟨_, by simp, written_stringLeaf location text⟩
  | number location x => exact ⟨_, by simp, written_numberLeaf location (forall_walk_node_iff.1 hlegible).1.1⟩
  | bool location b => exact ⟨_, by simp, written_boolLeaf location b⟩
  | name location name => exact ⟨_, by simp, written_nameLeaf location (forall_walk_node_iff.1 hlegible).1.2⟩
  | operator hn _ ih =>
    obtain ⟨⟨hnode, -⟩, hoperands⟩ := forall_walk_node_iff.1 hlegible
    exact written_operator hn hnode fun e he => ih e he (hoperands e he)
  | call _ _ ihc iha =>
    obtain ⟨-, hchildren⟩ := forall_walk_node_iff.1 hlegible
    obtain ⟨hcallee, hargs⟩ := List.forall_mem_cons.1 hchildren
    obtain ⟨op, -, hc⟩ := ihc hcallee
    exact ⟨_, by simp, written_call hc fun e he => iha e he (hargs e he)⟩
  | closure hne _ ih =>
    obtain ⟨-, hitems⟩ := forall_walk_node_iff.1 hlegible
    exact ⟨_, by simp, written_closure hne fun e he => ih e he (hitems e he)⟩
  | item _ ih =>
    obtain ⟨op, hassign, hw⟩ := ih hlegible
    refine hw.item ?_
    cases op <;> first | decide | exact (hassign rfl).elim
  | assign _ ih =>
    obtain ⟨⟨-, hname⟩, hchildren⟩ := forall_walk_node_iff.1 hlegible
    exact writtenItem_assign (hname _ rfl) (ih (hchildren _ (by simp)))

end Expr

end DynamicConfig

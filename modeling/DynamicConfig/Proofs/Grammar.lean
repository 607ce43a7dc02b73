import DynamicConfig.Proofs.Canonical
import DynamicConfig.Proofs.Tokens
/-!
# The grammar

The grammar of the language over its terminals (`Derives`), and why what is read is in it: the tokens of
a tree that means something are derived (`RawTree.Means.derives`). How tightly operators bind plays no
part in that.
-/

namespace DynamicConfig

/-! ## Terminals -/

/-- What the grammar sees of a token. -/
inductive Terminal
  | symbol (symbol : Symbol)
  | string
  | number
  | bool
  | name
deriving Repr, DecidableEq

/-- A string begins with a quote, a number with a digit. `true` and `false` in any case are truth
values, and everything else is a name. -/
def Token.terminal (token : Token) : Terminal :=
  match token.symbol? with
  | some symbol => .symbol symbol
  | none =>
    match token.text.toList with
    | '"' :: _ => .string
    | c :: _ =>
      if c.isDigit then .number
      else if Text.equalIgnoringCase token.text "true" || Text.equalIgnoringCase token.text "false" then .bool
      else .name
    | [] => .name

/-- The terminal of a leaf. -/
def Leaf.terminal : Leaf → Terminal
  | string _ => .string
  | number _ => .number
  | bool _ => .bool
  | name _ => .name

theorem Token.terminal_of_symbol? {token : Token} {symbol : Symbol} (h : token.symbol? = some symbol) :
    token.terminal = .symbol symbol := by
  simp only [terminal, h]

theorem Token.terminal_of_leaf? {token : Token} {l : Leaf} (h : token.leaf? = some l) :
    token.terminal = l.terminal := by
  obtain ⟨hs, hl⟩ := leaf?_eq_some_iff.1 h
  simp only [terminal, hs]
  split
  · rename_i rest htext
    rw [Leaf.ofText?_quote htext] at hl
    cases hl
    rfl
  · rename_i c rest hq htext
    split
    · rename_i hd
      rw [Leaf.ofText?_digit htext hd, Option.map_eq_some_iff] at hl
      obtain ⟨n, -, rfl⟩ := hl
      rfl
    · rename_i hd
      rw [Leaf.ofText?_letter htext (by simpa using hd) hq] at hl
      split at hl
      · cases hl; simp_all [Leaf.terminal]
      · split at hl <;> cases hl <;> simp_all [Leaf.terminal]
  · rename_i htext
    simp only [Leaf.ofText?, htext] at hl
    cases hl
    rfl

/-- A proper token is a symbol, or the leaf of its terminal. -/
theorem Token.IsProper.cases {token : Token} (h : token.IsProper) :
    (∃ symbol, token.symbol? = some symbol ∧ token.terminal = .symbol symbol) ∨
      ∃ l, token.leaf? = some l ∧ token.terminal = l.terminal := by
  cases hs : token.symbol? with
  | some symbol => exact .inl ⟨symbol, rfl, terminal_of_symbol? hs⟩
  | none =>
    rcases h with h | h
    · simp [hs] at h
    · obtain ⟨l, hl, -⟩ := h
      have hleaf := leaf?_eq_some_iff.2 ⟨hs, hl⟩
      exact .inr ⟨l, hleaf, terminal_of_leaf? hleaf⟩

/-! ## Derivations -/

/-- What the grammar has rules for. -/
inductive Category
  | expr
  | operand
  /-- A primary with arguments after it, any number of times. -/
  | application
  | primary
  | args
  | arg

open Category Terminal in
/-- The rules of the grammar:

    expr        ::= operand | expr INFIX operand
    operand     ::= application | (+ | - | !) operand
    application ::= primary | application ( ) | application ( args )
    primary     ::= STRING | NUMBER | BOOL | NAME | ( expr ) | { args }
    args        ::= arg | args , arg
    arg         ::= expr | NAME = arg -/
inductive Derives : Category → List Terminal → Prop
  | operand {w : List Terminal} (h : Derives operand w) : Derives expr w
  | binary {a b : List Terminal} {s : Symbol} (hs : s.isInfix = true) (ha : Derives expr a) (hb : Derives operand b) :
    Derives expr (a ++ symbol s :: b)
  | application {w : List Terminal} (h : Derives application w) : Derives operand w
  | lead {w : List Terminal} {s : Symbol} (hs : s.mayLead = true) (h : Derives operand w) :
    Derives operand (symbol s :: w)
  | primary {w : List Terminal} (h : Derives primary w) : Derives application w
  | callEmpty {w : List Terminal} (h : Derives application w) :
    Derives application (w ++ [symbol (.opening .round), symbol (.closing .round)])
  | call {w a : List Terminal} (h : Derives application w) (ha : Derives args a) :
    Derives application (w ++ symbol (.opening .round) :: (a ++ [symbol (.closing .round)]))
  | string : Derives primary [string]
  | number : Derives primary [number]
  | bool : Derives primary [bool]
  | name : Derives primary [name]
  | round {w : List Terminal} (h : Derives expr w) :
    Derives primary (symbol (.opening .round) :: (w ++ [symbol (.closing .round)]))
  | curly {w : List Terminal} (h : Derives args w) :
    Derives primary (symbol (.opening .curly) :: (w ++ [symbol (.closing .curly)]))
  | arg {w : List Terminal} (h : Derives arg w) : Derives args w
  | comma {a b : List Terminal} (ha : Derives args a) (hb : Derives arg b) :
    Derives args (a ++ symbol .comma :: b)
  | value {w : List Terminal} (h : Derives expr w) : Derives arg w
  | assign {w : List Terminal} (h : Derives arg w) : Derives arg (name :: symbol .assign :: w)

namespace Derives

variable {a b w : List Terminal} {s : Symbol}

theorem expr_of_primary (h : Derives .primary w) : Derives .expr w :=
  .operand (.application (.primary h))

theorem leaf (l : Leaf) : Derives .primary [l.terminal] := by
  cases l
  · exact .string
  · exact .number
  · exact .bool
  · exact .name

/-- What may follow an application may follow an expression, whose last operand it is a part of. -/
theorem expr_append {tail : List Terminal}
    (happly : ∀ w, Derives .application w → Derives .application (w ++ tail)) (h : Derives .expr w) :
    Derives .expr (w ++ tail) := by
  have hoperand {w : List Terminal} (h : Derives .operand w) : Derives .operand (w ++ tail) := by
    generalize hc : Category.operand = c at h
    induction h with
    | application h => exact .application (happly _ h)
    | lead hs _ ih => exact .lead hs (ih hc)
    | _ => cases hc
  cases h with
  | operand h => exact .operand (hoperand h)
  | binary hs ha hb =>
    rw [List.append_assoc, List.cons_append]
    exact .binary hs ha (hoperand hb)

/-- A leading operator before an expression leads its first operand. -/
theorem lead_expr (hs : s.mayLead = true) (h : Derives .expr w) : Derives .expr (.symbol s :: w) := by
  generalize hc : Category.expr = c at h
  induction h with
  | operand h => exact .operand (.lead hs h)
  | binary hi _ hb iha => exact .binary hi (iha hc) hb
  | _ => cases hc

/-- An operator between expressions stands between the last operand of one and the first of the other. -/
theorem binary_expr (hs : s.isInfix = true) (ha : Derives .expr a) (hb : Derives .expr b) :
    Derives .expr (a ++ .symbol s :: b) := by
  generalize hc : Category.expr = c at hb
  induction hb with
  | operand h => exact .binary hs ha h
  | binary hi _ hb iha =>
    have h := Derives.binary hi (iha hc) hb
    rwa [List.append_assoc, List.cons_append] at h
  | _ => cases hc

end Derives

/-! ## What is read is derived -/

namespace RawTree

/-- What the tokens of a tree are in a place. -/
def Place.Derives : Place → List Terminal → Prop
  | .term, w | .key _ _, w => DynamicConfig.Derives .expr w
  | .item, w => DynamicConfig.Derives .arg w
  | .items, w => DynamicConfig.Derives .args w
  | .args, w => ∃ inner, w = .symbol (.opening .round) :: (inner ++ [.symbol (.closing .round)]) ∧
      (inner = [] ∨ DynamicConfig.Derives .args inner)

open DynamicConfig (Derives)

theorem derives_apply {c a : List Terminal} (hc : Derives .expr c) (ha : Place.args.Derives a) :
    Derives .expr (c ++ a) := by
  obtain ⟨inner, rfl, rfl | hinner⟩ := ha
  · exact hc.expr_append fun _ h => .callEmpty h
  · exact hc.expr_append fun _ h => .call h hinner

/-- The tokens of a tree that means something are derived. -/
theorem Means.derives {t : RawTree} {place : Place} {es : List Expr} (h : t.Means place es) {ts : List Token}
    (hs : t.Spelled ts) : place.Derives (ts.map Token.terminal) := by
  induction h generalizing ts with
  | leaf l location =>
    cases hs with
    | leaf hl => simpa [Place.Derives, Token.terminal_of_leaf? hl] using (Derives.leaf l).expr_of_primary
  | round _ ih =>
    cases hs with
    | group hf hl hi =>
      simpa [Place.Derives, Token.terminal_of_symbol? hf, Token.terminal_of_symbol? hl] using
        (Derives.round (ih hi)).expr_of_primary
  | curly _ ih =>
    cases hs with
    | group hf hl hi =>
      simpa [Place.Derives, Token.terminal_of_symbol? hf, Token.terminal_of_symbol? hl] using
        (Derives.curly (ih hi)).expr_of_primary
  | apply _ _ ihc iha | keyApply _ _ ihc iha =>
    cases hs with
    | apply hc ha =>
      rw [List.map_append]
      exact derives_apply (ihc hc) (iha ha)
  | lead hm hop _ ih =>
    cases hs with
    | binary hsym hl hr =>
      cases hl
      simpa [Place.Derives, Token.terminal_of_symbol? hsym] using (ih hr).lead_expr hm
  | binary hop hne _ _ ihl ihr =>
    cases hs with
    | binary hsym hl hr =>
      simpa [Place.Derives, Token.terminal_of_symbol? hsym] using
        Derives.binary_expr (Meaning.isInfix_of_infixOp? hop hne).1 (ihl hl) (ihr hr)
  | dot _ _ ihl ihr =>
    cases hs with
    | binary hsym hl hr =>
      simpa [Place.Derives, Token.terminal_of_symbol? hsym] using
        Derives.binary_expr (s := .dot) rfl (ihl hl) (ihr hr)
  | keyName dot target name location =>
    cases hs with
    | leaf hl =>
      simpa [Place.Derives, Token.terminal_of_leaf? hl] using (Derives.leaf (.name name)).expr_of_primary
  | keyTerm _ _ _ ih => exact ih hs
  | noArgs =>
    cases hs with
    | group hf hl hi =>
      cases hi
      exact ⟨[], by simp [Token.terminal_of_symbol? hf, Token.terminal_of_symbol? hl], .inl rfl⟩
  | args _ ih =>
    cases hs with
    | group hf hl hi =>
      exact ⟨_, by simp [Token.terminal_of_symbol? hf, Token.terminal_of_symbol? hl], .inr (ih hi)⟩
  | item _ ih => exact .value (ih hs)
  | assign _ ih =>
    cases hs with
    | binary hsym hl hr =>
      cases hl with
      | leaf hl =>
        simpa [Place.Derives, Token.terminal_of_symbol? hsym, Token.terminal_of_leaf? hl, Leaf.terminal] using
          (ih hr).assign
  | one _ ih => exact .arg (ih hs)
  | comma _ _ ihl ihr =>
    cases hs with
    | binary hsym hl hr =>
      simpa [Place.Derives, Token.terminal_of_symbol? hsym] using (ihl hl).comma (ihr hr)

end RawTree

end DynamicConfig

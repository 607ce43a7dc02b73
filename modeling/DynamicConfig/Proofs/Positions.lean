import DynamicConfig.Proofs.Boundaries
/-!
# Places in expressions

Turning a raw tree into an expression makes up no places (`RawTree.Placed.meaning`): its faults lie where something is
missing in the tree, it fails only at a comma or a `=`, and the nodes of the expression are located where the tree is.
So every position that is reported lies in the source text (`every_position_lies_in_source`).
-/

namespace DynamicConfig

/-! ## The places of an expression -/

namespace Expr

mutual

/-- The locations of all tags of a tree. -/
def locations : Expr → List Location
  | tag t => [t.location]
  | list items => locationsAll items
  | _ => []

/-- The locations of all tags of several trees. -/
def locationsAll : List Expr → List Location
  | [] => []
  | e :: rest => locations e ++ locationsAll rest

end

theorem mem_locationsAll_iff {es : List Expr} {location : Location} :
    location ∈ locationsAll es ↔ ∃ e ∈ es, location ∈ e.locations := by
  induction es with
  | nil => simp [locationsAll]
  | cons e rest ih => simp [locationsAll, ih]

/-- All locations of the tree lie in the source text, or are those of tokens. -/
def Placed (source : String) (tokens : List Token) (e : Expr) : Prop :=
  ∀ location ∈ e.locations, location.LiesIn source ∨ ∃ token ∈ tokens, token.location = location

variable {source : String} {tokens : List Token} {location : Location}

theorem placed_nil : (nil : Expr).Placed source tokens := by
  simp [Placed, locations]

theorem placed_node {op : Op} {children : List Expr}
    (hl : location.LiesIn source ∨ ∃ token ∈ tokens, token.location = location)
    (hc : ∀ e ∈ children, e.Placed source tokens) : (node op location children).Placed source tokens := by
  intro place hplace
  rw [node, locations, locationsAll, locations, List.singleton_append, List.mem_cons, mem_locationsAll_iff] at hplace
  rcases hplace with rfl | ⟨e, he, hplace⟩
  · exact hl
  · exact hc e he place hplace

end Expr

/-! ## What work reports -/

/-- What ends the work on a source text at once: a comma or a binding where it means nothing, or a binding of what is no
name, each at one of the tokens. -/
inductive FatalError.IsAt (tokens : List Token) : FatalError → Prop
  | comma {token : Token} (ht : token ∈ tokens) (hs : token.symbol? = some .comma) :
    IsAt tokens (.misplacedOperator "," token.location.start)
  | binding {token : Token} (ht : token ∈ tokens) (hs : token.symbol? = some .assign) :
    IsAt tokens (.misplacedOperator "=" token.location.start)
  | target {token : Token} (ht : token ∈ tokens) (hs : token.symbol? = some .assign) :
    IsAt tokens (.invalidAssignTarget token.location.start)

namespace Collect

/-- The work fails only at one of the tokens. If it does not fail, it has such a result, and the faults that it has added
lie in the source text. -/
abbrev Reports {α : Type} (source : String) (tokens : List Token) (w : Collect α) (P : α → Prop) : Prop :=
  w.Ends (LiesIn source ·.offset) (FatalError.IsAt tokens) P

end Collect

/-! ## The readings of a tree -/

namespace Meaning

open Collect (ends_pure ends_throw ends_fault)

variable {source : String} {tokens : List Token} {l r m : Meaning} {location : Location} {left : RawTree}

/-- The readings make up no places. -/
structure Placed (source : String) (tokens : List Token) (m : Meaning) : Prop where
  term : m.term.Reports source tokens (·.Placed source tokens)
  item : m.item.Reports source tokens (·.Placed source tokens)
  items : m.items.Reports source tokens (∀ e ∈ ·, e.Placed source tokens)
  key : ∀ dot target, dot.LiesIn source → target.Placed source tokens →
    (m.key dot target).Reports source tokens (·.Placed source tokens)
  args : ∀ work, m.args = some work → work.Reports source tokens (∀ e ∈ ·, e.Placed source tokens)

theorem placed_plain {term : Collect Expr} (h : term.Reports source tokens (·.Placed source tokens)) :
    (plain term).Placed source tokens where
  term := h
  item := h
  items := h.map fun e he => List.forall_mem_singleton.2 he
  key dot target hdot htarget := h.map fun e he => Expr.placed_node (.inl hdot) (by simp [htarget, he])
  args _ hw := by cases hw

theorem placed_leafExpr (l : Leaf) (h : ∃ token ∈ tokens, token.location = location) :
    (leafExpr location l).Placed source tokens := by
  cases l <;> exact Expr.placed_node (.inr h) (List.forall_mem_singleton.2 (by simp [Expr.Placed, Expr.locations]))

theorem placed_ofLeaf (l : Leaf) (h : ∃ token ∈ tokens, token.location = location) :
    (ofLeaf l location).Placed source tokens := by
  have hterm : (pure (leafExpr location l) : Collect Expr).Reports source tokens (·.Placed source tokens) :=
    ends_pure (placed_leafExpr l h)
  cases l
  case name name =>
    refine { placed_plain hterm with key := fun dot target hdot htarget => ends_pure ?_ }
    have hkey : (Expr.stringLeaf location name).Placed source tokens := placed_leafExpr (.string name) h
    exact Expr.placed_node (.inl hdot) (by simp [htarget, hkey])
  all_goals exact placed_plain hterm

theorem reports_call {args : Option (Collect (List Expr))} {offset : Nat} {callee : Expr}
    (hargs : ∀ work, args = some work → work.Reports source tokens (∀ e ∈ ·, e.Placed source tokens))
    (ho : LiesIn source offset) (hcallee : callee.Placed source tokens) :
    (call args (.empty offset) callee).Reports source tokens (·.Placed source tokens) := by
  cases args with
  | none => exact ends_fault ho Expr.placed_nil
  | some work =>
    refine (hargs work rfl).map fun es hes => ?_
    exact Expr.placed_node (.inl (Location.LiesIn.empty ho)) (List.forall_mem_cons.2 ⟨hcallee, hes⟩)

theorem reports_infixTerm (op : Op) (hl : l.Placed source tokens) (hr : r.Placed source tokens)
    (hlies : location.LiesIn source) : (infixTerm op location left l r).Reports source tokens (·.Placed source tokens) := by
  unfold infixTerm
  split
  case h_4 => exact ends_fault hlies.start Expr.placed_nil
  case h_5 => exact hl.term.both hr.term fun a b ha hb => Expr.placed_node (.inl hlies) (by simp [ha, hb])
  all_goals exact hr.term.map fun b hb => Expr.placed_node (.inl hlies) (by simp [hb])

theorem reports_target (hleft : left.Placed source tokens) {token : Token} (ht : token ∈ tokens)
    (hs : token.symbol? = some .assign) (hlocation : token.location = location) :
    (target location left).Reports source tokens (·.Placed source tokens) := by
  unfold target
  split
  case h_1 name nameLocation =>
    cases hleft with
    | leaf h => exact ends_pure (placed_leafExpr (.string name) h)
  case h_2 offset =>
    cases hleft with
    | missing h => exact ends_fault h Expr.placed_nil
  case h_3 =>
    rw [← hlocation]
    exact ends_throw (.target ht hs)

theorem placed_ofBinary {symbol : Symbol} (h : SymbolAt source tokens symbol location)
    (hleft : left.Placed source tokens) (hl : l.Placed source tokens) (hr : r.Placed source tokens) :
    (ofBinary symbol location left l r).Placed source tokens := by
  obtain ⟨hlies, ⟨token, ht, hs, hlocation⟩, hb⟩ := h
  unfold ofBinary
  split
  case h_1 =>
    have hthrow : FatalError.IsAt tokens (.misplacedOperator "," location.start) := hlocation ▸ .comma ht hs
    refine { placed_plain (ends_throw hthrow) with items := hl.items.both hr.item fun xs x hxs hx => ?_ }
    exact List.forall_mem_append.2 ⟨hxs, List.forall_mem_singleton.2 hx⟩
  case h_2 =>
    have hthrow : FatalError.IsAt tokens (.misplacedOperator "=" location.start) := hlocation ▸ .binding ht hs
    have hbinding := (reports_target hleft ht hs hlocation).both hr.item (R := fun e : Expr => e.Placed source tokens)
      fun name value hname hvalue =>
        show (Expr.node .assign location [name, value]).Placed source tokens from
          Expr.placed_node (.inl hlies) (List.forall_mem_cons.2 ⟨hname, List.forall_mem_singleton.2 hvalue⟩)
    exact { placed_plain (ends_throw hthrow) with
      item := hbinding
      items := hbinding.map fun e he => List.forall_mem_singleton.2 he }
  case h_3 => exact placed_plain (hl.term.bind fun target htarget => hr.key location target hlies htarget)
  case h_4 hcomma hassign hdot =>
    split
    · exact placed_plain (reports_infixTerm _ hl hr hlies)
    -- Every operator that is no comma, binding or dot makes a node of its own.
    case h_2 hnone => cases symbol <;> simp_all [infixOp?, Symbol.isBracket]

end Meaning

/-- The readings of a tree that is placed make up no places. -/
theorem RawTree.Placed.meaning {source : String} {tokens : List Token} {t : RawTree} (h : t.Placed source tokens) :
    t.meaning.Placed source tokens := by
  induction h with
  | missing h => exact Meaning.placed_plain (Collect.ends_fault h Expr.placed_nil)
  | cutOff h => exact Meaning.placed_plain (Collect.ends_pure Expr.placed_nil)
  | leaf h => exact Meaning.placed_ofLeaf _ h
  | binary h hleft _ ihl ihr => exact Meaning.placed_ofBinary h hleft ihl ihr
  | apply h _ _ ihc iha =>
    refine { Meaning.placed_plain (ihc.term.bind fun c hc => Meaning.reports_call iha.args h hc) with
      key := fun dot target hdot htarget => ?_ }
    exact (ihc.key dot target hdot htarget).bind fun c hc => Meaning.reports_call iha.args h hc
  | @group bracket location inner h _ ih =>
    cases bracket with
    | curly => exact Meaning.placed_plain (ih.items.map fun es hes => Expr.placed_node (.inl h) hes)
    | round =>
      refine { Meaning.placed_plain ih.term with args := fun work hw => ?_ }
      cases hw
      split
      · exact Collect.ends_pure (by simp)
      · exact ih.items

/-! ## Source texts -/

/-- Where all tokens are read, every fault of a character or a token is reported. -/
theorem Reading.mem_run_of_fault {limit : Option Nat} {stop : Nat} {r last : Reading} {lexemes : List Lexeme}
    (h : Passes limit r (lexemes.filterMap Lexeme.token?) last) {e : ParseError} (he : .fault e ∈ lexemes) :
    e ∈ (run limit stop r lexemes).2 := by
  induction lexemes generalizing r with
  | nil => cases he
  | cons lexeme rest ih =>
    cases lexeme with
    | fault e' =>
      rw [run_fault]
      rcases List.mem_cons.1 he with heq | he
      · cases heq
        exact List.mem_cons_self
      · exact List.mem_cons_of_mem _ (ih h he)
    | token token =>
      cases h with
      | cons hstep hrest =>
        rw [run_step hstep]
        rcases List.mem_cons.1 he with heq | he
        · cases heq
        · exact List.mem_append_right _ (ih hrest he)

/-- The raw tree of a source text is placed, at those tokens that are read, and its faults lie in the source text. Where no
string is reported to lack its quote, the tokens that are read lie in the source text. -/
theorem RawTree.exists_placed_ofSource (limit : Option Nat) (source : String) :
    ∃ read : List Token, (∀ token ∈ read, token ∈ (tokenize source).1) ∧ (ofSource limit source).1.Placed source read ∧
      (∀ e ∈ (ofSource limit source).2, LiesIn source e.offset) ∧
      ((∀ e ∈ (ofSource limit source).2, e.kind ≠ .incompleteString) →
        ∀ token ∈ read, token.location.LiesIn source) := by
  have hpieces := pieces_tokenize source
  have hfaults := (hpieces.stands "" rfl rfl).2
  have hordered : (tokenize source).1.Pairwise fun a b => a.location.start ≤ b.location.stop := by
    refine hpieces.ordered.imp_of_mem fun ha hb hab => ?_
    exact Nat.le_trans (token_stands ha).ordered (Nat.le_trans hab (token_stands hb).ordered)
  -- The tokens read so far place the reading that they lead to.
  have hplaced {read later : List Token} {last : Reading} (htokens : (tokenize source).1 = read ++ later)
      (hpasses : Reading.Passes limit {} read last) : last.Placed source read := by
    rw [htokens] at hordered
    refine hpasses.placed Reading.placed_initial (fun token ht => ⟨ht, token_stands ?_⟩)
      (List.pairwise_append.1 hordered).1 (by simp)
    exact htokens ▸ List.mem_append_left _ ht
  have hlexical : ∀ e ∈ (ofSource limit source).2, e.IsLexical → LiesIn source e.offset := by
    intro e he hl
    rcases Reading.mem_run_of_isLexical he hl with hm | ⟨token, hm, he⟩
    · exact hfaults e (List.mem_filterMap.2 ⟨_, hm, rfl⟩)
    · have ht := mem_tokenize_iff.2 hm
      exact (placed_ofToken ht (token_stands ht)).2 e he
  have hreported {last : Reading} (hpasses : Reading.Passes limit {} (tokenize source).1 last) :
      ∀ e ∈ (tokenize source).2, e ∈ (ofSource limit source).2 := by
    intro e he
    obtain ⟨lexeme, hm, heq⟩ := List.mem_filterMap.1 he
    cases lexeme with
    | token => cases heq
    | fault e' => exact Reading.mem_run_of_fault hpasses (Option.some.inj heq ▸ hm)
  have hending := Reading.ending_ofSource limit source
  generalize ofSource limit source = result at hlexical hreported hending
  cases hending with
  | @complete last between hpasses hbetween =>
    have hlast := hplaced (List.append_nil _).symm hpasses
    refine ⟨(tokenize source).1, fun _ ht => ht, (hlast.finish limit).1, ?_, fun hnone token ht => ?_⟩
    · exact fun e he => (List.mem_append.1 he).elim (fun hb => hlexical e he (hbetween e hb)) (hlast.endFaults e)
    · rcases Token.lies_or_last ht with hlies | ⟨-, hfault⟩
      · exact hlies
      · exact absurd rfl (hnone _ (hreported hpasses _ hfault))
  | @stopped first later token last between bracket htokens hpasses hbetween hs ho =>
    have hmem {t : Token} (ht : t ∈ first) : t ∈ (tokenize source).1 := htokens ▸ List.mem_append_left _ ht
    have hstop : token ∈ (tokenize source).1 := htokens ▸ List.mem_append_right _ List.mem_cons_self
    refine ⟨first, fun _ => hmem, ((hplaced htokens hpasses).finish limit).1, ?_, fun _ t ht => ?_⟩
    · intro e he
      rcases List.mem_append.1 he with hb | hb
      · exact hlexical e he (hbetween e hb)
      · exact List.mem_singleton.1 hb ▸ (token_stands hstop).start
    -- The last token is not read, since it is the one that ends the reading or comes after that one.
    · rcases Token.lies_or_last (hmem ht) with hlies | ⟨hlast, -⟩
      · exact hlies
      · have hlater : t ∈ token :: later := by
          rw [htokens, List.getLast?_append, List.getLast?_cons, Option.some_or] at hlast
          exact List.mem_of_getLast? (List.getLast?_cons.trans hlast)
        have hpairs := hpieces.ordered
        rw [htokens] at hpairs
        have hle := (List.pairwise_append.1 hpairs).2.2 t ht t hlater
        exact absurd (hpieces.nonempty t (hmem ht)) (Nat.not_lt_of_le hle)

theorem ofRaw_of_parse_error {source : String} {fatal : FatalError} (h : parse source = .error fatal) :
    Expr.ofRaw (RawTree.ofSource (some Frame.maxHeight) source).1 (RawTree.ofSource (some Frame.maxHeight) source).2 =
      .error fatal := by
  rw [parse] at h
  generalize RawTree.ofSource (some Frame.maxHeight) source = result at h
  cases hraw : Expr.ofRaw result.1 result.2 with
  | error e =>
    obtain rfl : e = fatal := by simpa [hraw, bind, Except.bind] using h
    rfl
  | ok found => simp [hraw, bind, Except.bind, pure, Except.pure] at h

/-- Every position that is reported lies in the source text. Reading it fails for good only at one of its commas or
bindings, each fault is found where a character of the text begins or ends, and if no string is reported to lack its
quote, each node of the expression is located at a part of the text. -/
theorem every_position_lies_in_source (source : String) :
    (∀ fatal, parse source = .error fatal → fatal.IsAt (tokenize source).1) ∧
      ∀ parsed, parse source = .ok parsed → (∀ e ∈ parsed.errors, LiesIn source e.offset) ∧
        ((∀ e ∈ parsed.errors, e.kind ≠ .incompleteString) → ∀ location ∈ parsed.expr.locations,
          location.LiesIn source ∧ ∃ text, location.slice? source = some text) := by
  obtain ⟨read, hread, htree, hfaults, hlies⟩ := RawTree.exists_placed_ofSource (some Frame.maxHeight) source
  have hwork := htree.meaning.term (RawTree.ofSource (some Frame.maxHeight) source).2
  refine ⟨fun fatal hparse => ?_, fun parsed hparse => ?_⟩
  · have hraw := ofRaw_of_parse_error hparse
    rw [Expr.ofRaw] at hraw
    rw [hraw] at hwork
    cases hwork with
    | comma ht hs => exact .comma (hread _ ht) hs
    | binding ht hs => exact .binding (hread _ ht) hs
    | target ht hs => exact .target (hread _ ht) hs
  · have hraw := ofRaw_of_parse hparse
    rw [Expr.ofRaw] at hraw
    rw [hraw] at hwork
    obtain ⟨hexpr, more, herrors, hmore⟩ := hwork
    refine ⟨herrors ▸ List.forall_mem_append.2 ⟨hfaults, hmore⟩, fun hnone location hlocation => ?_⟩
    -- A leaf is located at its token, which was read.
    have hplace : location.LiesIn source := by
      rcases hexpr location hlocation with hplace | ⟨token, ht, rfl⟩
      · exact hplace
      · exact hlies (fun e he => hnone e (herrors ▸ List.mem_append_left _ he)) token ht
    exact ⟨hplace, hplace.exists_slice⟩

/-- A text of two expressions, one that lacks a bracket and an operand at its end, and one that lacks a quote. -/
theorem reported_positions_lie_in_sources :
    (∃ fatal, parse "é, b" = .error fatal ∧ fatal.IsAt (tokenize "é, b").1) ∧
    (∃ parsed, parse "(é +" = .ok parsed ∧ parsed.errors = [⟨.incompleteBraces, 0⟩, ⟨.missingTerm, 5⟩] ∧
      LiesIn "(é +" 5 ∧ ∀ location ∈ parsed.expr.locations, location.LiesIn "(é +") ∧
    ∃ parsed, parse "\"é" = .ok parsed ∧ parsed.errors = [⟨.incompleteString, 0⟩] ∧ LiesIn "\"é" 0 := by
  refine ⟨?_, ?_, ?_⟩
  · obtain ⟨fatal, hparse⟩ : ∃ fatal, parse "é, b" = .error fatal := ⟨_, rfl⟩
    exact ⟨fatal, hparse, (every_position_lies_in_source "é, b").1 fatal hparse⟩
  · obtain ⟨parsed, hparse, herrors⟩ : ∃ parsed, parse "(é +" = .ok parsed ∧
        parsed.errors = [⟨.incompleteBraces, 0⟩, ⟨.missingTerm, 5⟩] := ⟨_, rfl, rfl⟩
    obtain ⟨hfaults, hlocations⟩ := (every_position_lies_in_source "(é +").2 parsed hparse
    refine ⟨parsed, hparse, herrors, hfaults ⟨.missingTerm, 5⟩ (by simp [herrors]), fun location hl => ?_⟩
    exact (hlocations (by simp [herrors]) location hl).1
  · obtain ⟨parsed, hparse, herrors⟩ : ∃ parsed, parse "\"é" = .ok parsed ∧
        parsed.errors = [⟨.incompleteString, 0⟩] := ⟨_, rfl, rfl⟩
    have hfaults := ((every_position_lies_in_source "\"é").2 parsed hparse).1
    exact ⟨parsed, hparse, herrors, hfaults ⟨.incompleteString, 0⟩ (by simp [herrors])⟩

end DynamicConfig

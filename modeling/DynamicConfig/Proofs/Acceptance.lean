import DynamicConfig.Proofs.Awaiting
/-!
# The parser accepts the grammar

A source text from which no term is cut off is read without faults exactly if its tokens are derived
from the grammar (`accepts_exactly_its_grammar`). One direction is that what is read is derived. For the
other one, a derivation is followed through the readings, rule by rule (`Derives.reads`).
-/

namespace DynamicConfig

namespace Frame

variable {f : Frame}

/-! ## Without a limit nothing is cut off -/

theorem reduce_none_cutAt (op : PendingOp) : (f.reduce none op).cutAt = f.cutAt := by
  simp [reduce_eq, push_none]

theorem unwind_none_cutAt (waitsOn : PendingOp → Bool) (ops : List PendingOp) :
    (unwind none waitsOn ops f).cutAt = f.cutAt := by
  induction ops generalizing f with
  | nil => rfl
  | cons op rest ih =>
    unfold unwind
    split
    · rfl
    · rw [ih, reduce_none_cutAt]

theorem addOp_none_cutAt (symbol : Symbol) (location : Location) :
    (f.addOp none symbol location).cutAt = f.cutAt := by
  cases hf : f.afterTerm with
  | true => rw [addOp_of_afterTerm hf]; exact unwind_none_cutAt _ _
  | false =>
    cases hs : symbol.mayLead with
    | true => rw [addOp_of_mayLead hf hs]; rfl
    | false => rw [addOp_of_missing hf hs]; exact unwind_none_cutAt _ _

theorem addTerm_none_cutAt (t : RawTree) (height : Nat) (location : Location) :
    (f.addTerm none t height location).cutAt = f.cutAt := by
  rcases f.callee_or_not with ⟨callee, calleeHeight, rest, hf, ht⟩ | hf
  · rw [addTerm_of_afterTerm hf ht, push_none]
  · rw [addTerm_of_no_callee hf, push_none]

theorem finish_none_cutAt (stop : Nat) : (f.finish none stop).cutAt = f.cutAt := by
  rw [finish_eq, closed, unwind_none_cutAt]
  unfold ended
  split <;> rfl

end Frame

namespace Reading

variable {r next : Reading}

theorem Step.uncut_next {token : Token} {faults : List ParseError} (h : Step none r token next faults)
    (hu : r.Uncut) : next.Uncut := by
  obtain ⟨hcut, hcurrent, hopened⟩ := hu
  cases h with
  | opening _ =>
    refine ⟨hcut, rfl, fun o hm => ?_⟩
    rcases List.mem_cons.1 hm with rfl | hm
    · exact hcurrent
    · exact hopened o hm
  | @closing innermost outer _ ho =>
    rw [ho] at hopened
    obtain ⟨haround, houter⟩ := List.forall_mem_cons.1 hopened
    exact ⟨by simp [closeBracket, hcut, Frame.finish_none_cutAt, hcurrent],
      (Frame.addTerm_none_cutAt _ _ _).trans haround, houter⟩
  | operator _ _ => exact ⟨hcut, (Frame.addOp_none_cutAt _ _).trans hcurrent, hopened⟩
  | term _ => exact ⟨hcut, (Frame.addTerm_none_cutAt _ _ _).trans hcurrent, hopened⟩

/-! ## Tokens that are read without a fault -/

theorem Reads.uncut {tokens : List Token} (h : Reads r tokens next) (hu : r.Uncut) : next.Uncut := by
  induction h with
  | nil => exact hu
  | cons h _ ih => exact ih (h.uncut_next hu)

/-- What stands between two brackets is read into a frame of its own, and becomes one term. -/
theorem Reads.exists_group {bracket : Bracket} {first last : Token} {inside : List Token} {between : Reading}
    (h : Reads (r.openBracket bracket first.location.start) inside between)
    (hf : first.symbol? = some (.opening bracket)) (hl : last.symbol? = some (.closing bracket))
    (ho : between.opened = (r.openBracket bracket first.location.start).opened) :
    ∃ next height location, Reads r (first :: (inside ++ [last])) next ∧ next.opened = r.opened ∧
      next.current = r.current.addTerm none
        (.group bracket location (between.current.finish none last.location.start).tree) height location :=
  have hclosing : Symbol.ofText? last.text = some (.closing (OpenBracket.mk bracket _ r.current).bracket) := hl
  ⟨_, _, _, .cons (.opening hf) (h.append (.single (.closing hclosing ho))), rfl, rfl⟩

/-- The tokens are read, and the frame may end after them. -/
def Fills (r : Reading) (goal : RawTree.Place) (tokens : List Token) : Prop :=
  ∃ next, Reads r tokens next ∧ next.opened = r.opened ∧ next.current.Filled goal

section Fills

variable {goal : RawTree.Place} {tokens : List Token}

theorem Fills.after {first : List Token} (h : Fills next goal tokens) (hr : Reads r first next)
    (ho : next.opened = r.opened) : Fills r goal (first ++ tokens) := by
  obtain ⟨last, hlast, holast, hfilled⟩ := h
  exact ⟨last, hr.append hlast, holast.trans ho, hfilled⟩

theorem Reads.leaf {token : Token} {l : Leaf} (hl : token.leaf? = some l) (r : Reading) :
    Reads r [token] { r with current := r.current.addTerm none (.leaf l token.location) 1 token.location } := by
  obtain ⟨hs, htext⟩ := Token.leaf?_eq_some_iff.1 hl
  have hterm : RawTree.ofToken token = (.leaf l token.location, []) := by simp [RawTree.ofToken, htext]
  have hstep : Step none r token _ _ := .term hs
  rw [hterm] at hstep
  exact .single hstep

theorem fills_leaf {token : Token} {l : Leaf} (hl : token.leaf? = some l) (h : r.current.Awaits goal .term) :
    Fills r goal [token] :=
  ⟨_, .leaf hl r, rfl, h.addTerm ⟨_, .leaf l _⟩ _ _⟩

/-- After an operator the frame waits for what may follow it. -/
theorem fills_operator {token : Token} {symbol : Symbol} (hs : token.symbol? = some symbol)
    (hb : symbol.isBracket = false) {need : RawTree.Place}
    (h : (r.current.addOp none symbol token.location).Awaits goal need)
    (hright : ∀ mid : Reading, mid.current.Awaits goal need → Fills mid goal tokens) :
    Fills r goal (token :: tokens) := by
  have hread : Reads r [token] { r with current := r.current.addOp none symbol token.location } :=
    .single (.operator hs hb)
  exact (hright _ h).after hread rfl

/-- What stands between two brackets fills a frame of its own, and the brackets are one term of the frame
around them. -/
theorem fills_group {bracket : Bracket} {first last : Token} (hf : first.symbol? = some (.opening bracket))
    (hl : last.symbol? = some (.closing bracket)) {inner : RawTree.Place}
    (h : Fills (r.openBracket bracket first.location.start) inner tokens)
    (hadd : ∀ t height location, t.IsA inner →
      (r.current.addTerm none (.group bracket location t) height location).Filled goal) :
    Fills r goal (first :: (tokens ++ [last])) := by
  obtain ⟨between, hreads, ho, hfilled⟩ := h
  obtain ⟨next, height, location, hnext, honext, hcurrent⟩ := hreads.exists_group hf hl ho
  refine ⟨next, hnext, honext, ?_⟩
  rw [hcurrent]
  exact hadd _ height location (hfilled.finish _)

end Fills

end Reading

/-! ## Derivations are read -/

open RawTree (Place)

/-- Where the trees of a category may stand. -/
def Category.need : Category → Place
  | expr | operand | application | primary => .term
  | arg => .item
  | args => .items

theorem Token.symbol?_of_terminal {token : Token} {symbol : Symbol} (h : token.terminal = .symbol symbol) :
    token.symbol? = some symbol := by
  unfold terminal at h
  split at h
  · rename_i s hs
    cases h
    exact hs
  · split at h
    · cases h
    · split at h
      · cases h
      · split at h <;> cases h
    · cases h

theorem Token.IsProper.leaf?_of_terminal {token : Token} (hp : token.IsProper)
    (h : ∀ symbol, token.terminal ≠ .symbol symbol) : ∃ l, token.leaf? = some l ∧ token.terminal = l.terminal := by
  rcases hp.cases with ⟨symbol, _, hs⟩ | hl
  · exact (h symbol hs).elim
  · exact hl

theorem Token.IsProper.name_of_terminal {token : Token} (hp : token.IsProper) (h : token.terminal = .name) :
    ∃ name, token.leaf? = some (.name name) := by
  obtain ⟨l, hl, ht⟩ := hp.leaf?_of_terminal (by simp [h])
  rw [h] at ht
  cases l <;> first | exact ⟨_, hl⟩ | cases ht

namespace RawTree

variable {location : Location} {inner : RawTree}

theorem isA_round (h : inner.IsA .term) : (group .round location inner).IsA .term := by
  obtain ⟨e, he⟩ := h.exists_sole
  exact ⟨_, .round he⟩

theorem isA_curly (h : inner.IsA .items) : (group .curly location inner).IsA .term := by
  obtain ⟨es, hes⟩ := h
  exact ⟨_, .curly hes⟩

theorem isA_args (h : inner.IsA .items) : (group .round location inner).IsA .args := by
  obtain ⟨es, hes⟩ := h
  exact ⟨_, .args hes⟩

theorem isA_noArgs (offset : Nat) : (group .round location (.missing offset)).IsA .args :=
  ⟨_, .noArgs location offset⟩

end RawTree

/-- The tokens of the brackets around others. -/
theorem exists_brackets {tokens : List Token} {b : Bracket} {w : List Terminal}
    (h : tokens.map Token.terminal = .symbol (.opening b) :: (w ++ [.symbol (.closing b)])) :
    ∃ first inside last, tokens = first :: (inside ++ [last]) ∧ first.symbol? = some (.opening b) ∧
      inside.map Token.terminal = w ∧ last.symbol? = some (.closing b) := by
  obtain ⟨first, tail, rfl, hf, htail⟩ := List.map_eq_cons_iff.1 h
  obtain ⟨inside, ends, rfl, hinside, hends⟩ := List.map_eq_append_iff.1 htail
  obtain ⟨last, nothing, rfl, hl, hnothing⟩ := List.map_eq_cons_iff.1 hends
  obtain rfl := List.map_eq_nil_iff.1 hnothing
  exact ⟨first, inside, last, rfl, Token.symbol?_of_terminal hf, hinside, Token.symbol?_of_terminal hl⟩

/-- Tokens that are derived are read to where a frame may end, if it waits for what they are. -/
theorem Derives.reads {c : Category} {w : List Terminal} (h : Derives c w) {tokens : List Token}
    (hw : tokens.map Token.terminal = w) (hp : ∀ token ∈ tokens, token.IsProper) {r : Reading} {goal : Place}
    (hr : r.current.Awaits goal c.need) : r.Fills goal tokens := by
  induction h generalizing tokens r goal with
  | operand _ ih | application _ ih | primary _ ih => exact ih hw hp hr
  | arg _ ih => exact ih hw hp hr.item
  | value _ ih => exact ih hw hp hr.term
  | string | number | bool | name =>
    obtain ⟨token, nothing, rfl, ht, hnothing⟩ := List.map_eq_cons_iff.1 hw
    obtain rfl := List.map_eq_nil_iff.1 hnothing
    obtain ⟨l, hl, -⟩ := (hp token (by simp)).leaf?_of_terminal (by simp [ht])
    exact Reading.fills_leaf hl hr
  | lead hs _ ih =>
    obtain ⟨token, right, rfl, ht, hright⟩ := List.map_eq_cons_iff.1 hw
    have hpr := (List.forall_mem_cons.1 hp).2
    exact Reading.fills_operator (Token.symbol?_of_terminal ht) (Symbol.isBracket_of_mayLead hs)
      (hr.addLead hs token.location) fun _ hmid => ih hright hpr hmid
  | binary hs _ _ ihl ihr =>
    obtain ⟨left, tail, rfl, hleft, htail⟩ := List.map_eq_append_iff.1 hw
    obtain ⟨token, right, rfl, ht, hright⟩ := List.map_eq_cons_iff.1 htail
    obtain ⟨hpl, hpt⟩ := List.forall_mem_append.1 hp
    have hpr := (List.forall_mem_cons.1 hpt).2
    obtain ⟨first, hfirst, hofirst, hfilled⟩ := ihl hleft hpl hr
    have hrest : first.Fills goal (token :: right) :=
      Reading.fills_operator (Token.symbol?_of_terminal ht) (Symbol.isBracket_of_isInfix hs)
        (hfilled.addInfix hs token.location) fun _ hmid => ihr hright hpr hmid
    exact hrest.after hfirst hofirst
  | callEmpty _ ih =>
    obtain ⟨callee, tail, rfl, hcallee, htail⟩ := List.map_eq_append_iff.1 hw
    obtain ⟨first, inside, last, rfl, hf, hinside, hl⟩ := exists_brackets (w := []) htail
    obtain rfl := List.map_eq_nil_iff.1 hinside
    obtain ⟨mid, hmid, homid, hfilled⟩ := ih hcallee (List.forall_mem_append.1 hp).1 hr
    -- The frame between the brackets stays empty, and ends as a missing term.
    obtain ⟨next, height, location, hnext, ho, hcurrent⟩ :=
      (Reading.Reads.nil (mid.openBracket .round first.location.start)).exists_group hf hl rfl
    refine ⟨next, hmid.append hnext, ho.trans homid, ?_⟩
    rw [hcurrent]
    exact hfilled.addArgs (RawTree.isA_noArgs _) _ _
  | call _ _ ih iha =>
    obtain ⟨callee, tail, rfl, hcallee, htail⟩ := List.map_eq_append_iff.1 hw
    obtain ⟨first, inside, last, rfl, hf, hinside, hl⟩ := exists_brackets htail
    obtain ⟨hpc, hpa⟩ := List.forall_mem_append.1 hp
    have hpi : ∀ token ∈ inside, token.IsProper := fun token h => hpa token (by simp [h])
    obtain ⟨mid, hmid, homid, hfilled⟩ := ih hcallee hpc hr
    have hargs : mid.Fills goal (first :: (inside ++ [last])) :=
      Reading.fills_group hf hl (iha hinside hpi (Frame.awaits_initial .items))
        fun _ _ _ ht => hfilled.addArgs (RawTree.isA_args ht) _ _
    exact hargs.after hmid homid
  | round _ ih =>
    obtain ⟨first, inside, last, rfl, hf, hinside, hl⟩ := exists_brackets hw
    have hpi : ∀ token ∈ inside, token.IsProper := fun token h => hp token (by simp [h])
    exact Reading.fills_group hf hl (ih hinside hpi (Frame.awaits_initial .term))
      fun _ _ _ ht => hr.addTerm (RawTree.isA_round ht) _ _
  | curly _ ih =>
    obtain ⟨first, inside, last, rfl, hf, hinside, hl⟩ := exists_brackets hw
    have hpi : ∀ token ∈ inside, token.IsProper := fun token h => hp token (by simp [h])
    exact Reading.fills_group hf hl (ih hinside hpi (Frame.awaits_initial .items))
      fun _ _ _ ht => hr.addTerm (RawTree.isA_curly ht) _ _
  | comma _ _ ihl ihr =>
    obtain rfl := hr.goal_eq
    obtain ⟨left, tail, rfl, hleft, htail⟩ := List.map_eq_append_iff.1 hw
    obtain ⟨token, right, rfl, ht, hright⟩ := List.map_eq_cons_iff.1 htail
    obtain ⟨hpl, hpt⟩ := List.forall_mem_append.1 hp
    have hpr := (List.forall_mem_cons.1 hpt).2
    obtain ⟨first, hfirst, hofirst, hfilled⟩ := ihl hleft hpl hr
    have hrest : first.Fills .items (token :: right) :=
      Reading.fills_operator (Token.symbol?_of_terminal ht) rfl (hfilled.addComma token.location)
        fun _ hmid => ihr hright hpr hmid
    exact hrest.after hfirst hofirst
  | assign _ ih =>
    obtain ⟨name, tail, rfl, hname, htail⟩ := List.map_eq_cons_iff.1 hw
    obtain ⟨token, value, rfl, ht, hvalue⟩ := List.map_eq_cons_iff.1 htail
    obtain ⟨hpn, hpt⟩ := List.forall_mem_cons.1 hp
    have hpv := (List.forall_mem_cons.1 hpt).2
    obtain ⟨text, hl⟩ := hpn.name_of_terminal hname
    -- The name is a term first, and the binding takes it away from the operators before it.
    refine Reading.Fills.after ?_ (.leaf hl r) rfl
    exact Reading.fills_operator (Token.symbol?_of_terminal ht) rfl
      (hr.addBinding text name.location token.location) fun _ hmid => ih hvalue hpv hmid

theorem lexemes_eq_of_no_faults {source : String} (h : (tokenize source).2 = []) :
    lexemes source = (tokenize source).1.map Lexeme.token := by
  simp only [tokenize] at h ⊢
  generalize lexemes source = found at h ⊢
  induction found with
  | nil => rfl
  | cons lexeme rest ih =>
    cases lexeme with
    | token t => simpa [Lexeme.token?, Lexeme.fault?] using ih (by simpa [Lexeme.fault?] using h)
    | fault e => simp [Lexeme.fault?] at h

/-- Without a limit, tokens that are read without a fault and leave no bracket open make up a tree. -/
theorem Reading.Reads.run_of_closed {tokens : List Token} {next : Reading} (h : Reads {} tokens next) (ho : next.opened = [])
    (stop : Nat) : Reading.run none stop {} (tokens.map Lexeme.token) = ((next.current.finish none stop).tree, []) := by
  obtain ⟨hcut, hcurrent, -⟩ := h.uncut uncut_initial
  have hfinish : next.finish none stop = ((next.current.finish none stop).tree, none) := by
    simp [finish, ho, closeAll, hcut, Frame.finish_none_cutAt, hcurrent]
  rw [h.run, run_nil, endFaults, hfinish, ho]
  rfl

/-- Without a limit, the tokens of a source text that leave no bracket open are read without a fault. -/
theorem RawTree.ofSource_of_reads {source : String} {tokens : List Token} {next : Reading}
    (hlex : lexemes source = tokens.map Lexeme.token) (hreads : Reading.Reads {} tokens next) (ho : next.opened = []) :
    RawTree.ofSource none source = ((next.current.finish none source.utf8ByteSize).tree, []) := by
  rw [RawTree.ofSource, hlex, hreads.run_of_closed ho]

/-- A source text whose tokens are derived is read without a fault, if there is no limit. -/
theorem Derives.ofSource {source : String} (hfaults : (tokenize source).2 = [])
    (h : Derives .expr ((tokenize source).1.map Token.terminal)) :
    ∃ tree, RawTree.ofSource none source = (tree, []) ∧ tree.IsA .term := by
  have hlex := lexemes_eq_of_no_faults hfaults
  have hp := (laidOut_lexemes hlex).isProper
  obtain ⟨next, hreads, ho, hfilled⟩ := h.reads rfl hp (r := {}) (Frame.awaits_initial .term)
  exact ⟨_, RawTree.ofSource_of_reads hlex hreads ho, hfilled.finish source.utf8ByteSize⟩

/-- If no term of a source text is cut off, it is parsed as what its tree means without a limit. -/
theorem parse_eq_of_means {source : String} {tree : RawTree} {e : Expr}
    (hwhole : (RawTree.ofSource (some Frame.maxHeight) source).1.IsWhole)
    (hsource : RawTree.ofSource none source = (tree, [])) (hmeans : tree.Means .term [e]) :
    parse source = .ok ⟨e, []⟩ := by
  have hcapped := RawTree.ofSource_of_isWhole hwhole
  rw [hcapped, hsource] at hwhole
  have hraw : Expr.ofRaw tree [] = .ok (e, []) := (Expr.ofRaw_eq_ok_iff hwhole).2 ⟨rfl, hmeans⟩
  rw [parse, hcapped, hsource]
  simp [hraw, bind, Except.bind, pure, Except.pure]

/-- If no term of a source text is cut off, it is read without faults exactly if its tokens are derived
from the grammar. -/
theorem accepts_exactly_its_grammar (source : String)
    (hwhole : (RawTree.ofSource (some Frame.maxHeight) source).1.IsWhole) :
    (∃ parsed, parse source = .ok parsed ∧ parsed.errors = []) ↔
      (tokenize source).2 = [] ∧ Derives .expr ((tokenize source).1.map Token.terminal) := by
  constructor
  · rintro ⟨parsed, hparse, hok⟩
    obtain ⟨tree, hsource, hmeans⟩ := parse_eq_ok hparse hok
    obtain ⟨hlex, hspell⟩ := RawTree.spelled_of_ofSource hsource
    have hnone : (lexemes source).filterMap Lexeme.fault? = [] := by
      rw [hlex, List.filterMap_map]
      exact List.filterMap_eq_nil_iff.2 fun _ _ => rfl
    exact ⟨hnone, hmeans.derives hspell⟩
  · rintro ⟨hfaults, hderives⟩
    obtain ⟨tree, hsource, hterm⟩ := hderives.ofSource hfaults
    obtain ⟨e, he⟩ := hterm.exists_sole
    exact ⟨⟨e, []⟩, parse_eq_of_means hwhole hsource he, rfl⟩

/-- A call with a binding is in the grammar, and is read. -/
theorem call_with_binding_accepted :
    (RawTree.ofSource (some Frame.maxHeight) "f(a = -b)").1.IsWhole ∧
      ((∃ parsed, parse "f(a = -b)" = .ok parsed ∧ parsed.errors = []) ↔
        (tokenize "f(a = -b)").2 = [] ∧ Derives .expr ((tokenize "f(a = -b)").1.map Token.terminal)) := by
  have hwhole : (RawTree.ofSource (some Frame.maxHeight) "f(a = -b)").1.IsWhole :=
    ⟨trivial, trivial, trivial, trivial⟩
  exact ⟨hwhole, accepts_exactly_its_grammar _ hwhole⟩

end DynamicConfig

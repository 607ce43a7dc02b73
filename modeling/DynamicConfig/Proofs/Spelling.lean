import DynamicConfig.Proofs.Reading
/-!
# The tokens of a raw tree

`RawTree.Spelled` says which tokens a raw tree has, in order, and that its places are theirs. Reading
without a limit keeps every token: the terms and operators of the frames always spell what has been read
(`Reading.Holds`), so the tree of a source text without faults is spelled by the tokens of the text
(`RawTree.spelled_of_ofSource`).
-/

namespace DynamicConfig

/-- The symbol that a token is, if it is one. -/
def Token.symbol? (token : Token) : Option Symbol :=
  Symbol.ofText? token.text

/-- The leaf that a token is, if it is no symbol. -/
def Token.leaf? (token : Token) : Option Leaf :=
  match token.symbol? with
  | some _ => none
  | none => Leaf.ofText? token.text

theorem Token.leaf?_eq_some_iff {token : Token} {l : Leaf} :
    token.leaf? = some l ↔ token.symbol? = none ∧ Leaf.ofText? token.text = some l := by
  unfold leaf?
  split <;> simp_all

/-- A token that is no symbol is a leaf, unless it is a fault. -/
theorem RawTree.ofToken_of_no_fault {token : Token} (hs : token.symbol? = none)
    (hf : (RawTree.ofToken token).2 = []) :
    ∃ l, token.leaf? = some l ∧ RawTree.ofToken token = (.leaf l token.location, []) := by
  cases hl : Leaf.ofText? token.text with
  | none => simp [ofToken, hl] at hf
  | some l => exact ⟨l, Token.leaf?_eq_some_iff.2 ⟨hs, hl⟩, by simp [ofToken, hl]⟩

/-- The tokens of a tree in their order. A missing term has none, and a term that is cut off has lost
its own. -/
inductive RawTree.Spelled : RawTree → List Token → Prop
  | missing (offset : Nat) : Spelled (.missing offset) []
  | leaf {token : Token} {l : Leaf} (hl : token.leaf? = some l) : Spelled (.leaf l token.location) [token]
  | binary {token : Token} {symbol : Symbol} {left right : RawTree} {ls rs : List Token}
    (hs : token.symbol? = some symbol) (hl : Spelled left ls) (hr : Spelled right rs) :
    Spelled (.binary symbol token.location left right) (ls ++ token :: rs)
  | apply {callee args : RawTree} {cs as : List Token} {first : Token} (hc : Spelled callee cs)
    (ha : Spelled args (first :: as)) :
    Spelled (.apply (.empty first.location.start) callee args) (cs ++ first :: as)
  | group {bracket : Bracket} {first last : Token} {inner : RawTree} {ts : List Token}
    (hf : first.symbol? = some (.opening bracket)) (hl : last.symbol? = some (.closing bracket))
    (hi : Spelled inner ts) :
    Spelled (.group bracket ⟨first.location.start, last.location.stop⟩ inner) (first :: (ts ++ [last]))

theorem RawTree.Spelled.isWhole {t : RawTree} {ts : List Token} (h : t.Spelled ts) : t.IsWhole := by
  induction h with
  | missing _ | leaf _ => trivial
  | binary _ _ _ ihl ihr => exact ⟨ihl, ihr⟩
  | apply _ _ ihc iha => exact ⟨ihc, iha⟩
  | group _ _ _ ih => exact ih

namespace Frame

variable {f : Frame} {tokens : List Token}

/-! ## Frames -/

/-- The tokens of waiting operators and their left operands. -/
inductive Stacked : List PendingOp → List (RawTree × Nat) → List Token → Prop
  | nil : Stacked [] [] []
  | cons {op : PendingOp} {ops : List PendingOp} {t : RawTree} {height : Nat} {terms : List (RawTree × Nat)}
    {before ts : List Token} {token : Token} (hs : token.symbol? = some op.symbol)
    (hl : token.location = op.location) (hrest : Stacked ops terms before) (ht : t.Spelled ts) :
    Stacked (op :: ops) ((t, height) :: terms) (before ++ ts ++ [token])

/-- The tokens of waiting operators, their left operands and one more term. -/
def Topped (ops : List PendingOp) (terms : List (RawTree × Nat)) (tokens : List Token) : Prop :=
  ∃ t height rest before ts, terms = (t, height) :: rest ∧ Stacked ops rest before ∧ t.Spelled ts ∧
    tokens = before ++ ts

/-- The tokens that a frame has read. -/
def Holds (f : Frame) (tokens : List Token) : Prop :=
  if f.afterTerm then Topped f.ops f.terms tokens else Stacked f.ops f.terms tokens

theorem holds_initial : Holds {} [] :=
  .nil

theorem Stacked.topped {ops : List PendingOp} {terms : List (RawTree × Nat)} {before ts : List Token}
    (h : Stacked ops terms before) {t : RawTree} (ht : t.Spelled ts) (height : Nat) :
    Topped ops ((t, height) :: terms) (before ++ ts) :=
  ⟨t, height, terms, before, ts, rfl, h, ht, rfl⟩

theorem Stacked.topped_missing {ops : List PendingOp} {terms : List (RawTree × Nat)}
    (h : Stacked ops terms tokens) (offset : Nat) : Topped ops ((.missing offset, 1) :: terms) tokens := by
  simpa using h.topped (.missing offset) 1

theorem Topped.stacked {op : PendingOp} {ops : List PendingOp} {terms : List (RawTree × Nat)}
    (h : Topped ops terms tokens) {token : Token} (hs : token.symbol? = some op.symbol)
    (hl : token.location = op.location) : Stacked (op :: ops) terms (tokens ++ [token]) := by
  obtain ⟨t, height, rest, before, ts, rfl, hrest, ht, rfl⟩ := h
  exact .cons hs hl hrest ht

theorem push_none (t : RawTree) (height offset : Nat) :
    f.push none t height offset = { f with terms := (t, height) :: f.terms } := rfl

theorem reduce_none_terms {op : PendingOp} {left right : RawTree} {leftHeight rightHeight : Nat}
    {rest : List (RawTree × Nat)} (h : f.terms = (right, rightHeight) :: (left, leftHeight) :: rest) :
    (f.reduce none op).terms =
      (.binary op.symbol op.location left right, max leftHeight rightHeight + 1) :: rest := by
  simp [reduce_eq, push_none, pop, h]

/-- An operator that takes its operands keeps the tokens. -/
theorem topped_reduce {op : PendingOp} {ops : List PendingOp} (h : Topped (op :: ops) f.terms tokens) :
    Topped ops (f.reduce none op).terms tokens := by
  obtain ⟨right, rightHeight, rest, before, rs, hterms, hstack, hr, rfl⟩ := h
  cases hstack with
  | @cons _ _ left leftHeight terms before ls token hs hl hrest hleft =>
    rw [reduce_none_terms hterms, ← hl]
    simpa using hrest.topped (.binary hs hleft hr) (max leftHeight rightHeight + 1)

theorem topped_unwind (waitsOn : PendingOp → Bool) {ops : List PendingOp} (h : Topped ops f.terms tokens) :
    Topped (unwind none waitsOn ops f).ops (unwind none waitsOn ops f).terms tokens :=
  unwind_induction (P := fun ops terms => Topped ops terms tokens) (fun _ _ _ _ h => topped_reduce h) h

theorem Holds.addOp (h : f.Holds tokens) {token : Token} {symbol : Symbol} (hs : token.symbol? = some symbol) :
    (f.addOp none symbol token.location).Holds (tokens ++ [token]) := by
  cases hf : f.afterTerm with
  | true =>
    rw [addOp_of_afterTerm hf]
    simp only [Holds, hf, if_true] at h
    exact (topped_unwind (waitsFor symbol) h).stacked hs rfl
  | false =>
    simp only [Holds, hf] at h
    cases hlead : symbol.mayLead with
    | true =>
      rw [addOp_of_mayLead hf hlead]
      exact (Stacked.topped_missing h token.location.start).stacked hs rfl
    | false =>
      rw [addOp_of_missing hf hlead]
      have htop : Topped f.ops (f.miss token.location.start).terms tokens := Stacked.topped_missing h _
      exact (topped_unwind (waitsFor symbol) htop).stacked hs rfl

theorem Holds.addTerm (h : f.Holds tokens) {t : RawTree} {first : Token} {ts : List Token}
    (ht : t.Spelled (first :: ts)) (height : Nat) {location : Location}
    (hl : location.start = first.location.start) :
    (f.addTerm none t height location).Holds (tokens ++ first :: ts) := by
  cases hf : f.afterTerm with
  | true =>
    simp only [Holds, hf, if_true] at h
    obtain ⟨callee, calleeHeight, rest, before, cs, hterms, hstack, hc, rfl⟩ := h
    rw [addTerm_of_afterTerm hf hterms, push_none, hl]
    simpa [Holds] using hstack.topped (.apply hc ht) (max calleeHeight height + 1)
  | false =>
    simp only [Holds, hf] at h
    rw [addTerm_of_no_callee (by simp [hf]), push_none]
    exact Stacked.topped h ht height

/-- The term that a frame ends as has all its tokens. -/
theorem Holds.finish (h : f.Holds tokens) (stop : Nat) : (f.finish none stop).tree.Spelled tokens := by
  have hlast (htop : Topped f.ops (f.ended stop).terms tokens) : (f.finish none stop).tree.Spelled tokens := by
    have hclosed : Topped (f.closed none stop).ops (f.closed none stop).terms tokens :=
      topped_unwind (fun _ => false) (by simpa using htop)
    obtain ⟨t, height, rest, before, ts, hterms, hstack, ht, rfl⟩ := hclosed
    rw [closed, unwind_false_ops] at hstack
    cases hstack
    rw [finish_eq, pop_fst_of_cons hterms]
    simpa using ht
  cases hf : f.afterTerm with
  | true =>
    simp only [Holds, hf, if_true] at h
    exact hlast (by simpa [ended, hf] using h)
  | false =>
    simp only [Holds, hf] at h
    cases hops : f.ops with
    | cons op ops => exact hlast (by simpa [ended, hf, hops, miss] using Stacked.topped_missing h stop)
    | nil =>
      rw [hops] at h
      generalize hterms : f.terms = terms at h
      cases h
      rw [finish_eq]
      simpa [closed, ended, hf, hops, unwind, pop, hterms] using .missing stop

end Frame

namespace Reading

variable {r : Reading} {tokens : List Token}

/-! ## Readings -/

/-- The tokens around the innermost open bracket, and that bracket. -/
inductive Opened : List OpenBracket → List Token → Prop
  | nil : Opened [] []
  | cons {o : OpenBracket} {outer : List OpenBracket} {before inside : List Token} {token : Token}
    (hs : token.symbol? = some (.opening o.bracket)) (hl : token.location.start = o.start)
    (houter : Opened outer before) (haround : o.around.Holds inside) :
    Opened (o :: outer) (before ++ inside ++ [token])

/-- The tokens that a reading has read. -/
def Holds (r : Reading) (tokens : List Token) : Prop :=
  ∃ before inside, Opened r.opened before ∧ r.current.Holds inside ∧ tokens = before ++ inside

theorem holds_initial : Holds {} [] :=
  ⟨[], [], .nil, Frame.holds_initial, rfl⟩

theorem Holds.openBracket (h : r.Holds tokens) {token : Token} {bracket : Bracket}
    (hs : token.symbol? = some (.opening bracket)) :
    (r.openBracket bracket token.location.start).Holds (tokens ++ [token]) := by
  obtain ⟨before, inside, ho, hc, rfl⟩ := h
  exact ⟨_, [], .cons hs rfl ho hc, Frame.holds_initial, (List.append_nil _).symm⟩

theorem Holds.closeBracket (h : r.Holds tokens) {innermost : OpenBracket} {outer : List OpenBracket}
    (ho : r.opened = innermost :: outer) {token : Token}
    (hs : token.symbol? = some (.closing innermost.bracket)) :
    (r.closeBracket none innermost outer token.location.start ⟨innermost.start, token.location.stop⟩).Holds
      (tokens ++ [token]) := by
  obtain ⟨before, inside, hopened, hc, rfl⟩ := h
  rw [ho] at hopened
  cases hopened with
  -- The tokens inside go to the group, and the frame around it gets the group as one term.
  | @cons _ _ before around first hfirst hstart houter haround =>
    have hgroup := RawTree.Spelled.group hfirst hs (hc.finish token.location.start)
    rw [hstart] at hgroup
    refine ⟨before, _, houter, haround.addTerm hgroup _ hstart.symm, ?_⟩
    simp

/-- A token that is read without a fault is kept. -/
theorem Holds.step (h : r.Holds tokens) {token : Token} {next : Reading} (hstep : Step none r token next []) :
    next.Holds (tokens ++ [token]) := by
  generalize hf : ([] : List ParseError) = faults at hstep
  cases hstep with
  | opening hs => exact h.openBracket hs
  | closing hs ho => exact h.closeBracket ho hs
  | operator hs _ =>
    obtain ⟨before, inside, ho, hc, rfl⟩ := h
    exact ⟨before, _, ho, hc.addOp hs, by simp⟩
  | term hs =>
    obtain ⟨before, inside, ho, hc, rfl⟩ := h
    obtain ⟨l, hleaf, hterm⟩ := RawTree.ofToken_of_no_fault hs hf.symm
    rw [hterm]
    exact ⟨before, _, ho, hc.addTerm (.leaf hleaf) 1 rfl, by simp⟩

theorem Holds.reads (h : r.Holds tokens) {read : List Token} {next : Reading} (hreads : Reads r read next) :
    next.Holds (tokens ++ read) := by
  induction hreads generalizing tokens with
  | nil => simpa using h
  | cons hstep _ ih => simpa using ih (h.step hstep)

/-- The tree that a reading without open brackets ends as has all its tokens. -/
theorem Holds.finish (h : r.Holds tokens) (ho : r.opened = []) (stop : Nat) :
    (r.current.finish none stop).tree.Spelled tokens := by
  obtain ⟨before, inside, hopened, hc, rfl⟩ := h
  rw [ho] at hopened
  cases hopened
  exact hc.finish stop

end Reading

/-- The tokens of a source text without faults spell its tree. -/
theorem RawTree.spelled_of_ofSource {source : String} {tree : RawTree}
    (h : RawTree.ofSource none source = (tree, [])) :
    lexemes source = (tokenize source).1.map Lexeme.token ∧ tree.Spelled (tokenize source).1 := by
  obtain ⟨read, next, hread, hreads, ho, rfl⟩ := Reading.reads_of_run h
  have htokens : (tokenize source).1 = read := by
    rw [tokenize, hread, List.filterMap_map]
    exact List.filterMap_some
  rw [htokens]
  exact ⟨hread, (Reading.holds_initial.reads hreads).finish ho _⟩

end DynamicConfig

import DynamicConfig.Proofs.Phrases
/-!
# Reading up to places

Reading looks at the texts of tokens only, and hands their places on to what it makes of them. So if all places are
forgotten first, the same is read with all places forgotten (`Reading.run_unlocated`), and raw trees that differ in
places at most mean expressions that differ in locations at most (`RawTree.Means.alike`). What a source text stands for
up to locations is a matter of the texts of its tokens (`exists_parse_iff`).
-/

namespace DynamicConfig

/-! ## Raw trees -/

namespace RawTree

/-- The tree with every place at the beginning of the text. -/
def unlocated : RawTree → RawTree
  | missing _ => missing 0
  | cutOff _ => cutOff 0
  | leaf l _ => leaf l (.empty 0)
  | binary symbol _ left right => binary symbol (.empty 0) left.unlocated right.unlocated
  | apply _ callee args => apply (.empty 0) callee.unlocated args.unlocated
  | group bracket _ inner => group bracket (.empty 0) inner.unlocated

/-- The trees differ in places at most. -/
inductive Alike : RawTree → RawTree → Prop
  | missing (offset offset' : Nat) : Alike (missing offset) (missing offset')
  | cutOff (offset offset' : Nat) : Alike (cutOff offset) (cutOff offset')
  | leaf (l : Leaf) (location location' : Location) : Alike (leaf l location) (leaf l location')
  | binary (symbol : Symbol) (location location' : Location) {left left' right right' : RawTree}
    (hl : Alike left left') (hr : Alike right right') :
    Alike (binary symbol location left right) (binary symbol location' left' right')
  | apply (location location' : Location) {callee callee' args args' : RawTree} (hc : Alike callee callee')
    (ha : Alike args args') : Alike (apply location callee args) (apply location' callee' args')
  | group (bracket : Bracket) (location location' : Location) {inner inner' : RawTree} (hi : Alike inner inner') :
    Alike (group bracket location inner) (group bracket location' inner')

theorem alike_unlocated (t : RawTree) : t.Alike t.unlocated := by
  induction t with
  | missing | cutOff | leaf => constructor
  | binary _ _ _ _ ihl ihr => exact .binary _ _ _ ihl ihr
  | apply _ _ _ ihc iha => exact .apply _ _ ihc iha
  | group _ _ _ ih => exact .group _ _ _ ih

theorem Alike.symm {t t' : RawTree} (h : t.Alike t') : t'.Alike t := by
  induction h with
  | missing | cutOff | leaf => constructor
  | binary _ _ _ _ _ ihl ihr => exact .binary _ _ _ ihl ihr
  | apply _ _ _ _ ihc iha => exact .apply _ _ ihc iha
  | group _ _ _ _ ih => exact .group _ _ _ ih

theorem isWhole_unlocated {t : RawTree} (h : t.IsWhole) : t.unlocated.IsWhole := by
  induction t with
  | missing | leaf => trivial
  | cutOff => exact h
  | binary _ _ _ _ ihl ihr => exact ⟨ihl h.1, ihr h.2⟩
  | apply _ _ _ ihc iha => exact ⟨ihc h.1, iha h.2⟩
  | group _ _ _ ih => exact ih h

/-- The places are the same, up to the locations of a dot and of its target. -/
inductive Place.Alike : Place → Place → Prop
  | term : Alike .term .term
  | item : Alike .item .item
  | items : Alike .items .items
  | args : Alike .args .args
  | key (dot dot' : Location) {target target' : Expr} (h : target'.unlocated = target.unlocated) :
    Alike (.key dot target) (.key dot' target')

/-- Trees that differ in places at most mean expressions that differ in locations at most. -/
theorem Means.alike {t t' : RawTree} {place place' : Place} {es : List Expr} (h : t.Means place es)
    (ht : t.Alike t') (hp : place.Alike place') : t'.Tells place' es t'.height := by
  induction h generalizing t' place' with
  | leaf l location =>
    cases hp
    cases ht with
    | leaf _ _ location' => exact ⟨_, .leaf l location', by cases l <;> rfl, rfl⟩
  | round _ ih =>
    cases hp
    cases ht with
    | group _ _ _ hi =>
      obtain ⟨e, hmeans, heq, -⟩ := (ih hi .term).exists_sole
      exact ⟨_, .round hmeans, by simp [heq], rfl⟩
  | curly _ ih =>
    cases hp
    cases ht with
    | group _ _ _ hi =>
      obtain ⟨items, hmeans, heq, -⟩ := ih hi .items
      exact ⟨_, .curly hmeans, by simp [heq], rfl⟩
  | apply _ _ ihc iha =>
    cases hp
    cases ht with
    | apply _ _ hc ha =>
      obtain ⟨c, hmeansc, heqc, -⟩ := (ihc hc .term).exists_sole
      obtain ⟨es, hmeansa, heqa, -⟩ := iha ha .args
      exact ⟨_, .apply hmeansc hmeansa, by simp [heqc, heqa], rfl⟩
  | lead hs hop _ ih =>
    cases hp
    cases ht with
    | binary _ _ _ hl hr =>
      cases hl
      obtain ⟨e, hmeans, heq, -⟩ := (ih hr .term).exists_sole
      exact ⟨_, .lead hs hop hmeans, by simp [heq], rfl⟩
  | binary hop hne _ _ ihl ihr =>
    cases hp
    cases ht with
    | binary _ _ _ hl hr =>
      obtain ⟨a, hmeansl, heql, -⟩ := (ihl hl .term).exists_sole
      obtain ⟨b, hmeansr, heqr, -⟩ := (ihr hr .term).exists_sole
      exact ⟨_, .binary hop hne hmeansl hmeansr, by simp [heql, heqr], rfl⟩
  | dot _ _ ihl ihr =>
    cases hp
    cases ht with
    | binary _ _ _ hl hr =>
      obtain ⟨a, hmeansl, heql, -⟩ := (ihl hl .term).exists_sole
      obtain ⟨e, hmeansr, heqr, -⟩ := (ihr hr (.key _ _ heql)).exists_sole
      exact ⟨_, .dot hmeansl hmeansr, by simp [heqr], rfl⟩
  | keyName dot target name location =>
    cases hp with
    | key _ dot' htarget =>
      cases ht with
      | leaf _ _ location' => exact ⟨_, .keyName dot' _ name location', by simp [htarget, Expr.stringLeaf], rfl⟩
  | keyApply _ _ ihc iha =>
    cases hp with
    | key _ dot' htarget =>
      cases ht with
      | apply _ _ hc ha =>
        obtain ⟨c, hmeansc, heqc, -⟩ := (ihc hc (.key _ _ htarget)).exists_sole
        obtain ⟨es, hmeansa, heqa, -⟩ := iha ha .args
        exact ⟨_, .keyApply hmeansc hmeansa, by simp [heqc, heqa], rfl⟩
  | keyTerm hname happly _ ih =>
    cases hp with
    | key _ dot' htarget =>
      obtain ⟨k, hmeans, heq, -⟩ := (ih ht .term).exists_sole
      refine ⟨_, .keyTerm (fun name location h => ?_) (fun location callee args h => ?_) hmeans,
        by simp [htarget, heq], rfl⟩
      · subst h
        cases ht
        exact hname _ _ rfl
      · subst h
        cases ht
        exact happly _ _ _ rfl
  | noArgs location offset =>
    cases hp
    cases ht with
    | group _ _ _ hi =>
      cases hi
      exact ⟨_, .noArgs _ _, rfl, rfl⟩
  | args _ ih =>
    cases hp
    cases ht with
    | group _ _ _ hi =>
      obtain ⟨es, hmeans, heq, -⟩ := ih hi .items
      exact ⟨es, .args hmeans, heq, rfl⟩
  | item _ ih =>
    cases hp
    obtain ⟨e, hmeans, heq, -⟩ := (ih ht .term).exists_sole
    exact ⟨_, .item hmeans, by simp [heq], rfl⟩
  | assign _ ih =>
    cases hp
    cases ht with
    | binary _ _ _ hl hr =>
      cases hl
      obtain ⟨v, hmeans, heq, -⟩ := (ih hr .item).exists_sole
      exact ⟨_, .assign hmeans, by simp [heq, Expr.stringLeaf], rfl⟩
  | one _ ih =>
    cases hp
    obtain ⟨e, hmeans, heq, -⟩ := (ih ht .item).exists_sole
    exact ⟨_, .one hmeans, by simp [heq], rfl⟩
  | comma _ _ ihl ihr =>
    cases hp
    cases ht with
    | binary _ _ _ hl hr =>
      obtain ⟨es, hmeansl, heql, -⟩ := ihl hl .items
      obtain ⟨e, hmeansr, heqr, -⟩ := (ihr hr .item).exists_sole
      exact ⟨_, .comma hmeansl hmeansr, by simp [heql, heqr], rfl⟩

end RawTree

/-! ## Frames -/

/-- The operator at the beginning of the text. -/
def PendingOp.unlocated (op : PendingOp) : PendingOp :=
  { op with location := .empty 0 }

/-- What a frame amounts to, with every place at the beginning of the text. -/
def Finished.unlocated (finished : Finished) : Finished :=
  ⟨finished.tree.unlocated, finished.height, finished.cutAt.map fun _ => 0⟩

namespace Frame

/-- The frame with every place at the beginning of the text. -/
def unlocated (f : Frame) : Frame where
  afterTerm := f.afterTerm
  ops := f.ops.map PendingOp.unlocated
  terms := f.terms.map fun term => (term.1.unlocated, term.2)
  cutAt := f.cutAt.map fun _ => 0

variable {f : Frame} {limit : Option Nat}

theorem push_unlocated (t : RawTree) (height offset : Nat) :
    (f.push limit t height offset).unlocated = f.unlocated.push limit t.unlocated height 0 := by
  unfold push
  split
  · cases hf : f.cutAt <;> simp [unlocated, hf, RawTree.unlocated]
  · rfl

theorem pop_unlocated (offset : Nat) :
    f.unlocated.pop 0 = (((f.pop offset).1.1.unlocated, (f.pop offset).1.2), (f.pop offset).2.unlocated) := by
  obtain ⟨afterTerm, ops, _ | ⟨term, rest⟩, cutAt⟩ := f <;> rfl

theorem reduce_unlocated (op : PendingOp) :
    (f.reduce limit op).unlocated = f.unlocated.reduce limit op.unlocated := by
  have hright := f.pop_unlocated op.location.stop
  have hleft := (f.pop op.location.stop).2.pop_unlocated op.location.start
  rw [reduce_eq, reduce_eq, push_unlocated]
  simp only [PendingOp.unlocated, Location.empty, hright, hleft, RawTree.unlocated]

theorem unwind_unlocated {waitsOn : PendingOp → Bool} (hw : ∀ op, waitsOn op.unlocated = waitsOn op)
    (ops : List PendingOp) :
    (unwind limit waitsOn ops f).unlocated = unwind limit waitsOn (ops.map PendingOp.unlocated) f.unlocated := by
  induction ops generalizing f with
  | nil => rfl
  | cons op rest ih =>
    rw [List.map_cons, unwind, unwind, hw, ← reduce_unlocated, ← ih]
    split <;> rfl

theorem addOp_unlocated (symbol : Symbol) (location : Location) :
    (f.addOp limit symbol location).unlocated = f.unlocated.addOp limit symbol (.empty 0) := by
  have hunwind {g : Frame} (ops : List PendingOp) : (unwind limit (waitsFor symbol) ops g).unlocated =
      unwind limit (waitsFor symbol) (ops.map PendingOp.unlocated) g.unlocated :=
    unwind_unlocated (fun _ => rfl) ops
  cases hf : f.afterTerm with
  | true =>
    rw [addOp_of_afterTerm hf, addOp_of_afterTerm (f := f.unlocated) hf]
    exact congrArg (·.await symbol (.empty 0) symbol.priority) (hunwind f.ops)
  | false =>
    cases hs : symbol.mayLead with
    | true =>
      rw [addOp_of_mayLead hf hs, addOp_of_mayLead (f := f.unlocated) hf hs]
      rfl
    | false =>
      rw [addOp_of_missing hf hs, addOp_of_missing (f := f.unlocated) hf hs]
      exact congrArg (·.await symbol (.empty 0) symbol.priority) (hunwind f.ops)

theorem addTerm_unlocated (t : RawTree) (height : Nat) (location : Location) :
    (f.addTerm limit t height location).unlocated = f.unlocated.addTerm limit t.unlocated height (.empty 0) := by
  rcases f.callee_or_not with ⟨callee, calleeHeight, rest, hf, hterms⟩ | hf
  · have hterms' : f.unlocated.terms = (callee.unlocated, calleeHeight) :: rest.map fun term => (term.1.unlocated, term.2) := by
      rw [unlocated, hterms, List.map_cons]
    rw [addTerm_of_afterTerm hf hterms, addTerm_of_afterTerm (f := f.unlocated) hf hterms']
    exact congrArg (fun g : Frame => { g with afterTerm := true })
      (push_unlocated (f := { f with terms := rest }) _ _ _)
  · have hf' : f.unlocated.afterTerm = true → f.unlocated.terms = [] := fun h => by simp [unlocated, hf h]
    rw [addTerm_of_no_callee hf, addTerm_of_no_callee hf']
    exact congrArg (fun g : Frame => { g with afterTerm := true }) (push_unlocated _ _ _)

theorem finish_unlocated (stop : Nat) : (f.finish limit stop).unlocated = f.unlocated.finish limit 0 := by
  have hended : (f.ended stop).unlocated = f.unlocated.ended 0 := by
    obtain ⟨afterTerm, ops, terms, cutAt⟩ := f
    cases afterTerm <;> cases ops <;> rfl
  have hclosed : (f.closed limit stop).unlocated = f.unlocated.closed limit 0 := by
    rw [closed, closed, ← hended]
    exact unwind_unlocated (fun _ => rfl) _
  rw [finish_eq, finish_eq, ← hclosed, pop_unlocated stop]
  rfl

end Frame

/-! ## Readings -/

/-- The token at the beginning of the text. -/
def Token.unlocated (token : Token) : Token :=
  ⟨token.text, .empty 0⟩

/-- The fault at the beginning of the text. -/
def ParseError.unlocated (e : ParseError) : ParseError :=
  ⟨e.kind, 0⟩

/-- The token or fault at the beginning of the text. -/
def Lexeme.unlocated : Lexeme → Lexeme
  | token t => token t.unlocated
  | fault e => fault e.unlocated

/-- The bracket at the beginning of the text, and every place in the frame around it. -/
def OpenBracket.unlocated (o : OpenBracket) : OpenBracket :=
  ⟨o.bracket, 0, o.around.unlocated⟩

theorem RawTree.ofToken_unlocated (token : Token) :
    ofToken token.unlocated = ((ofToken token).1.unlocated, (ofToken token).2.map ParseError.unlocated) := by
  simp only [ofToken, Token.unlocated]
  split <;> rfl

namespace Reading

/-- The reading with every place at the beginning of the text. -/
def unlocated (r : Reading) : Reading where
  current := r.current.unlocated
  opened := r.opened.map OpenBracket.unlocated
  cutAt := r.cutAt.map fun _ => 0

variable {r next : Reading} {limit : Option Nat} {token : Token} {faults : List ParseError}

theorem closeBracket_unlocated (innermost : OpenBracket) (outer : List OpenBracket) (stop : Nat) (location : Location) :
    (r.closeBracket limit innermost outer stop location).unlocated =
      r.unlocated.closeBracket limit innermost.unlocated (outer.map OpenBracket.unlocated) 0 (.empty 0) := by
  have hinner : (r.current.finish limit stop).unlocated = r.unlocated.current.finish limit 0 :=
    Frame.finish_unlocated stop
  rw [closeBracket, closeBracket, unlocated, ← hinner, Frame.addTerm_unlocated, Option.map_or]
  rfl

theorem Step.unlocated (h : Step limit r token next faults) :
    Step limit r.unlocated token.unlocated next.unlocated (faults.map ParseError.unlocated) := by
  cases h with
  | opening hs => exact Step.opening hs
  | @closing innermost outer hs ho =>
    have ho' : r.unlocated.opened = innermost.unlocated :: outer.map OpenBracket.unlocated := by
      rw [Reading.unlocated, ho, List.map_cons]
    rw [closeBracket_unlocated]
    exact Step.closing hs ho'
  | @operator symbol hs hb =>
    have hstep : Step limit r.unlocated token.unlocated _ _ := .operator hs hb
    have hnext : r.unlocated.current.addOp limit symbol (.empty 0) =
        (r.current.addOp limit symbol token.location).unlocated := (Frame.addOp_unlocated _ _).symm
    rw [Token.unlocated, hnext] at hstep
    exact hstep
  | term hs =>
    have hstep : Step limit r.unlocated token.unlocated _ _ := .term hs
    have hnext : r.unlocated.current.addTerm limit (RawTree.ofToken token).1.unlocated 1 (.empty 0) =
        (r.current.addTerm limit (RawTree.ofToken token).1 1 token.location).unlocated :=
      (Frame.addTerm_unlocated _ _ _).symm
    rw [RawTree.ofToken_unlocated, Token.unlocated, hnext] at hstep
    exact hstep

theorem closeAll_unlocated (stop : Nat) (opened : List OpenBracket) :
    (closeAll limit stop opened r).unlocated = closeAll limit 0 (opened.map OpenBracket.unlocated) r.unlocated := by
  induction opened generalizing r with
  | nil => rfl
  | cons innermost outer ih => rw [closeAll, ih, closeBracket_unlocated, List.map_cons, closeAll]; rfl

theorem finish_unlocated (stop : Nat) :
    r.unlocated.finish limit 0 = ((r.finish limit stop).1.unlocated, (r.finish limit stop).2.map fun _ => 0) := by
  have hclosed : closeAll limit 0 r.unlocated.opened r.unlocated = (closeAll limit stop r.opened r).unlocated :=
    (closeAll_unlocated stop r.opened).symm
  have hroot : (closeAll limit stop r.opened r).unlocated.current.finish limit 0 =
      ((closeAll limit stop r.opened r).current.finish limit stop).unlocated := (Frame.finish_unlocated stop).symm
  simp only [finish, hclosed, hroot, Option.map_or]
  rfl

theorem endFaults_unlocated (stop : Nat) :
    r.unlocated.endFaults limit 0 = (r.endFaults limit stop).map ParseError.unlocated := by
  rw [endFaults, endFaults, finish_unlocated stop, List.map_append, List.map_map, unlocated, List.map_map]
  cases (r.finish limit stop).2 <;> rfl

/-- Where all places are forgotten first, the same is read with all places forgotten. -/
theorem run_unlocated (stop : Nat) (lexemes : List Lexeme) :
    run limit 0 r.unlocated (lexemes.map Lexeme.unlocated) =
      ((run limit stop r lexemes).1.unlocated, (run limit stop r lexemes).2.map ParseError.unlocated) := by
  induction lexemes generalizing r with
  | nil => rw [List.map_nil, run_nil, run_nil, finish_unlocated stop, endFaults_unlocated stop]
  | cons lexeme rest ih =>
    rw [List.map_cons]
    cases lexeme with
    | fault e => rw [Lexeme.unlocated, run_fault, run_fault, ih, List.map_cons]
    | token token =>
      rcases step_or_mismatch limit r token with ⟨next, faults, hstep⟩ | ⟨bracket, hs, ho⟩
      · rw [Lexeme.unlocated, run_step hstep.unlocated, run_step hstep, ih, List.map_append]
      · have ho' : ∀ innermost outer, r.unlocated.opened = innermost :: outer → innermost.bracket ≠ bracket := by
          intro innermost outer hopened
          obtain ⟨o, rest, hr, rfl, -⟩ := List.map_eq_cons_iff.1 hopened
          exact ho o rest hr
        rw [Lexeme.unlocated, run_error (@feed_mismatch limit _ token.unlocated _ hs ho'), run_error (feed_mismatch hs ho),
          finish_unlocated stop]
        rfl

end Reading

/-! ## Source texts -/

/-- The texts of the tokens of a source text. -/
def texts (source : String) : List String :=
  (tokenize source).1.map Token.text

/-- The token with a text, at the beginning of the source text. -/
def Token.bare (text : String) : Token :=
  ⟨text, .empty 0⟩

/-- Without a limit, the raw tree of a source text is up to places what its tokens' texts are read as. -/
theorem RawTree.unlocated_ofSource {source : String} {next : Reading} (hfaults : (tokenize source).2 = [])
    (hreads : Reading.Reads {} ((texts source).map Token.bare) next) (ho : next.opened = []) :
    (ofSource none source).1.unlocated = (next.current.finish none 0).tree ∧ (ofSource none source).2 = [] := by
  have hlexemes : (lexemes source).map Lexeme.unlocated = ((texts source).map Token.bare).map Lexeme.token := by
    rw [lexemes_eq_of_no_faults hfaults, texts, List.map_map, List.map_map, List.map_map]
    rfl
  have hrun : Reading.run none 0 {} ((lexemes source).map Lexeme.unlocated) = ((next.current.finish none 0).tree, []) := by
    rw [hlexemes]
    exact hreads.run_of_closed ho 0
  have hunlocated := @Reading.run_unlocated {} none source.utf8ByteSize (lexemes source)
  obtain ⟨htree, herrors⟩ := Prod.mk.inj (hunlocated.symm.trans hrun)
  exact ⟨htree, List.map_eq_nil_iff.1 herrors⟩

/-- What a source text from which no term is cut off stands for, without faults and up to locations, is settled by the
texts of its tokens. -/
theorem exists_parse_iff {source : String} {next : Reading} {work : Collect Expr} {e : Expr}
    (hwhole : (RawTree.ofSource (some Frame.maxHeight) source).1.IsWhole)
    (hreads : Reading.Reads {} ((texts source).map Token.bare) next) (ho : next.opened = [])
    (hwork : (next.current.finish none 0).tree.meaning.term = work) :
    (∃ found, parse source = .ok ⟨found, []⟩ ∧ found.unlocated = e) ↔
      (tokenize source).2 = [] ∧ ∃ found, work.Gives [] found ∧ found.unlocated = e := by
  subst hwork
  constructor
  · rintro ⟨found, hparse, rfl⟩
    obtain ⟨tree, hsource, hmeans⟩ := parse_eq_ok hparse rfl
    have hfaults : (lexemes source).filterMap Lexeme.fault? = [] := by
      rw [(RawTree.spelled_of_ofSource hsource).1, List.filterMap_map]
      exact List.filterMap_eq_nil_iff.2 fun _ _ => rfl
    obtain ⟨htree, -⟩ := RawTree.unlocated_ofSource hfaults hreads ho
    rw [hsource] at htree
    obtain ⟨found', hmeans', heq, -⟩ := (hmeans.alike tree.alike_unlocated .term).exists_sole
    rw [htree] at hmeans'
    exact ⟨hfaults, found', Meaning.gives_term_iff.1 (hmeans'.gives []), heq⟩
  · rintro ⟨hfaults, found, hgives, rfl⟩
    obtain ⟨htree, herrors⟩ := RawTree.unlocated_ofSource hfaults hreads ho
    have hsource : RawTree.ofSource none source = ((RawTree.ofSource none source).1, []) := Prod.ext rfl herrors
    have huncut : (RawTree.ofSource none source).1.IsWhole := RawTree.ofSource_of_isWhole hwhole ▸ hwhole
    rw [← htree] at hgives
    have hmeans := (RawTree.gives_iff_means (RawTree.isWhole_unlocated huncut)).1 (Meaning.gives_term_iff.2 hgives)
    obtain ⟨found', hmeans', heq, -⟩ := (hmeans.alike (RawTree.alike_unlocated _).symm .term).exists_sole
    exact ⟨found', parse_eq_of_means hwhole hsource hmeans', heq⟩

end DynamicConfig

import DynamicConfig.Proofs.Course
import DynamicConfig.Proofs.Lossless
import DynamicConfig.Proofs.Quoting
/-!
# Places in raw trees

Every place in the raw tree of a source text is where a character of the text begins or ends, and its leaves and
operators stand where tokens do (`RawTree.Placed`). The frames keep it so, also where operands are missing, brackets are
closed at the end of the text and terms are cut off (`Reading.Passes.placed`). Only a token that is reported to lack its
quote may reach past the text (`Token.lies_or_last`).
-/

namespace DynamicConfig

/-! ## Boundaries of characters -/

/-- The place is in the source text or at its end, and cuts no character. -/
def LiesIn (source : String) (offset : Nat) : Prop :=
  (String.Pos.Raw.mk offset).IsValid source

/-- The location is a part of the source text and cuts no character. -/
structure Location.LiesIn (source : String) (location : Location) : Prop where
  ordered : location.start ≤ location.stop
  start : DynamicConfig.LiesIn source location.start
  stop : DynamicConfig.LiesIn source location.stop

theorem liesIn_iff {source : String} {offset : Nat} :
    LiesIn source offset ↔ ∃ before after, source = before ++ after ∧ offset = before.utf8ByteSize := by
  rw [LiesIn, String.Pos.Raw.isValid_iff_exists_append]
  refine exists_congr fun before => exists_congr fun after => and_congr_right fun _ => ?_
  exact String.Pos.Raw.ext_iff

theorem LiesIn.le {source : String} {offset : Nat} (h : LiesIn source offset) : offset ≤ source.utf8ByteSize := by
  obtain ⟨before, after, rfl, rfl⟩ := liesIn_iff.1 h
  rw [String.utf8ByteSize_append]
  exact Nat.le_add_right _ _

theorem liesIn_end (source : String) : LiesIn source source.utf8ByteSize :=
  liesIn_iff.2 ⟨source, "", (String.append_empty).symm, rfl⟩

theorem liesIn_of_toList {source before : String} {after : List Char} (h : source.toList = before.toList ++ after) :
    LiesIn source before.utf8ByteSize :=
  liesIn_iff.2 ⟨before, String.ofList after, String.toList_inj.1 (by simp [h]), rfl⟩

theorem Location.LiesIn.empty {source : String} {offset : Nat} (h : DynamicConfig.LiesIn source offset) :
    (Location.empty offset).LiesIn source :=
  ⟨Nat.le_refl _, h, h⟩

/-- A location in the source text covers a part of it. -/
theorem Location.LiesIn.exists_slice {source : String} {location : Location} (h : location.LiesIn source) :
    ∃ text, location.slice? source = some text := by
  obtain ⟨before, rest, hsource, hstart⟩ := liesIn_iff.1 h.start
  obtain ⟨upto, after, hsource', hstop⟩ := liesIn_iff.1 h.stop
  have hsplit : before.toList ++ rest.toList = upto.toList ++ after.toList := by
    rw [← String.toList_append, ← String.toList_append, ← hsource, ← hsource']
  obtain ⟨text, rfl⟩ : ∃ text, upto = before ++ text := by
    rcases List.append_eq_append_iff.1 hsplit with ⟨text, hupto, -⟩ | ⟨text, hbefore, -⟩
    · exact ⟨String.ofList text, String.toList_inj.1 (by simpa using hupto)⟩
    · have hbefore : before = upto ++ String.ofList text := String.toList_inj.1 (by simpa using hbefore)
      have hempty : String.ofList text = "" := by
        have hle := h.ordered
        rw [hstart, hstop, hbefore, String.utf8ByteSize_append] at hle
        exact String.utf8ByteSize_eq_zero_iff.1 (by omega)
      exact ⟨"", by rw [hbefore, hempty, String.append_empty, String.append_empty]⟩
  have hlocation : location = ⟨before.utf8ByteSize, before.utf8ByteSize + text.utf8ByteSize⟩ := by
    rw [← String.utf8ByteSize_append, ← hstart, ← hstop]
  have hwhole : source.toList = before.toList ++ (text.toList ++ after.toList) := by
    rw [hsource']
    simp
  rw [hlocation]
  exact ⟨text, slice?_of_append hwhole⟩

theorem exists_of_dropBytes? {bytes : Nat} {chars rest : List Char} (h : dropBytes? bytes chars = some rest) :
    ∃ before : String, chars = before.toList ++ rest ∧ bytes = before.utf8ByteSize := by
  fun_induction dropBytes? bytes chars with
  | case1 chars => exact ⟨"", (Option.some.inj h), rfl⟩
  | case2 => cases h
  | case3 bytes c chars hfits ih =>
    obtain ⟨before, rfl, hbytes⟩ := ih h
    refine ⟨String.singleton c ++ before, by simp, ?_⟩
    rw [String.utf8ByteSize_append, String.utf8ByteSize_singleton]
    omega
  | case4 => cases h

theorem exists_of_takeBytes? {bytes : Nat} {chars taken : List Char} (h : takeBytes? bytes chars = some taken) :
    bytes = (String.ofList taken).utf8ByteSize ∧ ∃ after, chars = taken ++ after := by
  fun_induction takeBytes? bytes chars generalizing taken with
  | case1 chars =>
    cases h
    exact ⟨rfl, chars, rfl⟩
  | case2 => cases h
  | case3 bytes c chars hfits ih =>
    obtain ⟨taken, htaken, rfl⟩ := Option.map_eq_some_iff.1 h
    obtain ⟨hbytes, after, rfl⟩ := ih htaken
    refine ⟨?_, after, rfl⟩
    rw [String.ofList_cons, String.utf8ByteSize_append, String.utf8ByteSize_singleton]
    omega
  | case4 => cases h

/-- What covers a part of the source text is a location in it. -/
theorem Location.liesIn_of_slice {source text : String} {location : Location} (h : location.slice? source = some text) :
    location.LiesIn source := by
  obtain ⟨_, hguard, h⟩ := Option.bind_eq_some_iff.1 h
  obtain ⟨rest, hdrop, h⟩ := Option.bind_eq_some_iff.1 h
  obtain ⟨taken, htake, -⟩ := Option.bind_eq_some_iff.1 h
  have hordered : location.start ≤ location.stop := by
    by_contra hlt
    have hnone : (guard (location.start ≤ location.stop) : Option Unit) = none := if_neg hlt
    rw [hnone] at hguard
    cases hguard
  obtain ⟨before, hsource, hstart⟩ := exists_of_dropBytes? hdrop
  obtain ⟨hsize, after, rfl⟩ := exists_of_takeBytes? htake
  have hstop : location.stop = (before ++ String.ofList taken).utf8ByteSize := by
    rw [String.utf8ByteSize_append, ← hsize, ← hstart]
    omega
  have hupto : source.toList = (before ++ String.ofList taken).toList ++ after := by simpa using hsource
  exact ⟨hordered, hstart ▸ liesIn_of_toList hsource, hstop ▸ liesIn_of_toList hupto⟩

/-! ## Tokens -/

/-- The token begins in the source text, and a symbol ends there too. -/
structure Token.Stands (source : String) (token : Token) : Prop where
  ordered : token.location.start ≤ token.location.stop
  start : LiesIn source token.location.start
  stop : token.symbol?.isSome → LiesIn source token.location.stop

/-- The tokens and faults that a source text is cut into stand in it. -/
theorem Pieces.stands {source : String} {offset : Nat} {chars : List Char} {tokens : List Token}
    {faults : List ParseError} (h : Pieces offset chars tokens faults) (before : String)
    (hoffset : offset = before.utf8ByteSize) (hsource : source.toList = before.toList ++ chars) :
    (∀ token ∈ tokens, token.Stands source) ∧ ∀ e ∈ faults, LiesIn source e.offset := by
  induction h generalizing before with
  | done => simp
  | @blank offset c rest tokens faults _ _ ih =>
    exact ih (before.push c) (by rw [hoffset, String.utf8ByteSize_push]) (by simpa using hsource)
  | @invalid offset c rest tokens faults _ _ ih =>
    subst hoffset
    obtain ⟨htokens, hfaults⟩ := ih (before.push c) (String.utf8ByteSize_push).symm (by simpa using hsource)
    exact ⟨htokens, List.forall_mem_cons.2 ⟨liesIn_of_toList hsource, hfaults⟩⟩
  | @token offset text rest tokens faults _ _ _ ih =>
    subst hoffset
    have hupto : source.toList = (before ++ text).toList ++ rest := by simpa using hsource
    have hstop : LiesIn source (before.utf8ByteSize + text.utf8ByteSize) := by
      rw [← String.utf8ByteSize_append]
      exact liesIn_of_toList hupto
    obtain ⟨htokens, hfaults⟩ := ih (before ++ text) (String.utf8ByteSize_append).symm hupto
    refine ⟨List.forall_mem_cons.2 ⟨⟨Nat.le_add_right _ _, liesIn_of_toList hsource, fun _ => hstop⟩, htokens⟩, hfaults⟩
  | @unclosed text rest htext offset marks hmarks =>
    subst hoffset
    have hstart : LiesIn source before.utf8ByteSize := liesIn_of_toList hsource
    refine ⟨List.forall_mem_singleton.2 ⟨Nat.le_add_right _ _, hstart, fun hs => ?_⟩, List.forall_mem_singleton.2 hstart⟩
    -- A string is no symbol.
    have hquote : (text ++ marks).toList = '"' :: (rest ++ marks.toList) := by
      rw [String.toList_append, htext, List.cons_append]
    have hnone : (Token.startingAt before.utf8ByteSize (text ++ marks)).symbol? = none := Symbol.ofText?_of_quote hquote
    rw [hnone] at hs
    cases hs

/-- A token lies in the source text, or it is the last one and reported to lack its quote. -/
theorem Token.lies_or_last {source : String} {token : Token} (h : token ∈ (tokenize source).1) :
    token.location.LiesIn source ∨ (tokenize source).1.getLast? = some token ∧
      ⟨.incompleteString, token.location.start⟩ ∈ (tokenize source).2 :=
  ((pieces_tokenize source).faithful "" rfl rfl token h).imp Location.liesIn_of_slice fun ⟨hlast, _, hfault⟩ =>
    ⟨hlast, hfault⟩

theorem token_stands {source : String} {token : Token} (h : token ∈ (tokenize source).1) : token.Stands source :=
  ((pieces_tokenize source).stands "" rfl rfl).1 token h

/-! ## Trees -/

/-- One of the tokens is the symbol, at the location. -/
structure SymbolAt (source : String) (tokens : List Token) (symbol : Symbol) (location : Location) : Prop where
  lies : location.LiesIn source
  token : ∃ token ∈ tokens, token.symbol? = some symbol ∧ token.location = location
  not_bracket : symbol.isBracket = false

/-- The places of the tree lie in the source text, and its leaves and operators stand where tokens do. -/
inductive RawTree.Placed (source : String) (tokens : List Token) : RawTree → Prop
  | missing {offset : Nat} (h : LiesIn source offset) : Placed source tokens (missing offset)
  | cutOff {offset : Nat} (h : LiesIn source offset) : Placed source tokens (cutOff offset)
  | leaf {l : Leaf} {location : Location} (h : ∃ token ∈ tokens, token.location = location) :
    Placed source tokens (leaf l location)
  | binary {symbol : Symbol} {location : Location} {left right : RawTree}
    (h : SymbolAt source tokens symbol location) (hl : Placed source tokens left)
    (hr : Placed source tokens right) : Placed source tokens (binary symbol location left right)
  | apply {offset : Nat} {callee args : RawTree} (h : LiesIn source offset) (hc : Placed source tokens callee)
    (ha : Placed source tokens args) : Placed source tokens (apply (.empty offset) callee args)
  | group {bracket : Bracket} {location : Location} {inner : RawTree} (h : location.LiesIn source)
    (hi : Placed source tokens inner) : Placed source tokens (group bracket location inner)

variable {source : String} {tokens : List Token} {limit : Option Nat}

theorem RawTree.placed_ofToken {token : Token} (ht : token ∈ tokens) (hs : token.Stands source) :
    (ofToken token).1.Placed source tokens ∧ ∀ e ∈ (ofToken token).2, LiesIn source e.offset := by
  unfold ofToken
  split
  · exact ⟨.leaf ⟨token, ht, rfl⟩, by simp⟩
  · exact ⟨.missing hs.start, List.forall_mem_singleton.2 hs.start⟩

/-! ## Frames -/

namespace Frame

/-- The terms of a frame are placed, and its operators and the place of what was cut off. -/
structure Placed (source : String) (tokens : List Token) (f : Frame) : Prop where
  terms : ∀ term ∈ f.terms, term.1.Placed source tokens
  ops : ∀ op ∈ f.ops, SymbolAt source tokens op.symbol op.location
  cutAt : ∀ offset ∈ f.cutAt, LiesIn source offset

variable {f : Frame} {offset stop : Nat}

theorem placed_initial : Placed source tokens {} :=
  ⟨by simp, by simp, by simp⟩

theorem Placed.miss (h : f.Placed source tokens) (ho : LiesIn source offset) : (f.miss offset).Placed source tokens :=
  ⟨List.forall_mem_cons.2 ⟨.missing ho, h.terms⟩, h.ops, h.cutAt⟩

theorem Placed.await (h : f.Placed source tokens) {symbol : Symbol} {location : Location}
    (hs : SymbolAt source tokens symbol location) (priority : Nat) :
    (f.await symbol location priority).Placed source tokens :=
  ⟨h.terms, List.forall_mem_cons.2 ⟨hs, h.ops⟩, h.cutAt⟩

theorem Placed.push (h : f.Placed source tokens) (limit : Option Nat) {t : RawTree} (ht : t.Placed source tokens) (height : Nat)
    (ho : LiesIn source offset) : (f.push limit t height offset).Placed source tokens := by
  unfold Frame.push
  split
  · refine ⟨List.forall_mem_cons.2 ⟨.cutOff ho, h.terms⟩, h.ops, fun place hplace => ?_⟩
    rcases Option.or_eq_some_iff.1 hplace with hcut | ⟨-, hcut⟩
    · exact h.cutAt place hcut
    · exact Option.some.inj hcut ▸ ho
  · exact ⟨List.forall_mem_cons.2 ⟨ht, h.terms⟩, h.ops, h.cutAt⟩

theorem Placed.pop (h : f.Placed source tokens) (ho : LiesIn source offset) :
    (f.pop offset).1.1.Placed source tokens ∧ (f.pop offset).2.Placed source tokens := by
  unfold Frame.pop
  split
  case h_1 => exact ⟨.missing ho, h⟩
  case h_2 term rest hterms =>
    have hall := h.terms
    rw [hterms] at hall
    obtain ⟨hterm, hrest⟩ := List.forall_mem_cons.1 hall
    exact ⟨hterm, hrest, h.ops, h.cutAt⟩

/-- An operator that took an operand where there is none would miss it at one of its own ends. -/
theorem Placed.reduce (h : f.Placed source tokens) {op : PendingOp} (ho : SymbolAt source tokens op.symbol op.location) :
    (f.reduce limit op).Placed source tokens := by
  obtain ⟨hright, hrest⟩ := h.pop ho.lies.stop
  obtain ⟨hleft, hrest⟩ := hrest.pop ho.lies.start
  rw [reduce_eq]
  exact hrest.push limit (.binary ho hleft hright) _ ho.lies.start

theorem Placed.unwind (waitsOn : PendingOp → Bool) {ops : List PendingOp} (h : f.Placed source tokens)
    (ho : ∀ op ∈ ops, SymbolAt source tokens op.symbol op.location) :
    (unwind limit waitsOn ops f).Placed source tokens := by
  induction ops generalizing f with
  | nil => exact ⟨h.terms, by simp [Frame.unwind], h.cutAt⟩
  | cons top rest ih =>
    obtain ⟨htop, hrest⟩ := List.forall_mem_cons.1 ho
    unfold Frame.unwind
    split
    · exact ⟨h.terms, ho, h.cutAt⟩
    · exact ih (h.reduce htop) hrest

theorem Placed.addOp (h : f.Placed source tokens) {symbol : Symbol} {location : Location}
    (hs : SymbolAt source tokens symbol location) : (f.addOp limit symbol location).Placed source tokens := by
  cases hf : f.afterTerm with
  | true =>
    rw [addOp_of_afterTerm hf]
    exact (h.unwind (waitsFor symbol) h.ops).await hs _
  | false =>
    have hmiss := h.miss hs.lies.start
    cases hlead : symbol.mayLead with
    | true =>
      rw [addOp_of_mayLead hf hlead]
      exact hmiss.await hs _
    | false =>
      rw [addOp_of_missing hf hlead]
      exact (hmiss.unwind (waitsFor symbol) h.ops).await hs _

theorem Placed.addTerm (h : f.Placed source tokens) {t : RawTree} (ht : t.Placed source tokens) (height : Nat)
    {location : Location} (hl : LiesIn source location.start) :
    (f.addTerm limit t height location).Placed source tokens := by
  rcases f.callee_or_not with ⟨callee, calleeHeight, rest, hf, hterms⟩ | hf
  · have hall := h.terms
    rw [hterms] at hall
    obtain ⟨hcallee, hrest⟩ := List.forall_mem_cons.1 hall
    rw [addTerm_of_afterTerm hf hterms]
    have hwithout : { f with terms := rest }.Placed source tokens := ⟨hrest, h.ops, h.cutAt⟩
    have hpushed := hwithout.push limit (.apply hl hcallee ht) (max calleeHeight height + 1) hl
    exact ⟨hpushed.terms, hpushed.ops, hpushed.cutAt⟩
  · rw [addTerm_of_no_callee hf]
    have hpushed := h.push limit ht height hl
    exact ⟨hpushed.terms, hpushed.ops, hpushed.cutAt⟩

/-- A frame that ends in the source text ends as a term that is placed. -/
theorem Placed.finish (h : f.Placed source tokens) (limit : Option Nat) (hstop : LiesIn source stop) :
    (f.finish limit stop).tree.Placed source tokens ∧ ∀ offset ∈ (f.finish limit stop).cutAt, LiesIn source offset := by
  have hended : (f.ended stop).Placed source tokens := by
    unfold Frame.ended
    split
    · exact h.miss hstop
    · exact h
  have hclosed : (f.closed limit stop).Placed source tokens := hended.unwind _ hended.ops
  rw [finish_eq]
  exact ⟨(hclosed.pop hstop).1, hclosed.cutAt⟩

end Frame

/-! ## Readings -/

namespace Reading

/-- All frames are placed, and the open brackets and the place of what was cut off. -/
structure Placed (source : String) (tokens : List Token) (r : Reading) : Prop where
  current : r.current.Placed source tokens
  opened : ∀ o ∈ r.opened, LiesIn source o.start ∧ o.around.Placed source tokens
  cutAt : ∀ offset ∈ r.cutAt, LiesIn source offset

variable {r next : Reading} {token : Token} {stop : Nat}

theorem placed_initial : Placed source tokens {} :=
  ⟨Frame.placed_initial, by simp, by simp⟩

theorem Placed.closeBracket (h : r.Placed source tokens) {innermost : OpenBracket} {outer : List OpenBracket}
    (ho : r.opened = innermost :: outer) (hstop : LiesIn source stop) {location : Location}
    (hl : location.LiesIn source) :
    (r.closeBracket limit innermost outer stop location).Placed source tokens := by
  have hopened := h.opened
  rw [ho] at hopened
  obtain ⟨⟨-, haround⟩, houter⟩ := List.forall_mem_cons.1 hopened
  obtain ⟨htree, hcut⟩ := h.current.finish limit hstop
  refine ⟨haround.addTerm (.group hl htree) _ hl.start, houter, fun offset hoffset => ?_⟩
  rcases Option.or_eq_some_iff.1 hoffset with hr | ⟨-, hinner⟩
  · exact h.cutAt offset hr
  · exact hcut offset hinner

/-- A token keeps a reading placed, if it ends after the open brackets begin. -/
theorem Step.placed {faults : List ParseError} (h : Step limit r token next faults) (hr : r.Placed source tokens)
    (ht : token ∈ tokens) (hs : token.Stands source) (ho : ∀ o ∈ r.opened, o.start ≤ token.location.stop) :
    next.Placed source tokens := by
  cases h with
  | opening _ => exact ⟨Frame.placed_initial, List.forall_mem_cons.2 ⟨⟨hs.start, hr.current⟩, hr.opened⟩, hr.cutAt⟩
  | @closing innermost outer hsymbol hopened =>
    have hmem : innermost ∈ r.opened := hopened ▸ List.mem_cons_self
    have hstop : LiesIn source token.location.stop := hs.stop (by rw [Token.symbol?, hsymbol]; rfl)
    exact hr.closeBracket hopened hs.start ⟨ho innermost hmem, (hr.opened innermost hmem).1, hstop⟩
  | @operator symbol hsymbol hb =>
    have hstop : LiesIn source token.location.stop := hs.stop (by rw [Token.symbol?, hsymbol]; rfl)
    exact ⟨hr.current.addOp ⟨⟨hs.ordered, hs.start, hstop⟩, ⟨token, ht, hsymbol, rfl⟩, hb⟩, hr.opened, hr.cutAt⟩
  | term _ => exact ⟨hr.current.addTerm (RawTree.placed_ofToken ht hs).1 _ hs.start, hr.opened, hr.cutAt⟩

/-- What is open after a token was open before it, or it is the token. -/
theorem Step.start_of_mem_opened {faults : List ParseError} (h : Step limit r token next faults) {o : OpenBracket}
    (ho : o ∈ next.opened) : o ∈ r.opened ∨ o.start = token.location.start := by
  cases h with
  | opening _ =>
    rcases List.mem_cons.1 ho with rfl | ho
    · exact .inr rfl
    · exact .inl ho
  | closing _ hopened => exact .inl (hopened ▸ List.mem_cons_of_mem _ ho)
  | operator _ _ | term _ => exact .inl ho

/-- Tokens in their order keep a reading placed. -/
theorem Passes.placed {read : List Token} (h : Passes limit r read next) (hr : r.Placed source tokens)
    (ht : ∀ token ∈ read, token ∈ tokens ∧ token.Stands source)
    (hread : read.Pairwise fun a b => a.location.start ≤ b.location.stop)
    (ho : ∀ o ∈ r.opened, ∀ token ∈ read, o.start ≤ token.location.stop) : next.Placed source tokens := by
  induction h with
  | nil => exact hr
  | @cons r between next token read faults hstep _ ih =>
    obtain ⟨⟨hmem, hstands⟩, hrest⟩ := List.forall_mem_cons.1 ht
    obtain ⟨hfirst, hlater⟩ := List.pairwise_cons.1 hread
    refine ih (hstep.placed hr hmem hstands fun o hopened => ho o hopened token List.mem_cons_self) hrest hlater ?_
    intro o hopened later hm
    rcases hstep.start_of_mem_opened hopened with hopened | hstart
    · exact ho o hopened later (List.mem_cons_of_mem _ hm)
    · exact hstart ▸ hfirst later hm

theorem Placed.closeAll {opened : List OpenBracket} (h : r.Placed source tokens) (limit : Option Nat) (ho : r.opened = opened)
    (hstop : LiesIn source stop) (hlast : ∀ offset, LiesIn source offset → offset ≤ stop) :
    (closeAll limit stop opened r).Placed source tokens := by
  induction opened generalizing r with
  | nil => exact ⟨h.current, by simp [Reading.closeAll], h.cutAt⟩
  | cons o outer ih =>
    have hstart := (h.opened o (ho ▸ List.mem_cons_self)).1
    exact ih (h.closeBracket ho hstop ⟨hlast _ hstart, hstart, hstop⟩) rfl

/-- Where a reading ends with the source text, its tree is placed, and the place of what was cut off. -/
theorem Placed.finish (h : r.Placed source tokens) (limit : Option Nat) :
    (r.finish limit source.utf8ByteSize).1.Placed source tokens ∧
      ∀ offset ∈ (r.finish limit source.utf8ByteSize).2, LiesIn source offset := by
  have hclosed := h.closeAll limit rfl (liesIn_end source) fun _ => LiesIn.le
  obtain ⟨htree, hcut⟩ := hclosed.current.finish limit (liesIn_end source)
  refine ⟨htree, fun offset hoffset => ?_⟩
  rcases Option.or_eq_some_iff.1 hoffset with hr | ⟨-, hroot⟩
  · exact hclosed.cutAt offset hr
  · exact hcut offset hroot

theorem Placed.endFaults (h : r.Placed source tokens) :
    ∀ e ∈ r.endFaults limit source.utf8ByteSize, LiesIn source e.offset := by
  refine List.forall_mem_append.2 ⟨List.forall_mem_map.2 fun o ho => (h.opened o ho).1, fun e he => ?_⟩
  obtain ⟨offset, hoffset, rfl⟩ := Option.map_eq_some_iff.1 (Option.mem_toList.1 he)
  exact (h.finish limit).2 offset hoffset

/-- The fault of a single token, or of a character that begins none. -/
theorem mem_run_of_isLexical {lexemes : List Lexeme} {e : ParseError} (h : e ∈ (run limit stop r lexemes).2)
    (hl : e.IsLexical) : .fault e ∈ lexemes ∨ ∃ token, .token token ∈ lexemes ∧ e ∈ (RawTree.ofToken token).2 := by
  induction lexemes generalizing r with
  | nil => exact absurd (isStructural_endFaults e h) hl.not_isStructural
  | cons lexeme rest ih =>
    have hlater {r : Reading} (h : e ∈ (run limit stop r rest).2) : .fault e ∈ lexeme :: rest ∨
        ∃ token, .token token ∈ lexeme :: rest ∧ e ∈ (RawTree.ofToken token).2 :=
      (ih h).imp (List.mem_cons_of_mem _) fun ⟨token, hm, he⟩ => ⟨token, List.mem_cons_of_mem _ hm, he⟩
    cases lexeme with
    | fault e' =>
      rw [run_fault] at h
      rcases List.mem_cons.1 h with rfl | h
      · exact .inl List.mem_cons_self
      · exact hlater h
    | token token =>
      rcases step_or_mismatch limit r token with ⟨next, faults, hstep⟩ | ⟨bracket, hs, ho⟩
      · rw [run_step hstep] at h
        rcases List.mem_append.1 h with he | h
        · cases hstep with
          | term _ => exact .inr ⟨token, List.mem_cons_self, he⟩
          | _ => cases he
        · exact hlater h
      · rw [run_error (feed_mismatch hs ho)] at h
        obtain rfl := List.mem_singleton.1 h
        exact absurd rfl hl.not_isStructural

end Reading

end DynamicConfig

import DynamicConfig.Proofs.Postfix
/-!
# Fields and calls as they are read

While raw trees are read, terms side by side bind tighter than the dot, so arguments after a field hang below its key. As
an expression they are a call of the field all the same: what stands before a link of a chain has the same reading with
brackets around it and without (`Frame.IsStem`, `ReadsAs.brackets`). So a chain is read from the left to the right, one
link after the other, as if all that comes before each stood in brackets (`field_access_binds_tighter`).
-/

namespace DynamicConfig

open Scanner (reached)

/-! ## Terms between brackets -/

theorem Balanced.unlocated {tokens : List Token} (h : Balanced tokens) : Balanced (tokens.map Token.unlocated) := by
  induction h with
  | nil => exact .nil
  | other hb _ ih => exact .other hb ih
  | pair hf hl _ _ ihinner ihrest =>
    rw [List.cons_append, List.map_cons, List.map_append, List.map_cons]
    exact .pair hf hl ihinner ihrest

/-- The tokens take the frame inside the innermost open bracket to another one, whatever is open around it. -/
def Frame.ReadsTo (f : Frame) (tokens : List Token) (g : Frame) : Prop :=
  g.cutAt = none ∧ ∀ opened, Reading.Reads ⟨f, opened, none⟩ tokens ⟨g, opened, none⟩

namespace Frame

variable {f g k : Frame} {tokens rest : List Token} {token : Token}

theorem readsTo_nil (hf : f.cutAt = none) : f.ReadsTo [] f :=
  ⟨hf, fun _ => .nil _⟩

theorem ReadsTo.append (h : f.ReadsTo tokens g) (hrest : g.ReadsTo rest k) : f.ReadsTo (tokens ++ rest) k :=
  ⟨hrest.1, fun opened => (h.2 opened).append (hrest.2 opened)⟩

theorem readsTo_leaf (hf : f.cutAt = none) {l : Leaf} (hl : token.leaf? = some l) :
    f.ReadsTo [token] (f.addTerm none (.leaf l token.location) 1 token.location) :=
  ⟨(addTerm_none_cutAt _ _ _).trans hf, fun opened => .leaf hl ⟨f, opened, none⟩⟩

theorem readsTo_operator (hf : f.cutAt = none) {symbol : Symbol} (hs : token.symbol? = some symbol)
    (hb : symbol.isBracket = false) : f.ReadsTo [token] (f.addOp none symbol token.location) :=
  ⟨(addOp_none_cutAt _ _).trans hf, fun _ => .single (.operator hs hb)⟩

/-- What is read into a frame of its own between brackets is one term of the frame around them. -/
theorem ReadsTo.around (h : ReadsTo {} tokens g) (hf : f.cutAt = none) {bracket : Bracket} {first last : Token}
    (hfirst : first.symbol? = some (.opening bracket)) (hlast : last.symbol? = some (.closing bracket)) :
    f.ReadsTo (first :: (tokens ++ [last]))
      (f.addTerm none
        (.group bracket ⟨first.location.start, last.location.stop⟩ (g.finish none last.location.start).tree)
        ((g.finish none last.location.start).height + 1) ⟨first.location.start, last.location.stop⟩) := by
  refine ⟨(addTerm_none_cutAt _ _ _).trans hf, fun opened => ?_⟩
  have hclosing : Symbol.ofText? last.text = some (.closing (OpenBracket.mk bracket first.location.start f).bracket) :=
    hlast
  have hclose : Reading.Step none ⟨g, ⟨bracket, first.location.start, f⟩ :: opened, none⟩ last _ [] :=
    .closing hclosing rfl
  have hcut : (g.finish none last.location.start).cutAt = none := (finish_none_cutAt _).trans h.1
  rw [Reading.closeBracket, hcut] at hclose
  exact .cons (.opening hfirst) ((h.2 _).append (.single hclose))

/-- Balanced tokens are read, whatever they are. -/
theorem exists_readsTo_of_balanced (h : Balanced tokens) (hp : ∀ token ∈ tokens, token.IsProper) (hf : f.cutAt = none) :
    ∃ g, f.ReadsTo tokens g := by
  induction h generalizing f with
  | nil => exact ⟨f, readsTo_nil hf⟩
  | @other token rest hb _ ih =>
    obtain ⟨hproper, hrest⟩ := List.forall_mem_cons.1 hp
    have hfirst : ∃ g, f.ReadsTo [token] g := by
      rcases hproper.cases with ⟨symbol, hs, -⟩ | ⟨l, hl, -⟩
      · rw [Token.isBracket, hs] at hb
        exact ⟨_, readsTo_operator hf hs hb⟩
      · exact ⟨_, readsTo_leaf hf hl⟩
    obtain ⟨g, hg⟩ := hfirst
    obtain ⟨k, hk⟩ := ih hrest hg.1
    exact ⟨k, hg.append hk⟩
  | @pair first last inner rest bracket hfirst hlast _ _ ihinner ihrest =>
    obtain ⟨hbefore, hafter⟩ := List.forall_mem_append.1 hp
    obtain ⟨g, hg⟩ := @ihinner {} (List.forall_mem_cons.1 hbefore).2 rfl
    have hgroup := hg.around hf hfirst hlast
    obtain ⟨k, hk⟩ := ihrest (List.forall_mem_cons.1 hafter).2 hgroup.1
    refine ⟨k, ?_⟩
    have hall := hgroup.append hk
    rwa [List.cons_append, List.append_assoc] at hall

end Frame

/-- The text is read as one term, up to places, whatever frame goes on with it. -/
structure IsPiece (text : String) : Prop where
  terminated : Terminated text
  nonempty : text ≠ ""
  reads : ∃ t height, ∀ f : Frame, f.cutAt = none →
    f.ReadsTo ((texts text).map Token.bare) (f.addTerm none t height (.empty 0))

/-- A text of one token that is a leaf. -/
theorem isPiece_leaf (hc : Terminated text) (hne : text ≠ "") (ht : texts text = [text]) {l : Leaf}
    (hl : (Token.bare text).leaf? = some l) : IsPiece text := by
  refine ⟨hc, hne, .leaf l (.empty 0), 1, fun f hf => ?_⟩
  rw [ht]
  exact Frame.readsTo_leaf hf hl

theorem Enclosed.isPiece (inner : Enclosed) (bracket : Bracket) : IsPiece (bracket.around inner.text) := by
  have hbare : (texts inner.text).map Token.bare = (tokenize inner.text).1.map Token.unlocated := by
    rw [texts, List.map_map]
    rfl
  have hbalanced : Balanced ((texts inner.text).map Token.bare) := hbare ▸ inner.balanced.unlocated
  have hproper : ∀ token ∈ (texts inner.text).map Token.bare, token.IsProper := by
    rw [hbare]
    exact List.forall_mem_map.2 (pieces_tokenize inner.text).isProper
  obtain ⟨g, hg⟩ := Frame.exists_readsTo_of_balanced (f := {}) hbalanced hproper rfl
  refine ⟨bracket.terminated_around inner.outside, bracket.around_ne_empty, .group bracket (.empty 0) (g.finish none 0).tree,
    (g.finish none 0).height + 1, fun f hf => ?_⟩
  rw [bracket.texts_around inner.outside, List.map_cons, List.map_append]
  exact hg.around hf (Symbol.ofText?_text _) (Symbol.ofText?_text _)

theorem Primary.isPiece (p : Primary) : IsPiece p.text := by
  cases p with
  | name text h =>
    have hne : text ≠ "" := by
      rintro rfl
      cases h
    obtain ⟨token, htoken, hleaf⟩ := IsToken.name h ⟨0, rfl⟩
    cases htoken
    exact isPiece_leaf (terminated_name h) hne (tokenize_of_scans (.word (Text.isWord_of_isName h))).1 hleaf
  | string body h =>
    have hne : quotedText body ≠ "" := fun hempty => by
      have hlist := congrArg String.toList hempty
      rw [toList_quotedText] at hlist
      cases hlist
    have hleaf : (Token.bare (quotedText body)).leaf? = some (.string (Text.Quoted.decode (body ++ ['"']))) :=
      Token.leaf?_eq_some_iff.2 ⟨Symbol.ofText?_of_quote (toList_quotedText body), Leaf.ofText?_quote (toList_quotedText body)⟩
    exact isPiece_leaf (terminated_quotedText h) hne (tokenize_quotedText h).1 hleaf
  | group bracket inner => exact inner.isPiece bracket

/-! ## Stems -/

namespace Frame

/-- The frame holds a term with such a reading, or one that a dot and a key go on to. -/
inductive IsStem : Collect Expr → Frame → Prop
  | term {t : RawTree} (height : Nat) : IsStem t.meaning.term (grown {} t height)
  | key {left t : RawTree} (leftHeight height : Nat) :
    IsStem (do t.meaning.key (.empty 0) (← left.meaning.term))
      (((grown {} left leftHeight).await .dot (.empty 0) Symbol.dot.priority).grown t height)

variable {f : Frame} {work : Collect Expr}

theorem IsStem.cutAt (h : f.IsStem work) : f.cutAt = none := by
  cases h <;> rfl

/-- At the end of the frame the stem is a term. -/
theorem IsStem.finish (h : f.IsStem work) : (f.finish none 0).tree.meaning.term = work := by
  cases h <;> rfl

/-- At a dot the stem is a term, which the key after the dot is one of. -/
theorem IsStem.field (h : f.IsStem work) (t : RawTree) (height : Nat) :
    ((f.addOp none .dot (.empty 0)).addTerm none t height (.empty 0)).IsStem (do t.meaning.key (.empty 0) (← work)) := by
  cases h with
  | term leftHeight => exact .key leftHeight height
  | @key left key leftHeight keyHeight => 
    exact @IsStem.key (.binary .dot (.empty 0) left key) t _ height

/-- Arguments after a key are those of a call of the field. -/
theorem IsStem.call (h : f.IsStem work) (t : RawTree) (height : Nat) :
    (f.addTerm none t height (.empty 0)).IsStem (do Meaning.call t.meaning.args (.empty 0) (← work)) := by
  cases h with
  | @term callee calleeHeight => exact IsStem.term (t := .apply (.empty 0) callee t) _
  | @key left key leftHeight keyHeight =>
    rw [bind_assoc]
    exact IsStem.key (t := .apply (.empty 0) key t) leftHeight _

end Frame

/-! ## Chains as they are read -/

/-- The text is read as a stem with such a reading, up to places, and its tokens are sound or not. -/
structure ReadsAs (text : String) (work : Collect Expr) (sound : Prop) : Prop where
  terminated : Terminated text
  faults : (tokenize text).2 = [] ↔ sound
  reads : ∃ f : Frame, f.IsStem work ∧ Frame.ReadsTo {} ((texts text).map Token.bare) f

theorem Primary.exists_readsAs (p : Primary) : ∃ work sound, ReadsAs p.text work sound := by
  obtain ⟨hterminated, -, t, height, hreads⟩ := p.isPiece
  exact ⟨_, _, hterminated, Iff.rfl, _, .term height, hreads {} rfl⟩

variable {text : String} {work : Collect Expr} {sound : Prop}

/-- Brackets around a stem leave its reading as it is. -/
theorem ReadsAs.brackets (h : ReadsAs text work sound) : ReadsAs (Bracket.round.around text) work sound := by
  obtain ⟨f, hstem, hreads⟩ := h.reads
  have houtside := h.terminated.outside
  refine ⟨Bracket.terminated_around _ houtside, (Bracket.faults_around_iff _ houtside).trans h.faults, ?_⟩
  rw [Bracket.texts_around _ houtside, List.map_cons, List.map_append, ← hstem.finish]
  exact ⟨_, @Frame.IsStem.term (.group .round (.empty 0) (f.finish none 0).tree) _,
    hreads.around rfl (Symbol.ofText?_text (.opening .round)) (Symbol.ofText?_text (.closing .round))⟩

/-- What goes on after a stem. -/
theorem ReadsAs.append (h : ReadsAs text work sound) {more : String} (hm : Continues more) {work' : Collect Expr}
    (hreads : ∀ f : Frame, f.IsStem work → ∃ g : Frame, g.IsStem work' ∧ f.ReadsTo ((texts more).map Token.bare) g) :
    ReadsAs (text ++ more) work' (sound ∧ (tokenize more).2 = []) := by
  obtain ⟨f, hstem, hbefore⟩ := h.reads
  obtain ⟨g, hstem', hafter⟩ := hreads f hstem
  have hjoins := h.terminated.joins hm.begins
  refine ⟨hjoins.terminated hm.nonempty hm.terminated, ?_, g, hstem', ?_⟩
  · rw [hjoins.faults_append_iff, h.faults]
  · rw [hjoins.texts_append, List.map_append]
    exact hbefore.append hafter

theorem Link.follows (link : Link) : ∃ after : Collect Expr → Collect Expr, ∀ {text work sound},
    ReadsAs text work sound → ReadsAs (text ++ link.text) (after work) (sound ∧ (tokenize link.text).2 = []) := by
  cases link with
  | field before after key =>
    obtain ⟨hterminated, hne, t, height, hreads⟩ := key.isPiece
    have hjoins : Joins Symbol.dot.text (after.text ++ key.text) := joins_of_standsAlone rfl _
    have hcontinues : Continues (Link.field before after key).text := by
      refine before.continues_append ⟨append_ne_empty (append_ne_empty hne), Symbol.begins_of_standsAlone rfl _, ?_⟩
      exact hjoins.terminated (append_ne_empty hne) (after.terminated_append hne hterminated)
    have htexts : texts (Link.field before after key).text = Symbol.dot.text :: texts key.text := by
      rw [text, before.texts_append, hjoins.texts_append, after.texts_append, (tokenize_of_scans (.symbol .dot)).1]
      rfl
    refine ⟨fun work => do t.meaning.key (.empty 0) (← work), fun h => h.append hcontinues fun f hstem => ?_⟩
    have hdot : f.ReadsTo [.bare Symbol.dot.text] (f.addOp none .dot (.empty 0)) :=
      Frame.readsTo_operator hstem.cutAt (Symbol.ofText?_text .dot) rfl
    rw [htexts]
    exact ⟨_, hstem.field t height, hdot.append (hreads _ hdot.1)⟩
  | call before args =>
    obtain ⟨hterminated, hne, t, height, hreads⟩ := args.isPiece .round
    have hcontinues : Continues (Link.call before args).text := by
      refine before.continues_append ⟨hne, ?_, hterminated⟩
      rw [Bracket.around, String.append_assoc]
      exact Symbol.begins_of_standsAlone rfl _
    refine ⟨fun work => do Meaning.call t.meaning.args (.empty 0) (← work), fun h => h.append hcontinues fun f hstem => ?_⟩
    have htexts : texts (Link.call before args).text = texts (Bracket.round.around args.text) := before.texts_append _
    rw [htexts]
    exact ⟨_, hstem.call t height, hreads f hstem.cutAt⟩

/-- Links after a stem have the same reading, whether brackets are put around what comes before each or not. -/
theorem ReadsAs.links {bracketed : String} (links : List Link) (h : ReadsAs text work sound)
    (hb : ReadsAs bracketed work sound) :
    ∃ work' sound', ReadsAs (links.foldl (fun text link => text ++ link.text) text) work' sound' ∧
      ReadsAs (links.foldl (fun text link => Bracket.round.around text ++ link.text) bracketed) work' sound' := by
  induction links generalizing text bracketed work sound with
  | nil => exact ⟨work, sound, h, hb⟩
  | cons link links ih =>
    obtain ⟨after, hfollows⟩ := link.follows
    exact ih (hfollows h) (hfollows hb.brackets)

theorem Chain.exists_readsAs (chain : Chain) :
    ∃ work sound, ReadsAs chain.text work sound ∧ ReadsAs chain.bracketed work sound := by
  obtain ⟨work, sound, htarget⟩ := chain.target.exists_readsAs
  rw [text, bracketed]
  cases chain.links with
  | nil => exact ⟨work, sound, htarget, htarget⟩
  | cons link links =>
    obtain ⟨after, hfollows⟩ := link.follows
    exact (hfollows htarget).links links (hfollows htarget)

theorem exists_parse_of_errors {source : String} (h : (parse source).toOption.map Parsed.errors = some []) :
    ∃ e, parse source = .ok ⟨e, []⟩ := by
  cases hparse : parse source with
  | error fatal =>
    rw [hparse] at h
    cases h
  | ok parsed =>
    rw [hparse] at h
    obtain ⟨expr, errors⟩ := parsed
    obtain rfl : errors = [] := Option.some.inj h
    exact ⟨expr, rfl⟩

/-- From a text without faults no term is cut off. -/
theorem RawTree.isWhole_of_parse {source : String} {e : Expr} (h : parse source = .ok ⟨e, []⟩) :
    (ofSource (some Frame.maxHeight) source).1.IsWhole := by
  obtain ⟨tree, hsource, -⟩ := limited_of_parse_eq_ok h rfl
  rw [hsource]
  exact (spelled_of_ofSource (ofSource_of_no_errors hsource)).2.isWhole

/-- Fields and calls in a row are read from the left to the right: a chain from which no term is cut off is free of faults
exactly if it is with brackets around all that comes before each link, and both are then the same up to locations. -/
theorem field_access_binds_tighter (chain : Chain)
    (hplain : (RawTree.ofSource (some Frame.maxHeight) chain.text).1.IsWhole)
    (hbracketed : (RawTree.ofSource (some Frame.maxHeight) chain.bracketed).1.IsWhole) :
    ((∃ e, parse chain.text = .ok ⟨e, []⟩) ↔ ∃ e, parse chain.bracketed = .ok ⟨e, []⟩) ∧
      ∀ e e', parse chain.text = .ok ⟨e, []⟩ → parse chain.bracketed = .ok ⟨e', []⟩ → e.unlocated = e'.unlocated := by
  obtain ⟨work, sound, ⟨-, hfaults, f, hstem, hreads⟩, -, hfaults', f', hstem', hreads'⟩ := chain.exists_readsAs
  have hboth (e : Expr) : (∃ found, parse chain.text = .ok ⟨found, []⟩ ∧ found.unlocated = e) ↔
      ∃ found, parse chain.bracketed = .ok ⟨found, []⟩ ∧ found.unlocated = e := by
    rw [exists_parse_iff hplain (hreads.2 []) rfl hstem.finish, exists_parse_iff hbracketed (hreads'.2 []) rfl hstem'.finish,
      hfaults, hfaults']
  refine ⟨⟨fun ⟨e, he⟩ => ?_, fun ⟨e, he⟩ => ?_⟩, fun e e' he he' => ?_⟩
  · obtain ⟨found, hfound, -⟩ := (hboth e.unlocated).1 ⟨e, he, rfl⟩
    exact ⟨found, hfound⟩
  · obtain ⟨found, hfound, -⟩ := (hboth e.unlocated).2 ⟨e, he, rfl⟩
    exact ⟨found, hfound⟩
  · obtain ⟨found, hfound, heq⟩ := (hboth e.unlocated).1 ⟨e, he, rfl⟩
    rw [he'] at hfound
    cases hfound
    exact heq.symm

/-- Calls of a field, and a field of what they return. -/
theorem calls_and_fields_in_a_row :
    ∃ chain : Chain, chain.text = "a.f(x)(y).g(z)" ∧ chain.bracketed = "((((a.f)(x))(y)).g)(z)" ∧
      (RawTree.ofSource (some Frame.maxHeight) chain.text).1.IsWhole ∧
      (RawTree.ofSource (some Frame.maxHeight) chain.bracketed).1.IsWhole ∧
      ∃ e e', parse chain.text = .ok ⟨e, []⟩ ∧ parse chain.bracketed = .ok ⟨e', []⟩ ∧ e.unlocated = e'.unlocated := by
  have enclosed (text : String) (hs : (reached text).isQuoted = false) (hb : readBrackets (tokenize text).1 = .ok []) :
      ∃ inner : Enclosed, inner.text = text := ⟨⟨text, hs, readBrackets_eq_nil_iff.1 hb⟩, rfl⟩
  obtain ⟨x, hx⟩ := enclosed "x" (by decide +kernel) (by decide +kernel)
  obtain ⟨y, hy⟩ := enclosed "y" (by decide +kernel) (by decide +kernel)
  obtain ⟨z, hz⟩ := enclosed "z" (by decide +kernel) (by decide +kernel)
  obtain ⟨chain, hplain, hbracketed⟩ :
      ∃ chain : Chain, chain.text = "a.f(x)(y).g(z)" ∧ chain.bracketed = "((((a.f)(x))(y)).g)(z)" := by
    let none : Blanks := ⟨"", by simp⟩
    refine ⟨⟨.name "a" (by decide +kernel), [.field none none (.name "f" (by decide +kernel)), .call none x, .call none y,
      .field none none (.name "g" (by decide +kernel)), .call none z]⟩, ?_, ?_⟩
    · simp [none, Chain.text, Link.text, Primary.text, Bracket.around, Symbol.text, hx, hy, hz]
    · simp [none, Chain.bracketed, Link.text, Primary.text, Bracket.around, Symbol.text, hx, hy, hz]
  obtain ⟨e, he⟩ : ∃ e, parse chain.text = .ok ⟨e, []⟩ := by
    rw [hplain]
    exact exists_parse_of_errors (by decide +kernel)
  obtain ⟨e', he'⟩ : ∃ e, parse chain.bracketed = .ok ⟨e, []⟩ := by
    rw [hbracketed]
    exact exists_parse_of_errors (by decide +kernel)
  have hwhole := RawTree.isWhole_of_parse he
  have hwhole' := RawTree.isWhole_of_parse he'
  exact ⟨chain, hplain, hbracketed, hwhole, hwhole', e, e', he, he',
    (field_access_binds_tighter chain hwhole hwhole').2 e e' he he'⟩

end DynamicConfig

import DynamicConfig.Proofs.Faults
/-!
# Raw trees without faults

`RawTree.Means` says what a raw tree stands for when nothing is wrong with it, in each of the places
where it may be. The readings of `RawTree.meaning` add no fault exactly where the relation holds, and give
the same expressions (`RawTree.gives_iff_means`).
-/

namespace DynamicConfig

/-! ## What a tree means -/

namespace RawTree

/-- No part of the tree is cut off. -/
def IsWhole : RawTree → Prop
  | cutOff _ => False
  | missing _ | leaf _ _ => True
  | binary _ _ left right => left.IsWhole ∧ right.IsWhole
  | apply _ callee args => callee.IsWhole ∧ args.IsWhole
  | group _ _ inner => inner.IsWhole

/-- Where a raw tree may stand. -/
inductive Place
  | term
  /-- One item between brackets. -/
  | item
  /-- Everything between brackets. -/
  | items
  /-- After the callee of an application. -/
  | args
  /-- After a dot, which has the given target. -/
  | key (dot : Location) (target : Expr)

/-- What a raw tree stands for in a place. There is one expression for a term, an item or a key. -/
inductive Means : Place → RawTree → List Expr → Prop
  | leaf (l : Leaf) (location : Location) : Means .term (.leaf l location) [Meaning.leafExpr location l]
  | round {location : Location} {inner : RawTree} {e : Expr} (h : Means .term inner [e]) :
    Means .term (.group .round location inner) [e]
  | curly {location : Location} {inner : RawTree} {items : List Expr} (h : Means .items inner items) :
    Means .term (.group .curly location inner) [.node .closure location items]
  | apply {location : Location} {callee args : RawTree} {c : Expr} {es : List Expr}
    (hc : Means .term callee [c]) (ha : Means .args args es) :
    Means .term (.apply location callee args) [.node .call location (c :: es)]
  | lead {symbol : Symbol} {op : Op} {location : Location} {offset : Nat} {right : RawTree} {e : Expr}
    (hs : symbol.mayLead = true) (hop : Meaning.infixOp? symbol = some op) (hr : Means .term right [e]) :
    Means .term (.binary symbol location (.missing offset) right) [.node op location [e]]
  | binary {symbol : Symbol} {op : Op} {location : Location} {left right : RawTree} {a b : Expr}
    (hop : Meaning.infixOp? symbol = some op) (hne : op ≠ .not) (hl : Means .term left [a])
    (hr : Means .term right [b]) : Means .term (.binary symbol location left right) [.node op location [a, b]]
  | dot {location : Location} {left right : RawTree} {a e : Expr} (hl : Means .term left [a])
    (hr : Means (.key location a) right [e]) : Means .term (.binary .dot location left right) [e]
  | keyName (dot : Location) (target : Expr) (name : String) (location : Location) :
    Means (.key dot target) (.leaf (.name name) location) [.node .field dot [target, .stringLeaf location name]]
  | keyApply {dot : Location} {target : Expr} {location : Location} {callee args : RawTree} {c : Expr}
    {es : List Expr} (hc : Means (.key dot target) callee [c]) (ha : Means .args args es) :
    Means (.key dot target) (.apply location callee args) [.node .call location (c :: es)]
  | keyTerm {dot : Location} {target : Expr} {t : RawTree} {k : Expr}
    (hname : ∀ name location, t ≠ .leaf (.name name) location)
    (happly : ∀ location callee args, t ≠ .apply location callee args) (h : Means .term t [k]) :
    Means (.key dot target) t [.node .field dot [target, k]]
  | noArgs (location : Location) (offset : Nat) : Means .args (.group .round location (.missing offset)) []
  | args {location : Location} {inner : RawTree} {es : List Expr} (h : Means .items inner es) :
    Means .args (.group .round location inner) es
  | item {t : RawTree} {e : Expr} (h : Means .term t [e]) : Means .item t [e]
  | assign {location nameLocation : Location} {name : String} {value : RawTree} {v : Expr}
    (h : Means .item value [v]) :
    Means .item (.binary .assign location (.leaf (.name name) nameLocation) value)
      [.node .assign location [.stringLeaf nameLocation name, v]]
  | one {t : RawTree} {e : Expr} (h : Means .item t [e]) : Means .items t [e]
  | comma {location : Location} {left right : RawTree} {es : List Expr} {e : Expr} (hl : Means .items left es)
    (hr : Means .item right [e]) : Means .items (.binary .comma location left right) (es ++ [e])

end RawTree

namespace Meaning

open RawTree (Place)

/-- What a tree with these readings stands for in a place if its reading there finds no fault. -/
def Gives (m : Meaning) (errors : List ParseError) : Place → List Expr → Prop
  | .term, es => ∃ e, es = [e] ∧ m.term.Gives errors e
  | .item, es => ∃ e, es = [e] ∧ m.item.Gives errors e
  | .items, es => m.items.Gives errors es
  | .args, es => ∃ work, m.args = some work ∧ work.Gives errors es
  | .key dot target, es => ∃ e, es = [e] ∧ (m.key dot target).Gives errors e

variable {errors : List ParseError}

@[simp]
theorem gives_term_iff {m : Meaning} {e : Expr} : m.Gives errors .term [e] ↔ m.term.Gives errors e := by
  simp [Gives]

@[simp]
theorem gives_item_iff {m : Meaning} {e : Expr} : m.Gives errors .item [e] ↔ m.item.Gives errors e := by
  simp [Gives]

@[simp]
theorem gives_key_iff {m : Meaning} {dot : Location} {target e : Expr} :
    m.Gives errors (.key dot target) [e] ↔ (m.key dot target).Gives errors e := by
  simp [Gives]

/-- A call finds no fault if its callee and its arguments do not. -/
theorem gives_call_iff {args : Meaning} (ha : args.Grows) {location : Location} {callee e : Expr} :
    (call args.args location callee).Gives errors e ↔
      ∃ es, args.Gives errors .args es ∧ e = .node .call location (callee :: es) := by
  cases hargs : args.args with
  | none =>
    simp only [call, Gives, hargs]
    constructor
    · intro h
      exact (Collect.not_gives_fault_bind (Collect.grows_pure _) h).elim
    · rintro ⟨_, ⟨_, hw, _⟩, _⟩
      cases hw
  | some work =>
    simp only [call, Gives, hargs, Option.some.injEq, exists_eq_left']
    exact Collect.gives_map_iff (ha.args work hargs)

/-- The readings of a tree that is one item, which is a term. -/
theorem means_of_gives_sole {t : RawTree} {m : Meaning} (hitem : m.item = m.term)
    (hitems : m.items = (plain m.term).items) (hg : m.term.Grows)
    (hterm : ∀ e, m.term.Gives errors e → t.Means .term [e])
    (hargs : ∀ es, m.Gives errors .args es → t.Means .args es)
    (hkey : ∀ dot target e, (m.key dot target).Gives errors e → t.Means (.key dot target) [e])
    {place : Place} {es : List Expr} (h : m.Gives errors place es) : t.Means place es := by
  cases place with
  | term => obtain ⟨e, rfl, he⟩ := h; exact hterm e he
  | item => obtain ⟨e, rfl, he⟩ := h; exact .item (hterm e (hitem ▸ he))
  | items =>
    rw [Gives, hitems] at h
    obtain ⟨e, he, rfl⟩ := (Collect.gives_map_iff hg).1 h
    exact .one (.item (hterm e he))
  | args => exact hargs es h
  | key dot target => obtain ⟨e, rfl, he⟩ := h; exact hkey dot target e he

/-- The key reading of a tree that is neither a name nor an application. -/
theorem means_of_gives_keyTerm {t : RawTree} {term : Collect Expr} (hg : term.Grows)
    (hname : ∀ name location, t ≠ .leaf (.name name) location)
    (happly : ∀ location callee args, t ≠ .apply location callee args)
    (hterm : ∀ e, term.Gives errors e → t.Means .term [e]) {dot : Location} {target e : Expr}
    (h : ((plain term).key dot target).Gives errors e) : t.Means (.key dot target) [e] := by
  obtain ⟨k, hk, rfl⟩ := (Collect.gives_map_iff hg).1 h
  exact .keyTerm hname happly (hterm k hk)

/-- The readings of a tree that means the same everywhere. -/
theorem means_of_gives_plain {t : RawTree} {term : Collect Expr} (hg : term.Grows)
    (hname : ∀ name location, t ≠ .leaf (.name name) location)
    (happly : ∀ location callee args, t ≠ .apply location callee args)
    (hterm : ∀ e, term.Gives errors e → t.Means .term [e]) {place : Place} {es : List Expr}
    (h : (plain term).Gives errors place es) : t.Means place es := by
  refine means_of_gives_sole rfl rfl hg hterm ?_ (fun _ _ _ => means_of_gives_keyTerm hg hname happly hterm) h
  rintro es ⟨_, hw, _⟩
  cases hw

/-- An operator on two terms. -/
theorem means_of_gives_infixTerm {symbol : Symbol} {op : Op} (hop : infixOp? symbol = some op)
    {location : Location} {left right : RawTree}
    (hl : ∀ e, left.meaning.term.Gives errors e → left.Means .term [e])
    (hr : ∀ e, right.meaning.term.Gives errors e → right.Means .term [e]) {e : Expr}
    (h : (infixTerm op location left left.meaning right.meaning).Gives errors e) :
    (RawTree.binary symbol location left right).Means .term [e] := by
  have hgr := right.grows_meaning.term
  have hlead (offset : Nat) (hs : symbol.mayLead = true)
      (h : Collect.Gives (do return .node op location [← right.meaning.term]) errors e) :
      (RawTree.binary symbol location (.missing offset) right).Means .term [e] := by
    obtain ⟨a, ha, rfl⟩ := (Collect.gives_map_iff hgr).1 h
    exact .lead hs hop (hr a ha)
  unfold infixTerm at h
  split at h
  -- `!` after a term is a fault.
  case h_4 => exact (Collect.not_gives_fault_bind (Collect.grows_pure _) h).elim
  case h_5 hne _ _ _ =>
    obtain ⟨a, b, ha, hb, rfl⟩ := (Collect.gives_both_iff left.grows_meaning.term hgr).1 h
    exact .binary hop hne (hl a ha) (hr b hb)
  -- The left operand is missing.
  all_goals exact hlead _ (by cases symbol <;> simp_all [infixOp?, Symbol.mayLead]) h

/-- A binding of the name on the left to the item on the right. -/
theorem means_of_gives_binding {location : Location} {left right : RawTree}
    (hr : ∀ e, right.meaning.item.Gives errors e → right.Means .item [e]) {e : Expr}
    (h : (binding location left right.meaning).Gives errors e) :
    (RawTree.binary .assign location left right).Means .item [e] := by
  obtain ⟨name, v, hname, hv, rfl⟩ :=
    (Collect.gives_both_iff (grows_target location left) right.grows_meaning.item).1 h
  unfold target at hname
  split at hname
  · cases Collect.gives_pure_iff.1 hname
    exact .assign (hr v hv)
  · exact (Collect.not_gives_fault_bind (Collect.grows_pure _) hname).elim
  · exact (Collect.not_gives_throw hname).elim

/-- An operator between two trees, in any place. -/
theorem means_of_gives_ofBinary {symbol : Symbol} {location : Location} {left right : RawTree}
    (hl : ∀ place es, left.meaning.Gives errors place es → left.Means place es)
    (hr : ∀ place es, right.meaning.Gives errors place es → right.Means place es) {place : Place}
    {es : List Expr} (h : (RawTree.binary symbol location left right).meaning.Gives errors place es) :
    (RawTree.binary symbol location left right).Means place es := by
  have hgl := left.grows_meaning
  have hgr := right.grows_meaning
  have hlterm (e : Expr) (h : left.meaning.term.Gives errors e) : left.Means .term [e] := hl .term _ ⟨e, rfl, h⟩
  have hrterm (e : Expr) (h : right.meaning.term.Gives errors e) : right.Means .term [e] := hr .term _ ⟨e, rfl, h⟩
  have hritem (e : Expr) (h : right.meaning.item.Gives errors e) : right.Means .item [e] := hr .item _ ⟨e, rfl, h⟩
  -- A comma or a binding in a place where it means nothing fails for good.
  have hthrow (e : FatalError) (h : (plain (throw e)).Gives errors place es) :
      (RawTree.binary symbol location left right).Means place es :=
    means_of_gives_plain (Collect.grows_throw _) (by simp) (by simp)
      (fun e he => (Collect.not_gives_throw he).elim) h
  cases symbol
  case comma =>
    cases place with
    | items =>
      obtain ⟨ls, e, hls, he, rfl⟩ := (Collect.gives_both_iff hgl.items hgr.item).1 h
      exact .comma (hl .items ls hls) (hritem e he)
    | _ => exact hthrow (.misplacedOperator "," location.start) h
  case assign =>
    cases place with
    | item =>
      obtain ⟨e, rfl, h⟩ := h
      exact means_of_gives_binding hritem h
    | items =>
      obtain ⟨e, he, rfl⟩ := (Collect.gives_map_iff (grows_binding location left hgr)).1 h
      exact .one (means_of_gives_binding hritem he)
    | _ => exact hthrow (.misplacedOperator "=" location.start) h
  case dot =>
    refine means_of_gives_plain (Collect.grows_bind hgl.term fun _ => hgr.key _ _) (by simp) (by simp) ?_ h
    intro e he
    obtain ⟨a, ha, h⟩ := (Collect.gives_bind_iff hgl.term fun _ => hgr.key _ _).1 he
    exact .dot (hlterm a ha) (hr (.key location a) _ ⟨e, rfl, h⟩)
  case opening | closing => exact hthrow _ h
  all_goals
    exact means_of_gives_plain (grows_infixTerm _ _ _ hgl hgr) (by simp) (by simp)
      (fun e he => means_of_gives_infixTerm rfl hlterm hrterm he) h

/-- A leaf, in any place. -/
theorem means_of_gives_ofLeaf {l : Leaf} {location : Location} {place : Place} {es : List Expr}
    (h : (ofLeaf l location).Gives errors place es) : (RawTree.leaf l location).Means place es := by
  have hterm (e : Expr) (he : (pure (leafExpr location l) : Collect Expr).Gives errors e) :
      (RawTree.leaf l location).Means .term [e] := by
    cases Collect.gives_pure_iff.1 he
    exact .leaf l location
  cases l
  case name name =>
    refine means_of_gives_sole rfl rfl (Collect.grows_pure _) hterm ?_ ?_ h
    · rintro es ⟨_, hw, _⟩
      cases hw
    · intro dot target e he
      cases Collect.gives_pure_iff.1 he
      exact .keyName dot target name location
  all_goals exact means_of_gives_plain (Collect.grows_pure _) (by simp) (by simp) hterm h

/-- An application, in any place. -/
theorem means_of_gives_ofApply {location : Location} {callee args : RawTree}
    (hc : ∀ place es, callee.meaning.Gives errors place es → callee.Means place es)
    (ha : ∀ es, args.meaning.Gives errors .args es → args.Means .args es) {place : Place} {es : List Expr}
    (h : (ofApply location callee.meaning args.meaning).Gives errors place es) :
    (RawTree.apply location callee args).Means place es := by
  have hgc := callee.grows_meaning
  have hga := args.grows_meaning
  refine means_of_gives_sole rfl rfl (Collect.grows_bind hgc.term fun _ => grows_call hga.args _ _) ?_ ?_ ?_ h
  · intro e he
    obtain ⟨c, h1, h2⟩ := (Collect.gives_bind_iff hgc.term fun _ => grows_call hga.args _ _).1 he
    obtain ⟨es, hes, rfl⟩ := (gives_call_iff hga).1 h2
    exact .apply (hc .term _ ⟨c, rfl, h1⟩) (ha es hes)
  · rintro es ⟨_, hw, _⟩
    cases hw
  · intro dot target e he
    obtain ⟨c, h1, h2⟩ := (Collect.gives_bind_iff (hgc.key _ _) fun _ => grows_call hga.args _ _).1 he
    obtain ⟨es, hes, rfl⟩ := (gives_call_iff hga).1 h2
    exact .keyApply (hc (.key dot target) _ ⟨c, rfl, h1⟩) (ha es hes)

/-- Round brackets, in any place. -/
theorem means_of_gives_ofRound {location : Location} {inner : RawTree}
    (hi : ∀ place es, inner.meaning.Gives errors place es → inner.Means place es) {place : Place}
    {es : List Expr} (h : (ofRound inner inner.meaning).Gives errors place es) :
    (RawTree.group .round location inner).Means place es := by
  have hg := inner.grows_meaning.term
  have hterm (e : Expr) (he : inner.meaning.term.Gives errors e) :
      (RawTree.group .round location inner).Means .term [e] := .round (hi .term _ ⟨e, rfl, he⟩)
  refine means_of_gives_sole (m := ofRound inner inner.meaning) rfl rfl hg hterm ?_
    (fun _ _ _ => means_of_gives_keyTerm hg (by simp) (by simp) hterm) h
  rintro es ⟨work, hwork, hes⟩
  cases hwork
  split at hes
  case h_1 offset =>
    cases Collect.gives_pure_iff.1 hes
    exact .noArgs location offset
  case h_2 => exact .args (hi .items es hes)

/-- What a whole tree gives without a fault is what it means. -/
theorem means_of_gives {t : RawTree} (hw : t.IsWhole) {place : Place} {es : List Expr}
    (h : t.meaning.Gives errors place es) : t.Means place es := by
  induction t generalizing place es with
  | missing offset =>
    exact means_of_gives_plain (Collect.grows_map (Collect.grows_fault _ _))
      (by simp) (by simp) (fun e he => (Collect.not_gives_fault_bind (Collect.grows_pure _) he).elim) h
  | cutOff offset => exact hw.elim
  | leaf l location => exact means_of_gives_ofLeaf h
  | binary symbol location left right ihl ihr =>
    exact means_of_gives_ofBinary (fun _ _ => ihl hw.1) (fun _ _ => ihr hw.2) h
  | apply location callee args ihc iha =>
    exact means_of_gives_ofApply (fun _ _ => ihc hw.1) (fun _ => iha hw.2) h
  | group bracket location inner ih =>
    cases bracket with
    | round => exact means_of_gives_ofRound (fun _ _ => ih hw) h
    | curly =>
      have hg := inner.grows_meaning.items
      refine means_of_gives_plain (Collect.grows_map hg) (by simp) (by simp) ?_ h
      intro e he
      obtain ⟨items, h1, rfl⟩ := (Collect.gives_map_iff hg).1 he
      exact .curly (ih hw h1)

/-! ## A meaning is given without a fault -/

/-- What gives a term gives the same as an item. -/
theorem gives_item_of_term {t : RawTree} {e : Expr} (h : t.meaning.term.Gives errors e) :
    t.meaning.item.Gives errors e := by
  cases t with
  | leaf l _ => cases l <;> exact h
  | group bracket _ _ => cases bracket <;> exact h
  | binary symbol _ _ _ => cases symbol <;> first | exact h | exact (Collect.not_gives_throw h).elim
  | _ => exact h

/-- What gives an item gives it as the only one. -/
theorem gives_items_of_item {t : RawTree} {e : Expr} (h : t.meaning.item.Gives errors e) :
    t.meaning.items.Gives errors [e] := by
  have hone : (do return [← t.meaning.item] : Collect (List Expr)).Gives errors [e] :=
    (Collect.gives_map_iff t.grows_meaning.item).2 ⟨e, h, rfl⟩
  cases t with
  | leaf l _ => cases l <;> exact hone
  | group bracket _ _ => cases bracket <;> exact hone
  | binary symbol _ _ _ => cases symbol <;> first | exact hone | exact (Collect.not_gives_throw h).elim
  | _ => exact hone

/-- What is neither a name nor an application gives the key that it gives as a term. -/
theorem gives_key_of_term {t : RawTree} (hname : ∀ name location, t ≠ .leaf (.name name) location)
    (happly : ∀ location callee args, t ≠ .apply location callee args) {k : Expr}
    (h : t.meaning.term.Gives errors k) (dot : Location) (target : Expr) :
    (t.meaning.key dot target).Gives errors (.node .field dot [target, k]) := by
  have hkey : ((plain t.meaning.term).key dot target).Gives errors (.node .field dot [target, k]) :=
    (Collect.gives_map_iff t.grows_meaning.term).2 ⟨k, h, rfl⟩
  cases t with
  | leaf l location =>
    cases l
    case name name => exact (hname name location rfl).elim
    all_goals exact hkey
  | group bracket _ _ => cases bracket <;> exact hkey
  | binary symbol _ _ _ => cases symbol <;> exact hkey
  | apply location callee args => exact (happly location callee args rfl).elim
  | _ => exact hkey

theorem infixTerm_of_missing {symbol : Symbol} {op : Op} (hs : symbol.mayLead = true)
    (hop : infixOp? symbol = some op) (location : Location) (offset : Nat) (l r : Meaning) :
    infixTerm op location (.missing offset) l r = (do return .node op location [← r.term]) := by
  cases symbol <;> simp_all [infixOp?, Symbol.mayLead] <;> subst hop <;> rfl

theorem infixTerm_of_present {op : Op} (hne : op ≠ .not) {left : RawTree}
    (hl : ∀ offset, left ≠ .missing offset) (location : Location) (l r : Meaning) :
    infixTerm op location left l r = (do return .node op location [← l.term, ← r.term]) := by
  unfold infixTerm
  split <;> first | rfl | simp_all

theorem args_ofRound {inner : RawTree} (hi : ∀ offset, inner ≠ .missing offset) {m : Meaning} :
    (ofRound inner m).args = some m.items := by
  cases inner <;> first | rfl | simp_all

/-- The reading of an operator that is a term. -/
theorem term_ofBinary {symbol : Symbol} {op : Op} (hop : infixOp? symbol = some op) (location : Location)
    (left : RawTree) (l r : Meaning) :
    (ofBinary symbol location left l r).term = infixTerm op location left l r := by
  cases symbol <;> simp_all [infixOp?, ofBinary, plain]

end Meaning

open Meaning

theorem RawTree.Means.ne_missing {t : RawTree} {es : List Expr} (h : t.Means .term es) (offset : Nat) :
    t ≠ .missing offset := by
  cases h <;> simp

theorem RawTree.Means.items_ne_missing {t : RawTree} {es : List Expr} (h : t.Means .items es) (offset : Nat) :
    t ≠ .missing offset := by
  cases h with
  | one h =>
    cases h with
    | item h => exact h.ne_missing offset
    | assign _ => simp
  | comma _ _ => simp

/-- The readings of a tree give what it means and find no fault. -/
theorem RawTree.Means.gives {t : RawTree} {place : RawTree.Place} {es : List Expr} (h : t.Means place es)
    (errors : List ParseError) : t.meaning.Gives errors place es := by
  induction h with
  | leaf l location => cases l <;> exact gives_term_iff.2 (Collect.gives_pure_iff.2 rfl)
  | round _ ih => exact gives_term_iff.2 (gives_term_iff.1 ih)
  | @curly _ inner items _ ih =>
    exact gives_term_iff.2 ((Collect.gives_map_iff inner.grows_meaning.items).2 ⟨items, ih, rfl⟩)
  | @apply _ callee args c es _ _ ihc iha =>
    have hga := args.grows_meaning
    exact gives_term_iff.2 ((Collect.gives_bind_iff callee.grows_meaning.term fun _ =>
      grows_call hga.args _ _).2 ⟨c, gives_term_iff.1 ihc, (gives_call_iff hga).2 ⟨es, iha, rfl⟩⟩)
  | @lead symbol op location offset right e hs hop _ ih =>
    rw [gives_term_iff, RawTree.meaning, term_ofBinary hop, infixTerm_of_missing hs hop]
    exact (Collect.gives_map_iff right.grows_meaning.term).2 ⟨e, gives_term_iff.1 ih, rfl⟩
  | @binary symbol op location left right a b hop hne hl _ ihl ihr =>
    rw [gives_term_iff, RawTree.meaning, term_ofBinary hop, infixTerm_of_present hne hl.ne_missing]
    exact (Collect.gives_both_iff left.grows_meaning.term right.grows_meaning.term).2
      ⟨a, b, gives_term_iff.1 ihl, gives_term_iff.1 ihr, rfl⟩
  | @dot location left right a e _ _ ihl ihr =>
    exact gives_term_iff.2 ((Collect.gives_bind_iff left.grows_meaning.term fun _ =>
      right.grows_meaning.key _ _).2 ⟨a, gives_term_iff.1 ihl, gives_key_iff.1 ihr⟩)
  | keyName dot target name location => exact gives_key_iff.2 (Collect.gives_pure_iff.2 rfl)
  | @keyApply dot target _ callee args c es _ _ ihc iha =>
    have hga := args.grows_meaning
    exact gives_key_iff.2 ((Collect.gives_bind_iff (callee.grows_meaning.key _ _) fun _ =>
      grows_call hga.args _ _).2 ⟨c, gives_key_iff.1 ihc, (gives_call_iff hga).2 ⟨es, iha, rfl⟩⟩)
  | keyTerm hname happly _ ih =>
    exact gives_key_iff.2 (gives_key_of_term hname happly (gives_term_iff.1 ih) _ _)
  | noArgs location offset => exact ⟨_, rfl, Collect.gives_pure_iff.2 rfl⟩
  | @args location inner es h ih => exact ⟨_, args_ofRound h.items_ne_missing, ih⟩
  | item _ ih => exact gives_item_iff.2 (gives_item_of_term (gives_term_iff.1 ih))
  | @assign location nameLocation name value v _ ih =>
    have hname : (target location (.leaf (.name name) nameLocation)).Gives errors (.stringLeaf nameLocation name) :=
      Collect.gives_pure_iff.2 rfl
    exact gives_item_iff.2 ((Collect.gives_both_iff (grows_target location _) value.grows_meaning.item).2
      ⟨_, v, hname, gives_item_iff.1 ih, rfl⟩)
  | one _ ih => exact gives_items_of_item (gives_item_iff.1 ih)
  | @comma location left right es e _ _ ihl ihr =>
    exact (Collect.gives_both_iff left.grows_meaning.items right.grows_meaning.item).2
      ⟨es, e, ihl, gives_item_iff.1 ihr, rfl⟩

theorem RawTree.gives_iff_means {t : RawTree} (hw : t.IsWhole) {errors : List ParseError} {place : RawTree.Place}
    {es : List Expr} : t.meaning.Gives errors place es ↔ t.Means place es :=
  ⟨means_of_gives hw, fun h => h.gives errors⟩

/-- A whole tree has an expression without faults exactly if it means it as a term. -/
theorem Expr.ofRaw_eq_ok_iff {raw : RawTree} (hw : raw.IsWhole) {found : List ParseError} {e : Expr} :
    Expr.ofRaw raw found = .ok (e, []) ↔ found = [] ∧ raw.Means .term [e] := by
  constructor
  · intro h
    obtain rfl := found_eq_nil_of_ofRaw h
    exact ⟨rfl, (RawTree.gives_iff_means hw).1 (gives_term_iff.2 h)⟩
  · rintro ⟨rfl, h⟩
    exact gives_term_iff.1 ((RawTree.gives_iff_means hw).2 h)

end DynamicConfig

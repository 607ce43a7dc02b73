import DynamicConfig.Proofs.Acceptance
import DynamicConfig.Proofs.Levels
import DynamicConfig.Proofs.Unlocated
/-!
# Tokens that are read as one tree

What an operand leaves in a frame is its tree, once the operators that wait in it have taken their operands
(`Phrase`). An operator that comes next makes them do so if none of them waits for it, and the operators that
waited before the operand go on waiting if they wait for the operators in it. A phrase between brackets is
one term (`Phrase.brackets`); operators make phrases of phrases (`Phrase.between`, `Phrase.lead`).

Nothing waits for the dot or for arguments, so what they follow is a term already, or the key after a dot
(`Stem`). The heights of the trees are those that `Expr.textHeight` is made of.
-/

namespace DynamicConfig

open RawTree (Place Means)
open DynamicConfig.Frame (unwind waitsFor)

/-- Up to places, the tree means the expressions, and it is of the given height. -/
def RawTree.Tells (place : Place) (es : List Expr) (height : Nat) (t : RawTree) : Prop :=
  ∃ found, t.Means place found ∧ found.map Expr.unlocated = es.map Expr.unlocated ∧ t.height = height

/-- A tree of a single expression. -/
theorem RawTree.Tells.exists_sole {place : Place} {e : Expr} {height : Nat} {t : RawTree}
    (h : t.Tells place [e] height) :
    ∃ found, t.Means place [found] ∧ found.unlocated = e.unlocated ∧ t.height = height := by
  obtain ⟨found, h, heq, ht⟩ := h
  obtain ⟨e', rest, rfl, he, hrest⟩ := List.map_eq_cons_iff.1 heq
  obtain rfl := List.map_eq_nil_iff.1 hrest
  exact ⟨e', h, he, ht⟩

namespace Frame

variable {f g : Frame} {waitsOn : PendingOp → Bool}

/-- The frame with one more term, which is the last thing read. -/
def grown (f : Frame) (t : RawTree) (height : Nat) : Frame :=
  { f with terms := (t, height) :: f.terms, afterTerm := true }

theorem addTerm_eq_grown (hf : f.afterTerm = false) (t : RawTree) (height : Nat) (location : Location) :
    f.addTerm none t height location = f.grown t height :=
  addTerm_of_no_callee (by simp [hf]) t height location

theorem reduce_with_ops (op : PendingOp) (others : List PendingOp) :
    reduce none { f with ops := others } op = { reduce none f op with ops := others } := by
  obtain ⟨afterTerm, ops, terms, cutAt⟩ := f
  rcases terms with _ | ⟨right, _ | ⟨left, terms⟩⟩ <;> rfl

/-- The operators that a frame holds are not looked at while others take their operands. -/
theorem unwind_with_ops (waitsOn : PendingOp → Bool) (ops others : List PendingOp) :
    unwind none waitsOn ops { f with ops := others } = unwind none waitsOn ops f := by
  induction ops generalizing f with
  | nil => rfl
  | cons op rest ih =>
    unfold unwind
    split
    · rfl
    · rw [reduce_with_ops]
      exact ih

/-- If the last operator waits, all of them do. -/
theorem unwind_of_head {ops : List PendingOp} (h : ∀ op ∈ ops.head?, waitsOn op = true) (f : Frame) :
    unwind none waitsOn ops f = { f with ops := ops } := by
  cases ops with
  | nil => rfl
  | cons op rest =>
    unfold unwind
    rw [if_pos (h op rfl)]

/-- Reading has added one tree to the frame, except that some operators may wait for operands of it
still. -/
def Adds (f : Frame) (pending : PendingOp → Prop) (t : RawTree) (g : Frame) : Prop :=
  g.afterTerm = true ∧ ∃ height, ∀ waitsOn : PendingOp → Bool, (∀ op, pending op → waitsOn op = false) →
    unwind none waitsOn g.ops g = unwind none waitsOn f.ops (f.grown t height)

theorem adds_grown (f : Frame) (pending : PendingOp → Prop) (t : RawTree) (height : Nat) :
    f.Adds pending t (f.grown t height) :=
  ⟨rfl, height, fun _ _ => rfl⟩

/-- An operator that no pending one waits for, and that those before do not give way to, comes after the tree. -/
theorem Adds.addOp {pending : PendingOp → Prop} {t : RawTree} (h : f.Adds pending t g) {symbol : Symbol}
    (hp : ∀ op, pending op → waitsFor symbol op = false) (hf : ∀ op ∈ f.ops.head?, waitsFor symbol op = true)
    (location : Location) :
    ∃ height, g.addOp none symbol location = (f.grown t height).await symbol location symbol.priority := by
  obtain ⟨hg, height, hunwind⟩ := h
  refine ⟨height, ?_⟩
  rw [addOp_of_afterTerm hg, hunwind _ hp, unwind_of_head hf]
  rfl

/-- The right operand of an operator makes it a tree. -/
theorem Adds.operand {pending : PendingOp → Prop} {left right : RawTree} {height priority : Nat} {symbol : Symbol}
    {location : Location} (h : ((f.grown left height).await symbol location priority).Adds pending right g) :
    f.Adds (fun op => op = ⟨symbol, location, priority⟩ ∨ pending op) (.binary symbol location left right) g := by
  obtain ⟨hg, rightHeight, hunwind⟩ := h
  refine ⟨hg, max height rightHeight + 1, fun waitsOn hp => ?_⟩
  rw [hunwind waitsOn fun op hop => hp op (.inr hop)]
  show unwind none waitsOn (_ :: f.ops) _ = _
  rw [unwind, hp _ (.inl rfl)]
  exact unwind_with_ops (f := f.grown (.binary symbol location left right) _) waitsOn f.ops _

/-- A frame with nothing else in it ends as the tree. -/
theorem Adds.finish {pending : PendingOp → Prop} {t : RawTree} (h : Adds {} pending t g) (stop : Nat) :
    (g.finish none stop).tree = t := by
  obtain ⟨hg, height, hunwind⟩ := h
  have hclosed : g.closed none stop = unwind none (fun _ => false) g.ops g := by simp [closed, ended, hg]
  rw [finish_eq, hclosed, hunwind _ fun _ _ => rfl]
  rfl

end Frame

/-! ## Phrases -/

/-- In every frame that goes on with a term, and whose last operator waits for those in the tokens, the tokens
are read as a tree with a property. Some operators may be left that wait for the end of the tree. -/
def Phrase (P : RawTree → Prop) (waits pending : PendingOp → Prop) (tokens : List Token) : Prop :=
  ∀ r : Reading, r.current.afterTerm = false → (∀ op ∈ r.current.ops.head?, waits op) →
    ∃ next t, r.Reads tokens next ∧ next.opened = r.opened ∧ P t ∧ r.current.Adds pending t next.current

/-- Tokens that are read as one term, which nothing can take a part of. -/
def Term (P : RawTree → Prop) (tokens : List Token) : Prop :=
  ∀ r : Reading, r.current.afterTerm = false →
    ∃ next t height, r.Reads tokens next ∧ next.opened = r.opened ∧ P t ∧ next.current = r.current.grown t height

variable {P Q R : RawTree → Prop} {waits pending : PendingOp → Prop} {tokens : List Token}

theorem Term.phrase (h : Term P tokens) (waits pending : PendingOp → Prop) : Phrase P waits pending tokens := by
  intro r hr _
  obtain ⟨next, t, height, hreads, ho, ht, hnext⟩ := h r hr
  exact ⟨next, t, hreads, ho, ht, hnext ▸ Frame.adds_grown _ _ _ _⟩

theorem Phrase.imp {waits' pending' : PendingOp → Prop} (h : Phrase P waits pending tokens)
    (hP : ∀ t, P t → Q t) (hw : ∀ op, waits' op → waits op) (hp : ∀ op, pending op → pending' op) :
    Phrase Q waits' pending' tokens := by
  intro r hr hhead
  obtain ⟨next, t, hreads, ho, ht, hnext, height, hunwind⟩ := h r hr fun op hop => hw op (hhead op hop)
  exact ⟨next, t, hreads, ho, hP t ht, hnext, height, fun waitsOn h => hunwind waitsOn fun op hop => h op (hp op hop)⟩

/-- A single token. -/
theorem term_leaf {token : Token} {l : Leaf} (hl : token.leaf? = some l) (hP : P (.leaf l token.location)) :
    Term P [token] := by
  intro r hr
  exact ⟨_, _, 1, .leaf hl r, rfl, hP, Frame.addTerm_eq_grown hr _ _ _⟩

/-! ## Brackets -/

section Brackets

variable {bracket : Bracket} {first last : Token}

/-- What stands between two brackets is added as one term. -/
theorem Phrase.group (h : Phrase P waits pending tokens) (hf : first.symbol? = some (.opening bracket))
    (hl : last.symbol? = some (.closing bracket)) (r : Reading) :
    ∃ next t height location, r.Reads (first :: (tokens ++ [last])) next ∧ next.opened = r.opened ∧ P t ∧
      next.current = r.current.addTerm none (.group bracket location t) height location := by
  obtain ⟨between, t, hreads, ho, ht, hadds⟩ :=
    h (r.openBracket bracket first.location.start) rfl (by simp [Reading.openBracket])
  obtain ⟨next, height, location, hnext, honext, hcurrent⟩ := hreads.exists_group hf hl ho
  refine ⟨next, t, height, location, hnext, honext, ht, ?_⟩
  rw [hcurrent, Frame.Adds.finish hadds]

theorem Phrase.brackets (h : Phrase P waits pending tokens) (hf : first.symbol? = some (.opening bracket))
    (hl : last.symbol? = some (.closing bracket)) (hQ : ∀ t location, P t → Q (.group bracket location t)) :
    Term Q (first :: (tokens ++ [last])) := by
  intro r hr
  obtain ⟨next, t, height, location, hnext, ho, ht, hcurrent⟩ := h.group hf hl r
  exact ⟨next, _, height, hnext, ho, hQ t location ht, hcurrent.trans (Frame.addTerm_eq_grown hr _ _ _)⟩

end Brackets

/-! ## Operators -/

section Operators

variable {token : Token} {symbol : Symbol} {left right : List Token} {waits' pending' : PendingOp → Prop}

/-- The right operand of an operator that waits for it. -/
theorem Phrase.operand (hr : Phrase P waits pending right) {r : Reading} {f : Frame} {left : RawTree}
    {height priority : Nat} {location : Location}
    (hf : r.current = (f.grown left height).await symbol location priority) (hw : waits ⟨symbol, location, priority⟩) :
    ∃ next t, r.Reads right next ∧ next.opened = r.opened ∧ P t ∧
      f.Adds (fun op => op.symbol = symbol ∧ op.priority = priority ∨ pending op) (.binary symbol location left t)
        next.current := by
  have hhead : ∀ op ∈ r.current.ops.head?, waits op := by
    intro op hop
    rw [hf] at hop
    cases hop
    exact hw
  obtain ⟨next, t, hreads, ho, ht, hadds⟩ := hr r (by rw [hf]; rfl) hhead
  rw [hf] at hadds
  obtain ⟨hg, height, hunwind⟩ := hadds.operand
  refine ⟨next, t, hreads, ho, ht, hg, height, fun waitsOn h => hunwind waitsOn ?_⟩
  rintro op (rfl | hop)
  · exact h _ (.inl ⟨rfl, rfl⟩)
  · exact h _ (.inr hop)

/-- An operator between two phrases: nothing that is pending in the left one waits for it, and it waits for what
is in the right one. -/
theorem Phrase.between (hl : Phrase P waits pending left) (hr : Phrase Q waits' pending' right)
    (hs : token.symbol? = some symbol) (hb : symbol.isBracket = false)
    (hleft : ∀ op, waitsFor symbol op = true → waits op) (hpending : ∀ op, pending op → waitsFor symbol op = false)
    (hright : ∀ location, waits' ⟨symbol, location, symbol.priority⟩)
    (hR : ∀ l r location, P l → Q r → R (.binary symbol location l r)) :
    Phrase R (waitsFor symbol · = true) (fun op => op.symbol = symbol ∧ op.priority = symbol.priority ∨ pending' op)
      (left ++ token :: right) := by
  intro r hafter hhead
  obtain ⟨mid, l, hreadsl, hol, hPl, hadds⟩ := hl r hafter fun op hop => hleft op (hhead op hop)
  obtain ⟨height, hop⟩ := hadds.addOp hpending hhead token.location
  have hread : mid.Reads [token] { mid with current := mid.current.addOp none symbol token.location } :=
    .single (.operator hs hb)
  obtain ⟨next, t, hreadsr, hor, hQt, haddsr⟩ :=
    hr.operand (r := { mid with current := mid.current.addOp none symbol token.location }) hop (hright token.location)
  exact ⟨next, _, hreadsl.append (hread.append hreadsr), hor.trans hol, hR l t token.location hPl hQt, haddsr⟩

/-- A leading operator, which nothing before it takes an operand from. -/
theorem Phrase.lead (hr : Phrase P waits pending right) (hs : token.symbol? = some symbol) (hm : symbol.mayLead = true)
    (hright : ∀ location, waits ⟨symbol, location, Symbol.not.priority⟩)
    (hR : ∀ r location offset, P r → R (.binary symbol location (.missing offset) r)) :
    Phrase R (fun _ => True) (fun op => op.symbol = symbol ∧ op.priority = Symbol.not.priority ∨ pending op)
      (token :: right) := by
  intro r hafter _
  have hread : r.Reads [token] { r with current := r.current.addOp none symbol token.location } :=
    .single (.operator hs (Symbol.isBracket_of_mayLead hm))
  -- The left operand is a missing term.
  have hop : r.current.addOp none symbol token.location =
      (r.current.grown (.missing token.location.start) 1).await symbol token.location Symbol.not.priority :=
    Frame.addOp_of_mayLead hafter hm token.location
  obtain ⟨next, t, hreads, ho, hPt, hadds⟩ :=
    hr.operand (r := { r with current := r.current.addOp none symbol token.location }) hop (hright token.location)
  exact ⟨next, _, hread.append hreads, ho, hR t token.location token.location.start hPt, hadds⟩

end Operators

/-! ## Stems -/

namespace Frame

/-- Reading has added what is a term, or what is one together with the dot before it. -/
inductive Ends (f : Frame) (e : Expr) : Levels → Frame → Prop
  | term {t : RawTree} (h : t.Means .term [e]) (height : Nat) : Ends f e ⟨t.height, none⟩ (f.grown t height)
  | key {left t : RawTree} {location : Location} {a : Expr} (hl : left.Means .term [a])
    (h : t.Means (.key location a) [e]) (leftHeight height : Nat) :
    Ends f e ⟨t.height, some left.height⟩
      (((f.grown left leftHeight).await .dot location Symbol.dot.priority).grown t height)

/-- A term together with the dot before it is a term. -/
theorem Ends.adds {f g : Frame} {e : Expr} {levels : Levels} (h : f.Ends e levels g) :
    ∃ t, t.Means .term [e] ∧ t.height = levels.total ∧ f.Adds (fun op => op.priority = Symbol.dot.priority) t g := by
  cases h with
  | term h height => exact ⟨_, h, rfl, adds_grown _ _ _ _⟩
  | @key left t location a hl h leftHeight height =>
    refine ⟨_, .dot hl h, rfl, ?_⟩
    have hadds := Adds.operand (adds_grown ((f.grown left leftHeight).await .dot location Symbol.dot.priority)
      (fun _ => False) t height)
    obtain ⟨hg, height, hunwind⟩ := hadds
    refine ⟨hg, height, fun waitsOn hp => hunwind waitsOn ?_⟩
    rintro op (rfl | hop)
    · exact hp _ rfl
    · exact hop.elim

/-- Arguments after it are a call of it. -/
theorem Ends.addArgs {f g : Frame} {e : Expr} {levels : Levels} (h : f.Ends e levels g) {args : RawTree}
    {es : List Expr} (ha : args.Means .args es) (height : Nat) (location : Location) :
    f.Ends (.node .call (.empty location.start) (e :: es)) (levels.applied args.height)
      (g.addTerm none args height location) := by
  cases h with
  | term h calleeHeight =>
    rw [addTerm_of_afterTerm rfl rfl, push_none]
    exact .term (.apply h ha) _
  | key hl h leftHeight calleeHeight =>
    rw [addTerm_of_afterTerm rfl rfl, push_none]
    exact .key hl (.keyApply h ha) _ _

end Frame

/-- Tokens that are read as an expression, up to places, that arguments and dots take as a whole. -/
def Stem (e : Expr) (levels : Levels) (tokens : List Token) : Prop :=
  ∀ r : Reading, r.current.afterTerm = false → (∀ op ∈ r.current.ops.head?, waitsFor .dot op = true) →
    ∃ next found, r.Reads tokens next ∧ next.opened = r.opened ∧ found.unlocated = e.unlocated ∧
      r.current.Ends found levels next.current

variable {e : Expr} {levels : Levels} {height : Nat}

theorem Term.stem (h : Term (RawTree.Tells .term [e] height) tokens) : Stem e ⟨height, none⟩ tokens := by
  intro r hr _
  obtain ⟨next, t, kept, hreads, ho, ht, hnext⟩ := h r hr
  obtain ⟨found, hmeans, heq, rfl⟩ := ht.exists_sole
  exact ⟨next, found, hreads, ho, heq, hnext ▸ .term hmeans kept⟩

theorem Stem.phrase (h : Stem e levels tokens) :
    Phrase (RawTree.Tells .term [e] levels.total) (waitsFor .dot · = true)
      (fun op => op.priority = Symbol.dot.priority) tokens := by
  intro r hr hhead
  obtain ⟨next, found, hreads, ho, heq, hends⟩ := h r hr hhead
  obtain ⟨t, hmeans, ht, hadds⟩ := hends.adds
  exact ⟨next, t, hreads, ho, ⟨[found], hmeans, by simp [heq], ht⟩, hadds⟩

/-- What follows a dot: a name, or anything between brackets. -/
def IsKey (key : Expr) (height : Nat) (t : RawTree) : Prop :=
  (∀ dot target, ∃ found, t.Means (.key dot target) [.node .field dot [target, found]] ∧
    found.unlocated = key.unlocated) ∧ t.height = height

/-- A field after its target. -/
theorem Stem.field {target key : Expr} {left right : List Token} {token : Token} (hl : Stem target levels left)
    (hs : token.symbol? = some .dot) (hr : Term (IsKey key height) right) (location : Location) :
    Stem (.node .field location [target, key]) (levels.dotted height) (left ++ token :: right) := by
  intro r hafter hhead
  obtain ⟨mid, l, hreadsl, hol, hPl, hadds⟩ := hl.phrase r hafter hhead
  obtain ⟨a, ha, heqa, hheight⟩ := hPl.exists_sole
  have hpending (op : PendingOp) (hop : op.priority = Symbol.dot.priority) : waitsFor .dot op = false := by
    simp [waitsFor, hop, Symbol.groupsRight]
  obtain ⟨kept, hop⟩ := hadds.addOp hpending hhead token.location
  have hread : mid.Reads [token] { mid with current := mid.current.addOp none .dot token.location } :=
    .single (.operator hs rfl)
  rw [hop] at hread
  obtain ⟨next, t, keptKey, hreadsr, hor, ⟨hkey, rfl⟩, hnext⟩ :=
    hr { mid with current := (r.current.grown l kept).await .dot token.location Symbol.dot.priority } rfl
  obtain ⟨found, hmeans, heq⟩ := hkey token.location a
  refine ⟨next, .node .field token.location [a, found], hreadsl.append (hread.append hreadsr), hor.trans hol, ?_, ?_⟩
  · exact Expr.unlocated_node_congr (by simp [heqa, heq]) _ _ _
  · rw [hnext, Levels.dotted, ← hheight]
    exact .key ha hmeans kept keptKey

/-- Tokens that are added to a frame as the arguments of what comes before them. -/
def Arguments (es : List Expr) (height : Nat) (tokens : List Token) : Prop :=
  ∀ r : Reading, ∃ next t kept location, r.Reads tokens next ∧ next.opened = r.opened ∧ t.Tells .args es height ∧
    next.current = r.current.addTerm none t kept location

theorem Stem.call {callee : Expr} {args : List Expr} {cs as : List Token} (hc : Stem callee levels cs)
    (ha : Arguments args height as) (location : Location) :
    Stem (.node .call location (callee :: args)) (levels.applied height) (cs ++ as) := by
  intro r hafter hhead
  obtain ⟨mid, c, hreadsc, hoc, heqc, hends⟩ := hc r hafter hhead
  obtain ⟨next, t, kept, place, hreadsa, hoa, ⟨es, hmeans, heqa, rfl⟩, hnext⟩ := ha mid
  refine ⟨next, _, hreadsc.append hreadsa, hoa.trans hoc, ?_, hnext ▸ hends.addArgs hmeans kept place⟩
  exact Expr.unlocated_node_congr (by simp [heqc, heqa]) _ _ _

/-! ## Expressions -/

/-- Tokens that are read as an expression, up to places, where an operator with the given priority has it as an
operand, on either side. -/
def Operand (priority : Nat) (e : Expr) (height : Nat) : List Token → Prop :=
  Phrase (RawTree.Tells .term [e] height) (·.priority ≤ priority) (priority ≤ ·.priority)

theorem Operand.of_le {n m : Nat} (h : Operand n e height tokens) (hle : m ≤ n) : Operand m e height tokens :=
  h.imp (fun _ ht => ht) (fun _ hop => Nat.le_trans hop hle) (fun _ hop => Nat.le_trans hle hop)

theorem Stem.operand (h : Stem e levels tokens) {n : Nat} (hn : n < Symbol.dot.priority) :
    Operand n e levels.total tokens := by
  refine h.phrase.imp (fun _ ht => ht) (fun op hop => ?_) fun op hop => ?_
  · have hlt : op.priority < Symbol.dot.priority := Nat.lt_of_le_of_lt hop hn
    simp [waitsFor, hlt]
  · rw [hop]
    exact Nat.le_of_lt hn

theorem term_leafExpr {token : Token} {l : Leaf} (hl : token.leaf? = some l) (location : Location) :
    Term (RawTree.Tells .term [Meaning.leafExpr location l] 1) [token] :=
  term_leaf hl ⟨_, .leaf l token.location, by cases l <;> rfl, rfl⟩

theorem groupsRight_of_infixOp? {symbol : Symbol} {op : Op} (h : Meaning.infixOp? symbol = some op) :
    symbol.groupsRight = false := by
  cases symbol <;> first | rfl | cases h

theorem isBracket_of_infixOp? {symbol : Symbol} {op : Op} (h : Meaning.infixOp? symbol = some op) :
    symbol.isBracket = false := by
  cases symbol <;> first | rfl | cases h

section Operands

variable {token : Token} {symbol : Symbol} {op : Op} {a b : Expr} {heighta heightb : Nat} {left right : List Token}

theorem Operand.binary (hop : Meaning.infixOp? symbol = some op) (hne : op ≠ .not)
    (ha : Operand symbol.priority a heighta left) (hb : Operand symbol.priority b heightb right)
    (hs : token.symbol? = some symbol) {n : Nat} (hn : n < symbol.priority) (location : Location) :
    Operand n (.node op location [a, b]) (max heighta heightb + 1) (left ++ token :: right) := by
  have hwaits (top : PendingOp) : waitsFor symbol top = true ↔ top.priority < symbol.priority := by
    simp [waitsFor, groupsRight_of_infixOp? hop]
  have hnode (l r : RawTree) (place : Location) (hl : l.Tells .term [a] heighta) (hr : r.Tells .term [b] heightb) :
      (RawTree.binary symbol place l r).Tells .term [.node op location [a, b]] (max heighta heightb + 1) := by
    obtain ⟨a', ha', heqa, rfl⟩ := hl.exists_sole
    obtain ⟨b', hb', heqb, rfl⟩ := hr.exists_sole
    exact ⟨_, .binary hop hne ha' hb', by simp [heqa, heqb], rfl⟩
  have hstops (top : PendingOp) (h : symbol.priority ≤ top.priority) : waitsFor symbol top = false := by
    rw [Bool.eq_false_iff, ne_eq, hwaits]
    omega
  refine (Phrase.between ha hb hs (isBracket_of_infixOp? hop) (fun top h => Nat.le_of_lt ((hwaits top).1 h)) hstops
    (fun _ => Nat.le_refl _) hnode).imp (fun _ ht => ht) (fun top h => (hwaits top).2 (Nat.lt_of_le_of_lt h hn)) ?_
  rintro top (⟨-, h⟩ | h) <;> omega

theorem Operand.lead (hop : Meaning.infixOp? symbol = some op) (hm : symbol.mayLead = true)
    (ha : Operand Symbol.not.priority a heighta right) (hs : token.symbol? = some symbol) (location : Location) :
    Operand Symbol.not.priority (.node op location [a]) (max 1 heighta + 1) (token :: right) := by
  have hnode (r : RawTree) (place : Location) (offset : Nat) (hr : r.Tells .term [a] heighta) :
      (RawTree.binary symbol place (.missing offset) r).Tells .term [.node op location [a]] (max 1 heighta + 1) := by
    obtain ⟨a', ha', heqa, rfl⟩ := hr.exists_sole
    exact ⟨_, .lead hm hop ha', by simp [heqa], rfl⟩
  refine (Phrase.lead ha hs hm (fun _ => Nat.le_refl _) hnode).imp (fun _ ht => ht) (fun _ _ => trivial) ?_
  rintro top (⟨-, h⟩ | h) <;> omega

end Operands

section Groups

variable {first last : Token}

theorem Operand.brackets {n : Nat} (h : Operand n e height tokens) (hf : first.symbol? = some (.opening .round))
    (hl : last.symbol? = some (.closing .round)) :
    Term (RawTree.Tells .term [e] (height + 1)) (first :: (tokens ++ [last])) := by
  refine Phrase.brackets h hf hl fun t location ht => ?_
  obtain ⟨found, hmeans, heq, rfl⟩ := ht.exists_sole
  exact ⟨_, .round hmeans, by simp [heq], rfl⟩

theorem term_keyName {token : Token} {name : String} (hl : token.leaf? = some (.name name)) (location : Location) :
    Term (IsKey (.stringLeaf location name) 1) [token] :=
  term_leaf hl
    ⟨fun dot target => ⟨_, .keyName dot target name token.location, Expr.unlocated_node_congr rfl _ _ _⟩, rfl⟩

theorem term_keyNumber {token : Token} {x : Float} (hl : token.leaf? = some (.number x)) (location : Location) :
    Term (IsKey (.numberLeaf location x) 1) [token] :=
  term_leaf hl ⟨fun _ _ => ⟨_, .keyTerm (by simp) (by simp) (.leaf (.number x) token.location), rfl⟩, rfl⟩

theorem Operand.key {n : Nat} (h : Operand n e height tokens) (hf : first.symbol? = some (.opening .round))
    (hl : last.symbol? = some (.closing .round)) : Term (IsKey e (height + 1)) (first :: (tokens ++ [last])) := by
  refine Phrase.brackets h hf hl fun t location ht => ?_
  obtain ⟨found, hmeans, heq, rfl⟩ := ht.exists_sole
  exact ⟨fun dot target => ⟨found, .keyTerm (by simp) (by simp) (.round hmeans), heq⟩, rfl⟩

/-! ## Items -/

/-- Tokens that are read as one item, up to places, after a bracket, a comma or a binding. -/
def Item (e : Expr) (height : Nat) : List Token → Prop :=
  Phrase (RawTree.Tells .item [e] height)
    (fun op => op.priority ≤ Symbol.assign.priority ∧ waitsFor .assign op = true) (Symbol.assign.priority ≤ ·.priority)

/-- Tokens that are read as everything between brackets, up to places. -/
def Items (es : List Expr) (height : Nat) : List Token → Prop :=
  Phrase (RawTree.Tells .items es height) (waitsFor .comma · = true) (Symbol.comma.priority ≤ ·.priority)

theorem Operand.item (h : Operand Symbol.assign.priority e height tokens) : Item e height tokens := by
  refine Phrase.imp h (fun t ht => ?_) (fun op hop => hop.1) fun op hop => hop
  obtain ⟨found, hmeans, heq, ht⟩ := ht.exists_sole
  exact ⟨[found], .item hmeans, by simp [heq], ht⟩

/-- A binding: whatever waits in front of an item does not take the name away from it. -/
theorem Item.assign {name : String} {nameToken token : Token} {value : Expr} {right : List Token}
    (hn : nameToken.leaf? = some (.name name)) (hs : token.symbol? = some .assign) (hv : Item value height right)
    (location nameLocation : Location) :
    Item (.node .assign location [.stringLeaf nameLocation name, value]) (max 1 height + 1)
      ([nameToken] ++ token :: right) := by
  have hname : Term (fun t => ∃ place, t = .leaf (.name name) place) [nameToken] := term_leaf hn ⟨_, rfl⟩
  have hnode (l r : RawTree) (place : Location) (hl : ∃ namePlace, l = .leaf (.name name) namePlace)
      (hr : r.Tells .item [value] height) :
      (RawTree.binary .assign place l r).Tells .item
        [.node .assign location [.stringLeaf nameLocation name, value]] (max 1 height + 1) := by
    obtain ⟨namePlace, rfl⟩ := hl
    obtain ⟨v, hmeans, heq, rfl⟩ := hr.exists_sole
    exact ⟨_, .assign hmeans, by simp [heq, Expr.stringLeaf], rfl⟩
  refine (Phrase.between (hname.phrase (fun _ => True) (fun _ => False)) hv hs rfl (fun _ _ => trivial)
    (fun _ h => h.elim) (fun _ => ⟨Nat.le_refl _, by simp [waitsFor, Symbol.groupsRight]⟩) hnode).imp
    (fun _ ht => ht) (fun op h => h.2) ?_
  rintro op (⟨-, h⟩ | h)
  · exact Nat.le_of_eq h.symm
  · exact h

theorem Item.items (h : Item e height tokens) : Items [e] height tokens := by
  refine Phrase.imp h (fun t ht => ?_) (fun op hop => ?_) fun op hop => ?_
  · obtain ⟨found, hmeans, heq, ht⟩ := ht.exists_sole
    exact ⟨[found], .one hmeans, by simp [heq], ht⟩
  · have hcomma : op.priority < Symbol.comma.priority := by simpa [waitsFor, Symbol.groupsRight] using hop
    have hassign : op.priority < Symbol.assign.priority := Nat.lt_trans hcomma (by decide)
    exact ⟨Nat.le_of_lt hassign, by simp [waitsFor, hassign]⟩
  · exact Nat.le_trans (by decide) hop

theorem Items.comma {es : List Expr} {before : Nat} {left right : List Token} {token : Token}
    (hl : Items es before left) (hs : token.symbol? = some .comma) (hr : Item e height right) :
    Items (es ++ [e]) (max before height + 1) (left ++ token :: right) := by
  have hnode (l r : RawTree) (place : Location) (hl : l.Tells .items es before) (hr : r.Tells .item [e] height) :
      (RawTree.binary .comma place l r).Tells .items (es ++ [e]) (max before height + 1) := by
    obtain ⟨found, hmeans, heq, rfl⟩ := hl
    obtain ⟨v, hv, heqv, rfl⟩ := hr.exists_sole
    exact ⟨_, .comma hmeans hv, by simp [heq, heqv], rfl⟩
  have hstops (op : PendingOp) (h : Symbol.comma.priority ≤ op.priority) : waitsFor .comma op = false := by
    simp [waitsFor, Symbol.groupsRight]
    omega
  refine (Phrase.between hl hr hs rfl (fun _ h => h) hstops
    (fun _ => ⟨by simp [Symbol.priority], by simp [waitsFor, Symbol.priority]⟩) hnode).imp (fun _ ht => ht) (fun op h => h) ?_
  rintro op (⟨-, h⟩ | h)
  · exact Nat.le_of_eq h.symm
  · exact Nat.le_trans (by decide) h

theorem Items.closure {es : List Expr} (h : Items es height tokens) (hf : first.symbol? = some (.opening .curly))
    (hl : last.symbol? = some (.closing .curly)) (location : Location) :
    Term (RawTree.Tells .term [.node .closure location es] (height + 1)) (first :: (tokens ++ [last])) := by
  refine Phrase.brackets h hf hl fun t place ht => ?_
  obtain ⟨found, hmeans, heq, rfl⟩ := ht
  exact ⟨_, .curly hmeans, by simp [heq], rfl⟩

theorem Items.arguments {es : List Expr} (h : Items es height tokens) (hf : first.symbol? = some (.opening .round))
    (hl : last.symbol? = some (.closing .round)) : Arguments es (height + 1) (first :: (tokens ++ [last])) := by
  intro r
  obtain ⟨next, t, kept, location, hreads, ho, ⟨found, hmeans, heq, rfl⟩, hnext⟩ := Phrase.group h hf hl r
  exact ⟨next, _, kept, location, hreads, ho, ⟨found, .args hmeans, heq, rfl⟩, hnext⟩

/-- Empty brackets after a term. -/
theorem arguments_nil (hf : first.symbol? = some (.opening .round)) (hl : last.symbol? = some (.closing .round)) :
    Arguments [] 2 [first, last] := by
  intro r
  obtain ⟨next, kept, location, hreads, ho, hnext⟩ :=
    (Reading.Reads.nil (r.openBracket .round first.location.start)).exists_group hf hl rfl
  exact ⟨next, _, kept, location, hreads, ho, ⟨[], .noArgs _ _, rfl, rfl⟩, hnext⟩

end Groups

end DynamicConfig

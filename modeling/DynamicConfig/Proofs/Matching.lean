import DynamicConfig.Evaluation.Clauses
/-!
# Successful matches

When a pattern matches a view, and what the slots hold afterwards. The patterns of where clauses and
bindings come out as the shapes of trees that they stand for (`whereArgs?_eq_some_iff`,
`asBinding?_eq_some_iff`).
-/

namespace DynamicConfig

open Treelike

namespace Pattern

variable {α : Type}

theorem andThen_eq_ok_iff {outcome : Outcome α} {next : Captures α → Outcome α} {c' : Captures α} :
    andThen outcome next = (.ok (), c') ↔ ∃ between, outcome = (.ok (), between) ∧ next between = (.ok (), c') := by
  obtain ⟨result, between⟩ := outcome
  cases result <;> simp [andThen]

variable [Treelike α] [BEq α] {p q : Pattern α} {ps : List (Pattern α)} {c c' : Captures α}

/-- The pattern matches the view, and changes the slots so. -/
def Matches (p : Pattern α) (view : View α) (c c' : Captures α) : Prop :=
  p.check view c = (.ok (), c')

/-- Each pattern matches the item at its place, and together they change the slots so. -/
def MatchesAll (ps : List (Pattern α)) (items : List α) (c c' : Captures α) : Prop :=
  items.length = ps.length ∧ checkAll ps items c = (.ok (), c')

theorem matched?_eq_some_iff {tree : α} : p.matched? tree = some c' ↔ p.Matches (.node tree) {} c' := by
  unfold matched? run Matches
  split <;> rename_i h <;> simp [h]

theorem matches_text_iff {expected : String} {tree : α} :
    (text expected).Matches (.node tree) c c' ↔ asText? tree = some expected ∧ c' = c := by
  simp only [Matches, check, View.text?, View.tree?, Option.bind_some]
  cases asText? tree with
  | none => simp
  | some t =>
    by_cases h : t = expected
    · simp [ensure, h, eq_comm]
    · simp [ensure, h]

theorem matches_first_iff {view : View α} :
    (first p q).Matches view c c' ↔
      ∃ head tail between, view.items? = some (head :: tail) ∧ p.Matches (.node head) c between ∧
        q.Matches (.rest tail) between c' := by
  simp only [Matches, check]
  split
  · simp_all
  · simp_all
  · rename_i head tail h
    rw [andThen_eq_ok_iff]
    constructor
    · rintro ⟨between, hp, hq⟩
      exact ⟨head, tail, between, h, hp, hq⟩
    · rintro ⟨head', tail', between, h', hp, hq⟩
      cases h.symm.trans h'
      exact ⟨between, hp, hq⟩

theorem matches_list_iff {view : View α} :
    (list ps).Matches view c c' ↔ ∃ items, view.items? = some items ∧ MatchesAll ps items c c' := by
  simp only [Matches, MatchesAll, check]
  split
  · simp_all
  · rename_i items h
    by_cases hn : items.length = ps.length <;> simp_all

theorem matchesAll_nil_iff {items : List α} : MatchesAll [] items c c' ↔ items = [] ∧ c' = c := by
  cases items <;> simp [MatchesAll, checkAll, eq_comm]

theorem matchesAll_cons_iff {items : List α} :
    MatchesAll (p :: ps) items c c' ↔
      ∃ x rest between, items = x :: rest ∧ p.Matches (.node x) c between ∧ MatchesAll ps rest between c' := by
  cases items with
  | nil => simp [MatchesAll]
  | cons x rest =>
    simp only [MatchesAll, checkAll, andThen_eq_ok_iff, List.length_cons, Nat.add_right_cancel_iff]
    constructor
    · rintro ⟨hn, between, hp, hps⟩
      exact ⟨x, rest, between, rfl, hp, hn, hps⟩
    · rintro ⟨_, _, between, h, hp, hn, hps⟩
      cases h
      exact ⟨hn, between, hp, hps⟩

theorem matches_captureItems_iff {slot : String} {items : List α} :
    (captureItems slot).Matches (.rest items) c c' ↔ c' = { c with lists := Captures.fill c.lists slot items } := by
  simp [Matches, check, View.items?, keep, eq_comm]

theorem matches_captureText_iff {slot : String} {tree : α} :
    (captureText slot).Matches (.node tree) c c' ↔
      ∃ t, asText? tree = some t ∧ c' = { c with texts := Captures.fill c.texts slot t } := by
  simp only [Matches, check, View.text?, View.tree?, Option.bind_some, keep]
  cases asText? tree <;> simp [eq_comm]

theorem matches_captureNode_iff {slot : String} {tree : α} :
    (captureNode slot).Matches (.node tree) c c' ↔ c' = { c with nodes := Captures.fill c.nodes slot tree } := by
  simp [Matches, check, View.tree?, keep, eq_comm]

end Pattern

namespace Expr

open Pattern

theorem items?_node_eq_some_iff {e : Expr} {items : List Expr} :
    (View.node e).items? = some items ↔ e = .list items := by
  cases e <;> simp [View.items?, asItems?]

/-- A where clause is a call of the name `where`. -/
theorem whereArgs?_eq_some_iff {e : Expr} {clauses : List Expr} :
    e.whereArgs? = some clauses ↔
      ∃ head kind name, e = .list (head :: .list [kind, name] :: clauses) ∧ asText? head = some "call" ∧
        asText? kind = some "name" ∧ asText? name = some "where" := by
  rw [whereArgs?, Option.bind_eq_some_iff]
  constructor
  · rintro ⟨captures, hmatch, hargs⟩
    rw [matched?_eq_some_iff, wherePattern, matches_first_iff] at hmatch
    obtain ⟨head, tail, c1, he, h1, hmatch⟩ := hmatch
    obtain ⟨callee, args, c2, htail, h2, h3⟩ := matches_first_iff.1 hmatch
    obtain ⟨pair, hpair, h4⟩ := matches_list_iff.1 h2
    obtain ⟨kind, _, c3, rfl, h5, h4⟩ := matchesAll_cons_iff.1 h4
    obtain ⟨name, _, c4, rfl, h6, h4⟩ := matchesAll_cons_iff.1 h4
    obtain ⟨rfl, rfl⟩ := matchesAll_nil_iff.1 h4
    cases htail
    cases matches_captureItems_iff.1 h3
    cases hargs
    obtain rfl := items?_node_eq_some_iff.1 he
    obtain rfl := items?_node_eq_some_iff.1 hpair
    exact ⟨head, kind, name, rfl, (matches_text_iff.1 h1).1, (matches_text_iff.1 h5).1, (matches_text_iff.1 h6).1⟩
  · rintro ⟨head, kind, name, rfl, h1, h2, h3⟩
    refine ⟨{ lists := Captures.fill (fun _ => none) "args" clauses }, matched?_eq_some_iff.2 ?_, rfl⟩
    refine matches_first_iff.2 ⟨head, _, {}, rfl, matches_text_iff.2 ⟨h1, rfl⟩, ?_⟩
    refine matches_first_iff.2 ⟨_, clauses, {}, rfl, ?_, matches_captureItems_iff.2 rfl⟩
    refine matches_list_iff.2 ⟨_, rfl, ?_⟩
    refine matchesAll_cons_iff.2 ⟨kind, _, {}, rfl, matches_text_iff.2 ⟨h2, rfl⟩, ?_⟩
    refine matchesAll_cons_iff.2 ⟨name, _, {}, rfl, matches_text_iff.2 ⟨h3, rfl⟩, ?_⟩
    exact matchesAll_nil_iff.2 ⟨rfl, rfl⟩

/-- A binding is a node of `=` with a leaf of a string and a value. -/
theorem asBinding?_eq_some_iff {e value : Expr} {name : String} :
    e.asBinding? = some (name, value) ↔
      ∃ head kind text, e = .list [head, .list [kind, text], value] ∧ asText? head = some "=" ∧
        asText? kind = some "string" ∧ asText? text = some name := by
  simp only [asBinding?, Option.bind_eq_bind, Option.bind_eq_some_iff]
  constructor
  · rintro ⟨captures, hmatch, name', hname, value', hvalue, h⟩
    cases h
    rw [matched?_eq_some_iff, bindingPattern, matches_list_iff] at hmatch
    obtain ⟨items, he, h1⟩ := hmatch
    obtain ⟨head, _, c1, rfl, h2, h1⟩ := matchesAll_cons_iff.1 h1
    obtain ⟨target, _, c2, rfl, h3, h1⟩ := matchesAll_cons_iff.1 h1
    obtain ⟨last, _, c3, rfl, h4, h1⟩ := matchesAll_cons_iff.1 h1
    obtain ⟨rfl, rfl⟩ := matchesAll_nil_iff.1 h1
    obtain ⟨pair, hpair, h5⟩ := matches_list_iff.1 h3
    obtain ⟨kind, _, c5, rfl, h6, h5⟩ := matchesAll_cons_iff.1 h5
    obtain ⟨text, _, c6, rfl, h7, h5⟩ := matchesAll_cons_iff.1 h5
    obtain ⟨rfl, rfl⟩ := matchesAll_nil_iff.1 h5
    obtain ⟨t, ht, rfl⟩ := matches_captureText_iff.1 h7
    cases matches_captureNode_iff.1 h4
    cases hname
    cases hvalue
    obtain rfl := items?_node_eq_some_iff.1 he
    obtain rfl := items?_node_eq_some_iff.1 hpair
    exact ⟨head, kind, text, rfl, (matches_text_iff.1 h2).1, (matches_text_iff.1 h6).1, ht⟩
  · rintro ⟨head, kind, text, rfl, h1, h2, h3⟩
    let named : Captures Expr := { texts := Captures.fill (fun _ => none) "name" name }
    refine ⟨{ named with nodes := Captures.fill (fun _ => none) "value" value }, matched?_eq_some_iff.2 ?_,
      name, rfl, value, rfl, rfl⟩
    refine matches_list_iff.2 ⟨_, rfl, ?_⟩
    refine matchesAll_cons_iff.2 ⟨head, _, {}, rfl, matches_text_iff.2 ⟨h1, rfl⟩, ?_⟩
    refine matchesAll_cons_iff.2 ⟨_, _, named, rfl, matches_list_iff.2 ⟨_, rfl, ?_⟩, ?_⟩
    · refine matchesAll_cons_iff.2 ⟨kind, _, {}, rfl, matches_text_iff.2 ⟨h2, rfl⟩, ?_⟩
      refine matchesAll_cons_iff.2 ⟨text, _, named, rfl, matches_captureText_iff.2 ⟨name, h3, rfl⟩, ?_⟩
      exact matchesAll_nil_iff.2 ⟨rfl, rfl⟩
    · refine matchesAll_cons_iff.2 ⟨value, _, _, rfl, matches_captureNode_iff.2 rfl, ?_⟩
      exact matchesAll_nil_iff.2 ⟨rfl, rfl⟩

/-- The tag of a node reads as the text of its kind, and no other kind has that text. -/
theorem op_of_asText?_tag {op other : Op} {location : Location}
    (h : asText? (Expr.tag ⟨op, location⟩) = some other.text) : op = other := by
  have htext : op.text = other.text := Option.some.inj h
  have hread := congrArg Op.ofText? htext
  rw [Op.ofText?_text, Op.ofText?_text] at hread
  exact Option.some.inj hread

variable {op : Op} {location : Location} {children : List Expr}

/-- A node that is a where clause is a call. -/
theorem node_of_whereArgs? {clauses : List Expr} (h : (node op location children).whereArgs? = some clauses) :
    op = .call ∧ ∃ callee, children = callee :: clauses := by
  obtain ⟨head, kind, name, he, hhead, -, -⟩ := whereArgs?_eq_some_iff.1 h
  cases he
  exact ⟨op_of_asText?_tag hhead, _, rfl⟩

/-- A node that is a binding is one of `=`. -/
theorem op_of_asBinding? {name : String} {value : Expr}
    (h : (node op location children).asBinding? = some (name, value)) : op = .assign := by
  obtain ⟨head, kind, text, he, hhead, -, -⟩ := asBinding?_eq_some_iff.1 h
  cases he
  exact op_of_asText?_tag hhead

end Expr

end DynamicConfig

/-!
# Patterns

A pattern says what a tree looks like and which parts of it to keep. It is held against a view: one
node, or the items of a list that are left. Every kind of capture has slots of its own; a slot keeps
what it was given even when the match fails later, also on the first side of an `or`.
-/

namespace DynamicConfig

/-- Trees whose leaves are texts, numbers and truth values, and whose inner nodes are lists. -/
class Treelike (α : Type) where
  asText? : α → Option String
  asNumber? : α → Option Float
  asBool? : α → Option Bool
  asItems? : α → Option (List α)
  /-- Whether a tree is the empty one. -/
  isNil : α → Bool

/-- What a pattern is held against. -/
inductive View (α : Type)
  /-- One tree. -/
  | node (tree : α)
  /-- The items of a list that are left. -/
  | rest (items : List α)

/-- Why a pattern does not match. -/
inductive Mismatch
  | noMatch
  | notList
  | emptyList
  | notString
  | notNumber
  | notBool
  | wrongLength (expected found : Nat)
deriving Repr, DecidableEq

/-- The wording of a mismatch. -/
def Mismatch.text : Mismatch → String
  | noMatch => "no match"
  | notList => "not a list"
  | emptyList => "empty list"
  | notString => "not a string"
  | notNumber => "not a number"
  | notBool => "not a bool"
  | wrongLength expected found =>
    "expected " ++ toString expected ++ " elements, got " ++ toString found

namespace View

variable {α : Type}

/-- The tree, if the view is one. -/
def tree? : View α → Option α
  | node tree => some tree
  | rest _ => none

/-- Equality of views. A tree and a rest are never equal. -/
def beq [BEq α] : View α → View α → Bool
  | node a, node b => a == b
  | rest xs, rest ys => xs == ys
  | _, _ => false

variable [Treelike α]

/-- The items, if the view is a list or what is left of one. -/
def items? : View α → Option (List α)
  | node tree => Treelike.asItems? tree
  | rest items => some items

/-- The text, if the view is a tree with one. -/
def text? (view : View α) : Option String :=
  view.tree?.bind Treelike.asText?

/-- The number, if the view is a tree with one. -/
def number? (view : View α) : Option Float :=
  view.tree?.bind Treelike.asNumber?

/-- The truth value, if the view is a tree with one. -/
def bool? (view : View α) : Option Bool :=
  view.tree?.bind Treelike.asBool?

end View

/-- The slots of each kind of capture and what they hold. -/
structure Captures (α : Type) where
  views : String → Option (View α) := fun _ => none
  nodes : String → Option α := fun _ => none
  texts : String → Option String := fun _ => none
  numbers : String → Option Float := fun _ => none
  bools : String → Option Bool := fun _ => none
  lists : String → Option (List α) := fun _ => none

/-- Slots of which one now holds the given thing. -/
def Captures.fill {β : Type} (slots : String → Option β) (slot : String) (content : β) : String → Option β :=
  fun other => if other = slot then some content else slots other

/-- What a tree may look like. -/
inductive Pattern (α : Type)
  | any
  | nothing
  | nil
  | equals (expected : α)
  | text (expected : String)
  /-- A text that begins with the given one. -/
  | startingWith (start : String)
  | isString
  | isNumber
  | isBool
  | isList
  /-- A view that passes a test of the caller's own. -/
  | satisfies (test : View α → Except Mismatch Unit)
  | and (first second : Pattern α)
  /-- Either side; the second one is tried only if the first one fails. -/
  | or (first second : Pattern α)
  | not (pattern : Pattern α)
  /-- A list by its first item and the rest of it. -/
  | first (head rest : Pattern α)
  /-- A list by its last item and the rest of it. -/
  | last (last rest : Pattern α)
  /-- A list item by item. -/
  | list (items : List (Pattern α))
  | captureView (slot : String)
  | captureNode (slot : String)
  | captureText (slot : String)
  | captureNumber (slot : String)
  | captureBool (slot : String)
  | captureItems (slot : String)
  /-- Captures a view if the slot is empty, and else only matches an equal one. -/
  | auto (slot : String)
deriving Inhabited

namespace Pattern

variable {α : Type}

/-- The outcome of holding a pattern against a view, and the slots afterwards. -/
abbrev Outcome (α : Type) := Except Mismatch Unit × Captures α

/-- Fails in the given way unless a test holds. -/
def ensure (holds : Bool) (otherwise : Mismatch) : Except Mismatch Unit :=
  if holds then .ok () else .error otherwise

/-- Keeps a part of the view if there is one, and else fails in the given way. -/
def keep {β : Type} (part : Option β) (otherwise : Mismatch) (store : β → Captures α) (captures : Captures α) :
    Outcome α :=
  match part with
  | some x => (.ok (), store x)
  | none => (.error otherwise, captures)

/-- Goes on after a match, and stays with a mismatch. -/
def andThen (outcome : Outcome α) (next : Captures α → Outcome α) : Outcome α :=
  match outcome with
  | (.ok (), captures) => next captures
  | (.error e, captures) => (.error e, captures)

variable [Treelike α] [BEq α]

mutual

/-- Holds a pattern against a view. -/
def check : Pattern α → View α → Captures α → Outcome α
  | any, _, c => (.ok (), c)
  | nothing, _, c => (.error .noMatch, c)
  | nil, view, c => (ensure (view.tree?.any Treelike.isNil) .noMatch, c)
  | equals expected, view, c => (ensure (view.tree?.any (· == expected)) .noMatch, c)
  | text expected, view, c =>
    match view.text? with
    | some t => (ensure (t == expected) .noMatch, c)
    | none => (.error .notString, c)
  | startingWith start, view, c =>
    match view.text? with
    | some t => (ensure (start.toList.isPrefixOf t.toList) .noMatch, c)
    | none => (.error .notString, c)
  | isString, view, c => (ensure view.text?.isSome .notString, c)
  | isNumber, view, c => (ensure view.number?.isSome .notNumber, c)
  | isBool, view, c => (ensure view.bool?.isSome .notBool, c)
  | isList, view, c => (ensure view.items?.isSome .notList, c)
  | satisfies test, view, c => (test view, c)
  | and p q, view, c => andThen (check p view c) (check q view)
  | or p q, view, c =>
    match check p view c with
    | (.ok (), c) => (.ok (), c)
    | (.error _, c) => check q view c
  | not p, view, c =>
    match check p view c with
    | (.ok (), c) => (.error .noMatch, c)
    | (.error _, c) => (.ok (), c)
  | first p q, view, c =>
    match view.items? with
    | none => (.error .notList, c)
    | some [] => (.error .emptyList, c)
    | some (head :: tail) => andThen (check p (.node head) c) (check q (.rest tail))
  | last p q, view, c =>
    match view.items? with
    | none => (.error .notList, c)
    | some items =>
      match items.getLast? with
      | none => (.error .emptyList, c)
      | some item => andThen (check p (.node item) c) (check q (.rest items.dropLast))
  | list ps, view, c =>
    match view.items? with
    | none => (.error .notList, c)
    | some items =>
      if items.length = ps.length then checkAll ps items c
      else (.error (.wrongLength ps.length items.length), c)
  | captureView slot, view, c => (.ok (), { c with views := Captures.fill c.views slot view })
  | captureNode slot, view, c =>
    keep view.tree? .noMatch (fun x => { c with nodes := Captures.fill c.nodes slot x }) c
  | captureText slot, view, c =>
    keep view.text? .notString (fun x => { c with texts := Captures.fill c.texts slot x }) c
  | captureNumber slot, view, c =>
    keep view.number? .notNumber (fun x => { c with numbers := Captures.fill c.numbers slot x }) c
  | captureBool slot, view, c =>
    keep view.bool? .notBool (fun x => { c with bools := Captures.fill c.bools slot x }) c
  | captureItems slot, view, c =>
    keep view.items? .notList (fun x => { c with lists := Captures.fill c.lists slot x }) c
  | auto slot, view, c =>
    match c.views slot with
    | some seen => (ensure (seen.beq view) .noMatch, c)
    | none => (.ok (), { c with views := Captures.fill c.views slot view })

/-- Holds each pattern against the item at its place, up to the first mismatch. -/
def checkAll : List (Pattern α) → List α → Captures α → Outcome α
  | p :: ps, item :: items, c => andThen (check p (.node item) c) (checkAll ps items)
  | _, _, c => (.ok (), c)

end

/-- Holds a pattern against a whole tree with empty slots. -/
def run (pattern : Pattern α) (tree : α) : Outcome α :=
  pattern.check (.node tree) {}

/-- The slots after a match with a whole tree. -/
def matched? (pattern : Pattern α) (tree : α) : Option (Captures α) :=
  match pattern.run tree with
  | (.ok (), captures) => some captures
  | (.error _, _) => none

/-- A number that two divides. -/
def even : Pattern α :=
  satisfies fun view =>
    match view.number? with
    | some x => ensure (x.isFinite && (x / 2).floor * 2 == x) .noMatch
    | none => .error .notNumber

end Pattern

end DynamicConfig

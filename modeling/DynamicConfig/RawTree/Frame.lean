import DynamicConfig.RawTree
/-!
# Frames

A frame holds what stands between two brackets while it is read: the terms that are complete, and
the operators that still wait for their right operand. An operator first takes the waiting ones that
bind at least as tightly. Each term is kept with its height, and one that would grow too high is cut
off.
-/

namespace DynamicConfig

/-- An operator that waits for its right operand. -/
structure PendingOp where
  symbol : Symbol
  location : Location
  priority : Nat

/-- The terms and operators between two brackets, the last ones first. -/
structure Frame where
  /-- Whether the last thing read is a term. -/
  afterTerm : Bool := false
  ops : List PendingOp := []
  /-- The terms with their heights. -/
  terms : List (RawTree × Nat) := []
  /-- Where the first term was cut off. -/
  cutAt : Option Nat := none

/-- What a frame amounts to: its only term, the height of that, and where a term was cut off. -/
structure Finished where
  tree : RawTree
  height : Nat
  cutAt : Option Nat

namespace Frame

/-- How high a term may be. -/
def maxHeight : Nat := 256

/-- Whether a height is above the limit, if there is one. -/
def exceeds (limit : Option Nat) (height : Nat) : Bool :=
  limit.any (· < height)

/-- Adds a term, or a cut-off one in its place when it is too high. -/
def push (limit : Option Nat) (frame : Frame) (tree : RawTree) (height offset : Nat) : Frame :=
  if exceeds limit height then
    { frame with terms := (.cutOff offset, 1) :: frame.terms, cutAt := frame.cutAt.or (some offset) }
  else
    { frame with terms := (tree, height) :: frame.terms }

/-- Takes the last term; where there is none, it is missing at the given place. -/
def pop (frame : Frame) (offset : Nat) : (RawTree × Nat) × Frame :=
  match frame.terms with
  | [] => ((.missing offset, 1), frame)
  | term :: rest => (term, { frame with terms := rest })

/-- Gives an operator its two operands. -/
def reduce (limit : Option Nat) (frame : Frame) (op : PendingOp) : Frame :=
  let ((right, rightHeight), frame) := frame.pop op.location.stop
  let ((left, leftHeight), frame) := frame.pop op.location.start
  frame.push limit (.binary op.symbol op.location left right) (max leftHeight rightHeight + 1)
    op.location.start

/-- Gives waiting operators their operands, the last one first, up to one that has to wait on. -/
def unwind (limit : Option Nat) (waitsOn : PendingOp → Bool) : List PendingOp → Frame → Frame
  | [], frame => { frame with ops := [] }
  | top :: rest, frame =>
    if waitsOn top then { frame with ops := top :: rest }
    else unwind limit waitsOn rest (frame.reduce limit top)

/-- Whether a waiting operator goes on waiting when the given one comes: it binds less tightly, or is
the same one and groups to the right. -/
def waitsFor (symbol : Symbol) (top : PendingOp) : Bool :=
  top.priority < symbol.priority || (symbol.groupsRight && top.symbol == symbol)

/-- Adds an operator. Where no term stands before it, its left operand is missing; if it may then lead
its operand, it binds tighter than every infix operator but the dot, and no waiting operator takes
its operand. -/
def addOp (limit : Option Nat) (frame : Frame) (symbol : Symbol) (location : Location) : Frame :=
  if frame.afterTerm then
    let frame := unwind limit (waitsFor symbol) frame.ops frame
    { frame with ops := ⟨symbol, location, symbol.priority⟩ :: frame.ops, afterTerm := false }
  else
    let frame := { frame with terms := (.missing location.start, 1) :: frame.terms }
    if symbol.mayLead then
      { frame with ops := ⟨symbol, location, Symbol.not.priority⟩ :: frame.ops }
    else
      let frame := unwind limit (waitsFor symbol) frame.ops frame
      { frame with ops := ⟨symbol, location, symbol.priority⟩ :: frame.ops, afterTerm := false }

/-- Adds a term of the given height. Directly after another term it is applied to that one. -/
def addTerm (limit : Option Nat) (frame : Frame) (tree : RawTree) (height : Nat) (location : Location) :
    Frame :=
  let frame :=
    match frame.afterTerm, frame.terms with
    | true, (callee, calleeHeight) :: rest =>
      { frame with terms := rest }.push limit (.apply (.empty location.start) callee tree)
        (max calleeHeight height + 1) location.start
    | _, _ => frame.push limit tree height location.start
  { frame with afterTerm := true }

/-- Gives every waiting operator its operands and takes the only term left. An operator without a
right operand misses it at the given place, where the frame ends. -/
def finish (limit : Option Nat) (frame : Frame) (stop : Nat) : Finished :=
  let frame :=
    if !frame.afterTerm && !frame.ops.isEmpty then
      { frame with terms := (.missing stop, 1) :: frame.terms }
    else frame
  let frame := unwind limit (fun _ => false) frame.ops frame
  let ((tree, height), frame) := frame.pop stop
  ⟨tree, height, frame.cutAt⟩

end Frame

end DynamicConfig

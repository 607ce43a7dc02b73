import DynamicConfig.RawTree.Frame
/-!
# Reading raw trees

The lexemes of a source text are read with one frame for each open bracket. A closing bracket that
does not pair with the innermost open one ends the reading; what is open then is closed in silence.
At the end of the source text each open bracket is reported, the innermost first, and closed.
-/

namespace DynamicConfig

/-- A bracket that is still open, where it stands, and the frame around it. -/
structure OpenBracket where
  bracket : Bracket
  start : Nat
  around : Frame

/-- A source text in the middle of being read. -/
structure Reading where
  /-- The frame inside the innermost open bracket. -/
  current : Frame := {}
  /-- The open brackets, the innermost first. -/
  opened : List OpenBracket := []
  /-- Where a term was cut off in a bracket that is closed. -/
  cutAt : Option Nat := none

namespace Reading

/-- Opens a bracket. -/
def openBracket (reading : Reading) (bracket : Bracket) (start : Nat) : Reading :=
  { reading with current := {}, opened := ⟨bracket, start, reading.current⟩ :: reading.opened }

/-- Closes the innermost bracket: its frame ends at `stop`, the bracket itself at `location.stop`. -/
def closeBracket (limit : Option Nat) (reading : Reading) (innermost : OpenBracket) (outer : List OpenBracket)
    (stop : Nat) (location : Location) : Reading :=
  let inner := reading.current.finish limit stop
  let group := .group innermost.bracket location inner.tree
  { current := innermost.around.addTerm limit group (inner.height + 1) location
    opened := outer
    cutAt := reading.cutAt.or inner.cutAt }

/-- Reads a token. It fails if the token is a closing bracket without its opening one. -/
def feed (limit : Option Nat) (reading : Reading) (token : Token) : Except ParseError (Reading × List ParseError) :=
  match Symbol.ofText? token.text with
  | some (.opening bracket) => .ok (reading.openBracket bracket token.location.start, [])
  | some (.closing bracket) =>
    match reading.opened with
    | innermost :: outer =>
      if innermost.bracket = bracket then
        .ok (reading.closeBracket limit innermost outer token.location.start
          ⟨innermost.start, token.location.stop⟩, [])
      else .error ⟨.mismatchedBraces, token.location.start⟩
    | [] => .error ⟨.mismatchedBraces, token.location.start⟩
  | some symbol => .ok ({ reading with current := reading.current.addOp limit symbol token.location }, [])
  | none =>
    let (term, faults) := RawTree.ofToken token
    .ok ({ reading with current := reading.current.addTerm limit term 1 token.location }, faults)

/-- Closes every open bracket at the end of the source text. -/
def closeAll (limit : Option Nat) (stop : Nat) : List OpenBracket → Reading → Reading
  | [], reading => { reading with opened := [] }
  | innermost :: outer, reading =>
    closeAll limit stop outer (reading.closeBracket limit innermost outer stop ⟨innermost.start, stop⟩)

/-- The tree of what has been read, and where a term was cut off. -/
def finish (limit : Option Nat) (reading : Reading) (stop : Nat) : RawTree × Option Nat :=
  let reading := closeAll limit stop reading.opened reading
  let root := reading.current.finish limit stop
  (root.tree, reading.cutAt.or root.cutAt)

/-- The tree at the end of a source text, with a fault for each open bracket and one for the first
term that was cut off. -/
def finishReporting (limit : Option Nat) (reading : Reading) (stop : Nat) : RawTree × List ParseError :=
  let (tree, cutAt) := reading.finish limit stop
  let unclosed := reading.opened.map fun o => ⟨.incompleteBraces, o.start⟩
  (tree, unclosed ++ (cutAt.map (⟨.tooDeep, ·⟩)).toList)

/-- Reads the rest of the lexemes of a source text that ends at `stop`. -/
def run (limit : Option Nat) (stop : Nat) (reading : Reading) : List Lexeme → RawTree × List ParseError
  | [] => reading.finishReporting limit stop
  | .fault e :: rest =>
    let (tree, errors) := run limit stop reading rest
    (tree, e :: errors)
  | .token t :: rest =>
    match reading.feed limit t with
    | .ok (next, faults) =>
      let (tree, errors) := run limit stop next rest
      (tree, faults ++ errors)
    | .error e => ((reading.finish limit stop).1, [e])

end Reading

/-- The raw tree of a source text, no term of it higher than the limit, and the faults found so far. -/
def RawTree.ofSource (limit : Option Nat) (source : String) : RawTree × List ParseError :=
  Reading.run limit source.utf8ByteSize {} (lexemes source)

end DynamicConfig

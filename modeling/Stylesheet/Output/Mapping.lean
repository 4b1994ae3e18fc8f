import Stylesheet.Output.Plan
import Stylesheet.Print.Chunks

/-!
# Mappings

A mapping says where a place of the output comes from. Every node gets one where its text starts
and, when it is closed by a brace or a semicolon, one at that last character. Lines and columns
count from 0, columns in UTF-16 units.

* `Spot.advance` is where the output is after a chunk.
* `MapPlan.mappings` are the mappings of printed chunks.
* `MapPlan.generateString` prints a tree with its mappings.
-/

namespace Stylesheet

/-- A place of the output. -/
structure Spot where
  line : Nat := 0
  column : Nat := 0
deriving Repr, DecidableEq, Inhabited

namespace Spot

/-- The place behind a text that starts at a place. -/
def advance (s : Spot) (text : String) : Spot :=
  let cs := text.toList
  if cs.contains '\n' then
    ⟨s.line + cs.count '\n', Text.units (Text.lastLine text).toList⟩
  else ⟨s.line, s.column + Text.units cs⟩

/-- The place of the character in front, when it is one unit wide and on the same line. -/
def back (s : Spot) : Spot :=
  ⟨s.line, s.column - 1⟩

end Spot

/-- Where something comes from. -/
structure MapOrigin where
  source : String
  line : Nat
  column : Nat
  name : Option String := none
deriving Repr, DecidableEq, Inhabited

/-- The origin of what was not read. -/
def MapOrigin.missing : MapOrigin where
  source := "<no source>"
  line := 0
  column := 0

/-- One place of the output and where it comes from. -/
structure Mapping where
  spot : Spot
  origin : MapOrigin
deriving Repr, DecidableEq, Inhabited

namespace MapPlan

/-- Where a position of an input comes from: the place that the map of the input leads to, or the
position itself. -/
def origin (p : MapPlan) (i : Input) (position : Position) : MapOrigin :=
  let line := position.line - 1
  let column := position.column - 1
  let traced := i.map.bind fun m =>
    (m.trace? p.packages line column).map fun place =>
      MapOrigin.mk (p.previousName m place.source) place.line place.column place.name
  traced.getD ⟨p.sourceName i, line, column, none⟩

/-- Where a node starts and where it ends in its input, as origins. -/
def origins (p : MapPlan) (t : Tree) (n : Node) : Option MapOrigin × Option MapOrigin :=
  match n.source with
  | none => (none, none)
  | some s =>
    match t.inputs[s.input]? with
    | none => (none, none)
    | some i => (s.start.map (p.origin i), s.stop.map (p.origin i))

/-- Whether a node ends without a character of its own: the last declaration or at-rule without a
block in a container that is not known to close it. -/
def endsOpen (t : Tree) (id : NodeId) (n : Node) : Bool :=
  (n.kind == .declaration || (n.kind == .atRule && !n.isContainer)) &&
    match n.parent.bind t.get? with
    | some parent => parent.children.getLast? == some id && parent.raws.semicolon != some true
    | none => false

/-- The mappings of a chunk between two places. -/
def chunkMappings (p : MapPlan) (t : Tree) (before after : Spot) (c : Chunk) : List Mapping :=
  match c.part with
  | none => []
  | some (id, phase) =>
    match t.get? id with
    | none => []
    | some n =>
      let (start, stop) := p.origins t n
      let atStart :=
        if phase = .stop then [] else [Mapping.mk before (start.getD MapOrigin.missing)]
      let atStop :=
        if phase = .start || endsOpen t id n then []
        else
          match stop with
          | some origin => [Mapping.mk after.back origin]
          | none => [Mapping.mk after MapOrigin.missing]
      atStart ++ atStop

/-- The mappings of chunks from a place on. -/
def mappingsFrom (p : MapPlan) (t : Tree) (s : Spot) : List Chunk → List Mapping
  | [] => []
  | c :: cs =>
    let after := s.advance c.text
    p.chunkMappings t s after c ++ p.mappingsFrom t after cs

/-- The mappings of a printed tree, in the order of printing. -/
def mappings (p : MapPlan) (t : Tree) (chunks : List Chunk) : List Mapping :=
  p.mappingsFrom t {} chunks

/-- The text of a tree and its mappings. -/
def generateString (p : MapPlan) (t : Tree) : String × List Mapping :=
  let chunks := t.chunks Tree.rootId
  (Chunk.textOf chunks, p.mappings t chunks)

end MapPlan

namespace Mapping

/-- The place of a mapping as a pair. -/
def place (m : Mapping) : Nat × Nat :=
  (m.spot.line, m.spot.column)

/-- Mappings without those at the place of the one in front. -/
def firsts : List Mapping → List Mapping
  | [] => []
  | m :: ms => m :: firstsAfter m ms
where
  /-- Mappings behind one that is kept. -/
  firstsAfter (kept : Mapping) : List Mapping → List Mapping
    | [] => []
    | m :: ms => if m.place = kept.place then firstsAfter kept ms else m :: firstsAfter m ms

/-- Mappings in the order of their places, the first of those at one place. -/
def settled (ms : List Mapping) : List Mapping :=
  firsts (ms.mergeSort fun a b => placeLe a.place b.place)

end Mapping

end Stylesheet

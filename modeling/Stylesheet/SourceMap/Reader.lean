import Stylesheet.SourceMap.Basic
import Stylesheet.SourceMap.Layout
import Stylesheet.Text.Cut
import Stylesheet.Text.Measure

/-!
# Reading a map

`Layout.decode` turns the parts of a map into a map: the entries are decoded, and sections are put
together to one map. An error in the entries of any section wins over one of putting them together,
so the result of decoding holds that of putting together.

`ofText` and `ofUrl` read a map from a text and from a data URL in base 64.
-/

namespace Stylesheet.SourceMap

/-! ### Entries -/

/-- The numbers that differences are added to. -/
structure Running where
  source : Nat := 0
  line : Nat := 0
  column : Nat := 0
  name : Nat := 0

/-- A number of 32 bits changed by a difference; it wraps around. -/
def advance (n : Nat) (d : Int) : Nat :=
  (Int.emod ((n : Int) + d) UInt32.size).toNat

/-- An error of the number reader as one of the map. -/
def MapError.ofVlq : Vlq.Problem → MapError
  | .leftover => .leftover
  | .overflow => .overflow

/-- Reads one entry on line `line` behind column `column`. -/
def readSegment (sources names line column : Nat) (r : Running) (segment : List Char) :
    Except MapError (MapEntry × Running) := do
  let numbers ← (Vlq.decode segment).mapError MapError.ofVlq
  match numbers with
  | [] => .error .leftover
  | [d] => .ok (⟨line, advance column d, none⟩, r)
  | d :: s :: l :: c :: more =>
    if more.length > 1 then .error (.segmentSize numbers.length)
    else
      let source := advance r.source s
      if source ≥ sources then .error (.badSource source)
      else
        let r := { r with source, line := advance r.line l, column := advance r.column c }
        let origin : EntryOrigin := { source, line := r.line, column := r.column }
        match more with
        | [] => .ok (⟨line, advance column d, some origin⟩, r)
        | n :: _ =>
          let name := advance r.name n
          if name ≥ names then .error (.badName name)
          else .ok (⟨line, advance column d, some { origin with name }⟩, { r with name })
  | _ => .error (.segmentSize numbers.length)

/-- Reads the entries of one line. Empty ones are skipped. -/
def readLine (sources names line column : Nat) (r : Running) :
    List (List Char) → Except MapError (List MapEntry × Running)
  | [] => .ok ([], r)
  | [] :: segments => readLine sources names line column r segments
  | segment :: segments => do
    let (entry, r) ← readSegment sources names line column r segment
    let (entries, r) ← readLine sources names line entry.column r segments
    .ok (entry :: entries, r)

/-- Reads the entries of all lines from line `line`. -/
def readLines (sources names line : Nat) (r : Running) :
    List (List Char) → Except MapError (List MapEntry)
  | [] => .ok []
  | text :: texts => do
    let (entries, r) ← readLine sources names line 0 r (Text.pieces ',' text)
    let more ← readLines sources names (line + 1) r texts
    .ok (entries ++ more)

/-- The map with the given fields. -/
def ofFields (f : Fields) : Except MapError SourceMap := do
  let entries ← readLines f.sources.length f.names.length 0 {} (Text.pieces ';' f.mappings.toList)
  .ok
    { file := f.file
      entries := sorted entries
      names := f.names
      sources := f.sources
      contents := f.contents
      sourceRoot := f.sourceRoot }

/-! ### Sections -/

/-- Puts the sources of a section into a map, with the texts that are known, and lists their
numbers there. -/
def mergeSources (m : SourceMap) : List (String × Option String) → SourceMap × List Nat
  | [] => (m, [])
  | (source, content) :: more =>
    let (m, n) := m.addSource source
    let m :=
      match content with
      | some content => m.setContent n content
      | none => m
    let (m, ns) := mergeSources m more
    (m, n :: ns)

/-- Puts the names of a section into a map and lists their numbers there. -/
def mergeNames (m : SourceMap) : List String → SourceMap × List Nat
  | [] => (m, [])
  | name :: more =>
    let (m, n) := m.addName name
    let (m, ns) := mergeNames m more
    (m, n :: ns)

/-- The origin of an entry when sources and names have got new numbers. -/
def EntryOrigin.renumber (sources names : List Nat) (o : EntryOrigin) : Option EntryOrigin :=
  sources[o.source]?.map fun source => { o with source, name := o.name.bind (names[·]?) }

/-- Puts a section that starts at a place behind a map. Only its first line is moved sideways. -/
def mergeSection (m : SourceMap) (line column : Nat) (part : SourceMap) : SourceMap :=
  let (m, sources) := mergeSources m (part.sourceNames.zip part.allContents)
  let (m, names) := mergeNames m part.names
  let moved := part.entries.map fun e =>
    { e with
      line := advance e.line line
      column := if e.line = 0 then advance e.column column else e.column
      origin := e.origin.bind (EntryOrigin.renumber sources names) }
  { m with entries := m.entries ++ moved }

/-- Puts sections together, in order. -/
def mergeSections (m : SourceMap) :
    List (Section (Except MapError SourceMap)) → Except MapError SourceMap
  | [] => .ok m
  | s :: more =>
    match s.map with
    | none => .error (.unresolved s.url)
    | some (.error e) => .error e
    | some (.ok part) => mergeSections (mergeSection m s.line s.column part) more

/-- One map of sections in the order of their places. -/
def flatten (file : Option String) (sections : List (Section (Except MapError SourceMap))) :
    Except MapError SourceMap :=
  let inOrder := sections.mergeSort fun a b => placeLe (a.line, a.column) (b.line, b.column)
  (mergeSections { file } inOrder).map ordered

namespace Layout

mutual

/-- The map with the given parts. The outer result is that of decoding, the inner one that of
putting sections together. -/
def decode : Layout → Except MapError (Except MapError SourceMap)
  | .plain fields => (ofFields fields).map .ok
  | .sections file parts => (decodeSections parts).map (flatten file)

/-- The sections with their maps decoded. -/
def decodeSections :
    List (Section Layout) → Except MapError (List (Section (Except MapError SourceMap)))
  | [] => .ok []
  | s :: more => do
    let s ← decodeSection s
    let more ← decodeSections more
    .ok (s :: more)

/-- A section with its map decoded. -/
def decodeSection : Section Layout → Except MapError (Section (Except MapError SourceMap))
  | ⟨line, column, url, none⟩ => .ok ⟨line, column, url, none⟩
  | ⟨line, column, url, some part⟩ => (decode part).map fun map => ⟨line, column, url, some map⟩

end

end Layout

/-! ### Reading texts -/

/-- The map that written JSON says. -/
def ofWritten (w : Json.Written) : Except MapError DecodedMap := do
  let some layout := Layout.ofWritten? w | .error .malformed
  let whole ← layout.decode
  if layout.listsScopes then .ok .withScopes
  else
    match layout, whole with
    | .plain _, .ok m => .ok (.plain m)
    | _, whole => .ok (.sections whole)

/-- The map that a text says. -/
def ofText (text : String) : Except MapError DecodedMap :=
  match Json.Written.ofText? text with
  | some w => ofWritten w
  | none => .error .malformed

/-! ### Maps in base 64 -/

/-- What a data URL of a map in base 64 starts with. -/
def urlFront : String :=
  "data:application/json;base64,"

/-- Skips a first line that starts with a bracket or a quote, which some servers put in front. -/
def skipGuard (cs : List (Option Char)) : Option (List (Option Char)) :=
  match cs with
  | [] => some []
  | c :: _ =>
    if [')', ']', '}', '\''].any fun guard => c == some guard then
      match cs.dropWhile fun d => d != some '\n' && d != some '\r' with
      | some '\r' :: some '\n' :: rest => some (some '\n' :: rest)
      | some '\r' :: _ :: _ => none
      | rest => some rest
    else some cs

/-- The map in a data URL. -/
def ofUrl (url : String) : Except MapError DecodedMap := do
  let some payload := Text.after? urlFront.toList url.toList | .error .badDataUrl
  let some bytes := Base64.decode? payload | .error .badDataUrl
  let some w := (skipGuard (Text.legible bytes)).bind Json.Written.parse? | .error .malformed
  ofWritten w

end Stylesheet.SourceMap

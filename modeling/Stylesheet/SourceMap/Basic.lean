import Stylesheet.Number.Decimal
import Stylesheet.Url

/-!
# Source maps

A source map says for places of a generated text where they come from: which source, which line and
column there, and possibly a name. Lines and columns count from 0, and the entries are kept in the
order of their generated places.

* `SourceMap.lookup?` is the entry at or before a place.
* `SourceMap.sourceNames` are the names of the sources, seen from the map's root.

A map is built of a draft, entry by entry (`SourceMap.build`). Sources and names are named by their
texts and get their numbers in the order of their first use.

The numbers of a map are written in digits of base 32, the lowest first. A letter of base 64 is one
digit, and its sixth bit says that more follow. The lowest bit of the number is its sign.
`Vlq.decode` reads all numbers of a text. A character that is no letter counts as a digit 31 with
more to follow, once for every byte of it; only the delete character counts as a digit 30.
-/

namespace Stylesheet

/-! ### Numbers of variable length -/

namespace Vlq

/-- The letters of a natural number. -/
def digits (n : Nat) : List Char :=
  if n < 32 then [Base64.letter n] else Base64.letter (n % 32 + 32) :: digits (n / 32)
termination_by n

/-- The natural number that carries the sign of an integer in its lowest bit. -/
def fold (z : Int) : Nat :=
  if z < 0 then 2 * z.natAbs + 1 else 2 * z.natAbs

/-- The integer whose sign is in the lowest bit. -/
def unfold (n : Int) : Int :=
  if n % 2 = 0 then n / 2 else -(n / 2)

/-- Writes an integer. -/
def encode (z : Int) : List Char :=
  digits (fold z)

/-- What is wrong with written numbers. -/
inductive Problem
  | leftover
  | overflow
deriving Repr, DecidableEq

/-- The digits of a character, each with its sixth bit. -/
def digitsOf (c : Char) : List Nat :=
  match Base64.value? c with
  | some v => [v]
  | none => if c = '\x7f' then [62] else List.replicate c.utf8Size 63

/-- Reads numbers, when `cur` was read of the first and its next digit counts `2 ^ shift`. Numbers
are kept in 64 bits. -/
def decodeFrom (cur : Int) (shift : Nat) : List Nat → Except Problem (List Int)
  | [] => if cur = 0 ∧ shift = 0 then .ok [] else .error .leftover
  | v :: vs =>
    if 64 ≤ shift then .error .overflow
    else
      let cur := Int.bmod (cur + ((v % 32) <<< shift : Nat)) UInt64.size
      if 32 ≤ v then decodeFrom cur (shift + 5) vs
      else
        match decodeFrom 0 0 vs with
        | .ok ns => .ok (unfold cur :: ns)
        | .error e => .error e

/-- Reads all numbers of a text. -/
def decode (cs : List Char) : Except Problem (List Int) :=
  decodeFrom 0 0 (cs.flatMap digitsOf)

end Vlq

/-! ### Maps -/

/-- Where an entry comes from. Sources and names are numbers into the map's lists. -/
structure EntryOrigin where
  source : Nat
  line : Nat
  column : Nat
  name : Option Nat := none
deriving Repr, DecidableEq, Inhabited

/-- One entry of a map: a generated place, and where it comes from if that is known. -/
structure MapEntry where
  line : Nat
  column : Nat
  origin : Option EntryOrigin := none
deriving Repr, DecidableEq, Inhabited

/-- The generated place of an entry. -/
def MapEntry.place (e : MapEntry) : Nat × Nat :=
  (e.line, e.column)

/-- Order of places: by line, then by column. -/
def placeLe (a b : Nat × Nat) : Bool :=
  a.1 < b.1 || (a.1 == b.1 && a.2 ≤ b.2)

/-- A source map. -/
structure SourceMap where
  /-- Name of the generated file. -/
  file : Option String := none
  entries : List MapEntry := []
  names : List String := []
  sources : List String := []
  /-- Texts of the sources, as far as they are known. -/
  contents : List (Option String) := []
  sourceRoot : Option String := none
deriving Repr, DecidableEq, Inhabited

/-- An entry as it is handed over to a new map: its source and its name are texts. -/
structure NamedEntry where
  line : Nat
  column : Nat
  sourceLine : Nat
  sourceColumn : Nat
  source : String
  name : Option String := none
deriving Repr, DecidableEq, Inhabited

/-- The generated place of an entry. -/
def NamedEntry.place (e : NamedEntry) : Nat × Nat :=
  (e.line, e.column)

/-- What a map is built of. -/
structure MapDraft where
  /-- Name of the generated file. -/
  file : Option String := none
  /-- The entries, in the order in which they are handed over. -/
  entries : List NamedEntry := []
  /-- The sources, each with its text if that is known. -/
  contents : List (String × Option String) := []
deriving Repr, DecidableEq, Inhabited

/-- What can be wrong with a map. -/
inductive MapError
  /-- It is no JSON, or no map. -/
  | malformed
  /-- A number breaks off. -/
  | leftover
  /-- A number has too many digits. -/
  | overflow
  /-- An entry with another number of fields. -/
  | segmentSize (n : Nat)
  | badSource (n : Nat)
  | badName (n : Nat)
  /-- A section without a map. -/
  | unresolved (url : Option String)
  | badDataUrl
deriving Repr, DecidableEq, Inhabited

/-- What to tell about an error. -/
def MapError.message : MapError → String
  | .malformed => "bad json"
  | .leftover => "leftover cur/shift in vlq decode"
  | .overflow => "vlq decode caused an overflow"
  | .segmentSize n => "got " ++ Decimal.natText n ++ " segments, expected 4 or 5"
  | .badSource n => "bad reference to source #" ++ Decimal.natText n
  | .badName n => "bad reference to name #" ++ Decimal.natText n
  | .unresolved url =>
    "cannot flatten the indexed sourcemap: Section has an unresolved sourcemap: " ++
      url.getD "<unknown url>"
  | .badDataUrl => "the provided data URL is invalid"

/-- What was read as a map. -/
inductive DecodedMap
  | plain (m : SourceMap)
  /-- A map in sections, put together to one map if that is possible. -/
  | sections (whole : Except MapError SourceMap)
  /-- A map that lists the functions of its sources. -/
  | withScopes

namespace SourceMap

/-- Puts entries in the order of their places; entries at one place stay in order. -/
def sorted (entries : List MapEntry) : List MapEntry :=
  entries.mergeSort fun a b => placeLe a.place b.place

/-- The map with its entries in order. -/
def ordered (m : SourceMap) : SourceMap :=
  { m with entries := sorted m.entries }

/-- Whether a source is found without the root of the map. -/
def isRooted (source : String) : Bool :=
  source.startsWith "/" || source.startsWith "http:" || source.startsWith "https:"

/-- A source seen from a root. -/
def rooted (root source : String) : String :=
  if isRooted source then source
  else (if root.endsWith "/" then String.ofList root.toList.dropLast else root) ++ "/" ++ source

/-- The sources, seen from the map's root if it has one. -/
def sourceNames (m : SourceMap) : List String :=
  match m.sourceRoot with
  | none => m.sources
  | some root => if root == "" then m.sources else m.sources.map (rooted root)

/-- Text of a source, if the map holds it. -/
def content? (m : SourceMap) (n : Nat) : Option String :=
  m.contents[n]?.join

/-- The texts of all sources, as far as the map holds them. -/
def allContents (m : SourceMap) : List (Option String) :=
  (List.range m.sources.length).map m.content?

/-- Whether the map holds the text of some source. -/
def hasContent (m : SourceMap) : Bool :=
  m.allContents.any Option.isSome

/-- The entry at a place, or else the last one before it. Of several at the place it is the
first. -/
def lookup? (m : SourceMap) (line column : Nat) : Option MapEntry :=
  match m.entries.find? fun e => e.place == (line, column) with
  | some e => some e
  | none => (m.entries.takeWhile fun e => placeLe e.place (line, column)).getLast?

/-- The number of a text in a list, with the text added at the end when it is not there. -/
def intern (texts : List String) (text : String) : List String × Nat :=
  match texts.findIdx? (· == text) with
  | some n => (texts, n)
  | none => (texts ++ [text], texts.length)

/-- The map with one more source, and the number of it. -/
def addSource (m : SourceMap) (source : String) : SourceMap × Nat :=
  let (sources, n) := intern m.sources source
  ({ m with sources }, n)

/-- The map with one more name, and the number of it. -/
def addName (m : SourceMap) (name : String) : SourceMap × Nat :=
  let (names, n) := intern m.names name
  ({ m with names }, n)

/-- The map with the text of source `n`. -/
def setContent (m : SourceMap) (n : Nat) (content : String) : SourceMap :=
  let padded := m.contents ++ List.replicate (m.sources.length - m.contents.length) none
  { m with contents := padded.set n (some content) }

/-- The map with one more entry at the end. -/
def addEntry (m : SourceMap) (e : NamedEntry) : SourceMap :=
  let (m, s) := m.addSource e.source
  let (m, n) :=
    match e.name with
    | some name =>
      let (m, n) := m.addName name
      (m, some n)
    | none => (m, none)
  { m with
    entries := m.entries ++ [⟨e.line, e.column, some ⟨s, e.sourceLine, e.sourceColumn, n⟩⟩] }

/-- The map of a draft. -/
def build (d : MapDraft) : SourceMap :=
  let m := d.entries.foldl addEntry { file := d.file }
  { m with contents := m.sources.map fun source => (d.contents.lookup source).join }

end SourceMap

end Stylesheet

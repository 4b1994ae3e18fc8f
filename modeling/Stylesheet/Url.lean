import Stylesheet.Text.Measure

/-!
# Codings of URLs

In base 64, three bytes are written as four letters of an alphabet of 64, and shorter groups at the
end are filled with `=`. Reading is strict: groups are whole, and the bits that belong to no byte
are zero.

Paths are written in URLs with `%` and two hexadecimal digits for every byte that could end or
confuse the path. Reading undoes it: a `%` with a number of two characters behind it becomes that
byte, and every other byte stays.

* `Percent.encode` writes a path.
* `Percent.decode?` reads one. The bytes have to be a text again.
* `Percent.plainDecode` is the reading that takes two hexadecimal digits only.
-/

namespace Stylesheet.Base64

/-- The letter for a number below 64. -/
def letter (n : Nat) : Char :=
  if n < 26 then Char.ofNat (65 + n)
  else if n < 52 then Char.ofNat (71 + n)
  else if n < 62 then Char.ofNat (n - 4)
  else if n = 62 then '+'
  else '/'

/-- The number of a letter. -/
def value? (c : Char) : Option Nat :=
  if 'A' ≤ c ∧ c ≤ 'Z' then some (c.toNat - 65)
  else if 'a' ≤ c ∧ c ≤ 'z' then some (c.toNat - 71)
  else if '0' ≤ c ∧ c ≤ '9' then some (c.toNat + 4)
  else if c = '+' then some 62
  else if c = '/' then some 63
  else none

/-- Writes bytes. -/
def encode : List UInt8 → List Char
  | a :: b :: c :: rest =>
    let n := a.toNat * 65536 + b.toNat * 256 + c.toNat
    letter (n / 262144) :: letter (n / 4096 % 64) :: letter (n / 64 % 64) :: letter (n % 64) ::
      encode rest
  | [a, b] =>
    let n := a.toNat * 1024 + b.toNat * 4
    [letter (n / 4096), letter (n / 64 % 64), letter (n % 64), '=']
  | [a] =>
    let n := a.toNat * 16
    [letter (n / 64), letter (n % 64), '=', '=']
  | [] => []

/-- The bytes of one group of four letters. -/
def group? (a b c d : Char) : Option (List UInt8) := do
  let x ← value? a
  let y ← value? b
  if c = '=' ∧ d = '=' then
    if y % 16 = 0 then some [UInt8.ofNat (x * 4 + y / 16)] else none
  else
    let z ← value? c
    if d = '=' then
      if z % 4 = 0 then some [UInt8.ofNat (x * 4 + y / 16), UInt8.ofNat (y % 16 * 16 + z / 4)]
      else none
    else
      let w ← value? d
      some [UInt8.ofNat (x * 4 + y / 16), UInt8.ofNat (y % 16 * 16 + z / 4),
        UInt8.ofNat (z % 4 * 64 + w)]

/-- Reads bytes. -/
def decode? : List Char → Option (List UInt8)
  | a :: b :: c :: d :: rest => do
    let bytes ← group? a b c d
    let more ← decode? rest
    some (bytes ++ more)
  | [] => some []
  | _ => none

end Stylesheet.Base64

namespace Stylesheet.Percent

open Text

/-- Letters and digits of ASCII. -/
def isAlphanumeric (b : UInt8) : Bool :=
  (48 ≤ b && b ≤ 57) || (65 ≤ b && b ≤ 90) || (97 ≤ b && b ≤ 122)

/-- The signs that stand for themselves: `;,/:@&=+$-_.!~*'()`. -/
def safeSigns : List UInt8 :=
  [59, 44, 47, 58, 64, 38, 61, 43, 36, 45, 95, 46, 33, 126, 42, 39, 40, 41]

/-- Bytes that stand for themselves. -/
def isSafe (b : UInt8) : Bool :=
  isAlphanumeric b || safeSigns.contains b

/-- A hexadecimal digit in upper case. -/
def upperHex (n : UInt8) : UInt8 :=
  if n < 10 then 48 + n else 55 + n

/-- One byte of a path, written. -/
def encodeByte (b : UInt8) : List UInt8 :=
  if isSafe b then [b] else [37, upperHex (b / 16), upperHex (b % 16)]

/-- The bytes of a path, written. -/
def encodeBytes (bs : List UInt8) : List UInt8 :=
  bs.flatMap encodeByte

/-- A path, written for a URL. -/
def encode (path : String) : String :=
  String.ofList ((encodeBytes (utf8 path)).map fun b => Char.ofNat b.toNat)

/-- Value of a hexadecimal digit. -/
def hexDigit? (b : UInt8) : Option UInt8 :=
  if 48 ≤ b && b ≤ 57 then some (b - 48)
  else if 65 ≤ b && b ≤ 70 then some (b - 55)
  else if 97 ≤ b && b ≤ 102 then some (b - 87)
  else none

/-- The byte that two characters denote: two hexadecimal digits, or a plus sign and one. -/
def escape? (a b : UInt8) : Option UInt8 :=
  if a = 43 then hexDigit? b
  else (hexDigit? a).bind fun high => (hexDigit? b).map fun low => 16 * high + low

/-- The bytes that written bytes stand for, when `read` decides which pairs are escapes. -/
def decodeWith (read : UInt8 → UInt8 → Option UInt8) : List UInt8 → List UInt8
  | 37 :: a :: b :: bs =>
    match read a b with
    | some byte => byte :: decodeWith read bs
    | none => 37 :: decodeWith read (a :: b :: bs)
  | b :: bs => b :: decodeWith read bs
  | [] => []

/-- The bytes that written bytes stand for. -/
def decodeBytes : List UInt8 → List UInt8 :=
  decodeWith escape?

/-- The bytes that written bytes stand for when an escape is two hexadecimal digits. -/
def plainDecode : List UInt8 → List UInt8 :=
  decodeWith fun a b =>
    (hexDigit? a).bind fun high => (hexDigit? b).map fun low => 16 * high + low

/-- The text that a written text stands for, when it stands for one. -/
def decode? (s : String) : Option String :=
  ofUtf8? (decodeBytes (utf8 s))

end Stylesheet.Percent

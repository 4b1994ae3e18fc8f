import Stylesheet.Json.Basic

/-!
# Numbers in JSON

A numeral is a number as it is written. `Numeral.read?` checks its form, and `Numeral.value?` is
the number it says.

A numeral without fraction and exponent is exact if the number fits 64 bits. Any other one is
rounded twice: its digits, as many as fit 64 bits, are rounded to double precision, and so is their
product with a power of ten, or their quotient by one. The result can be off the nearest number in
its last place. A number that is too large for double precision has no value.
-/

namespace Stylesheet.Json

/-- A number as it is written. Without a point there are no digits of a fraction. -/
structure Numeral where
  negative : Bool
  whole : List Char
  fraction : List Char
  exponent : Option Int
deriving Repr, DecidableEq, Inhabited

namespace Numeral

/-- The digits behind a point in front, which have to be there, and the rest. -/
def cutFraction : List Char → Option (List Char × List Char)
  | '.' :: cs =>
    match Decimal.cutDigits cs with
    | ([], _) => none
    | found => some found
  | cs => some ([], cs)

/-- The exponent that makes up the rest of a number, if there is a rest. -/
def readExponent : List Char → Option (Option Int)
  | [] => some none
  | e :: cs =>
    if e == 'e' || e == 'E' then
      let (negative, cs) := Decimal.cutSign cs
      match Decimal.cutDigits cs with
      | (d :: ds, []) =>
        let n : Int := Decimal.digitsValue (d :: ds)
        some (some (if negative then -n else n))
      | _ => none
    else none

/-- Whether digits can stand in front of the point: there are some, and no zero is in front of
others. -/
def isWhole : List Char → Bool
  | [] => false
  | ['0'] => true
  | d :: _ => d != '0'

/-- Reads a number that is a text of its own. -/
def read? (cs : List Char) : Option Numeral := do
  let (negative, cs) :=
    match cs with
    | '-' :: ds => (true, ds)
    | _ => (false, cs)
  let (whole, cs) := Decimal.cutDigits cs
  if !isWhole whole then none
  else
    let (fraction, cs) ← cutFraction cs
    let exponent ← readExponent cs
    some ⟨negative, whole, fraction, exponent⟩

/-- Appends digits to a number as long as it fits 64 bits, and returns those that are left. -/
def append (n : Nat) : List Char → Nat × List Char
  | [] => (n, [])
  | d :: ds =>
    let m := 10 * n + Decimal.digitsValue [d]
    if m < UInt64.size then append m ds else (n, d :: ds)

/-- The digits that count, and the power of ten that they are multiplied by. -/
def significand (n : Numeral) : Nat × Int :=
  let (m, left) := append 0 n.whole
  let (m, ignored) := append m n.fraction
  (m, n.exponent.getD 0 + left.length + ignored.length - n.fraction.length)

/-- A power of ten, rounded. -/
def powerOfTen (n : Nat) : Binary64 :=
  .ofDecimal { digits := 1, exponent := n }

/-- A number multiplied by a power of ten, if the product is not too large. The powers themselves
end at 308; a larger one is divided by in two steps. -/
def scale? (x : Binary64) (e : Int) : Option Binary64 :=
  if 0 ≤ e then
    if x.size = 0 then some x
    else if e ≤ 308 then
      let y := x.product (powerOfTen e.toNat)
      if y.isFinite then some y else none
    else none
  else if -308 ≤ e then some (x.quotient (powerOfTen e.natAbs))
  else if -616 ≤ e then
    some ((x.quotient (powerOfTen 308)).quotient (powerOfTen (e.natAbs - 308)))
  else some ⟨0⟩

/-- The number of double precision that a numeral says. -/
def real? (n : Numeral) : Option Binary64 :=
  let (m, e) := n.significand
  (scale? ⟨Binary64.magnitude m 1⟩ e).map fun x => .signed n.negative x.size

/-- The number that a numeral says, if it is not too large. -/
def value? (n : Numeral) : Option Json :=
  let whole := Decimal.digitsValue n.whole
  if n.fraction.isEmpty && n.exponent.isNone && !n.negative && whole < UInt64.size then
    some (.int whole)
  else if n.fraction.isEmpty && n.exponent.isNone && n.negative && whole ≠ 0 &&
      whole ≤ UInt64.size / 2 then
    some (.int (-whole))
  else n.real?.map .real

end Numeral

end Stylesheet.Json

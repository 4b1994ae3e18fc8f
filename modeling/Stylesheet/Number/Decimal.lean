/-!
# Decimal numbers

A decimal is a sign, a natural number of digits and a power of ten. It is what a number in a
stylesheet or in JSON says, before anything is rounded.
-/

namespace Stylesheet

/-- The number `±digits · 10 ^ exponent`. -/
structure Decimal where
  negative : Bool := false
  digits : Nat
  exponent : Int := 0
deriving Repr, DecidableEq, Inhabited

namespace Decimal

/-- Whether a character is one of the ten digits. -/
def isDigit (c : Char) : Bool :=
  '0' ≤ c && c ≤ '9'

/-- The number that decimal digits denote. -/
def digitsValue (ds : List Char) : Nat :=
  ds.foldl (fun n d => 10 * n + (d.toNat - '0'.toNat)) 0

/-- A natural number in decimal digits. -/
def natText (n : Nat) : String :=
  String.ofList (Nat.toDigits 10 n)

/-- Number of digits of a natural number; 0 has one. -/
def width (n : Nat) : Nat :=
  (Nat.toDigits 10 n).length

/-- A sign in front of a number, and the rest. -/
def cutSign : List Char → Bool × List Char
  | '+' :: cs => (false, cs)
  | '-' :: cs => (true, cs)
  | cs => (false, cs)

/-- The digits in front, and the rest. -/
def cutDigits (cs : List Char) : List Char × List Char :=
  (cs.takeWhile isDigit, cs.dropWhile isDigit)

/-- The decimal with the given digits in front of the point, behind it and in the exponent. -/
def ofDigits (negative : Bool) (whole fraction : List Char) (exponent : Int) : Decimal where
  negative := negative
  digits := digitsValue (whole ++ fraction)
  exponent := exponent - fraction.length

/-- The size of the number as a quotient of natural numbers. -/
def ratio (d : Decimal) : Nat × Nat :=
  if d.exponent < 0 then (d.digits, Nat.pow 10 d.exponent.natAbs)
  else (d.digits * Nat.pow 10 d.exponent.natAbs, 1)

end Decimal

end Stylesheet

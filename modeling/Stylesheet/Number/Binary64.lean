import Stylesheet.Number.Decimal

/-!
# Numbers of double precision

A number of double precision is kept as its 64 bits: a sign, eleven bits of exponent and 52 bits of
fraction. The finite ones are `± m · 2 ^ q` with `m < 2 ^ 53` and `-1074 ≤ q ≤ 971`, and the bits of
such a number, without the sign, are `(q + 1074) · 2 ^ 52 + m`.

* `Binary64.ofDecimal` is the nearest number to a decimal; of two that are equally near, the one
  with the even `m`.
* `Binary64.shortest` is the decimal with the fewest digits that is rounded to a given number, the
  nearest one when several have that many digits, and the even one of two that are equally near.

All of it is exact arithmetic on natural numbers.
-/

namespace Stylesheet

/-- The 64 bits of a number of double precision. -/
structure Binary64 where
  bits : Nat
deriving Repr, DecidableEq, Inhabited

namespace Binary64

/-- The bits of infinity. -/
def infinityBits : Nat := 0x7FF0000000000000

/-- The bit of a minus sign. -/
def signBit : Nat := 0x8000000000000000

/-- The bit of the exponent that counts one, `2 ^ 52`. -/
def exponentBit : Nat := 0x10000000000000

/-- The natural number nearest to `num / den`; a half goes to the even neighbour. -/
def roundQuotient (num den : Nat) : Nat :=
  let q := num / den
  let r := num % den
  if 2 * r < den then q
  else if den < 2 * r then q + 1
  else if q % 2 = 0 then q else q + 1

/-- `num / den` divided by `2 ^ q`, as a quotient. -/
def scaled (num den : Nat) (q : Int) : Nat × Nat :=
  if q < 0 then (num <<< q.natAbs, den) else (num, den <<< q.natAbs)

/-- The exponent `q` for which `num / den / 2 ^ q` has 53 bits in front of the point, or the least
exponent there is. -/
def exponentFor (num den : Nat) : Int :=
  let k : Int := (Nat.log2 num : Int) - Nat.log2 den
  let (n, d) := scaled num den k
  let q := if d ≤ n then k - 52 else k - 53
  max q (-1074)

/-- The bits of the number nearest to `num / den`, without a sign. -/
def magnitude (num den : Nat) : Nat :=
  if num = 0 then 0
  else
    let q := exponentFor num den
    let (n, d) := scaled num den q
    min infinityBits ((q + 1074).toNat * exponentBit + roundQuotient n d)

/-- The number with the given bits and sign. -/
def signed (negative : Bool) (size : Nat) : Binary64 :=
  ⟨size + if negative then signBit else 0⟩

/-- The number nearest to a decimal. Decimals beyond all numbers go to infinity. -/
def ofDecimal (d : Decimal) : Binary64 :=
  let place : Int := Decimal.width d.digits + d.exponent
  let size :=
    if d.digits = 0 ∨ place < -330 then 0
    else if 330 < place then infinityBits
    else
      let (num, den) := d.ratio
      magnitude num den
  signed d.negative size

/-- Whether the minus sign is set. -/
def isNegative (x : Binary64) : Bool :=
  signBit ≤ x.bits

/-- The bits without the sign. -/
def size (x : Binary64) : Nat :=
  x.bits % signBit

/-- Whether the number is neither infinite nor undefined. -/
def isFinite (x : Binary64) : Bool :=
  x.size < infinityBits

/-- `m` and `q` of a finite number `m · 2 ^ q`. -/
def parts (x : Binary64) : Nat × Int :=
  let field : Nat := x.size / exponentBit
  let fraction : Nat := x.size % exponentBit
  if field = 0 then (fraction, -1074) else (fraction + exponentBit, (field : Int) - 1075)

/-- The size of a finite number as a quotient of natural numbers. -/
def ratio (x : Binary64) : Nat × Nat :=
  let (m, q) := x.parts
  scaled m 1 (-q)

/-- The product of the sizes of two finite numbers, rounded. -/
def product (x y : Binary64) : Binary64 :=
  let (a, b) := x.ratio
  let (c, d) := y.ratio
  ⟨magnitude (a * c) (b * d)⟩

/-- The quotient of the sizes of two finite numbers, rounded. -/
def quotient (x y : Binary64) : Binary64 :=
  let (a, b) := x.ratio
  let (c, d) := y.ratio
  ⟨magnitude (a * d) (b * c)⟩

/-- The least `n` up to `fuel` further steps for which `num < den · 10 ^ n`. -/
def tenPower (num den : Nat) : Nat → Nat → Nat
  | 0, n => n
  | fuel + 1, n => if num < den * Nat.pow 10 n then n else tenPower num den fuel (n + 1)

/-- The decimal exponent `e` with `10 ^ e ≤ num / den < 10 ^ (e + 1)`. -/
def decimalExponent (num den : Nat) : Int :=
  if den ≤ num then (tenPower num den 400 0 : Int) - 1
  else
    let n := tenPower den num 400 0
    -- `den < num * 10 ^ n` holds first at `n`, and the power before it may be met exactly.
    if num * Nat.pow 10 (n - 1) = den then -((n : Int) - 1) else -(n : Int)

/-- `num / den` in units of `10 ^ p`, as a quotient. -/
def inUnits (num den : Nat) (p : Int) : Nat × Nat :=
  if p < 0 then (num * Nat.pow 10 p.natAbs, den) else (num, den * Nat.pow 10 p.natAbs)

/-- The decimals with `n` digits next to a number that are rounded to it, the nearer one first. Of
two that are equally near, the one with the even last digit comes first. -/
def neighbours (x : Binary64) (num den : Nat) (n : Nat) : List Decimal :=
  let p := decimalExponent num den - n + 1
  let (a, b) := inUnits num den p
  let low : Decimal := { digits := a / b, exponent := p }
  let high : Decimal := { digits := a / b + 1, exponent := p }
  let near := if roundQuotient a b = low.digits then [low, high] else [high, low]
  near.filter fun d => (ofDecimal d).bits == x.size

/-- The decimal with the fewest digits that is rounded to the finite number `x`. -/
def shortest (x : Binary64) : Decimal :=
  let (num, den) := x.ratio
  if num = 0 then { negative := x.isNegative, digits := 0 }
  else
    let found := (List.range 17).findSome? fun n => (neighbours x num den (n + 1)).head?
    { found.getD { digits := 0 } with negative := x.isNegative }

/-- Digits without the zeros at their end, and how many there were. -/
def dropZeros : Nat → Nat → Nat × Nat
  | 0, n => (n, 0)
  | fuel + 1, n =>
    if n ≠ 0 ∧ n % 10 = 0 then
      let (m, k) := dropZeros fuel (n / 10)
      (m, k + 1)
    else (n, 0)

/-- Text of a finite number. It is positional, with at least one digit on either side of the
point, from `10 ^ -5` up to `10 ^ 16`, and has an exponent with a sign otherwise. -/
def text (x : Binary64) : String :=
  let d := x.shortest
  let (digits, zeros) := dropZeros 20 d.digits
  let exponent : Int := d.exponent + zeros
  let ds := (Nat.toDigits 10 digits)
  let count : Int := ds.length
  let point := count + exponent
  let body : List Char :=
    if digits = 0 then ['0', '.', '0']
    else if 0 ≤ exponent ∧ point ≤ 16 then
      ds ++ List.replicate exponent.toNat '0' ++ ['.', '0']
    else if 0 < point ∧ point ≤ 16 then
      ds.take point.toNat ++ '.' :: ds.drop point.toNat
    else if -5 < point ∧ point ≤ 0 then
      '0' :: '.' :: List.replicate (-point).toNat '0' ++ ds
    else
      let mantissa := if count = 1 then ds else ds.take 1 ++ '.' :: ds.drop 1
      let power := point - 1
      mantissa ++ 'e' :: (if power < 0 then '-' else '+') :: Nat.toDigits 10 power.natAbs
  String.ofList ((if x.isNegative then ['-'] else []) ++ body)

/-- The bits as sixteen hexadecimal digits. -/
def hex (x : Binary64) : String :=
  let ds := Nat.toDigits 16 x.bits
  String.ofList (List.replicate (16 - ds.length) '0' ++ ds)

end Binary64

end Stylesheet

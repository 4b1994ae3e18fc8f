import Stylesheet.Number.Binary64
import Stylesheet.Text.Blank
import Stylesheet.Text.Escape
import Stylesheet.Token.Basic

/-!
# What strings and numbers say

A string token stands for the text between its quotes. A word that starts with a number stands for
that number and the unit behind it, such as `-1.5em` or `10%`.
-/

namespace Stylesheet

open Text

/-- The value of a token. -/
inductive Decoded
  /-- The contents of a string, with escapes resolved. -/
  | string (contents : String)
  | number (value : Binary64) (unit : String)
deriving Repr, DecidableEq

/-- Whether a text can be the unit of a number. -/
def isUnit (cs : List Char) : Bool :=
  cs == ['%'] || cs.all fun c => isLetterOrDigit c || c == '-' || c == '_'

/-- The digits behind a point, if a point with digits stands in front, and the rest. -/
def cutFraction (cs : List Char) : List Char × List Char :=
  match cs with
  | '.' :: ds =>
    match Decimal.cutDigits ds with
    | ([], _) => ([], cs)
    | (fraction, rest) => (fraction, rest)
  | _ => ([], cs)

/-- An exponent, if one with digits stands in front, and the rest. -/
def cutExponent (cs : List Char) : Int × List Char :=
  match cs with
  | e :: ds =>
    if e == 'e' || e == 'E' then
      let (negative, es) := Decimal.cutSign ds
      match Decimal.cutDigits es with
      | ([], _) => (0, cs)
      | (digits, rest) =>
        let n : Int := Decimal.digitsValue digits
        (if negative then -n else n, rest)
    else (0, cs)
  | [] => (0, cs)

/-- The number at the front of a text and what follows it. There is none without a digit. -/
def cutNumber (cs : List Char) : Option (Decimal × List Char) :=
  let (negative, cs) := Decimal.cutSign cs
  let (whole, cs) := Decimal.cutDigits cs
  let (fraction, cs) := cutFraction cs
  if whole.isEmpty && fraction.isEmpty then none
  else
    let (exponent, cs) := cutExponent cs
    some (Decimal.ofDigits negative whole fraction exponent, cs)

/-- The number and the unit that a word says, if it says one. -/
def numericWord (text : String) : Option Decoded :=
  (cutNumber text.toList).bind fun (value, unit) =>
    if isUnit unit then some (.number (Binary64.ofDecimal value) (String.ofList unit)) else none

/-- What a token says: strings and numbers say something. -/
def Token.decoded (t : Token) : Option Decoded :=
  match t.kind with
  | .string => some (.string (String.ofList (unquote t.text.toList)))
  | .word => numericWord t.text
  | _ => none

end Stylesheet

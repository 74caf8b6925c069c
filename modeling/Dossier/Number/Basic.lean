import Dossier.Number.Scaling
import Dossier.Number.Shortest

-- A number is an integer or a double, and keeps which of the two it is: `1` and `1.0` print
-- differently and are different values, though `equal` does not tell them apart.

namespace Dossier

inductive Number where
  | int (i : Int)
  | double (x : Double)
deriving DecidableEq

namespace Number

-- The bounds of the integers that a number can hold: signed 64-bit integers and, above them,
-- unsigned ones.
def minInt : Int := -9223372036854775808

def maxSigned : Int := 9223372036854775807

def maxInt : Int := 18446744073709551615

def ofInt? (i : Int) : Option Number :=
  if minInt ≤ i ∧ i ≤ maxInt then some (.int i) else none

def toSigned? : Number → Option Int
  | .int i => if minInt ≤ i ∧ i ≤ maxSigned then some i else none
  | .double _ => none

def toDouble : Number → Double
  | .int i => .ofInt i
  | .double x => x

-- Identity of values: an integer is never a double, and the two zeros of doubles are one.
def same : Number → Number → Bool
  | .int i, .int j => i == j
  | .double x, .double y => x.same y
  | _, _ => false

-- Equality as quantities: two signed integers are compared exactly, everything else as doubles.
def equal (a b : Number) : Bool :=
  match a.toSigned?, b.toSigned? with
  | some i, some j => i == j
  | _, _ => a.toDouble.same b.toDouble

-- How a double is written in a value: positional from `0.00001` to below `10 ^ 16`, and never
-- without a fraction or an exponent, so that it is not read back as an integer.
def valueLayout : Layout where
  tie := .even
  positional k := -5 < k && k ≤ 16
  fraction := true

-- How a bound is written in a message: positional throughout, whole numbers without fraction.
def boundLayout : Layout where
  tie := .up
  positional _ := true
  fraction := false

def text : Number → String
  | .int i => toString i
  | .double x => x.render valueLayout

-- The number of a numeral in a value. A numeral without fraction and exponent is an integer where
-- it fits one; `-0` is the negative zero of the doubles.
def ofNumeral? (n : Numeral) : Option Number :=
  let digits := digitsToNat n.whole
  let double := n.toDouble?.map Number.double
  if n.isWhole ∧ ¬ (n.negative ∧ digits = 0) then
    (ofInt? (if n.negative then - (digits : Int) else digits)).or double
  else double

-- The number of a numeral that loses nothing by being read: an integer that fits, or at most
-- fifteen significant digits that do not overflow.
def lossless? (n : Numeral) : Option Number :=
  let digits := digitsToNat n.digits
  if n.isWhole then ofInt? (if n.negative then - (digits : Int) else digits)
  else
    let significant := ((n.digits.dropWhile (· = '0')).reverse.dropWhile (· = '0')).reverse
    if 15 < significant.length then none
    else (Double.ofDecimal? n.negative digits n.scale).map .double

end Number

def Double.boundText (x : Double) : String :=
  x.render Number.boundLayout

end Dossier

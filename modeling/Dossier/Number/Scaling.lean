import Dossier.Number.Double
import Dossier.Number.Numeral

-- The digits of a written number are gathered into one whole number, as many of them as fit 64
-- bits, and this is scaled by a power of ten. Each step is rounded, so the result can be a
-- neighbour of the nearest double.

namespace Dossier

namespace Double

def times? (x y : Double) : Option Double :=
  nearest? (x.neg != y.neg) (x.units * y.units) (Nat.pow 2 2148)

def dividedBy? (x y : Double) : Option Double :=
  nearest? (x.neg != y.neg) x.units y.units

def maxPower : Nat := 308

def powerOfTen (e : Nat) : Double :=
  (nearest? false (Nat.pow 10 e) 1).getD (largest false)

-- Multiplies by `10 ^ e`; `none` beyond the largest double. Where the power is too small for a
-- double the division is done in parts.
def scale? (x : Double) (e : Int) : Option Double :=
  go 3 x e
where
  -- Below the square of the largest power there is only zero, so three rounds are enough.
  go : Nat → Double → Int → Option Double
    | 0, _, _ => none
    | n + 1, x, e =>
      if e.natAbs ≤ maxPower then
        if 0 ≤ e then x.times? (powerOfTen e.natAbs) else x.dividedBy? (powerOfTen e.natAbs)
      else if x.rank = 0 then some x
      else if 0 ≤ e then none
      else (x.dividedBy? (powerOfTen maxPower)).bind fun x => go n x (e + maxPower)

end Double

namespace Numeral

def significandBound : Nat := Nat.pow 2 64

def gather (n : Nat) : List Char → Nat × Nat
  | [] => (n, 0)
  | c :: cs =>
    let m := 10 * n + (c.toNat - '0'.toNat)
    if m < significandBound then
      let (r, used) := gather m cs
      (r, used + 1)
    else (n, 0)

-- The digits that count, as a whole number, and the power of ten that goes with them. The digits
-- after the point follow on those that fit before it.
def significand (n : Numeral) : Nat × Int :=
  let (whole, used) := gather 0 n.whole
  let (digits, places) := gather whole (n.fraction.getD [])
  (digits, ((n.whole.length - used : Nat) : Int) - places + n.power)

def toDouble? (n : Numeral) : Option Double := do
  let (digits, e) := n.significand
  let x ← Double.nearest? n.negative digits 1
  x.scale? e

end Numeral
end Dossier

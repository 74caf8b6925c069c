import Dossier.Number.Double

-- The digits are the fewest that read back as the same double and, among those, the nearest to it.
-- A `Layout` holds what is left to choose when they are written down.

namespace Dossier

structure Decimal where
  digits : Nat
  exp    : Int
deriving DecidableEq, Repr

inductive Tie where
  | up
  | even
deriving DecidableEq

structure Layout where
  tie        : Tie
  -- Positional notation is used for a number of digits before the point that satisfies this.
  positional : Int → Bool
  -- A whole number keeps a fraction digit.
  fraction   : Bool

namespace Double

@[irreducible] def unitsInOne : Nat := Nat.pow 2 1074

def gap (x : Double) : Nat :=
  Nat.pow 2 x.shift

-- The ends of the interval of numbers which round to `x`, in quarters of a unit, so that they are
-- whole. Where the shift changes the next smaller double is only half as far.
def low (x : Double) : Nat :=
  4 * x.units - if x.mantissa = Nat.pow 2 52 ∧ 0 < x.shift then x.gap else 2 * x.gap

def high (x : Double) : Nat :=
  4 * x.units + 2 * x.gap

-- Whether `a / b`, in quarters of a unit, rounds to `x`. The ends of the interval do so for an even
-- mantissa.
def covers (x : Double) (a b : Nat) : Bool :=
  if x.mantissa % 2 = 0 then x.low * b ≤ a ∧ a ≤ x.high * b else x.low * b < a ∧ a < x.high * b

-- The nearer one of the multiples `c` and `c + 1` of a step to a value between them.
def nearer (tie : Tie) (value step c : Nat) : Nat :=
  let toLower := value - c * step
  let toUpper := (c + 1) * step - value
  if toLower < toUpper then c
  else if toUpper < toLower then c + 1
  else match tie with
    | .up => c + 1
    | .even => if c % 2 = 0 then c else c + 1

-- The nearest multiple of `10 ^ e` that reads back as `x`, as a multiplier.
def onGrid? (tie : Tie) (x : Double) (e : Int) : Option Nat :=
  let scale := Nat.pow 10 (-e).toNat
  let step := 4 * unitsInOne * Nat.pow 10 e.toNat
  let value := 4 * x.units * scale
  let c := value / step
  if x.covers (c * step) scale then
    if x.covers ((c + 1) * step) scale then some (nearer tie value step c) else some c
  else if x.covers ((c + 1) * step) scale then some (c + 1)
  else none

-- The number of digits of the magnitude before the decimal point; not positive below one tenth.
def pointPosition (x : Double) : Int :=
  decimalLength (x.units * Nat.pow 10 400 / unitsInOne) - 400

end Double

namespace Decimal

def strip : Nat → Decimal → Decimal
  | 0, d => d
  | n + 1, d => if d.digits % 10 = 0 then strip n ⟨d.digits / 10, d.exp + 1⟩ else d

def positional (d : Decimal) (fraction : Bool) : String :=
  let ds := Nat.toDigits 10 d.digits
  let point : Int := ds.length + d.exp
  if 0 ≤ d.exp then
    String.ofList (ds ++ List.replicate d.exp.toNat '0') ++ (if fraction then ".0" else "")
  else if 0 < point then
    String.ofList (ds.take point.toNat ++ '.' :: ds.drop point.toNat)
  else
    String.ofList ('0' :: '.' :: List.replicate (-point).toNat '0' ++ ds)

def scientific (d : Decimal) : String :=
  let ds := Nat.toDigits 10 d.digits
  let exp : Int := ds.length + d.exp - 1
  let head := String.ofList (ds.take 1)
  let tail := String.ofList (ds.drop 1)
  let body := if tail.isEmpty then head else head ++ "." ++ tail
  body ++ (if exp < 0 then "e-" else "e+") ++ toString exp.natAbs

def render (layout : Layout) (d : Decimal) : String :=
  if layout.positional ((Nat.toDigits 10 d.digits).length + d.exp) then d.positional layout.fraction
  else d.scientific

end Decimal

namespace Double

def shortest (tie : Tie) (x : Double) : Decimal :=
  let k := x.pointPosition
  let hit := (List.range 17).findSome? fun (i : Nat) =>
    let e : Int := k - (i + 1)
    (x.onGrid? tie e).map fun n => Decimal.strip 17 ⟨n, e⟩
  hit.getD ⟨0, 0⟩

def render (layout : Layout) (x : Double) : String :=
  let d := if x.rank = 0 then ⟨0, 0⟩ else x.shortest layout.tie
  (if x.neg then "-" else "") ++ d.render layout

end Double
end Dossier

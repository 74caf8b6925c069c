-- A finite double is a sign and a rank: the non-negative finite doubles are numbered upwards from
-- zero. The magnitude is a whole number of units of `2 ^ -1074`, so conversion and comparison are
-- exact computations on `Nat`.

namespace Dossier

def Double.count : Nat := 2047 * Nat.pow 2 52

structure Double where
  neg    : Bool
  rank   : Nat
  finite : rank < Double.count
deriving DecidableEq

namespace Double

def zero (neg : Bool) : Double := ⟨neg, 0, by decide⟩

def largest (neg : Bool) : Double := ⟨neg, count - 1, by decide⟩

-- The magnitude is `mantissa * 2 ^ shift` units.
def shift (x : Double) : Nat :=
  x.rank / Nat.pow 2 52 - 1

def mantissa (x : Double) : Nat :=
  x.rank - x.shift * Nat.pow 2 52

def units (x : Double) : Nat :=
  x.mantissa * Nat.pow 2 x.shift

-- The two zeros have the same signed rank, all other doubles have different ones.
def signedRank (x : Double) : Int :=
  if x.neg then - (x.rank : Int) else x.rank

def same (x y : Double) : Bool :=
  x.signedRank == y.signedRank

def le (x y : Double) : Bool :=
  x.signedRank ≤ y.signedRank

-- The whole number nearest to `a / b`, the even one of two.
def roundDiv (a b : Nat) : Nat :=
  let q := a / b
  let r := a % b
  if 2 * r < b then q
  else if b < 2 * r then q + 1
  else if q % 2 = 0 then q else q + 1

-- The double nearest to `num / den`, of two the one with the even rank; `none` beyond the largest
-- double.
def nearest? (neg : Bool) (num den : Nat) : Option Double :=
  let scaled := num * Nat.pow 2 1074
  let shift := (scaled / den).log2 - 52
  let rank := shift * Nat.pow 2 52 + roundDiv scaled (den * Nat.pow 2 shift)
  if h : rank < count then some ⟨neg, rank, h⟩ else none

def ofInt (i : Int) : Double :=
  (nearest? (i < 0) i.natAbs 1).getD (largest (i < 0))

def decimalLength (n : Nat) : Nat :=
  (Nat.toDigits 10 n).length

-- The double nearest to `digits * 10 ^ exp`; `none` beyond the largest double. The two guards only
-- keep the powers of ten small: they cut where every value overflows or rounds to zero.
def ofDecimal? (neg : Bool) (digits : Nat) (exp : Int) : Option Double :=
  if digits = 0 then some (zero neg)
  else
    let top := exp + decimalLength digits
    if 310 < top then none
    else if top < -330 then some (zero neg)
    else if 0 ≤ exp then nearest? neg (digits * Nat.pow 10 exp.toNat) 1
    else nearest? neg digits (Nat.pow 10 (-exp).toNat)

theorem same_refl (x : Double) : x.same x := by
  simp [same]

theorem same_comm (x y : Double) : x.same y = y.same x := by
  simp [same, BEq.comm]

theorem same_trans {x y z : Double} (h₁ : x.same y) (h₂ : y.same z) : x.same z := by
  simp_all [same]

end Double
end Dossier

-- The common shape of a written number: a sign, whole digits, a fraction and an exponent. What a
-- reader does with a sign or with leading zeros is its own choice.

namespace Dossier

structure Numeral where
  -- The sign as written, if any.
  sign     : Option Char
  whole    : List Char
  fraction : Option (List Char)
  -- Whether the exponent is negative, and its digits.
  exponent : Option (Bool × List Char)

def digitsToNat (ds : List Char) : Nat :=
  ds.foldl (fun n c => 10 * n + (c.toNat - '0'.toNat)) 0

namespace Numeral

def negative (n : Numeral) : Bool :=
  n.sign = some '-'

def isWhole (n : Numeral) : Bool :=
  n.fraction.isNone && n.exponent.isNone

def digits (n : Numeral) : List Char :=
  n.whole ++ n.fraction.getD []

def power (n : Numeral) : Int :=
  match n.exponent with
  | none => 0
  | some (neg, ds) => if neg then - (digitsToNat ds : Int) else digitsToNat ds

-- The power of ten by which the digits, read as a whole number, are scaled.
def scale (n : Numeral) : Int :=
  n.power - (n.fraction.getD []).length

def scanSign : List Char → Option Char × List Char
  | '-' :: cs => (some '-', cs)
  | '+' :: cs => (some '+', cs)
  | cs => (none, cs)

def scanDigits? (cs : List Char) : Option (List Char × List Char) :=
  match cs.takeWhile Char.isDigit with
  | [] => none
  | ds => some (ds, cs.dropWhile Char.isDigit)

def scanFraction? : List Char → Option (Option (List Char) × List Char)
  | '.' :: cs => (scanDigits? cs).map fun (ds, rest) => (some ds, rest)
  | cs => some (none, cs)

def scanExponent? : List Char → Option (Option (Bool × List Char) × List Char)
  | c :: cs =>
    if c = 'e' ∨ c = 'E' then
      let (sign, cs) := scanSign cs
      (scanDigits? cs).map fun (ds, rest) => (some (sign = some '-', ds), rest)
    else some (none, c :: cs)
  | [] => some (none, [])

-- Reads a numeral from the front of a text, as long as possible. A point or an exponent mark
-- without digits after it is a failure, not the end of the numeral.
def scan? (cs : List Char) : Option (Numeral × List Char) := do
  let (sign, cs) := scanSign cs
  let (whole, cs) ← scanDigits? cs
  let (fraction, cs) ← scanFraction? cs
  let (exponent, cs) ← scanExponent? cs
  return ({ sign, whole, fraction, exponent }, cs)

def ofChars? (cs : List Char) : Option Numeral :=
  match scan? cs with
  | some (n, []) => some n
  | _ => none

end Numeral
end Dossier

import Dossier.Date.Calendar
import Dossier.Number.Numeral
import Dossier.Text.Blank

-- Instants in universal time with a precision of milliseconds, the texts that they are read from
-- and the one text that they are written to.

namespace Dossier

structure Instant where
  day    : Int
  second : Nat
  -- The millisecond of the second, with 1000 added in a leap second.
  milli  : Nat
deriving DecidableEq, Repr

namespace Instant

def isDash (c : Char) : Bool :=
  c = '-' || c = '−'

def digits? (n : Nat) (cs : List Char) : Option (Nat × List Char) :=
  let ds := cs.take n
  if ds.length = n ∧ ds.all Char.isDigit then some (digitsToNat ds, cs.drop n) else none

def literal? (c : Char) : List Char → Option (List Char)
  | c' :: cs => if c = c' then some cs else none
  | [] => none

def fullDate? (cs : List Char) : Option (CivilDate × List Char) := do
  let (year, cs) ← digits? 4 cs
  let cs ← literal? '-' cs
  let (month, cs) ← digits? 2 cs
  let cs ← literal? '-' cs
  let (day, cs) ← digits? 2 cs
  let date : CivilDate := { year, month, day }
  guard date.isValid
  return (date, cs)

def separator? : List Char → Option (List Char)
  | c :: cs => if c = 'T' ∨ c = 't' ∨ c = ' ' then some cs else none
  | [] => none

def timeOfDay? (cs : List Char) : Option (Nat × Bool × List Char) := do
  let (hour, cs) ← digits? 2 cs
  let cs ← literal? ':' cs
  let (minute, cs) ← digits? 2 cs
  let cs ← literal? ':' cs
  let (second, cs) ← digits? 2 cs
  guard (hour ≤ 23 ∧ minute ≤ 59 ∧ second ≤ 60)
  return (hour * 3600 + minute * 60 + min second 59, second = 60, cs)

-- The milliseconds of an optional fraction, of which further digits are dropped.
def fraction? : List Char → Option (Nat × List Char)
  | '.' :: cs => do
    let (ds, cs) ← Numeral.scanDigits? cs
    return (digitsToNat ((ds ++ ['0', '0']).take 3), cs)
  | cs => some (0, cs)

def offset? : List Char → Option (Int × List Char)
  | c :: cs =>
    if c = 'Z' ∨ c = 'z' then some (0, cs)
    else if c = '+' ∨ isDash c then do
      let (hours, cs) ← digits? 2 cs
      let cs ← literal? ':' cs
      let (minutes, cs) ← digits? 2 cs
      guard (hours ≤ 23 ∧ minutes ≤ 59)
      let seconds : Int := hours * 3600 + minutes * 60
      return (if c = '+' then seconds else -seconds, cs)
    else none
  | [] => none

-- A date and a time with their offset from universal time. The offset moves the day and the second,
-- but leaves a leap second one.
def ofDateTime? (cs : List Char) : Option Instant := do
  let (date, cs) ← fullDate? cs
  let cs ← separator? cs
  let (second, leap, cs) ← timeOfDay? cs
  let (milli, cs) ← fraction? cs
  let (offset, cs) ← offset? cs
  guard cs.isEmpty
  let total := date.toDay * 86400 + second - offset
  return {
    day := total / 86400
    second := (total % 86400).toNat
    milli := if leap then milli + 1000 else milli }

def shortNumber? (cs : List Char) : Option (Nat × List Char) :=
  let cs := cs.dropWhile isBlank
  match (cs.take 2).takeWhile Char.isDigit with
  | [] => none
  | ds => some (digitsToNat ds, cs.drop ds.length)

-- A signed year of any length or an unsigned one of up to four digits, after blanks.
def year? (cs : List Char) : Option (Int × List Char) :=
  match cs.dropWhile isBlank with
  | '-' :: cs => (Numeral.scanDigits? cs).map fun (ds, cs) => (- (digitsToNat ds : Int), cs)
  | '+' :: cs => (Numeral.scanDigits? cs).map fun (ds, cs) => ((digitsToNat ds : Int), cs)
  | cs =>
    match (cs.take 4).takeWhile Char.isDigit with
    | [] => none
    | ds => some (digitsToNat ds, cs.drop ds.length)

def ofDate? (cs : List Char) : Option Instant := do
  let (year, cs) ← year? cs
  let cs ← literal? '-' cs
  let (month, cs) ← shortNumber? cs
  let cs ← literal? '-' cs
  let (day, cs) ← shortNumber? cs
  guard cs.isEmpty
  let date : CivilDate := { year, month, day }
  guard date.isValid
  return { day := date.toDay, second := 0, milli := 0 }

def parse? (s : String) : Option Instant :=
  let cs := trimChars s.toList
  (ofDateTime? cs).or (ofDate? cs)

-- The instant some milliseconds after the start of 1970, if its year is one that dates can have.
def ofMillis? (ms : Int) : Option Instant :=
  let seconds := ms / 1000
  let day := seconds / 86400
  if (CivilDate.ofDay day).isValid then
    some { day, second := (seconds % 86400).toNat, milli := (ms % 1000).toNat }
  else none

def padded (width n : Nat) : String :=
  let ds := Nat.toDigits 10 n
  String.ofList (List.replicate (width - ds.length) '0' ++ ds)

def yearText (year : Int) : String :=
  if 0 ≤ year ∧ year ≤ 9999 then padded 4 year.natAbs
  else (if year < 0 then "-" else "+") ++ padded 4 year.natAbs

def text (i : Instant) : String :=
  let date := CivilDate.ofDay i.day
  let second := if i.milli < 1000 then i.second % 60 else i.second % 60 + 1
  yearText date.year ++ "-" ++ padded 2 date.month ++ "-" ++ padded 2 date.day
    ++ "T" ++ padded 2 (i.second / 3600) ++ ":" ++ padded 2 (i.second / 60 % 60)
    ++ ":" ++ padded 2 second ++ "." ++ padded 3 (i.milli % 1000) ++ "Z"

end Instant
end Dossier

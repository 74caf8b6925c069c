import Dossier.Value.Basic

-- `Value.parse?` reads the text of a value. Blanks are allowed between its parts; of repeated keys
-- in an object the last one counts.

namespace Dossier
namespace Reader

def skipBlanks (cs : List Char) : List Char :=
  cs.dropWhile fun c => c = ' ' ∨ c = '\n' ∨ c = '\r' ∨ c = '\t'

def hexDigit? (c : Char) : Option Nat :=
  if '0' ≤ c ∧ c ≤ '9' then some (c.toNat - '0'.toNat)
  else if 'a' ≤ c ∧ c ≤ 'f' then some (c.toNat - 'a'.toNat + 10)
  else if 'A' ≤ c ∧ c ≤ 'F' then some (c.toNat - 'A'.toNat + 10)
  else none

def hexCode? : List Char → Option (Nat × List Char)
  | a :: b :: c :: d :: cs => do
    let a ← hexDigit? a
    let b ← hexDigit? b
    let c ← hexDigit? c
    let d ← hexDigit? d
    return (((a * 16 + b) * 16 + c) * 16 + d, cs)
  | _ => none

-- A code of the first half of a surrogate pair needs the second half after it.
def codePoint? (cs : List Char) : Option (Char × List Char) := do
  let (high, cs) ← hexCode? cs
  if 0xD800 ≤ high ∧ high < 0xDC00 then
    match cs with
    | '\\' :: 'u' :: cs =>
      let (low, cs) ← hexCode? cs
      if 0xDC00 ≤ low ∧ low < 0xE000 then
        return (Char.ofNat (0x10000 + (high - 0xD800) * 0x400 + (low - 0xDC00)), cs)
      else none
    | _ => none
  else if 0xDC00 ≤ high ∧ high < 0xE000 then none
  else return (Char.ofNat high, cs)

def escape? : List Char → Option (Char × List Char)
  | '"' :: cs => some ('"', cs)
  | '\\' :: cs => some ('\\', cs)
  | '/' :: cs => some ('/', cs)
  | 'b' :: cs => some ('\x08', cs)
  | 'f' :: cs => some ('\x0c', cs)
  | 'n' :: cs => some ('\n', cs)
  | 'r' :: cs => some ('\r', cs)
  | 't' :: cs => some ('\t', cs)
  | 'u' :: cs => codePoint? cs
  | _ => none

-- The rest of a string after its opening quote; `acc` holds what has been read, last first.
def string? : Nat → List Char → List Char → Option (String × List Char)
  | 0, _, _ => none
  | _ + 1, [], _ => none
  | _ + 1, '"' :: cs, acc => some (String.ofList acc.reverse, cs)
  | n + 1, '\\' :: cs, acc => do
    let (c, cs) ← escape? cs
    string? n cs (c :: acc)
  | n + 1, c :: cs, acc => if c.toNat < 32 then none else string? n cs (c :: acc)

def number? (cs : List Char) : Option (Number × List Char) := do
  let (n, cs) ← Numeral.scan? cs
  guard (n.sign ≠ some '+')
  guard (n.whole.length = 1 ∨ n.whole.head? ≠ some '0')
  return (← Number.ofNumeral? n, cs)

mutual

-- A value at the front of a text. The first argument bounds the depth and length of what is read;
-- the length of the text is enough.
def value? : Nat → List Char → Option (Value × List Char)
  | 0, _ => none
  | n + 1, cs =>
    match skipBlanks cs with
    | 'n' :: 'u' :: 'l' :: 'l' :: cs => some (.null, cs)
    | 't' :: 'r' :: 'u' :: 'e' :: cs => some (.bool true, cs)
    | 'f' :: 'a' :: 'l' :: 's' :: 'e' :: cs => some (.bool false, cs)
    | '"' :: cs => (string? n cs []).map fun (s, cs) => (.str s, cs)
    | '[' :: cs =>
      match skipBlanks cs with
      | ']' :: cs => some (.arr [], cs)
      | cs => items? n cs []
    | '\x7b' :: cs =>
      match skipBlanks cs with
      | '\x7d' :: cs => some (.obj [], cs)
      | cs => fields? n cs []
    | cs => (number? cs).map fun (n, cs) => (.num n, cs)

def items? : Nat → List Char → List Value → Option (Value × List Char)
  | 0, _, _ => none
  | n + 1, cs, acc => do
    let (v, cs) ← value? n cs
    match skipBlanks cs with
    | ',' :: cs => items? n cs (v :: acc)
    | ']' :: cs => some (.arr (v :: acc).reverse, cs)
    | _ => none

def fields? : Nat → List Char → List (String × Value) → Option (Value × List Char)
  | 0, _, _ => none
  | n + 1, cs, acc =>
    match skipBlanks cs with
    | '"' :: cs => do
      let (k, cs) ← string? n cs []
      match skipBlanks cs with
      | ':' :: cs =>
        let (v, cs) ← value? n cs
        match skipBlanks cs with
        | ',' :: cs => fields? n cs ((k, v) :: acc)
        | '\x7d' :: cs => some (.ofFields ((k, v) :: acc).reverse, cs)
        | _ => none
      | _ => none
    | _ => none

end

end Reader

def Value.parse? (s : String) : Option Value :=
  let cs := s.toList
  match Reader.value? (cs.length + 1) cs with
  | some (v, cs) => if Reader.skipBlanks cs = [] then some v else none
  | none => none

end Dossier

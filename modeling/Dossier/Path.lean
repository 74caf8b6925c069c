-- A path is a list of segments, each the key of an object or the index into an array, and its text
-- joins the segments with dots.

namespace Dossier

inductive Seg where
  | key (k : String)
  | index (i : Nat)
deriving DecidableEq, Repr

abbrev Path := List Seg

namespace Seg

def index? : Seg → Option Nat
  | .key _ => none
  | .index i => some i

-- The segment as the key of an object, where an index stands for its decimal text.
def toKey : Seg → String
  | .key k => k
  | .index i => toString i

-- All keys come before all indexes.
instance : Ord Seg where
  compare
    | .key a, .key b => compare a b
    | .key _, .index _ => .lt
    | .index _, .key _ => .gt
    | .index i, .index j => compare i j

theorem compare_index (i j : Nat) : compare (Seg.index i) (.index j) = compare i j := rfl

instance : Std.TransOrd Seg where
  eq_swap {a b} :=
    match a, b with
    | .key a, .key b => Std.OrientedOrd.eq_swap (a := a) (b := b)
    | .key _, .index _ => rfl
    | .index _, .key _ => rfl
    | .index i, .index j => Std.OrientedOrd.eq_swap (a := i) (b := j)
  isLE_trans {a b c} h₁ h₂ :=
    match a, b, c with
    | .key a, .key b, .key c => Std.TransOrd.isLE_trans (a := a) (b := b) (c := c) h₁ h₂
    | .key _, .key _, .index _ => rfl
    | .key _, .index _, .index _ => rfl
    | .key _, .index _, .key _ => nomatch h₂
    | .index _, .key _, _ => nomatch h₁
    | .index _, .index _, .key _ => nomatch h₂
    | .index i, .index j, .index k => Std.TransOrd.isLE_trans (a := i) (b := j) (c := k) h₁ h₂

instance : Std.LawfulEqOrd Seg where
  eq_of_compare {a b} h :=
    match a, b with
    | .key a, .key b => congrArg Seg.key (Std.LawfulEqOrd.eq_of_compare (a := a) (b := b) h)
    | .key _, .index _ => nomatch h
    | .index _, .key _ => nomatch h
    | .index i, .index j => congrArg Seg.index (Std.LawfulEqOrd.eq_of_compare (a := i) (b := j) h)

-- The bound of the indexes that a segment's text can stand for.
def indexBound : Nat := Nat.pow 2 64

def canonicalIndex? (cs : List Char) : Option Nat :=
  let i := cs.foldl (fun n c => 10 * n + (c.toNat - '0'.toNat)) 0
  if cs.all Char.isDigit ∧ i < indexBound ∧ Nat.toDigits 10 i = cs then some i else none

-- A segment's text stands for an index if it is the decimal text of one, else for a key: `7` is an
-- index and `007` a key.
def ofChars (cs : List Char) : Seg :=
  match canonicalIndex? cs with
  | some i => .index i
  | none => .key (String.ofList cs)

end Seg

namespace Path

def root : Path := []

def splitDots : List Char → List (List Char)
  | [] => [[]]
  | c :: cs =>
    if c = '.' then [] :: splitDots cs
    else match splitDots cs with
      | [] => [[c]]
      | part :: parts => (c :: part) :: parts

-- Reads a path from its text. Empty segments are skipped.
def parse (s : String) : Path :=
  ((splitDots s.toList).filter (· ≠ [])).map Seg.ofChars

def text (p : Path) : String :=
  ".".intercalate (p.map Seg.toKey)

def key (p : Path) (k : String) : Path :=
  p ++ [.key k]

def index (p : Path) (i : Nat) : Path :=
  p ++ [.index i]

def top (p : Path) : Path :=
  p.take 1

def parent? (p : Path) : Option Path :=
  if p.isEmpty then none else some p.dropLast

-- The strict ancestors below the root, shortest first.
def ancestors (p : Path) : List Path :=
  (List.range (p.length - 1)).map fun n => p.take (n + 1)

def covers (p q : Path) : Bool :=
  p.isPrefixOf q

def isAbove (p q : Path) : Bool :=
  p.length < q.length && p.covers q

def below? (p q : Path) : Option Path :=
  if q.covers p then some (p.drop q.length) else none

def rebase? (p old new : Path) : Option Path :=
  (p.below? old).map (new ++ ·)

end Path
end Dossier

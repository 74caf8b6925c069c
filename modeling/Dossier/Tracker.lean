import Dossier.OrdMap.Basic
import Dossier.Path

-- A tracker keeps the state of each tracked path in two views: the state of a path, and the paths
-- in a state. Every operation updates both.

namespace Dossier

inductive PathState where
  -- Required and not there.
  | require
  -- Written since the last commit.
  | modify
  -- As it was loaded.
  | init
  -- Filled in and not yet stored.
  | default
  -- Not tracked.
  | ignore
deriving DecidableEq, Repr

namespace PathState

def all : List PathState := [.require, .modify, .init, .default, .ignore]

def name : PathState → String
  | .require => "require"
  | .modify => "modify"
  | .init => "init"
  | .default => "default"
  | .ignore => "ignore"

def ofName? (s : String) : Option PathState :=
  all.find? (·.name = s)

end PathState

structure Buckets where
  require : OrdSet Path := ∅
  modify  : OrdSet Path := ∅
  init    : OrdSet Path := ∅
  default : OrdSet Path := ∅
  ignore  : OrdSet Path := ∅
deriving DecidableEq

namespace Buckets

def get (b : Buckets) : PathState → OrdSet Path
  | .require => b.require
  | .modify => b.modify
  | .init => b.init
  | .default => b.default
  | .ignore => b.ignore

def set (b : Buckets) (s : PathState) (paths : OrdSet Path) : Buckets :=
  match s with
  | .require => { b with require := paths }
  | .modify => { b with modify := paths }
  | .init => { b with init := paths }
  | .default => { b with default := paths }
  | .ignore => { b with ignore := paths }

@[simp] theorem get_set_self (b : Buckets) (s : PathState) (ps : OrdSet Path) :
    (b.set s ps).get s = ps := by
  cases s <;> rfl

theorem get_set_ne (b : Buckets) {s s' : PathState} (h : s ≠ s') (ps : OrdSet Path) :
    (b.set s ps).get s' = b.get s' := by
  cases s <;> cases s' <;> first | rfl | contradiction

def add (b : Buckets) (s : PathState) (p : Path) : Buckets :=
  b.set s ((b.get s).add p)

def drop (b : Buckets) (s : PathState) (p : Path) : Buckets :=
  b.set s ((b.get s).erase p)

end Buckets

structure Tracker where
  states  : OrdMap Path PathState := ∅
  buckets : Buckets := {}
deriving DecidableEq

namespace Tracker

def empty : Tracker := {}

def stateOf? (t : Tracker) (p : Path) : Option PathState :=
  t.states.get? p

def isIn (t : Tracker) (p : Path) (s : PathState) : Bool :=
  t.stateOf? p = some s

def pathsIn (t : Tracker) (s : PathState) : List Path :=
  (t.buckets.get s).keys

def anyIn (t : Tracker) (s : PathState) : Bool :=
  ¬ (t.buckets.get s).isEmpty

def entries (t : Tracker) : List (Path × PathState) :=
  t.states.entries

def size (t : Tracker) : Nat :=
  t.states.size

def isEmpty (t : Tracker) : Bool :=
  t.states.isEmpty

def transition (t : Tracker) (p : Path) (s : PathState) : Tracker :=
  let states := t.states.insert p s
  match t.stateOf? p with
  | none => ⟨states, t.buckets.add s p⟩
  | some old => if old = s then ⟨states, t.buckets⟩ else ⟨states, (t.buckets.drop old p).add s p⟩

def clearPath (t : Tracker) (p : Path) : Option PathState × Tracker :=
  match t.stateOf? p with
  | none => (none, t)
  | some old => (some old, ⟨t.states.erase p, t.buckets.drop old p⟩)

def forget (t : Tracker) (p : Path) : Tracker :=
  (t.clearPath p).2

def clear (t : Tracker) (s : PathState) : Tracker :=
  ⟨(t.pathsIn s).foldl OrdMap.erase t.states, t.buckets.set s ∅⟩

def moveAll (t : Tracker) (src dst : PathState) : Tracker :=
  if src = dst then t
  else
    let moved := t.pathsIn src
    let states := moved.foldl (fun m p => m.insert p dst) t.states
    ⟨states, moved.foldl (fun b p => b.add dst p) (t.buckets.set src ∅)⟩

def descendants (t : Tracker) (p : Path) : List Path :=
  t.states.keys.filter p.isAbove

def clearDescendants (t : Tracker) (p : Path) : Tracker :=
  (t.descendants p).foldl forget t

-- Moves the paths at and below `old` to the same places at and below `new`.
def rekey (t : Tracker) (old new : Path) : Tracker :=
  if old = new then t
  else
    let moved := t.entries.filter fun e => old.covers e.1
    let cleared := moved.foldl (fun t e => t.forget e.1) t
    moved.foldl (fun t e =>
      match e.1.rebase? old new with
      | some p => t.transition p e.2
      | none => t) cleared

def isConsistent (t : Tracker) : Bool :=
  PathState.all.foldl (fun n s => n + (t.buckets.get s).size) 0 == t.states.size &&
    PathState.all.all fun s => (t.pathsIn s).all fun p => t.isIn p s

end Tracker
end Dossier

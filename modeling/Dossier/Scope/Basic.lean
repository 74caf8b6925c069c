import Dossier.Schema.Basic
import Dossier.Tracker

-- A scope is an embedded document inside a document, with a schema, path states and a root of its
-- own. Scopes are named by a slot and the generation of the slot, so that the name of one that was
-- removed never stands for another.

namespace Dossier

structure ScopeKey where
  slot       : Nat
  generation : UInt32
deriving DecidableEq, Repr

structure Scope where
  root    : Path
  schema  : Schema
  parent  : Option ScopeKey
  -- The states of paths relative to the root.
  tracker : Tracker
  isNew   : Bool

structure Slot where
  generation : UInt32
  entry      : Option Scope

structure Scopes where
  slots : List Slot := []
  -- The slots that can be taken again, the next one first.
  free  : List Nat := []
  roots : OrdMap Path ScopeKey := ∅

namespace Scopes

def get? (s : Scopes) (k : ScopeKey) : Option Scope :=
  match s.slots[k.slot]? with
  | some slot => if slot.generation = k.generation then slot.entry else none
  | none => none

def keyAt? (s : Scopes) (root : Path) : Option ScopeKey :=
  s.roots.get? root

def insert (s : Scopes) (scope : Scope) : ScopeKey × Scopes :=
  match s.free with
  | i :: free =>
    let generation := match s.slots[i]? with
      | some slot => slot.generation + 1
      | none => 0
    let key : ScopeKey := ⟨i, generation⟩
    (key, ⟨s.slots.set i ⟨generation, some scope⟩, free, s.roots.insert scope.root key⟩)
  | [] =>
    let key : ScopeKey := ⟨s.slots.length, 0⟩
    (key, ⟨s.slots ++ [⟨0, some scope⟩], [], s.roots.insert scope.root key⟩)

def modify (s : Scopes) (k : ScopeKey) (f : Scope → Scope) : Scopes :=
  match s.get? k with
  | some scope => { s with slots := s.slots.set k.slot ⟨k.generation, some (f scope)⟩ }
  | none => s

def remove (s : Scopes) (k : ScopeKey) : Scopes :=
  match s.get? k with
  | some scope =>
    ⟨s.slots.set k.slot ⟨k.generation, none⟩, k.slot :: s.free, s.roots.erase scope.root⟩
  | none => s

def toList (s : Scopes) : List (ScopeKey × Scope) :=
  s.roots.values.filterMap fun k => (s.get? k).map (k, ·)

def mapAll (s : Scopes) (f : Scope → Scope) : Scopes :=
  { s with slots := s.slots.map fun slot => { slot with entry := slot.entry.map f } }

def innermost? (s : Scopes) (p : Path) : Option ScopeKey :=
  p.ancestors.reverse.findSome? s.keyAt?

def chain (s : Scopes) : Nat → Option ScopeKey → List ScopeKey
  | 0, _ => []
  | _ + 1, none => []
  | n + 1, some k => k :: chain s n ((s.get? k).bind (·.parent))

-- The scopes around a path, the innermost first. No scope is its own ancestor, so there are at most
-- as many as slots, and a link to a scope that is gone ends the chain.
def owners (s : Scopes) (p : Path) : List ScopeKey :=
  s.chain (s.slots.length + 1) (s.innermost? p)

def owner? (s : Scopes) (p : Path) : Option Scope :=
  (s.innermost? p).bind s.get?

def removeBelow (s : Scopes) (p : Path) : Scopes :=
  (s.roots.entries.filter fun e => p.covers e.1).foldl (fun s e => s.remove e.2) s

-- Moves the roots at and below `old` to the same places at and below `new`.
def rekey (s : Scopes) (old new : Path) : Scopes :=
  let moved := s.roots.entries.filter fun e => old.covers e.1
  let cleared := { s with roots := moved.foldl (fun m e => m.erase e.1) s.roots }
  moved.foldl (fun s e =>
    match e.1.rebase? old new with
    | some root =>
      let s := s.modify e.2 fun scope => { scope with root }
      { s with roots := s.roots.insert root e.2 }
    | none => s) cleared

end Scopes
end Dossier

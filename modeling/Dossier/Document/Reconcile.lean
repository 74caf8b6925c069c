import Dossier.Document.Basic

-- The changeset of a document brings the stored record in line with it; until it is stored the
-- changes can be undone.

namespace Dossier
namespace Document

def dirtyPaths (d : Document) : List Path :=
  let defaults := (d.tracker.pathsIn .default).filter fun p => ¬ Value.isNullish (d.get? p)
  (OrdSet.ofKeys (d.tracker.pathsIn .modify ++ defaults)).keys

-- An append or a removal that can be stored as such: it is the only kind of change to its array.
def incremental? (d : Document) (dirty : List Path) (path : Path) : Option ChangeOp :=
  match d.arrayOps.get? path with
  | none => none
  | some ops =>
    let mixed := ¬ ops.pushed.isEmpty ∧ ¬ ops.pulled.isEmpty
    if d.isNew ∨ ops.replaced ∨ mixed ∨ dirty.any path.isAbove then none
    else if ¬ ops.pushed.isEmpty then some (.push ops.pushed)
    else if ¬ ops.pulled.isEmpty then some (.pull ops.pulled)
    else none

-- Identifiers go back into the value at a path, in the order of their paths. One at the path itself
-- is the whole value.
def restoreIds (path : Path) : List (Path × Value) → Value → Value
  | [], v => v
  | (p, id) :: rest, v =>
    match p.below? path with
    | none => restoreIds path rest v
    | some [] => id
    | some rel => restoreIds path rest (v.written rel id)

def depopulated (d : Document) (path : Path) (v : Value) : Value :=
  restoreIds path d.populated.entries v

def changeAt (d : Document) (dirty : List Path) (path : Path) : Change :=
  let op := match d.incremental? dirty path with
    | some op => op
    | none =>
      match d.get? path with
      | some v => .set (d.depopulated path v)
      | none => .unset
  let fieldType := match d.resolve path with
    | .field f => some f.tag
    | _ => none
  { path, op, fieldType }

-- The writes that bring the stored record in line with the document. A path below another one that
-- is written needs no write of its own.
def changeset (d : Document) : Changeset :=
  let dirty := d.dirtyPaths
  let minimal := dirty.filter fun p => ¬ dirty.any fun a => a.isAbove p
  ⟨minimal.map (d.changeAt dirty)⟩

def commitTracker (t : Tracker) : Tracker :=
  (t.moveAll .modify .init).moveAll .default .init

def commit (d : Document) : Document :=
  { d with
    tracker := commitTracker d.tracker
    scopes := d.scopes.mapAll fun scope =>
      { scope with tracker := commitTracker scope.tracker, isNew := false }
    isNew := false
    arrayOps := ∅
    snapshot := ∅
    backup := none
    issues := none }

def restoreTop (v : Value) : Path × Option Value → Value
  | (top, some old) => v.written top old
  | (top, none) => (v.remove top).2

def rollback (d : Document) : Document :=
  match d.backup with
  | none => d
  | some b =>
    { d with
      value := d.snapshot.entries.foldl restoreTop d.value
      tracker := b.tracker
      scopes := b.scopes
      arrayOps := b.arrayOps
      populated := b.populated
      issues := b.issues
      snapshot := ∅
      backup := none }

end Document
end Dossier

import Dossier.Projection
import Dossier.Schema.Cast
import Dossier.Schema.Resolve
import Dossier.Scope.Attach

-- A document is a value together with its schema and what has happened to it: the states of its
-- paths, the scopes of its embedded documents, the failures recorded for its paths, and what is
-- needed to undo its changes.

namespace Dossier

-- What was appended to and removed from an array since it was stored.
structure ArrayOps where
  pushed   : List Value := []
  pulled   : List Value := []
  -- The array was also given a value as a whole.
  replaced : Bool := false

-- What a document was like when its open changes began, apart from its value.
structure Backup where
  tracker   : Tracker
  scopes    : Scopes
  arrayOps  : OrdMap Path ArrayOps
  issues    : Option Issues
  populated : OrdMap Path Value

structure Document where
  schema     : Schema
  value      : Value
  tracker    : Tracker := .empty
  scopes     : Scopes := {}
  isNew      : Bool
  -- What the read that the document comes from has returned.
  projection : Option Projection := none
  issues     : Option Issues := none
  -- A validation has begun and not ended.
  validating : Bool := false
  arrayOps   : OrdMap Path ArrayOps := ∅
  -- The values at top paths before the first of the open changes.
  snapshot   : OrdMap Path (Option Value) := ∅
  backup     : Option Backup := none
  -- The identifiers in whose place records stand.
  populated  : OrdMap Path Value := ∅

namespace Document

-- Reading

def get? (d : Document) (p : Path) : Option Value :=
  d.value.get? p

def resolve (d : Document) (p : Path) : Resolution :=
  d.schema.resolve d.value p

def isSelected (d : Document) (p : Path) : Bool :=
  Projection.selectsOpt d.projection p

def stateOf? (d : Document) (p : Path) : Option PathState :=
  d.tracker.stateOf? p

def isDirectlyModified (d : Document) (p : Path) : Bool :=
  d.tracker.isIn p .modify

def isModified (d : Document) (p : Path) : Bool :=
  (d.tracker.pathsIn .modify).any fun q => p = q || p.isAbove q

def isDirty (d : Document) : Bool :=
  d.tracker.anyIn .modify

-- The modified paths and all paths above them, in order.
def modifiedPaths (d : Document) : List Path :=
  let all := (d.tracker.pathsIn .modify).flatMap fun p => p.ancestors ++ [p]
  (OrdSet.ofKeys all).keys

def topView (d : Document) : View :=
  { value := d.value, isNew := d.isNew }

-- The document or embedded document that owns a path, as rules see it.
def viewAt (d : Document) (p : Path) : View :=
  match d.scopes.owner? p with
  | none => d.topView
  | some scope =>
    match d.get? scope.root with
    | some value => { value, isNew := scope.isNew }
    | none => d.topView

def rootAt (d : Document) (p : Path) : Path :=
  match d.scopes.owner? p with
  | some scope => scope.root
  | none => Path.root

def isNewAt (d : Document) (p : Path) : Bool :=
  d.isNew || (d.scopes.owners p).any fun k =>
    match d.scopes.get? k with
    | some scope => scope.isNew
    | none => false

def show? (d : Document) (p : Path) : Option Value :=
  (d.get? p).map fun v =>
    match d.resolve p with
    | .field f => f.rules.applyGetters (d.viewAt p) v
    | _ => v

-- Failures

def invalidate (d : Document) (p : Path) (e : FieldError) : Bool × Document :=
  let (recorded, issues) := Issues.record (d.issues.getD ∅) p e
  (recorded, { d with issues := some issues })

def markValid (d : Document) (p : Path) : Document :=
  match d.issues with
  | none => d
  | some issues =>
    let issues := issues.erase p
    { d with issues := if issues.isEmpty then none else some issues }

def recordCast (d : Document) (p : Path) (e : CastError) : Document :=
  { d with issues := some ((d.issues.getD ∅).insert p (.cast e)) }

def clearIssuesBelow (d : Document) (p : Path) : Document :=
  { d with issues := d.issues.map (Issues.clearBelow · p) }

-- Path states

-- Changes the path states of the document and of the scopes around a path, each of which gets the
-- path of its root.
def eachTracker (d : Document) (p : Path) (f : Path → Tracker → Tracker) : Document :=
  let scopes := (d.scopes.owners p).foldl (fun s k =>
    s.modify k fun scope => { scope with tracker := f scope.root scope.tracker }) d.scopes
  { d with tracker := f Path.root d.tracker, scopes }

def atPath (p : Path) (f : Path → Tracker → Tracker) (root : Path) (t : Tracker) : Tracker :=
  match p.below? root with
  | some rel => f rel t
  | none => t

def clearTracking (d : Document) (p : Path) : Document :=
  let d := d.eachTracker p (atPath p fun rel t => t.clearDescendants rel)
  let d := d.clearIssuesBelow p
  { d with arrayOps := d.arrayOps.filter fun q _ => ¬ p.isAbove q }

-- Marks a path in the scope that owns it and in those around it. A scope that is new will be stored
-- as a whole, so outside of it its root is marked instead of the path.
def markModified (d : Document) (p : Path) : Document :=
  let (mark, scopes) := (d.scopes.owners p).foldl (fun (mark, scopes) k =>
    match Scopes.get? scopes k with
    | none => (mark, scopes)
    | some scope =>
      let scopes := scopes.modify k fun scope =>
        { scope with tracker := atPath mark (fun rel t => t.transition rel .modify) scope.root scope.tracker }
      (if scope.isNew then scope.root else mark, scopes)) (p, d.scopes)
  { d with tracker := d.tracker.transition mark .modify, scopes }

def unmarkModified (d : Document) (p : Path) : Document :=
  d.eachTracker p (atPath p fun rel t => if t.isIn rel .modify then t.transition rel .init else t)

-- Open changes

-- Keeps what is needed to undo the changes that follow, unless changes are open already.
def openChanges (d : Document) : Document :=
  match d.backup with
  | some _ => d
  | none =>
    { d with
      backup := some {
        tracker := d.tracker
        scopes := d.scopes
        arrayOps := d.arrayOps
        issues := d.issues
        populated := d.populated } }

-- Keeps the value at the top of a path, if changes are open and it is not kept already.
def keepTop (d : Document) (p : Path) : Document :=
  if d.backup.isSome ∧ ¬ d.snapshot.contains p.top then
    { d with snapshot := d.snapshot.insert p.top (d.get? p.top) }
  else d

def write (d : Document) (p : Path) (v : Value) : Except PathError Unit × Document :=
  let d := d.keepTop p
  let (r, value) := d.value.set p v
  (r, { d with value })

def noteArrayOp (d : Document) (p : Path) (f : ArrayOps → ArrayOps) : Document :=
  { d with arrayOps := d.arrayOps.insert p (f ((d.arrayOps.get? p).getD {})) }

end Document
end Dossier

import Dossier.Document.Set

-- Appending to arrays and removing from them, both noted so that they can be stored as such.

namespace Dossier
namespace Document

def arrayField? (d : Document) (p : Path) : Option Field :=
  match d.resolve p with
  | .field f => if f.type.isArray then some f else none
  | _ => none

def dropItem (d : Document) (item : Path) : Document :=
  let d := { d with scopes := d.scopes.removeBelow item }
  d.eachTracker item (atPath item fun rel t => (t.forget rel).clearDescendants rel)

def moveItem (d : Document) (path : Path) (old new : Nat) : Document :=
  let old := path.index old
  let new := path.index new
  let d := { d with scopes := d.scopes.rekey old new }
  d.eachTracker path fun root t =>
    match old.below? root, new.below? root with
    | some o, some n => t.rekey o n
    | _, _ => t

-- Moves the items after removed ones up. The third argument is the index of the first flag, the
-- fourth the number of items removed before it.
def closeGaps (path : Path) : List Bool → Nat → Nat → Document → Document
  | [], _, _, d => d
  | true :: rest, i, shift, d => closeGaps path rest (i + 1) (shift + 1) d
  | false :: rest, i, shift, d =>
    closeGaps path rest (i + 1) shift (if shift = 0 then d else d.moveItem path i (i - shift))

def reindex (d : Document) (path : Path) (removed : List Bool) : Document :=
  let d := removed.zipIdx.foldl (fun d (r, i) => if r then d.dropItem (path.index i) else d) d
  closeGaps path removed 0 0 d

end Document

namespace Edit

-- Casts the items one by one; the first one that fails is recorded for the array, and `none` returned.
def castItems (path root : Path) (element : Field) : Nat → List Value → Edit (Option (List Value))
  | _, [] => return some []
  | i, v :: vs => do
    match ← cast (element.cast { path := path.index i, root } v) with
    | .error (.strict e) => throw (.strict e)
    | .error (.cast e) =>
      change (·.recordCast path
        { path, target := .type .array, value := v, reason := some (.item e.message) })
      return none
    | .ok v =>
      match ← castItems path root element (i + 1) vs with
      | some vs => return some (v :: vs)
      | none => return none

def itemsAt (path : Path) : Edit (List Value) := do
  match (← doc).get? path with
  | none | some .null => return []
  | some (.arr items) => return items
  | some _ => throw (.path (.wrongShape path .array))

def push (path : Path) (values : List Value) : Edit Unit := do
  match (← doc).arrayField? path with
  | none => throw (.path (.wrongShape path .arrayField))
  | some field =>
    match field.element? with
    | none => throw (.path (.wrongShape path .arrayField))
    | some element =>
      let items ← itemsAt path
      change (·.openChanges)
      clearQueue
      match ← castItems path ((← doc).rootAt path) element items.length values with
      | none | some [] => return ()
      | some pushed =>
        write path (.arr (items ++ pushed))
        match field.type with
        | .documentArray sub =>
          change fun d =>
            let parent := d.scopes.innermost? path
            { d with
              scopes := d.scopes.attachItems sub path items.length pushed parent .created }
        | _ => pure ()
        change (·.noteArrayOp path fun ops => { ops with pushed := ops.pushed ++ pushed })
        change (·.markModified path)
        settle {} maxRounds

def pull (path : Path) (v : Value) : Edit Unit := do
  let d ← doc
  match d.arrayField? path with
  | none => throw (.path (.wrongShape path .arrayField))
  | some _ =>
    match d.get? path with
    | some (.arr items) =>
      let removed := items.map (Change.selects · v)
      if removed.any id then
        change (·.openChanges)
        write path (.arr (items.filter fun item => ¬ Change.selects item v))
        change (·.reindex path removed)
        change (·.clearIssuesBelow path)
        change (·.noteArrayOp path fun ops => { ops with pulled := ops.pulled ++ [v] })
        change (·.markModified path)
      else return ()
    | _ => return ()

end Edit
end Dossier

import Dossier.FieldType
import Dossier.Value.Tree

-- A changeset is an ordered list of writes that bring a stored record in line with a document.

namespace Dossier

inductive ChangeOp where
  | set (value : Value)
  | unset
  | push (values : List Value)
  | pull (values : List Value)

structure Change where
  path      : Path
  op        : ChangeOp
  fieldType : Option TypeTag := none

structure Changeset where
  changes : List Change

namespace Change

-- Whether a candidate for removal selects an item: by equality, or by naming its identifier.
def selects (item candidate : Value) : Bool :=
  item.equal candidate ||
    match item.field? Value.idKey with
    | none => false
    | some id =>
      match candidate with
      | .obj fields =>
        match Entries.get? Value.idKey fields with
        | some id' => id.equal id'
        | none => false
      | v => id.equal v

-- An absent or null array is made before the values are appended.
def applyPush (path : Path) (values : List Value) (doc : Value) : Except PathError Unit × Value :=
  let (r, doc) := if Value.isNullish (doc.get? path) then doc.set path (.arr []) else (.ok (), doc)
  match r with
  | .error e => (.error e, doc)
  | .ok () =>
    match doc.get? path with
    | some (.arr items) => (.ok (), doc.put path (.arr (items ++ values)))
    | _ => (.error (.wrongShape path .array), doc)

def applyPull (path : Path) (values : List Value) (doc : Value) : Except PathError Unit × Value :=
  match doc.get? path with
  | none | some .null => (.ok (), doc)
  | some (.arr items) =>
    (.ok (), doc.put path (.arr (items.filter fun item => ¬ values.any (selects item))))
  | some _ => (.error (.wrongShape path .array), doc)

-- Applies one change. What a failing write has made on its way stays.
def apply (c : Change) (doc : Value) : Except PathError Unit × Value :=
  match c.op with
  | .set v => doc.set c.path v
  | .unset => (.ok (), (doc.remove c.path).2)
  | .push values => applyPush c.path values doc
  | .pull values => applyPull c.path values doc

end Change

namespace Changeset

def empty : Changeset := ⟨[]⟩

def isEmpty (cs : Changeset) : Bool :=
  cs.changes.isEmpty

def size (cs : Changeset) : Nat :=
  cs.changes.length

def paths (cs : Changeset) : List Path :=
  cs.changes.map (·.path)

def get? (cs : Changeset) (path : Path) : Option Change :=
  cs.changes.find? (·.path = path)

def applyAll : List Change → Value → Except PathError Value
  | [], doc => .ok doc
  | c :: cs, doc =>
    match c.apply doc with
    | (.ok (), doc) => applyAll cs doc
    | (.error e, _) => .error e

def apply (cs : Changeset) (doc : Value) : Except PathError Value :=
  applyAll cs.changes doc

end Changeset
end Dossier

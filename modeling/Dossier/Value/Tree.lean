import Dossier.Path
import Dossier.Value.Basic

-- An index that meets an object is looked up as a key, so keys that look like numbers stay
-- reachable. A write makes the objects that it needs on its way.

namespace Dossier

inductive Shape where
  | object
  | array
  | arrayField
  | referenceField
deriving DecidableEq

inductive PathError where
  | indexOutOfBounds (path : Path) (index length : Nat)
  | notTraversable (path : Path)
  | wrongShape (path : Path) (expected : Shape)
deriving DecidableEq

def Shape.text : Shape → String
  | .object => "an object"
  | .array => "an array"
  | .arrayField => "an array field"
  | .referenceField => "a reference field"

def PathError.message : PathError → String
  | .indexOutOfBounds path index length =>
    "index " ++ toString index ++ " out of bounds (len: " ++ toString length ++ ") at path "
      ++ path.text
  | .notTraversable path => "cannot traverse into " ++ path.text
  | .wrongShape path expected => "path " ++ path.text ++ " is not " ++ expected.text

namespace Value

def child? : Value → Seg → Option Value
  | .obj fields, seg => Entries.get? seg.toKey fields
  | .arr items, .index i => items[i]?
  | _, _ => none

def get? : Value → Path → Option Value
  | v, [] => some v
  | v, seg :: rest =>
    match v.child? seg with
    | some c => c.get? rest
    | none => none

def setChild : Value → Seg → Value → Value
  | .obj fields, seg, c => .obj (Entries.replace seg.toKey c fields)
  | .arr items, .index i, c => .arr (items.set i c)
  | v, _, _ => v

def put : Value → Path → Value → Value
  | _, [], new => new
  | v, seg :: rest, new =>
    match v.child? seg with
    | some c => v.setChild seg (c.put rest new)
    | none => v

-- The write below `full`, of which the given segments are left. A failure stops the write where it
-- is met and keeps the parts that were made before.
def setFrom (full : Path) (new : Value) : Path → Value → Except PathError Unit × Value
  | [], _ => (.ok (), new)
  | seg :: rest, .arr items =>
    match seg with
    | .key _ => (.error (.notTraversable full), .arr items)
    | .index i =>
      if items.length < i then (.error (.indexOutOfBounds full i items.length), .arr items)
      else
        let (r, c) := setFrom full new rest (items[i]?.getD .null)
        (r, .arr (if i < items.length then items.set i c else items ++ [c]))
  | seg :: rest, .obj fields =>
    let (r, c) := setFrom full new rest ((Entries.get? seg.toKey fields).getD .null)
    (r, .obj (Entries.insert seg.toKey c fields))
  | seg :: rest, _ =>
    let (r, c) := setFrom full new rest .null
    (r, .obj [(seg.toKey, c)])

-- Writes a value at a path. A scalar on the way becomes an object, and the index one past the end
-- of an array appends to it. Any other index beyond the end, and a key into an array, is an error.
def set (doc : Value) (path : Path) (new : Value) : Except PathError Unit × Value :=
  setFrom path new path doc

def written (doc : Value) (path : Path) (new : Value) : Value :=
  (doc.set path new).2

-- Removes the value at a path and returns it. The later items of an array move up.
def remove : Value → Path → Option Value × Value
  | v, [] => (none, v)
  | .obj fields, [seg] => (Entries.get? seg.toKey fields, .obj (Entries.erase seg.toKey fields))
  | .arr items, [.index i] => (items[i]?, .arr (items.eraseIdx i))
  | v, [_] => (none, v)
  | v, seg :: rest =>
    match v.child? seg with
    | some c =>
      let (r, c) := c.remove rest
      (r, v.setChild seg c)
    | none => (none, v)

theorem get?_append (v : Value) (p q : Path) : v.get? (p ++ q) = (v.get? p).bind (·.get? q) := by
  induction p generalizing v with
  | nil => rfl
  | cons seg p ih =>
    simp only [List.cons_append, get?]
    cases v.child? seg with
    | none => rfl
    | some c => exact ih c

end Value
end Dossier

import Dossier.Change

-- The form in which paths and changes are exchanged.

namespace Dossier

namespace Seg

def toValue : Seg → Value
  | .key k => .str k
  | .index i => .int i

def ofValue? : Value → Option Seg
  | .str k => some (.key k)
  | .num (.int (.ofNat i)) => some (.index i)
  | _ => none

theorem ofValue?_toValue (s : Seg) : ofValue? s.toValue = some s := by
  cases s <;> rfl

end Seg

namespace Path

def toValue (p : Path) : Value :=
  .arr (p.map Seg.toValue)

def ofValue? : Value → Option Path
  | .arr items => items.mapM Seg.ofValue?
  | _ => none

theorem ofValue?_toValue (p : Path) : ofValue? (toValue p) = some p := by
  simp only [ofValue?, toValue]
  induction p with
  | nil => rfl
  | cons s p ih => simp [Seg.ofValue?_toValue, ih]

end Path

namespace TypeTag

def toValue (t : TypeTag) : Value :=
  .str t.label

-- A label may also stand as the only key of an object, over null.
def ofValue? : Value → Option TypeTag
  | .str s => ofLabel? s
  | .obj [(s, .null)] => ofLabel? s
  | _ => none

end TypeTag

namespace ChangeOp

def labels : List String := ["set", "unset", "push", "pull"]

def fields : ChangeOp → List (String × Value)
  | .set v => [("op", .str "set"), ("value", v)]
  | .unset => [("op", .str "unset")]
  | .push vs => [("op", .str "push"), ("values", .arr vs)]
  | .pull vs => [("op", .str "pull"), ("values", .arr vs)]

-- The kind of write is given by its label or by the label's position.
def label? : Value → Option String
  | .str s => some s
  | .num (.int (.ofNat i)) => labels[i]?
  | _ => none

def values? (v : Value) : Option (List Value) :=
  match v.field? "values" with
  | some (.arr vs) => some vs
  | _ => none

def ofValue? (v : Value) : Option ChangeOp := do
  match ← label? (← v.field? "op") with
  | "set" => return .set (← v.field? "value")
  | "unset" => return .unset
  | "push" => return .push (← values? v)
  | "pull" => return .pull (← values? v)
  | _ => none

end ChangeOp

namespace Change

def toValue (c : Change) : Value :=
  let tag := match c.fieldType with
    | some t => [("field_type", t.toValue)]
    | none => []
  .ofFields (("path", c.path.toValue) :: c.op.fields ++ tag)

def fieldType? (v : Value) : Option (Option TypeTag) :=
  match v.field? "field_type" with
  | none | some .null => some none
  | some t => (TypeTag.ofValue? t).map some

def ofValue? (v : Value) : Option Change := do
  let path ← Path.ofValue? (← v.field? "path")
  let op ← ChangeOp.ofValue? v
  let fieldType ← fieldType? v
  return { path, op, fieldType }

end Change

namespace Changeset

def toValue (cs : Changeset) : Value :=
  .ofFields [("changes", .arr (cs.changes.map Change.toValue))]

def ofValues? (vs : List Value) : Option Changeset :=
  (vs.mapM Change.ofValue?).map Changeset.mk

end Changeset
end Dossier

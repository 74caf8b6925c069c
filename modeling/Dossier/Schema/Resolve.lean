import Dossier.Schema.Basic

-- What a path of a document is according to its schema. The document matters where a path enters an
-- embedded document, whose variant its value selects.

namespace Dossier

inductive Resolution where
  -- A declared field, or an item of one.
  | field (f : Field)
  -- An object that only groups fields.
  | nested
  -- A place inside a value of any shape.
  | inMixed
  | undeclared

inductive Cursor where
  -- Among the fields of a schema, at a path from the root of its document.
  | schema (s : Schema) (place : Path) (doc : Option Value)
  | field (f : Field) (value : Option Value)
  | inMixed
  | lost

namespace Cursor

-- Keys of a schema are matched by the text of segments.
def stepSchema (s : Schema) (p : Path) (doc : Option Value) (seg : Seg) : Cursor :=
  let p := p.key seg.toKey
  match s.field? p with
  | some f => .field f (doc.bind (·.get? p))
  | none => if s.isNested p then .schema s p doc else .lost

def stepField (f : Field) (value : Option Value) (seg : Seg) : Cursor :=
  let child := value.bind (·.child? seg)
  match f.type with
  | .mixed => .inMixed
  | .embedded sub => stepSchema (sub.selectOrBase value) Path.root value seg
  | .array el => if seg.index?.isSome then .field el child else .lost
  | .documentArray sub => if seg.index?.isSome then .field (.ofSub sub) child else .lost
  | .map el => .field el child
  | _ => .lost

def step : Cursor → Seg → Cursor
  | .schema s p doc, seg => stepSchema s p doc seg
  | .field f value, seg => stepField f value seg
  | .inMixed, _ => .inMixed
  | .lost, _ => .lost

def resolution : Cursor → Resolution
  | .schema _ p _ => if p.isEmpty then .undeclared else .nested
  | .field f _ => .field f
  | .inMixed => .inMixed
  | .lost => .undeclared

end Cursor

def Schema.resolve (s : Schema) (doc : Value) (path : Path) : Resolution :=
  (path.foldl Cursor.step (.schema s Path.root (some doc))).resolution

end Dossier

import Dossier.Document.Basic

-- An edit changes a document and can fail on its way. What it has done before a failure stays done.

namespace Dossier

structure Desk where
  doc     : Document
  effects : Effects := {}

abbrev Edit := ExceptT DocumentError (StateM Desk)

namespace Edit

def doc : Edit Document :=
  return (← get).doc

def change (f : Document → Document) : Edit Unit :=
  modify fun s => { s with doc := f s.doc }

def write (p : Path) (v : Value) : Edit Unit := do
  let s ← get
  let (r, doc) := s.doc.write p v
  set { s with doc }
  match r with
  | .ok () => return ()
  | .error e => throw (.path e)

-- Runs a cast, whose failure is a result and not one of the edit.
def cast (c : Cast α) : Edit (Except CastFailure α) := do
  let s ← get
  let (r, effects) := c.run.run s.effects
  set { s with effects }
  return r

def hook (h : ExceptT String (StateM Desk) Unit) : Edit (Except String Unit) := do
  let (r, s) := h.run.run (← get)
  set s
  return r

def clearQueue : Edit Unit :=
  modify fun s => { s with effects := { s.effects with queue := [] } }

def takeQueue : Edit (List (Path × Value)) :=
  modifyGet fun s => (s.effects.queue, { s with effects := { s.effects with queue := [] } })

def note (notes : List Note) : Edit Unit :=
  modify fun s => { s with effects := { s.effects with notes := s.effects.notes ++ notes } }

def outcome (e : Edit α) (s : Desk) : Except DocumentError α × Desk :=
  e.run.run s

end Edit
end Dossier

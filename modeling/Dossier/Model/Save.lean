import Dossier.Document.Plain
import Dossier.Document.Reconcile
import Dossier.Document.Save
import Dossier.Model.Basic

-- To save a document is to run its hooks, to validate it, to write its changes to the store, and to
-- take them for settled.

namespace Dossier

-- The version of the record says what a save did to it.
inductive SaveOutcome where
  | inserted (version : Nat)
  | updated (version : Nat)
  | unchanged
deriving DecidableEq

-- A document at work, and the connection that it is saved through. The hooks are the document's
-- own, and it may be saved through a model that has others.
structure Exchange where
  desk       : Desk
  hooks      : Hooks := {}
  connection : Connection
  -- When the document is validated.
  moment     : Nat := 0

abbrev Save := ExceptT ModelError (StateM Exchange)

namespace Save

def doc : Save Document :=
  return (← get).desk.doc

def edit (e : Edit α) : Save α := do
  let s ← get
  let (r, desk) := e.outcome s.desk
  set { s with desk }
  match r with
  | .ok a => return a
  | .error e => throw (.document e)

def outcome (e : Save α) (s : Exchange) : Except ModelError α × Exchange :=
  e.run.run s

end Save

namespace Model

def idOf (m : Model) (d : Document) : Except ModelError Value :=
  match d.get? Projection.idPath with
  | some id => if id.isNull then .error (.missingId m.collection) else .ok id
  | none => .error (.missingId m.collection)

def send (m : Model) (call : StoreCall) (w : Write) (session : Option SessionId) : Save Nat := do
  let s ← get
  let (r, connection) := s.connection.write w session
  match m.await call { value := (r, connection), delay := s.connection.writeDelay } with
  | .error e => throw (.store e)
  | .ok (r, connection) =>
    set { s with connection }
    match r with
    | .ok version => return version
    | .error e => throw (.store e)

-- Writes what is pending in a document. References are written as identifiers.
def writePending (m : Model) (session : Option SessionId) : Save SaveOutcome := do
  let d ← Save.doc
  if d.isNew then
    let record := d.toPlain { depopulate := true }
    return .inserted (← m.send .insert (.insert m.collection record) session)
  else if d.changeset.isEmpty then return .unchanged
  else
    let id ← m.idOf d
    return .updated (← m.send .write (.update m.collection id d.changeset) session)

def validateOptions (m : Model) (moment : Nat) (d : Document) : ValidateOptions :=
  { modifiedOnly := m.config.validateModifiedOnly && !d.isNew, moment }

def prepare (m : Model) (hooks : Hooks) (moment : Nat) : Edit Unit := do
  Edit.runPreSave hooks.preSave
  if m.config.validateBeforeSave then
    Edit.validated fun d => d.validate hooks (m.validateOptions moment d)

def save (m : Model) (session : Option SessionId) : Save SaveOutcome := do
  let s ← get
  Save.edit (m.prepare s.hooks s.moment)
  let outcome ← m.writePending session
  Save.edit (Edit.change (·.commit))
  Save.edit (Edit.runPostSave s.hooks)
  return outcome

def delete (m : Model) : Save Unit := do
  let id ← m.idOf (← Save.doc)
  let _ ← m.send .delete (.delete m.collection id) none

end Model
end Dossier

import Dossier.Document.Create
import Dossier.Document.Validate
import Dossier.Model.Config
import Dossier.Store.Connection

-- A model binds a schema and its hooks to a collection of a store.

namespace Dossier

structure Model where
  collection : String
  schema     : Schema
  hooks      : Hooks := {}
  config     : ModelConfig := {}

inductive ModelError where
  | document (cause : DocumentError)
  | store (cause : StoreError)
  -- The document has no identifier to find its record by.
  | missingId (collection : String)

def ModelError.message : ModelError → String
  | .document cause => cause.message
  | .store cause => cause.message
  | .missingId collection => "document in `" ++ collection ++ "` has no _id"

namespace Model

def await (m : Model) (call : StoreCall) (t : Timed α) : Except StoreError α :=
  match m.config.timeout with
  | none => .ok t.value
  | some limit => if t.delay ≤ limit then .ok t.value else .error (.timeout call limit)

def create (m : Model) (initial : Value) (effects : Effects := {}) :
    Except ModelError Document × Effects :=
  let (r, effects) := Document.create m.schema initial effects
  (r.mapError .document, effects)

def load (m : Model) (record : Value) (projection : Option Projection) (effects : Effects := {}) :
    Except ModelError Document × Effects :=
  let (r, effects) := Document.load m.schema record projection effects
  (r.mapError .document, effects)

end Model
end Dossier

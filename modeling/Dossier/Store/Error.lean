import Dossier.Value.Tree

namespace Dossier

abbrev SessionId := Nat

inductive StoreCall where
  | read
  | insert
  | write
  | delete
deriving DecidableEq

def StoreCall.name : StoreCall → String
  | .read => "read"
  | .insert => "insert"
  | .write => "write"
  | .delete => "delete"

inductive RecordFault where
  | noId
  | idChanged
deriving DecidableEq

def RecordFault.message : RecordFault → String
  | .noId => "record has no _id"
  | .idChanged => "changeset rewrites _id"

inductive StoreError where
  | notFound (collection key : String)
  | alreadyExists (collection key : String)
  -- The session was never begun, or it is finished.
  | unknownSession (session : SessionId)
  | timeout (call : StoreCall) (limit : Nat)
  | invalidRecord (fault : RecordFault)
  | change (cause : PathError)
  | backend (cause : String)
deriving DecidableEq

namespace StoreError

def message : StoreError → String
  | .notFound collection key => "record not found: " ++ collection ++ "/" ++ key
  | .alreadyExists collection key => "record already exists: " ++ collection ++ "/" ++ key
  | .unknownSession session => "unknown session: " ++ toString session
  | .timeout call limit => call.name ++ " timed out after " ++ toString limit ++ "ms"
  | .invalidRecord fault => "invalid record: " ++ fault.message
  | .change cause => "cannot apply changeset: " ++ cause.message
  | .backend cause => "backend error: " ++ cause

end StoreError
end Dossier

import Dossier.Document.Validate

namespace Dossier
namespace Edit

def runPreSave : List (ExceptT String (StateM Desk) Unit) → Edit Unit
  | [] => return ()
  | h :: hooks => do
    match ← hook h with
    | .error message => throw (.hook .preSave message)
    | .ok () => runPreSave hooks

def runPostSave (hooks : Hooks) : Edit Unit := do
  let d ← doc
  note (hooks.postSave.flatMap fun hook => hook d)

def validated (run : Document → Ran α) : Edit α := do
  let r := run (← doc)
  change fun _ => r.doc
  note r.notes
  match r.result with
  | .ok a => return a
  | .error e => throw e

end Edit
end Dossier

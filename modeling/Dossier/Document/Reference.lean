import Dossier.Document.Edit

-- A record can stand in for the identifier in a field of identifiers, which is written back when
-- the document is stored.

namespace Dossier
namespace Edit

def populate (path : Path) (record : Value) : Edit Unit := do
  let d ← doc
  match d.resolve path with
  | .field { type := .id _, .. } =>
    match record.field? Value.idKey with
    | none =>
      throw (.cast { path, target := .type .id, value := record, reason := some .missingId })
    | some id =>
      let replaced := match d.get? path with
        | none | some .null => id
        | some v => v.referenceId
      write path record
      change fun d => { d with populated := d.populated.insert path replaced }
  | _ => throw (.path (.wrongShape path .referenceField))

def depopulate (path : Path) : Edit Unit := do
  match (← doc).populated.get? path with
  | none => return ()
  | some id =>
    change fun d => { d with populated := d.populated.erase path }
    write path id

end Edit
end Dossier

import Dossier.Document.Reconcile
import Dossier.Report

-- What a document holds and what it knows of itself, as a value.

namespace Dossier
namespace Document

def report (d : Document) : Value :=
  .ofFields [
    ("value", d.value), ("new", .bool d.isNew), ("states", d.tracker.toValue),
    ("errors", match d.issues with
      | some is => is.toValue
      | none => .null),
    ("changes", .arr (d.changeset.changes.map Change.toValue))]

end Document
end Dossier

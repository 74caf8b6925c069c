import Dossier.Error
import Dossier.Tracker
import Dossier.Wire

namespace Dossier

def FieldError.toValue : FieldError → Value
  | .cast e => .ofFields [
      ("kind", .str "cast"), ("path", e.path.toValue), ("message", .str e.message),
      ("target", .str e.target.name), ("found", .str e.found), ("value", e.value),
      ("reason", match e.reason with
        | some r => .str r.text
        | none => .null)]
  | .validator e => .ofFields [
      ("kind", .str e.kind.name), ("path", e.path.toValue), ("message", .str e.message),
      ("value", match e.value with
        | some v => .ofFields [("some", v)]
        | none => .null)]

def Issues.toValue (is : Issues) : Value :=
  .arr (is.entries.map fun (p, e) => .arr [Path.toValue p, e.toValue])

def Tracker.toValue (t : Tracker) : Value :=
  .arr (t.entries.map fun (p, s) => .arr [Path.toValue p, .str s.name])

end Dossier

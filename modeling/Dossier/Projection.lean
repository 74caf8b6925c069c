import Dossier.OrdMap.Basic
import Dossier.Wire

-- A projection says which parts of a record a read returns.

namespace Dossier

inductive Projection where
  | including (paths : OrdSet Path)
  | excluding (paths : OrdSet Path)

namespace Projection

def idPath : Path := [.key Value.idKey]

-- Whether a read returns the value at a path, at least in part. The identifier is part of every
-- inclusive projection.
def selects : Projection → Path → Bool
  | .including paths, p =>
    (match p with
      | seg :: _ => seg.toKey == Value.idKey
      | [] => false)
      || paths.keys.any fun q => q.covers p || p.isAbove q
  | .excluding paths, p => ¬ paths.keys.any (·.covers p)

-- Copies the value at a path, if the record has one. What a write that fails has made stays.
def copy (record out : Value) (path : Path) : Value :=
  match record.get? path with
  | some v => out.written path v
  | none => out

def apply : Projection → Value → Value
  | .including paths, record => (paths.keys ++ [idPath]).foldl (copy record) (.obj [])
  | .excluding paths, record => paths.keys.foldl (fun out p => (out.remove p).2) record

def toValue : Projection → Value
  | .including paths => .ofFields [("include", .arr (paths.keys.map Path.toValue))]
  | .excluding paths => .ofFields [("exclude", .arr (paths.keys.map Path.toValue))]

end Projection

-- Whether an optional projection selects a path: without one, everything is selected.
def Projection.selectsOpt : Option Projection → Path → Bool
  | none, _ => true
  | some p, path => p.selects path

end Dossier

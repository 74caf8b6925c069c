import Dossier.Model.Basic

namespace Dossier
namespace Model

def findById (m : Model) (c : Connection) (id : Value) (effects : Effects := {}) :
    Except ModelError (Option Document) × Effects :=
  match m.await .read (c.readOne? m.collection id none) with
  | .error e => (.error (.store e), effects)
  | .ok none => (.ok none, effects)
  | .ok (some record) =>
    let (r, effects) := m.load record none effects
    (r.map some, effects)

-- The first record that makes no document ends it.
def loadAll (m : Model) (projection : Option Projection) (effects : Effects) :
    List Value → Except ModelError (List Document) × Effects
  | [] => (.ok [], effects)
  | record :: records =>
    match m.load record projection effects with
    | (.error e, effects) => (.error e, effects)
    | (.ok d, effects) =>
      let (r, effects) := m.loadAll projection effects records
      (r.map (d :: ·), effects)

def find (m : Model) (c : Connection) (filter : Filter) (projection : Option Projection)
    (effects : Effects := {}) : Except ModelError (List Document) × Effects :=
  match m.await .read (c.read m.collection filter projection) with
  | .error e => (.error (.store e), effects)
  | .ok records => m.loadAll projection effects records

def loadEach (m : Model) (projection : Option Projection) (effects : Effects) :
    List Value → List (Except ModelError Document) × Effects
  | [] => ([], effects)
  | record :: records =>
    let (r, effects) := m.load record projection effects
    let (rs, effects) := m.loadEach projection effects records
    (r :: rs, effects)

-- Like `find`, but each record makes a document or fails on its own, and no limit of time holds.
def findEach (m : Model) (c : Connection) (filter : Filter) (projection : Option Projection)
    (effects : Effects := {}) : List (Except ModelError Document) × Effects :=
  m.loadEach projection effects (c.read m.collection filter projection).value

end Model
end Dossier

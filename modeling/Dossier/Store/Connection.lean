import Dossier.Store.Basic

-- A connection reaches a store. What it is asked for can take time, and it can have lost the part of
-- the store that takes updates.

namespace Dossier

-- A result, and how many milliseconds it took.
structure Timed (α : Type) where
  value : α
  delay : Nat := 0

structure Connection where
  store      : Store := {}
  -- Why updates fail, if they do. Insertions and deletions are not affected.
  outage     : Option String := none
  readDelay  : Nat := 0
  -- How long a write waits for its turn. One that is given up until then is not carried out.
  writeDelay : Nat := 0

namespace Connection

def read (c : Connection) (collection : String) (filter : Filter)
    (projection : Option Projection) : Timed (List Value) :=
  { value := c.store.live.read collection filter projection, delay := c.readDelay }

def readOne? (c : Connection) (collection : String) (id : Value)
    (projection : Option Projection) : Timed (Option Value) :=
  { value := c.store.live.readOne? collection id projection, delay := c.readDelay }

-- An outage answers an update before its session is looked at.
def write (c : Connection) (w : Write) (session : Option SessionId) :
    Except StoreError Nat × Connection :=
  match w, c.outage with
  | .update .., some cause => (.error (.backend cause), c)
  | w, _ =>
    let (r, store) := c.store.write w session
    (r, { c with store })

end Connection
end Dossier

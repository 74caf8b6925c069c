import Dossier.Identifier
import Dossier.Store.Collections

-- A session writes to a copy of its own. When it is committed, its writes are carried out again on
-- the live collections, all of them or none.

namespace Dossier

structure Session where
  working : Collections
  staged  : List Write := []

structure Store where
  live     : Collections := ∅
  sessions : OrdMap SessionId Session := ∅
  -- The names of the sessions to come.
  handles  : Supply SessionId := .numbers

namespace Store

def next (s : Store) : SessionId :=
  s.handles.next

def start (s : Store) : SessionId × Store :=
  (s.next, { s with
    sessions := s.sessions.insert s.next { working := s.live }
    handles := s.handles.rest })

def writeLive (s : Store) (w : Write) : Except StoreError Nat × Store :=
  match s.live.apply w with
  | .error e => (.error e, s)
  | .ok (version, live) => (.ok version, { s with live })

def writeIn (s : Store) (w : Write) (id : SessionId) : Except StoreError Nat × Store :=
  match s.sessions.get? id with
  | none => (.error (.unknownSession id), s)
  | some session =>
    match session.working.apply w with
    | .error e => (.error e, s)
    | .ok (version, working) =>
      let session : Session := { working, staged := session.staged ++ [w] }
      (.ok version, { s with sessions := s.sessions.insert id session })

def write (s : Store) (w : Write) : Option SessionId → Except StoreError Nat × Store
  | none => s.writeLive w
  | some id => s.writeIn w id

-- Ends a session and carries out its writes. A session whose writes fail is ended, too.
def commit (s : Store) (id : SessionId) : Except StoreError Unit × Store :=
  match s.sessions.get? id with
  | none => (.error (.unknownSession id), s)
  | some session =>
    let s := { s with sessions := s.sessions.erase id }
    match s.live.applyAll session.staged with
    | .error e => (.error e, s)
    | .ok live => (.ok (), { s with live })

def abort (s : Store) (id : SessionId) : Except StoreError Unit × Store :=
  match s.sessions.get? id with
  | none => (.error (.unknownSession id), s)
  | some _ => (.ok (), { s with sessions := s.sessions.erase id })

end Store
end Dossier

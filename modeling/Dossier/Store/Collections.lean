import Dossier.Filter
import Dossier.Projection
import Dossier.Store.Error
import Dossier.Value.Printer

-- Records are filed in named collections, under the text of their identifier, and each counts the
-- changes that were applied to it.

namespace Dossier

structure Stored where
  record  : Value
  version : Nat := 0

abbrev Collections := OrdMap String (OrdMap String Stored)

inductive Write where
  | insert (collection : String) (record : Value)
  | update (collection : String) (id : Value) (changes : Changeset)
  | delete (collection : String) (id : Value)

namespace Collections

def find? (cs : Collections) (collection key : String) : Option Stored :=
  (cs.get? collection).bind (·.get? key)

def file (cs : Collections) (collection key : String) (stored : Stored) : Collections :=
  cs.insert collection (((cs.get? collection).getD ∅).insert key stored)

def discard (cs : Collections) (collection key : String) : Collections :=
  match cs.get? collection with
  | none => cs
  | some shelf => cs.insert collection (shelf.erase key)

def records (cs : Collections) (collection : String) : List Value :=
  ((cs.get? collection).getD ∅).values.map Stored.record

def count (cs : Collections) (collection : String) : Nat :=
  ((cs.get? collection).getD ∅).size

def read (cs : Collections) (collection : String) (filter : Filter)
    (projection : Option Projection) : List Value :=
  let found := (cs.records collection).filter filter.accepts
  match projection with
  | none => found
  | some p => found.map p.apply

def readOne? (cs : Collections) (collection : String) (id : Value)
    (projection : Option Projection) : Option Value :=
  (cs.read collection (.byId id) projection).head?

def recordId? (record : Value) : Option Value :=
  match record.field? Value.idKey with
  | some id => if id.isNull then none else some id
  | none => none

def insertRecord (cs : Collections) (collection : String) (record : Value) :
    Except StoreError (Nat × Collections) :=
  match recordId? record with
  | none => .error (.invalidRecord .noId)
  | some id =>
    match cs.find? collection id.text with
    | some _ => .error (.alreadyExists collection id.text)
    | none => .ok (0, cs.file collection id.text { record })

-- The changes may not give the record another identifier.
def updateRecord (cs : Collections) (collection : String) (id : Value) (changes : Changeset) :
    Except StoreError (Nat × Collections) :=
  match cs.find? collection id.text with
  | none => .error (.notFound collection id.text)
  | some stored =>
    match changes.apply stored.record with
    | .error e => .error (.change e)
    | .ok record =>
      if (record.field? Value.idKey).any (·.same id) then
        let version := stored.version + 1
        .ok (version, cs.file collection id.text { record, version })
      else .error (.invalidRecord .idChanged)

-- Carries out a write. Its result is the version of the record after it, zero if it is gone.
def apply (cs : Collections) : Write → Except StoreError (Nat × Collections)
  | .insert collection record => cs.insertRecord collection record
  | .update collection id changes => cs.updateRecord collection id changes
  | .delete collection id => .ok (0, cs.discard collection id.text)

def applyAll (cs : Collections) : List Write → Except StoreError Collections
  | [] => .ok cs
  | w :: ws =>
    match cs.apply w with
    | .error e => .error e
    | .ok (_, cs) => cs.applyAll ws

end Collections
end Dossier

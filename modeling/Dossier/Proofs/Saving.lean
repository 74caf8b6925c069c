import Dossier.Model.Save
import Dossier.Proofs.Changeset

-- When a session is aborted, the record is what it was before, and the document has kept nothing to go back to it.

namespace Dossier

namespace Document

variable {d : Document}

theorem pathsIn_commitTracker {t : Tracker} :
    p ∉ (commitTracker t).pathsIn .modify ∧ p ∉ (commitTracker t).pathsIn .default := by
  simp [commitTracker, Tracker.mem_pathsIn_moveAll]

theorem dirtyPaths_commit : d.commit.dirtyPaths = [] := by
  refine List.eq_nil_iff_forall_not_mem.mpr fun p hp => ?_
  rw [dirtyPaths, OrdSet.mem_ofKeys, List.mem_append, List.mem_filter] at hp
  rcases hp with hp | ⟨hp, -⟩
  · exact pathsIn_commitTracker.1 hp
  · exact pathsIn_commitTracker.2 hp

theorem changeset_commit : d.commit.changeset.isEmpty := by
  simp [changeset, Changeset.isEmpty, dirtyPaths_commit]

theorem changeset_reported {issues : Option Issues} :
    ({ d with issues } : Document).changeset = d.changeset := rfl

@[simp] theorem rollback_commit : d.commit.rollback = d.commit := rfl

@[simp] theorem isNew_commit : d.commit.isNew = false := rfl

@[simp] theorem value_commit : d.commit.value = d.value := rfl

end Document

namespace Store

variable {s : Store} {id : SessionId}

theorem live_writeIn {w : Write} : (s.writeIn w id).2.live = s.live := by
  rw [writeIn]
  split
  · rfl
  · split <;> rfl

theorem live_abort : (s.abort id).2.live = s.live := by
  rw [abort]
  split <;> rfl

end Store

theorem Connection.live_write {c : Connection} {id : SessionId} :
    (c.write w (some id)).2.store.live = c.store.live := by
  rw [Connection.write.eq_def]
  split
  · rfl
  · exact Store.live_writeIn

namespace Save

variable {α β : Type} {e : Save α} {f : α → Save β} {s s' : Exchange}

theorem outcome_bind : (e >>= f).outcome s = match e.outcome s with
    | (.ok a, s') => (f a).outcome s'
    | (.error x, s') => (.error x, s') := by
  simp only [outcome, ExceptT.run_bind, StateT.run_bind]
  rcases StateT.run e.run s with ⟨_ | _, _⟩ <;> rfl

theorem ok_of_bind_ok (h : (e >>= f).outcome s = (.ok b, s')) :
    ∃ a s₁, e.outcome s = (.ok a, s₁) ∧ (f a).outcome s₁ = (.ok b, s') := by
  rw [outcome_bind] at h
  rcases hr : e.outcome s with ⟨_ | a, s₁⟩
  all_goals rw [hr] at h
  · cases h
  · exact ⟨a, s₁, rfl, h⟩

@[simp] theorem outcome_get : (MonadState.get : Save Exchange).outcome s = (.ok s, s) := rfl

@[simp] theorem outcome_doc : doc.outcome s = (.ok s.desk.doc, s) := rfl

theorem ok_of_edit_ok {e : Edit α} (h : (edit e).outcome s = (.ok a, s')) :
    ∃ desk, e.outcome s.desk = (.ok a, desk) ∧ s' = { s with desk } := by
  have he : (edit e).outcome s = ((e.outcome s.desk).1.mapError .document,
      { s with desk := (e.outcome s.desk).2 }) := by
    rw [edit, outcome_bind, outcome_get]
    dsimp only
    rcases e.outcome s.desk with ⟨_ | _, _⟩ <;> rfl
  rw [he] at h
  rcases hr : e.outcome s.desk with ⟨_ | b, desk⟩
  all_goals rw [hr] at h; cases h
  exact ⟨desk, rfl, rfl⟩

end Save

namespace Model

variable {m : Model} {session : Option SessionId} {s s' : Exchange} {outcome : SaveOutcome}

theorem await_cases (m : Model) (call : StoreCall) (t : Timed α) : m.await call t = .ok t.value ∨
    ∃ limit, m.config.timeout = some limit ∧ limit < t.delay ∧ m.await call t = .error (.timeout call limit) := by
  rw [await]
  split
  · exact .inl rfl
  · case _ limit hlimit =>
    split
    · exact .inl rfl
    · case _ hlate => exact .inr ⟨limit, hlimit, Nat.lt_of_not_le hlate, rfl⟩

-- A write is carried out, or it is given up and leaves everything as it was.
theorem send_cases : (m.send call w session).outcome s = ((s.connection.write w session).1.mapError .store,
      { s with connection := (s.connection.write w session).2 }) ∨
    ∃ limit, m.config.timeout = some limit ∧ limit < s.connection.writeDelay ∧
      (m.send call w session).outcome s = (.error (.store (.timeout call limit)), s) := by
  rw [send, Save.outcome_bind, Save.outcome_get]
  dsimp only
  rcases m.await_cases call ⟨s.connection.write w session, s.connection.writeDelay⟩ with h | ⟨limit, hlimit, hlate, h⟩
  · rw [h]
    refine .inl ?_
    rcases s.connection.write w session with ⟨_ | _, _⟩ <;> rfl
  · rw [h]
    exact .inr ⟨limit, hlimit, hlate, rfl⟩

theorem ok_of_send (h : (m.send call w session).outcome s = (.ok n, s')) :
    s' = { s with connection := (s.connection.write w session).2 } := by
  rcases send_cases (m := m) (s := s) with he | ⟨limit, -, -, he⟩
  · rw [he] at h
    exact (congrArg Prod.snd h).symm
  · rw [he] at h
    cases h

theorem ok_of_writePending (h : (m.writePending session).outcome s = (.ok outcome, s')) :
    s' = s ∨ ∃ w, s' = { s with connection := (s.connection.write w session).2 } := by
  obtain ⟨d, s₁, hd, h⟩ := Save.ok_of_bind_ok h
  cases hd
  split at h
  · obtain ⟨n, s₁, hsend, h⟩ := Save.ok_of_bind_ok h
    cases h
    exact .inr ⟨_, ok_of_send hsend⟩
  · split at h
    · cases h
      exact .inl rfl
    · obtain ⟨id, s₁, hid, h⟩ := Save.ok_of_bind_ok h
      obtain rfl : s = s₁ := congrArg Prod.snd hid
      obtain ⟨n, s₂, hsend, h⟩ := Save.ok_of_bind_ok h
      cases h
      exact .inr ⟨_, ok_of_send hsend⟩

theorem writePending_unchanged (hn : s.desk.doc.isNew = false) (hc : s.desk.doc.changeset.isEmpty) :
    (m.writePending session).outcome s = (.ok .unchanged, s) := by
  rw [writePending, Save.outcome_bind, Save.outcome_doc]
  simp only [hn, hc, Bool.false_eq_true, if_false, if_true]
  rfl

theorem ok_of_save (h : (m.save session).outcome s = (.ok outcome, s')) :
    ∃ desk connection effects, (m.prepare s.hooks s.moment).outcome s.desk = (.ok (), desk) ∧
      (m.writePending session).outcome { s with desk } = (.ok outcome, { s with desk, connection }) ∧
      s' = { s with desk := ⟨desk.doc.commit, effects⟩, connection } := by
  obtain ⟨s₀, s₁, hget, h⟩ := Save.ok_of_bind_ok h
  cases hget
  obtain ⟨_, s₂, hprepare, h⟩ := Save.ok_of_bind_ok h
  obtain ⟨desk, hdesk, rfl⟩ := Save.ok_of_edit_ok hprepare
  obtain ⟨o, s₃, hwrite, h⟩ := Save.ok_of_bind_ok h
  obtain ⟨_, s₄, hcommit, h⟩ := Save.ok_of_bind_ok h
  obtain ⟨desk', hcommit, rfl⟩ := Save.ok_of_edit_ok hcommit
  obtain ⟨_, s₅, hpost, h⟩ := Save.ok_of_bind_ok h
  obtain ⟨desk'', hpost, rfl⟩ := Save.ok_of_edit_ok hpost
  cases h
  cases hcommit
  cases hpost
  rcases ok_of_writePending hwrite with rfl | ⟨w, rfl⟩
  · exact ⟨desk, _, _, hdesk, hwrite, rfl⟩
  · exact ⟨desk, _, _, hdesk, hwrite, rfl⟩

theorem ok_of_prepare {hooks : Hooks} (hh : hooks.preSave = []) (h : (m.prepare hooks moment).outcome desk = (.ok (), desk')) :
    ∃ issues, desk'.doc = { desk.doc with issues } := by
  rw [prepare, hh] at h
  obtain ⟨_, desk₁, hpre, h⟩ := Edit.ok_of_bind_ok h
  cases hpre
  split at h
  · have hdoc := congrArg (·.2.doc) h
    rw [Edit.doc_validated] at hdoc
    obtain ⟨issues, hi⟩ := Document.exists_issues
    exact ⟨issues, hdoc.symm.trans hi⟩
  · cases h
    exact ⟨desk.doc.issues, rfl⟩

end Model

-- The session is aborted and the document is rolled back.
def Exchange.abandon (s : Exchange) (id : SessionId) : Exchange :=
  { s with
    desk := { s.desk with doc := s.desk.doc.rollback }
    connection := { s.connection with store := (s.connection.store.abort id).2 } }

-- An earlier save is undone: a document that was new is new again, and any other one holds the record
-- that is filed under a key.
def Exchange.Recovers (s before : Exchange) (collection key : String) : Prop :=
  if before.desk.doc.isNew then s.desk.doc.isNew = true
  else ∃ stored, s.connection.store.live.find? collection key = some stored ∧
    s.desk.doc.value = stored.record

namespace Model

variable {m : Model} {s s' : Exchange} {outcome : SaveOutcome}

-- Undoing a save of an aborted session leaves the document as it was written. So it recovers only if it
-- was stored before and was written with the value of its record. Unless a hook changes it again, a later
-- save finds nothing to store.
theorem aborted_save_recovers_iff {id : SessionId}
    (hsave : (m.save (some id)).outcome s = (.ok outcome, s')) (key : String) :
    ∃ written, (m.prepare s.hooks s.moment).outcome s.desk = (.ok (), written) ∧
      ((s'.abandon id).Recovers s m.collection key ↔ s.desk.doc.isNew = false ∧
        ∃ stored, s.connection.store.live.find? m.collection key = some stored ∧
          written.doc.value = stored.record) ∧
      (s.hooks.preSave = [] → written.doc.value = s.desk.doc.value ∧
        ∀ session again s₂, (m.save session).outcome (s'.abandon id) = (.ok again, s₂) →
          again = .unchanged ∧ s₂.connection = (s'.abandon id).connection) := by
  obtain ⟨desk, connection, effects, hprepare, hwrite, rfl⟩ := ok_of_save hsave
  have hlive : connection.store.live = s.connection.store.live := by
    rcases ok_of_writePending hwrite with he | ⟨w, he⟩
    · cases he
      rfl
    · cases he
      exact Connection.live_write
  refine ⟨desk, hprepare, ?_, fun hh => ?_⟩
  · rw [Exchange.Recovers]
    cases hn : s.desk.doc.isNew with
    | true => simp [Exchange.abandon]
    | false => simp [Exchange.abandon, Store.live_abort, hlive]
  · obtain ⟨issues, hdoc⟩ := ok_of_prepare hh hprepare
    refine ⟨by rw [hdoc], fun session again s₂ hagain => ?_⟩
    obtain ⟨desk₂, connection₂, effects₂, hprepare₂, hwrite₂, rfl⟩ := ok_of_save hagain
    -- Nothing is pending in a document that was just committed, and a validation changes nothing there.
    obtain ⟨issues₂, hdoc₂⟩ := ok_of_prepare hh hprepare₂
    rw [Exchange.abandon, Document.rollback_commit] at hdoc₂
    rw [writePending_unchanged] at hwrite₂
    · cases hwrite₂
      exact ⟨rfl, rfl⟩
    · dsimp only
      rw [hdoc₂]
      exact Document.isNew_commit (d := desk.doc)
    · dsimp only
      rw [hdoc₂, Document.changeset_reported]
      exact Document.changeset_commit (d := desk.doc)

def guests : Model where
  collection := "users"
  schema := ⟨{ id := false }, [([.key "_id"], .plain .string), ([.key "visits"], .plain .number)], []⟩

def guest (visits : Int) : Value :=
  .obj [("_id", .str "a"), ("visits", .int visits)]

-- A document is loaded from a store that has a session open, and calls are made to it.
def visited (d : Document) (calls : List Call) : Exchange where
  desk := Call.runAll calls ⟨d, {}⟩
  connection := { store := (Store.writeLive {} (.insert "users" (guest 1))).2.start.2 }

-- What was only marked is the same after the save was undone.
theorem aborted_save_recovers_iff_marked : ∃ d s',
    (Document.load guests.schema (guest 1) none).1 = .ok d ∧
    (guests.save (some 0)).outcome (visited d [.mark [.key "visits"]]) = (.ok (.updated 1), s') ∧
    (s'.abandon 0).Recovers (visited d [.mark [.key "visits"]]) "users" (Value.str "a").text := by
  have hundone : ∀ {d s'}, (Document.load guests.schema (guest 1) none).1 = .ok d →
      (guests.save (some 0)).outcome (visited d [.mark [.key "visits"]]) = (.ok (.updated 1), s') →
      (s'.abandon 0).Recovers (visited d [.mark [.key "visits"]]) "users" (Value.str "a").text := by
    intro d s' hload hsave
    obtain ⟨written, -, hiff, hvalue⟩ := aborted_save_recovers_iff hsave (Value.str "a").text
    cases hload
    exact hiff.mpr ⟨rfl, ⟨guest 1, 0⟩, rfl, (hvalue rfl).1⟩
  exact ⟨_, _, rfl, rfl, hundone rfl rfl⟩

-- A number that was changed stays changed, and no later save stores it.
theorem aborted_save_keeps_change : ∃ d s' s₂,
    (Document.load guests.schema (guest 1) none).1 = .ok d ∧
    let s := visited d [.set [.key "visits"] (.int 2) {}]
    (guests.save (some 0)).outcome s = (.ok (.updated 1), s') ∧
    (s'.abandon 0).desk.doc.value = guest 2 ∧
    (s'.abandon 0).connection.store.live.find? "users" (Value.str "a").text = some ⟨guest 1, 0⟩ ∧
    (guests.save none).outcome (s'.abandon 0) = (.ok .unchanged, s₂) :=
  ⟨_, _, _, rfl, rfl, rfl, rfl, rfl⟩

end Model
end Dossier

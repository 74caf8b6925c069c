import Dossier.Proofs.Saving

-- Wherever a save stops, the store and all that is pending in the document are as before.

namespace Dossier

theorem Store.write_of_error {s : Store} (h : (s.write w session).1 = .error e) : (s.write w session).2 = s := by
  cases session with
  | none =>
    simp only [Store.write, writeLive] at h ⊢
    cases hw : s.live.apply w with
    | error => rfl
    | ok => rw [hw] at h; cases h
  | some id =>
    simp only [Store.write, writeIn] at h ⊢
    cases hs : s.sessions.get? id with
    | none => rfl
    | some session =>
      simp only [hs] at h ⊢
      cases hw : session.working.apply w with
      | error => rfl
      | ok => rw [hw] at h; cases h

theorem Connection.write_of_error {c : Connection} (h : (c.write w session).1 = .error e) :
    (c.write w session).2 = c := by
  rw [Connection.write.eq_def] at h ⊢
  split
  · rfl
  · case _ hn =>
    have hstore := Store.write_of_error (s := c.store) (e := e) (by
      split at h
      · case _ hcause _ => exact absurd hcause (hn _ _ _ _ rfl)
      · exact h)
    simp only [hstore]

namespace Save

variable {s s' : Exchange}

theorem outcome_edit : (edit e).outcome s =
    ((e.outcome s.desk).1.mapError .document, { s with desk := (e.outcome s.desk).2 }) := by
  rw [edit, outcome_bind, outcome_get]
  dsimp only
  rcases e.outcome s.desk with ⟨_ | _, _⟩ <;> rfl

theorem error_of_bind_error {f : α → Save β} (h : (e >>= f).outcome s = (.error x, s')) : e.outcome s = (.error x, s') ∨
      ∃ a s₁, e.outcome s = (.ok a, s₁) ∧ (f a).outcome s₁ = (.error x, s') := by
  rw [outcome_bind] at h
  rcases hr : e.outcome s with ⟨x' | a, s₁⟩
  all_goals rw [hr] at h
  · cases h
    exact .inl rfl
  · exact .inr ⟨a, s₁, rfl, h⟩

end Save

namespace Model

variable {m : Model} {session : Option SessionId} {s s' : Exchange} {hooks : Hooks} {desk : Desk}

theorem send_of_error (h : (m.send call w session).outcome s = (.error x, s')) : s' = s := by
  rcases send_cases (m := m) (s := s) with he | ⟨limit, -, -, he⟩
  · rw [he] at h
    obtain ⟨hr, hs⟩ := Prod.mk.inj h
    cases hw : (s.connection.write w session).1 with
    | ok => rw [hw] at hr; cases hr
    | error e => rw [← hs, Connection.write_of_error hw]
  · rw [he] at h
    cases h
    rfl

theorem writePending_of_error (h : (m.writePending session).outcome s = (.error x, s')) : s' = s := by
  rcases Save.error_of_bind_error h with h | ⟨d, s₁, hd, h⟩
  · cases h
  cases hd
  split at h
  · rcases Save.error_of_bind_error h with h | ⟨n, s₁, -, h⟩
    · exact send_of_error h
    · cases h
  · split at h
    · cases h
    · rcases Save.error_of_bind_error h with h | ⟨id, s₁, hid, h⟩
      · exact (congrArg Prod.snd h).symm
      · obtain rfl : s = s₁ := congrArg Prod.snd hid
        rcases Save.error_of_bind_error h with h | ⟨n, s₁, -, h⟩
        · exact send_of_error h
        · cases h

-- What the validation before a save says.
def verdict (m : Model) (hooks : Hooks) (moment : Nat) (d : Document) : Except DocumentError Unit :=
  if m.config.validateBeforeSave then (d.validate hooks (m.validateOptions moment d)).result else .ok ()

-- Without hooks before it, a save begins with the verdict, and at most the failures of the document are
-- exchanged by then.
theorem outcome_prepare (m : Model) (desk : Desk) (hh : hooks.preSave = []) :
    ∃ issues, ((m.prepare hooks moment).outcome desk).1 =
    m.verdict hooks moment desk.doc ∧ ((m.prepare hooks moment).outcome desk).2.doc = { desk.doc with issues } := by
  rw [prepare, hh, verdict, Edit.outcome_bind]
  dsimp only [Edit.runPreSave, Edit.outcome_pure]
  split
  · obtain ⟨issues, hi⟩ : ∃ issues, (desk.doc.validate hooks (m.validateOptions moment desk.doc)).doc =
        { desk.doc with issues } := Document.exists_issues
    refine ⟨issues, ?_, Edit.doc_validated.trans hi⟩
    rw [Edit.validated, Edit.outcome_bind, Edit.outcome_doc]
    dsimp only
    rcases desk.doc.validate hooks (m.validateOptions moment desk.doc) with ⟨_ | _, _, _⟩ <;> rfl
  · exact ⟨desk.doc.issues, rfl, rfl⟩

theorem outcome_save : (m.save session).outcome s = match (m.prepare s.hooks s.moment).outcome s.desk with
    | (.error e, desk) => (.error (.document e), { s with desk })
    | (.ok (), desk) =>
      match (m.writePending session).outcome { s with desk } with
      | (.error e, s') => (.error e, s')
      | (.ok outcome, s') => (.ok outcome, { s' with
          desk := ((Edit.runPostSave s.hooks).outcome { s'.desk with doc := s'.desk.doc.commit }).2 }) := by
  rw [save, Save.outcome_bind, Save.outcome_get]
  dsimp only
  rw [Save.outcome_bind, Save.outcome_edit]
  rcases (m.prepare s.hooks s.moment).outcome s.desk with ⟨_ | _, desk⟩
  · rfl
  · dsimp only [Except.mapError]
    rw [Save.outcome_bind]
    rcases (m.writePending session).outcome { s with desk } with ⟨_ | _, s'⟩ <;> rfl

theorem save_of_committed (m : Model) (session : Option SessionId) {d : Document} (hh : s.hooks.preSave = [])
    (hd : s.desk.doc = d.commit) :
    ((m.save session).outcome s).1 = ((m.verdict s.hooks s.moment s.desk.doc).map fun _ => .unchanged).mapError .document ∧
      ((m.save session).outcome s).2.connection = s.connection := by
  obtain ⟨issues, hverdict, hdoc⟩ := outcome_prepare m s.desk hh
  rw [outcome_save, ← hverdict]
  rcases hp : (m.prepare s.hooks s.moment).outcome s.desk with ⟨e | _, desk⟩
  · exact ⟨rfl, rfl⟩
  · rw [hp, hd] at hdoc
    have hdesk : desk.doc = { d.commit with issues } := hdoc
    dsimp only
    rw [writePending_unchanged]
    · exact ⟨rfl, rfl⟩
    · rw [hdesk]
      exact Document.isNew_commit (d := d)
    · rw [hdesk, Document.changeset_reported]
      exact Document.changeset_commit

-- A save that fails, at whatever stage, leaves the store and of the document all but the failures that it knows.
-- After one that succeeds nothing is pending, and a further save does nothing.
theorem save_all_or_nothing (hh : s.hooks.preSave = []) :
    (∀ e s', (m.save session).outcome s = (.error e, s') → s'.connection = s.connection ∧
      (∃ issues, s'.desk.doc = { s.desk.doc with issues }) ∧ s'.desk.doc.changeset = s.desk.doc.changeset) ∧
    ∀ outcome s', (m.save session).outcome s = (.ok outcome, s') → s'.desk.doc.isNew = false ∧
      s'.desk.doc.changeset.isEmpty ∧ s'.desk.doc.rollback = s'.desk.doc ∧
      ∀ again moment, (∀ e, m.verdict s'.hooks moment s'.desk.doc = .error e →
          ((m.save again).outcome { s' with moment }).1 = .error (.document e)) ∧
        (m.verdict s'.hooks moment s'.desk.doc = .ok () →
          ((m.save again).outcome { s' with moment }).1 = .ok .unchanged) ∧
        ((m.save again).outcome { s' with moment }).2.connection = s'.connection := by
  refine ⟨fun e s' h => ?_, fun outcome s' h => ?_⟩
  · obtain ⟨issues, -, hdoc⟩ := outcome_prepare m s.desk hh
    suffices s'.connection = s.connection ∧ s'.desk.doc = { s.desk.doc with issues } from
      ⟨this.1, ⟨issues, this.2⟩, by rw [this.2, Document.changeset_reported]⟩
    rw [outcome_save] at h
    rcases hp : (m.prepare s.hooks s.moment).outcome s.desk with ⟨_ | _, desk⟩
    all_goals rw [hp] at h hdoc
    · cases h
      exact ⟨rfl, hdoc⟩
    · rcases hw : (m.writePending session).outcome { s with desk } with ⟨_ | _, s₁⟩
      all_goals simp only [hw] at h; cases h
      cases writePending_of_error hw
      exact ⟨rfl, hdoc⟩
  · obtain ⟨desk, connection, effects, -, -, hs'⟩ := ok_of_save h
    have hdoc : s'.desk.doc = desk.doc.commit := by rw [hs']
    have hhooks : s'.hooks.preSave = [] := by
      rw [hs']
      exact hh
    rw [hdoc]
    refine ⟨rfl, Document.changeset_commit, rfl, fun again moment => ?_⟩
    rw [← hdoc]
    obtain ⟨hr, hc⟩ := save_of_committed (s := { s' with moment }) m again hhooks hdoc
    refine ⟨fun e he => ?_, fun hok => ?_, hc⟩
    · rw [hr, he]
      rfl
    · rw [hr, hok]
      rfl

-- A change that is to be saved through a connection that has lost the updates, or is slow.
def stranded (d : Document) (outage : Option String) (writeDelay : Nat) : Exchange :=
  let s := visited d [.set [.key "visits"] (.int 2) {}]
  { s with connection := { s.connection with outage, writeDelay } }

-- The change is saved at the third attempt, after a failure of the store and a write that was given up.
theorem save_all_or_nothing_outage : ∃ d s₁ s₂ s₃,
    (Document.load guests.schema (guest 1) none).1 = .ok d ∧
    (guests.save none).outcome (stranded d (some "down") 0) = (.error (.store (.backend "down")), s₁) ∧
    s₁.connection = (stranded d (some "down") 0).connection ∧
    s₁.desk.doc.changeset = (stranded d none 0).desk.doc.changeset ∧
    (guests.save none).outcome { s₁ with connection := (stranded d none 20000).connection } =
      (.error (.store (.timeout .write 10000)), s₂) ∧
    s₂.connection = (stranded d none 20000).connection ∧ s₂.desk.doc.changeset = s₁.desk.doc.changeset ∧
    (guests.save none).outcome { s₂ with connection := (stranded d none 0).connection } =
      (.ok (.updated 1), s₃) ∧
    s₃.desk.doc.changeset.isEmpty ∧ s₃.desk.doc.rollback = s₃.desk.doc ∧
    ((guests.save none).outcome s₃).1 = .ok .unchanged := by
  obtain ⟨d, s₁, s₂, s₃, hload, hfailed, hslow, hsaved, hhooks₁, hhooks₂, hverdict⟩ : ∃ d s₁ s₂ s₃,
      (Document.load guests.schema (guest 1) none).1 = .ok d ∧
      (guests.save none).outcome (stranded d (some "down") 0) = (.error (.store (.backend "down")), s₁) ∧
      (guests.save none).outcome { s₁ with connection := (stranded d none 20000).connection } =
        (.error (.store (.timeout .write 10000)), s₂) ∧
      (guests.save none).outcome { s₂ with connection := (stranded d none 0).connection } = (.ok (.updated 1), s₃) ∧
      s₁.hooks.preSave = [] ∧ s₂.hooks.preSave = [] ∧ guests.verdict s₃.hooks s₃.moment s₃.desk.doc = .ok () :=
    ⟨_, _, _, _, rfl, rfl, rfl, rfl, rfl, rfl, rfl⟩
  obtain ⟨hconnection₁, -, hchanges₁⟩ := (save_all_or_nothing rfl).1 _ _ hfailed
  obtain ⟨hconnection₂, -, hchanges₂⟩ := (save_all_or_nothing (by exact hhooks₁)).1 _ _ hslow
  obtain ⟨-, hempty, hrollback, hagain⟩ := (save_all_or_nothing (by exact hhooks₂)).2 _ _ hsaved
  exact ⟨d, s₁, s₂, s₃, hload, hfailed, hconnection₁, hchanges₁, hslow, hconnection₂, hchanges₂, hsaved, hempty,
    hrollback, (hagain none _).2.1 hverdict⟩

end Model
end Dossier

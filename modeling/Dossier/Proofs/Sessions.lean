import Dossier.Proofs.Filing
import Dossier.Store.Basic

-- The live records are always those that the direct writes and the committed sessions make one after the other.

namespace Dossier

open List

namespace Store

open Write (places Apart)

-- What a store can be asked for.
inductive Request where
  | start
  | write (w : Write) (session : Option SessionId)
  | commit (session : SessionId)
  | abort (session : SessionId)

namespace Request

def session? : Request → Option SessionId
  | .start => none
  | .write _ session => session
  | .commit id => some id
  | .abort id => some id

-- The session that a request puts an end to.
def ends? : Request → Option SessionId
  | .commit id => some id
  | .abort id => some id
  | _ => none

end Request

-- A request and its answer: a session that was begun, or the version of a record.
structure Event where
  request : Request
  answer  : Except StoreError Nat

def answer (s : Store) : Request → Except StoreError Nat × Store
  | .start => (.ok s.start.1, s.start.2)
  | .write w session => s.write w session
  | .commit id => ((s.commit id).1.map fun _ => 0, (s.commit id).2)
  | .abort id => ((s.abort id).1.map fun _ => 0, (s.abort id).2)

def serve : Store → List Request → List Event × Store
  | s, [] => ([], s)
  | s, r :: requests =>
    let (answer, s) := s.answer r
    let (events, s) := s.serve requests
    (⟨r, answer⟩ :: events, s)

-- What a run comes to

-- The write of an event that a session has accepted.
def Event.acceptedIn? (id : SessionId) : Event → Option Write
  | ⟨.write w (some id'), .ok _⟩ => if id' = id then some w else none
  | _ => none

-- The writes that a session has accepted, in order.
def acceptedIn (id : SessionId) (events : List Event) : List Write :=
  events.filterMap (Event.acceptedIn? id)

-- The writes that an event settles, when the given events came before it.
def settledBy (past : List Event) : Event → List Write
  | ⟨.write w none, .ok _⟩ => [w]
  | ⟨.commit id, .ok _⟩ => acceptedIn id past
  | _ => []

-- The writes that events settle, in order, when the given events came before them.
def settled (past : List Event) : List Event → List Write
  | [] => []
  | e :: events => settledBy past e ++ settled (past ++ [e]) events

@[simp] theorem serve_nil {s : Store} : s.serve [] = ([], s) := rfl

@[simp] theorem serve_cons {s : Store} :
    s.serve (r :: requests) = (⟨r, (s.answer r).1⟩ :: ((s.answer r).2.serve requests).1,
      ((s.answer r).2.serve requests).2) := rfl

theorem acceptedIn_append {id : SessionId} :
    acceptedIn id (past ++ events) = acceptedIn id past ++ acceptedIn id events :=
  filterMap_append

theorem settled_append {past : List Event} :
    settled past (es ++ events) = settled past es ++ settled (past ++ es) events := by
  induction es generalizing past with
  | nil => simp [settled]
  | cons e es ih => simp [settled, ih]

-- The state of a store after events. A session works on the records that were live when it began.
structure Follows (past : List Event) (s : Store) : Prop where
  live    : Collections.applyAll ∅ (settled [] past) = .ok s.live
  staged  : ∀ id session, s.sessions.get? id = some session → session.staged = acceptedIn id past
  working : ∀ id session, s.sessions.get? id = some session →
    ∀ before after, past = before ++ ⟨.start, .ok id⟩ :: after →
      ∃ base, Collections.applyAll ∅ (settled [] before) = .ok base ∧
        base.applyAll session.staged = .ok session.working
  fresh   : ∀ id, s.handles.Fresh id → s.sessions.get? id = none ∧ acceptedIn id past = [] ∧
    ⟨.start, .ok id⟩ ∉ past

namespace Follows

variable {past events : List Event} {s : Store} {id : SessionId} {e : Event}

theorem empty (handles : Supply SessionId) : Follows [] { handles } :=
  ⟨rfl, nofun, nofun, fun _ _ => ⟨rfl, rfl, by simp⟩⟩

theorem split_start {before after : List Event} (h : past ++ [e] = before ++ ⟨.start, .ok id⟩ :: after)
    (he : e ≠ ⟨.start, .ok id⟩) : ∃ after', past = before ++ ⟨.start, .ok id⟩ :: after' := by
  rcases eq_nil_or_concat after with rfl | ⟨after', x, rfl⟩
  · obtain ⟨-, he'⟩ := append_inj' h rfl
    cases he'
    exact absurd rfl he
  · rw [concat_eq_append, ← cons_append, ← append_assoc] at h
    exact ⟨after', (append_inj' h rfl).1⟩

theorem extend (h : Follows past s) (hlive : s.live.applyAll (settledBy past e) = .ok s'.live)
    (hsessions : ∀ id session, s'.sessions.get? id = some session →
      s.sessions.get? id = some session ∧ e.acceptedIn? id = none)
    (hnames : s'.handles = s.handles) (hstart : ∀ id, e ≠ ⟨.start, .ok id⟩)
    (hid : ∀ id, s.handles.Fresh id → e.acceptedIn? id = none) : Follows (past ++ [e]) s' where
  live := by
    rw [settled_append, Collections.applyAll_append, h.live]
    simpa [settled] using hlive
  staged id session hs := by
    obtain ⟨hold, hnone⟩ := hsessions id session hs
    rw [h.staged id session hold, acceptedIn_append]
    simp [acceptedIn, hnone]
  working id session hs before after hsplit := by
    obtain ⟨after', hsplit⟩ := split_start hsplit (hstart id)
    exact h.working id session (hsessions id session hs).1 before after' hsplit
  fresh id hf := by
    obtain ⟨hnone, hacc, hmem⟩ := h.fresh id (hnames ▸ hf)
    refine ⟨?_, ?_, ?_⟩
    · cases hs : s'.sessions.get? id with
      | none => rfl
      | some session => rw [(hsessions id session hs).1] at hnone; cases hnone
    · rw [acceptedIn_append, hacc]
      simp [acceptedIn, hid id (hnames ▸ hf)]
    · simp only [mem_append, mem_singleton, not_or]
      exact ⟨hmem, (hstart id).symm⟩

theorem start (h : Follows past s) : Follows (past ++ [⟨.start, .ok s.start.1⟩]) s.start.2 where
  live := by
    rw [settled_append, Collections.applyAll_append, h.live]
    rfl
  staged id session hs := by
    rw [acceptedIn_append]
    simp only [Store.start, OrdMap.get?_insert] at hs
    split at hs
    · case isTrue he =>
      cases hs
      rw [(h.fresh id (he ▸ Supply.fresh_next)).2.1]
      rfl
    · rw [h.staged id session hs]
      simp [acceptedIn, Event.acceptedIn?]
  working id session hs before after hsplit := by
    simp only [Store.start, OrdMap.get?_insert] at hs
    split at hs
    · case isTrue he =>
      -- The session is the one that begins here, and it has not begun before.
      cases hs
      subst he
      rcases eq_nil_or_concat after with rfl | ⟨after', x, rfl⟩
      · obtain ⟨rfl, -⟩ := append_inj' hsplit rfl
        exact ⟨s.live, h.live, rfl⟩
      · rw [concat_eq_append, ← cons_append, ← append_assoc] at hsplit
        obtain ⟨rfl, -⟩ := append_inj' hsplit rfl
        exact absurd (by simp) (h.fresh s.next Supply.fresh_next).2.2
    · case isFalse hne =>
      obtain ⟨after', hsplit⟩ := split_start hsplit (by
        intro he
        cases he
        exact hne rfl)
      exact h.working id session hs before after' hsplit
  fresh id hf := by
    obtain ⟨hnone, hacc, hmem⟩ := h.fresh id (Supply.Fresh.of_rest hf)
    have hne : s.next ≠ id := Supply.Fresh.next_ne hf
    refine ⟨?_, ?_, ?_⟩
    · simpa [Store.start, OrdMap.get?_insert_ne hne] using hnone
    · rw [acceptedIn_append, hacc]
      rfl
    · simp only [mem_append, mem_singleton, not_or]
      refine ⟨hmem, fun he => hne ?_⟩
      cases he
      rfl

theorem writeIn (h : Follows past s) {w : Write} {working : Collections}
    (hs : s.sessions.get? id = some session) (hw : session.working.apply w = .ok (n, working)) :
    Follows (past ++ [⟨.write w (some id), .ok n⟩]) { s with
      sessions := s.sessions.insert id { working, staged := session.staged ++ [w] } } where
  live := by
    rw [settled_append, Collections.applyAll_append, h.live]
    rfl
  staged id' session' hs' := by
    rw [OrdMap.get?_insert] at hs'
    rw [acceptedIn_append]
    split at hs'
    · case isTrue he =>
      subst he
      cases hs'
      rw [h.staged _ _ hs]
      simp [acceptedIn, Event.acceptedIn?]
    · case isFalse he =>
      rw [h.staged _ _ hs']
      simp [acceptedIn, Event.acceptedIn?, he]
  working id' session' hs' before after hsplit := by
    obtain ⟨after', hsplit⟩ := split_start hsplit (by simp)
    rw [OrdMap.get?_insert] at hs'
    split at hs'
    · case isTrue he =>
      subst he
      cases hs'
      obtain ⟨base, hbase, hwork⟩ := h.working _ _ hs before after' hsplit
      refine ⟨base, hbase, ?_⟩
      rw [Collections.applyAll_append, hwork]
      simp [Collections.applyAll, hw]
    · exact h.working _ _ hs' before after' hsplit
  fresh id' hf := by
    obtain ⟨hnone, hacc, hmem⟩ := h.fresh id' hf
    have hne : id ≠ id' := by
      rintro rfl
      rw [hs] at hnone
      cases hnone
    refine ⟨by simpa [OrdMap.get?_insert_ne hne] using hnone, ?_, by simpa using hmem⟩
    rw [acceptedIn_append, hacc]
    simp [acceptedIn, Event.acceptedIn?, hne]

theorem failed (h : Follows past s) {r : Request} (hlive : s'.live = s.live)
    (hsessions : ∀ id session, s'.sessions.get? id = some session → s.sessions.get? id = some session)
    (hnames : s'.handles = s.handles) : Follows (past ++ [⟨r, .error x⟩]) s' := by
  have hnone : ∀ id, Event.acceptedIn? id ⟨r, .error x⟩ = none := by
    intro id
    cases r with
    | write w session => cases session <;> rfl
    | start | commit | abort => rfl
  have hsettled : settledBy past ⟨r, .error x⟩ = [] := by
    cases r with
    | write w session => cases session <;> rfl
    | start | commit | abort => rfl
  refine h.extend ?_ (fun id session hs => ⟨hsessions id session hs, hnone id⟩) hnames (by simp)
    fun id _ => hnone id
  rw [hsettled, hlive]
  rfl

theorem get?_of_erase {id' : SessionId} (h : (s.sessions.erase id).get? id' = some session) :
    s.sessions.get? id' = some session := by
  by_cases he : id = id'
  · rw [he, OrdMap.get?_erase_self] at h
    cases h
  · rwa [OrdMap.get?_erase_ne he] at h

theorem step (h : Follows past s) (r : Request) : Follows (past ++ [⟨r, (s.answer r).1⟩]) (s.answer r).2 := by
  cases r with
  | start => exact h.start
  | write w session =>
    cases session with
    | none =>
      simp only [answer, Store.write, writeLive]
      cases hw : s.live.apply w with
      | error x => exact h.failed rfl (fun _ _ hs => hs) rfl
      | ok r =>
        refine h.extend ?_ (fun _ _ hs => ⟨hs, rfl⟩) rfl (by simp) fun _ _ => rfl
        simp [settledBy, Collections.applyAll, hw]
    | some id =>
      simp only [answer, Store.write, Store.writeIn]
      cases hs : s.sessions.get? id with
      | none => exact h.failed rfl (fun _ _ hs => hs) rfl
      | some session =>
        dsimp only
        cases hw : session.working.apply w with
        | error x => exact h.failed rfl (fun _ _ hs => hs) rfl
        | ok r => exact h.writeIn hs hw
  | commit id =>
    simp only [answer, Store.commit]
    cases hs : s.sessions.get? id with
    | none => exact h.failed rfl (fun _ _ hs => hs) rfl
    | some session =>
      dsimp only
      cases hw : s.live.applyAll session.staged with
      | error x => exact h.failed rfl (fun _ _ => get?_of_erase) rfl
      | ok live =>
        refine h.extend ?_ (fun _ _ hs => ⟨get?_of_erase hs, rfl⟩) rfl (by simp) fun _ _ => rfl
        simpa [settledBy, Except.map, ← h.staged id session hs] using hw
  | abort id =>
    simp only [answer, Store.abort]
    cases hs : s.sessions.get? id with
    | none => exact h.failed rfl (fun _ _ hs => hs) rfl
    | some session =>
      refine h.extend ?_ (fun _ _ hs => ⟨get?_of_erase hs, rfl⟩) rfl (by simp) fun _ _ => rfl
      rfl

theorem serve (h : Follows past s) (requests : List Request) :
    Follows (past ++ (s.serve requests).1) (s.serve requests).2 := by
  induction requests generalizing past s with
  | nil => simpa [Store.serve] using h
  | cons r requests ih =>
    have := ih (h.step r)
    rw [append_assoc] at this
    exact this

theorem served (handles : Supply SessionId) (requests : List Request) :
    Follows (Store.serve { handles } requests).1 (Store.serve { handles } requests).2 :=
  (empty handles).serve requests

end Follows

-- Sessions that are over

-- A session that has begun and is not open any more.
def Over (id : SessionId) (s : Store) : Prop :=
  s.sessions.get? id = none ∧ ¬ s.handles.Fresh id

section

variable {s : Store} {id : SessionId} {r : Request}

theorem fresh_of_answer (h : (s.answer r).2.handles.Fresh id) : s.handles.Fresh id := by
  cases r with
  | start => exact Supply.Fresh.of_rest h
  | write w session =>
    cases session with
    | none =>
      simp only [answer, Store.write, writeLive] at h
      split at h <;> exact h
    | some id =>
      simp only [answer, Store.write, writeIn] at h
      split at h
      · exact h
      · split at h <;> exact h
  | commit id =>
    simp only [answer, Store.commit] at h
    split at h
    · exact h
    · split at h <;> exact h
  | abort id =>
    simp only [answer, Store.abort] at h
    split at h <;> exact h

theorem over_of_ends (hid : ¬ s.handles.Fresh id) (h : r.ends? = some id) : Over id (s.answer r).2 := by
  refine ⟨?_, mt fresh_of_answer hid⟩
  cases r with
  | start | write => cases h
  | commit id' =>
    cases h
    simp only [answer, Store.commit]
    split
    · case _ hs => exact hs
    · split <;> exact OrdMap.get?_erase_self
  | abort id' =>
    cases h
    simp only [answer, Store.abort]
    split
    · case _ hs => exact hs
    · exact OrdMap.get?_erase_self

theorem Over.answer (h : Over id s) : Over id (s.answer r).2 := by
  refine ⟨?_, mt fresh_of_answer h.2⟩
  have herase : ∀ id', (s.sessions.erase id').get? id = none := by
    intro id'
    by_cases he : id' = id
    · rw [he, OrdMap.get?_erase_self]
    · rw [OrdMap.get?_erase_ne he, h.1]
  cases r with
  | start =>
    have hne : s.next ≠ id := by
      rintro rfl
      exact h.2 Supply.fresh_next
    simpa [Store.answer, Store.start, OrdMap.get?_insert_ne hne] using h.1
  | write w session =>
    cases session with
    | none =>
      simp only [Store.answer, Store.write, writeLive]
      split <;> exact h.1
    | some id' =>
      simp only [Store.answer, Store.write, writeIn]
      split
      · exact h.1
      · case _ session hs =>
        have hne : id' ≠ id := by
          rintro rfl
          rw [h.1] at hs
          cases hs
        split
        · exact h.1
        · simpa [OrdMap.get?_insert_ne hne] using h.1
  | commit id' =>
    simp only [Store.answer, Store.commit]
    split
    · exact h.1
    · split <;> exact herase id'
  | abort id' =>
    simp only [Store.answer, Store.abort]
    split
    · exact h.1
    · exact herase id'

theorem Over.rejected (h : Over id s) (hr : r.session? = some id) : (s.answer r).1 = .error (.unknownSession id) := by
  cases r with
  | start => cases hr
  | write w session =>
    cases hr
    simp [Store.answer, Store.write, writeIn, h.1]
  | commit id' =>
    cases hr
    simp [Store.answer, Store.commit, h.1, Except.map]
  | abort id' =>
    cases hr
    simp [Store.answer, Store.abort, h.1, Except.map]

theorem Over.serve (h : Over id s) {requests : List Request} : ∀ e ∈ (s.serve requests).1,
    e.request.session? = some id → e.answer = .error (.unknownSession id) := by
  induction requests generalizing s with
  | nil => simp [Store.serve]
  | cons r requests ih =>
    intro e he hr
    rcases mem_cons.mp he with rfl | he
    · exact h.rejected hr
    · exact ih h.answer e he hr

theorem live_of_error {x : StoreError} (h : (s.answer r).1 = .error x) : (s.answer r).2.live = s.live := by
  cases r with
  | start => cases h
  | write w session =>
    cases session with
    | none =>
      simp only [answer, Store.write, writeLive] at h ⊢
      split
      · rfl
      · case _ hw => rw [hw] at h; cases h
    | some id =>
      simp only [answer, Store.write, writeIn]
      split
      · rfl
      · split <;> rfl
  | commit id =>
    simp only [answer, Store.commit] at h ⊢
    split
    · rfl
    · case _ session hs =>
      simp only [hs] at h
      split
      · rfl
      · case _ hw => rw [hw] at h; cases h
  | abort id =>
    simp only [answer, Store.abort]
    split <;> rfl

-- The requests of a run can be split where its events are.
theorem serve_split (h : (s.serve requests).1 = past ++ e :: events) : ∃ before after,
      requests = before ++ e.request :: after ∧ (s.serve before).1 = past ∧
      ((s.serve before).2.answer e.request).1 = e.answer ∧
      (((s.serve before).2.answer e.request).2.serve after).1 = events := by
  induction past generalizing s requests with
  | nil =>
    cases requests with
    | nil => cases h
    | cons r requests =>
      rw [serve_cons] at h
      obtain ⟨rfl, htail⟩ := List.cons.inj h
      exact ⟨[], requests, rfl, rfl, rfl, htail⟩
  | cons e' past ih =>
    cases requests with
    | nil => cases h
    | cons r requests =>
      rw [serve_cons] at h
      obtain ⟨rfl, htail⟩ := List.cons.inj h
      obtain ⟨before, after, rfl, hpast, hans, hevents⟩ := ih htail
      exact ⟨r :: before, after, rfl, by rw [serve_cons, hpast], hans, hevents⟩

end

-- Any run of a store leaves the records that come of the direct writes and the committed sessions, carried out one
-- after the other. A request that fails leaves the live records.
theorem serve_serializable (handles : Supply SessionId) (requests : List Request) :
    let events := (serve { handles } requests).1
    let s := (serve { handles } requests).2
    Collections.applyAll ∅ (settled [] events) = .ok s.live ∧
    (∀ r x, (s.answer r).1 = .error x → (s.answer r).2.live = s.live) ∧
    ∀ past e later id, events = past ++ e :: later → ⟨.start, .ok id⟩ ∈ past →
      e.request.ends? = some id →
      ∀ e' ∈ later, e'.request.session? = some id → e'.answer = .error (.unknownSession id) := by
  refine ⟨(Follows.served handles requests).live, fun r x => live_of_error, ?_⟩
  intro past e later id hsplit hstart hends
  obtain ⟨before, after, -, rfl, -, rfl⟩ := serve_split hsplit
  have hid : ¬ (serve { handles } before).2.handles.Fresh id := fun hf =>
    ((Follows.served handles before).fresh id hf).2.2 hstart
  exact (over_of_ends hid hends).serve

def user (id : String) (visits : Int) : Value :=
  .obj [("_id", .str id), ("visits", .int visits)]

def visit (id : String) (visits : Int) : Write :=
  .update "users" (.str id) ⟨[⟨[.key "visits"], .set (.int visits), none⟩]⟩

-- Two sessions change a user, and the user is gone when the second one is committed.
def contested : List Request :=
  [.write (.insert "users" (user "a" 1)) none, .start, .start, .write (visit "a" 2) (some 0),
    .write (visit "a" 3) (some 1), .commit 0, .write (.delete "users" (.str "a")) none, .commit 1, .abort 1]

theorem serve_serializable_contested :
    let events := (serve {} contested).1
    settled [] events = [.insert "users" (user "a" 1), visit "a" 2, .delete "users" (.str "a")] ∧
    Collections.applyAll ∅ (settled [] events) = .ok (serve {} contested).2.live ∧
    ⟨.commit 1, .error (.notFound "users" "\"a\"")⟩ ∈ events ∧
    ⟨.abort 1, .error (.unknownSession 1)⟩ ∈ events := by
  have ⟨hlive, _, hover⟩ := serve_serializable .numbers contested
  refine ⟨rfl, hlive, List.mem_of_getElem? (i := 7) rfl, List.mem_of_getElem? (i := 8) ?_⟩
  -- The second session was over when its commit had failed.
  have habort := hover _ _ [⟨.abort 1, ((serve {} (contested.take 8)).2.answer (.abort 1)).1⟩] 1
    (List.take_append_drop 7 (serve {} contested).1).symm (List.mem_of_getElem? (i := 2) rfl) rfl _
    List.mem_cons_self rfl
  exact congrArg (fun a => some (Event.mk (.abort 1) a)) habort

-- Sessions that do not meet

section

variable {s : Store} {a b : SessionId} {past events : List Event}

theorem commit_of_none (h : s.sessions.get? a = none) : s.commit a = (.error (.unknownSession a), s) := by
  simp only [commit, h]

theorem commit_of_some (h : s.sessions.get? a = some session) : s.commit a =
    ((s.live.attempt session.staged).1, { s with
      live := (s.live.attempt session.staged).2
      sessions := s.sessions.erase a }) := by
  simp only [commit, h, Collections.attempt]
  cases s.live.applyAll session.staged <;> rfl

theorem get?_commit (hne : a ≠ b) : (s.commit a).2.sessions.get? b = s.sessions.get? b := by
  cases ha : s.sessions.get? a with
  | none => rw [commit_of_none ha]
  | some session =>
    rw [commit_of_some ha]
    exact OrdMap.get?_erase_ne hne

theorem erase_erase {m : OrdMap SessionId Session} : (m.erase a).erase b = (m.erase b).erase a := by
  refine OrdMap.ext_get? fun id => ?_
  have herase : ∀ {m : OrdMap SessionId Session} {k}, (m.erase k).get? id =
      if k = id then none else m.get? id := by
    intro m k
    split
    · case isTrue h => rw [h, OrdMap.get?_erase_self]
    · case isFalse h => rw [OrdMap.get?_erase_ne h]
  simp only [herase]
  split <;> split <;> rfl

-- Sessions that have written to different places.
def Meetless (a b : SessionId) (s : Store) : Prop :=
  ∀ x y, s.sessions.get? a = some x → s.sessions.get? b = some y → Apart x.staged y.staged

theorem commit_result (hne : a ≠ b) (h : Meetless a b s) : ((s.commit a).2.commit b).1 = (s.commit b).1 := by
  cases hb : s.sessions.get? b with
  | none =>
    rw [commit_of_none hb, commit_of_none]
    rw [get?_commit hne, hb]
  | some y =>
    rw [commit_of_some hb, commit_of_some ((get?_commit hne).trans hb)]
    cases ha : s.sessions.get? a with
    | none => rw [commit_of_none ha]
    | some x =>
      rw [commit_of_some ha]
      exact Collections.attempt_attempt (h x y ha hb)

theorem commit_comm (hne : a ≠ b) (h : Meetless a b s) : ((s.commit a).2.commit b).2 = ((s.commit b).2.commit a).2 := by
  cases ha : s.sessions.get? a with
  | none =>
    rw [commit_of_none ha, commit_of_none ((get?_commit hne.symm).trans ha)]
  | some x =>
    cases hb : s.sessions.get? b with
    | none => rw [commit_of_none hb, commit_of_none ((get?_commit hne).trans hb)]
    | some y =>
      rw [commit_of_some ((get?_commit hne).trans hb), commit_of_some ((get?_commit hne.symm).trans ha),
        commit_of_some ha, commit_of_some hb]
      simp only [Store.mk.injEq, and_true]
      exact ⟨Collections.attempt_comm (h x y ha hb), erase_erase⟩

theorem Follows.undisturbed (h : Follows (past ++ ⟨.start, .ok a⟩ :: events) s) (hpast : acceptedIn a past = [])
    (hs : s.sessions.get? a = some session)
    (hd : Apart (acceptedIn a events) (settled (past ++ [⟨.start, .ok a⟩]) events)) :
    (s.commit a).1 = .ok () ∧ ∀ p ∈ places (acceptedIn a events),
      (s.commit a).2.live.find? p.1 p.2 = session.working.find? p.1 p.2 := by
  have hstaged : session.staged = acceptedIn a events := by
    rw [h.staged a session hs, acceptedIn_append, hpast]
    rfl
  obtain ⟨base, hbase, hworking⟩ := h.working a session hs past events rfl
  have hlive : base.applyAll (settled (past ++ [⟨.start, .ok a⟩]) events) = .ok s.live := by
    have hlive := h.live
    rw [settled_append, Collections.applyAll_append, hbase] at hlive
    exact hlive
  rw [← hstaged] at hd ⊢
  rw [commit_of_some hs]
  rcases Collections.applyAll_after hlive hd.symm with ⟨e, he, -⟩ | ⟨_, live, hw, hl, hagree⟩
  · rw [hworking] at he
    cases he
  · cases hworking.symm.trans hw
    simp only [Collections.attempt, hl, true_and]
    exact hagree.symm

end

-- A session at whose places nothing was settled since it began can be committed. Two sessions that have written to
-- different places can be committed in either order, with the same results.
theorem commits_commute (handles : Supply SessionId) (requests : List Request) :
    let events := (serve { handles } requests).1
    let s := (serve { handles } requests).2
    (∀ past later id session, events = past ++ ⟨.start, .ok id⟩ :: later →
      s.sessions.get? id = some session →
      Apart (acceptedIn id later) (settled (past ++ [⟨.start, .ok id⟩]) later) →
      (s.commit id).1 = .ok () ∧ ∀ p ∈ places (acceptedIn id later),
        (s.commit id).2.live.find? p.1 p.2 = session.working.find? p.1 p.2) ∧
    ∀ a b, a ≠ b → Apart (acceptedIn a events) (acceptedIn b events) →
      ((s.commit a).2.commit b).1 = (s.commit b).1 ∧
      ((s.commit b).2.commit a).1 = (s.commit a).1 ∧
      ((s.commit a).2.commit b).2 = ((s.commit b).2.commit a).2 := by
  have hrun := Follows.served handles requests
  refine ⟨fun past later id session hsplit hs hd => ?_, fun a b hne hd => ?_⟩
  · obtain ⟨before, after, -, rfl, hid, -⟩ := serve_split hsplit
    -- The session had accepted nothing when it began.
    have hpast : acceptedIn id (serve { handles } before).1 = [] := by
      have hf : (serve { handles } before).2.handles.Fresh id := Except.ok.inj hid ▸ Supply.fresh_next
      exact ((Follows.served handles before).fresh id hf).2.1
    rw [hsplit] at hrun
    exact hrun.undisturbed hpast hs hd
  · have hmeet : Meetless a b (serve { handles } requests).2 := by
      intro x y hx hy
      rw [hrun.staged a x hx, hrun.staged b y hy]
      exact hd
    have hmeet' : Meetless b a (serve { handles } requests).2 := fun y x hy hx => (hmeet x y hx hy).symm
    exact ⟨commit_result hne hmeet, commit_result hne.symm hmeet', commit_comm hne hmeet⟩

-- Two sessions change different users.
def companions : List Request :=
  [.write (.insert "users" (user "a" 1)) none, .start, .start, .write (visit "a" 2) (some 0),
    .write (.insert "users" (user "b" 1)) (some 1)]

theorem commits_commute_companions :
    let s := (serve {} companions).2
    (s.commit 0).1 = .ok () ∧
    (s.commit 0).2.live.find? "users" "\"a\"" = some ⟨user "a" 2, 1⟩ ∧
    ((s.commit 1).2.commit 0).1 = .ok () ∧
    ((s.commit 0).2.commit 1).2 = ((s.commit 1).2.commit 0).2 := by
  have ⟨hcommit, hcomm⟩ := commits_commute .numbers companions
  have ⟨hok, hlive⟩ := hcommit _ _ 0 _ (List.take_append_drop 1 (serve {} companions).1).symm rfl
    (by decide +kernel)
  have ⟨_, hafter, hsame⟩ := hcomm 0 1 (by decide) (by decide +kernel)
  exact ⟨hok, hlive ("users", "\"a\"") (by decide +kernel), hafter.trans hok, hsame⟩

end Store
end Dossier

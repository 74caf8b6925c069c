import Dossier.Proofs.Sessions
import Dossier.Proofs.Texts

-- A record is filed by the text of the identifier that it was inserted with, and no write can give it another
-- identifier.

namespace Dossier

open Value List

-- Identity without doubles

namespace Value

mutual

def doubleFree : Value → Bool
  | .num (.double _) => false
  | .arr items => doubleFreeItems items
  | .obj fields => doubleFreeFields fields
  | _ => true

def doubleFreeItems : List Value → Bool
  | [] => true
  | v :: vs => v.doubleFree && doubleFreeItems vs

def doubleFreeFields : List (String × Value) → Bool
  | [] => true
  | (_, v) :: fields => v.doubleFree && doubleFreeFields fields

end

mutual

theorem same_refl : (v : Value) → v.same v
  | .null => rfl
  | .bool b => by simp [same]
  | .num (.int i) => by simp [same, Number.same]
  | .num (.double x) => by simp [same, Number.same, Double.same_refl]
  | .str s => by simp [same]
  | .arr items => by simp [same, sameItems_refl items]
  | .obj fields => by simp [same, sameFields_refl fields]

theorem sameItems_refl : (items : List Value) → sameItems items items
  | [] => rfl
  | v :: items => by simp [sameItems, same_refl v, sameItems_refl items]

theorem sameFields_refl : (fields : List (String × Value)) → sameFields fields fields
  | [] => rfl
  | (_, v) :: fields => by simp [sameFields, same_refl v, sameFields_refl fields]

end

mutual

theorem eq_of_same : (a b : Value) → b.doubleFree → a.same b → a = b
  | a, .null, _, h => by cases a <;> simp_all [same]
  | a, .bool _, _, h => by cases a <;> simp_all [same]
  | a, .str _, _, h => by cases a <;> simp_all [same]
  | a, .num (.int j), _, h => by
    cases a with
    | num n => cases n <;> simp_all [same, Number.same]
    | _ => simp [same] at h
  | a, .num (.double y), hb, _ => by simp [doubleFree] at hb
  | a, .arr bs, hb, h => by
    cases a with
    | arr as =>
      simp only [same] at h
      simp only [doubleFree] at hb
      exact congrArg arr (eq_of_sameItems as bs hb h)
    | _ => simp [same] at h
  | a, .obj bs, hb, h => by
    cases a with
    | obj as =>
      simp only [same] at h
      simp only [doubleFree] at hb
      exact congrArg obj (eq_of_sameFields as bs hb h)
    | _ => simp [same] at h

theorem eq_of_sameItems : (as bs : List Value) → doubleFreeItems bs → sameItems as bs → as = bs
  | as, [], _, h => by cases as <;> simp_all [sameItems]
  | as, b :: bs, hb, h => by
    cases as with
    | nil => simp [sameItems] at h
    | cons a as =>
      simp only [sameItems, doubleFreeItems, Bool.and_eq_true] at h hb
      rw [eq_of_same a b hb.1 h.1, eq_of_sameItems as bs hb.2 h.2]

theorem eq_of_sameFields : (as bs : List (String × Value)) → doubleFreeFields bs → sameFields as bs → as = bs
  | as, [], _, h => by cases as <;> simp_all [sameFields]
  | as, (k, b) :: bs, hb, h => by
    cases as with
    | nil => simp [sameFields] at h
    | cons a as =>
      simp only [sameFields, doubleFreeFields, Bool.and_eq_true, beq_iff_eq] at h hb
      rw [eq_of_sameFields as bs hb.2 h.2, ← eq_of_same a.2 b hb.1 h.1.2, ← h.1.1]

end

theorem ne_null_of_same {a b : Value} (h : a.same b) : a ≠ .null ↔ b ≠ .null := by
  cases a <;> cases b <;> simp_all [same]

end Value

-- One write

namespace Write

open Collections

-- The identifiers that a write names have no doubles.
def doubleFree : Write → Bool
  | .insert _ record => (recordId? record).all Value.doubleFree
  | .update _ id _ => id.doubleFree
  | .delete _ id => id.doubleFree

def isUpdate : Write → Bool
  | .update .. => true
  | _ => false

-- The last insertion at a place was followed by this many changesets, and by nothing else there.
def Revised (history : List Write) (p : String × String) (n : Nat) : Prop :=
  ∃ before record after, history = before ++ .insert p.1 record :: after ∧
    place? (.insert p.1 record) = some p ∧ (∀ w ∈ after, w.place? = some p → w.isUpdate) ∧
    n = after.countP (·.place? = some p)

variable {w : Write}

theorem revised_insert {record : Value} (h : place? (.insert p.1 record) = some p) :
    Revised (history ++ [.insert p.1 record]) p 0 :=
  ⟨history, record, [], rfl, h, by simp, rfl⟩

theorem Revised.append (h : Revised history p n) (hw : w.place? = some p → w.isUpdate) :
    Revised (history ++ [w]) p (n + [w].countP (·.place? = some p)) := by
  obtain ⟨before, record, after, rfl, hplace, hafter, rfl⟩ := h
  refine ⟨before, record, after ++ [w], by simp, hplace, fun v hv hp => ?_, countP_append.symm⟩
  rcases mem_append.mp hv with hv | hv
  · exact hafter v hv hp
  · cases mem_singleton.mp hv
    exact hw hp

theorem Revised.elsewhere (h : Revised history p n) (hw : w.place? ≠ some p) : Revised (history ++ [w]) p n := by
  simpa [hw] using h.append (absurd · hw)

theorem Revised.update (h : Revised history p n) (hw : w.place? = some p) (hu : w.isUpdate) :
    Revised (history ++ [w]) p (n + 1) := by
  simpa [hw] using h.append fun _ => hu

end Write

namespace Collections

open Write

variable {cs : Collections} {w : Write}

theorem recordId?_eq_some_iff {record id : Value} :
    recordId? record = some id ↔ record.field? Value.idKey = some id ∧ id ≠ .null := by
  have hnull : ∀ v : Value, v.isNull = true ↔ v = .null := fun v => by cases v <;> simp [Value.isNull]
  rw [recordId?]
  cases record.field? Value.idKey with
  | none => simp
  | some v =>
    dsimp only
    rw [Option.some.injEq]
    by_cases hv : v = .null
    · rw [if_pos ((hnull v).mpr hv)]
      constructor
      · intro h
        cases h
      · rintro ⟨rfl, hne⟩
        exact absurd hv hne
    · rw [if_neg (mt (hnull v).mp hv), Option.some.injEq]
      exact ⟨fun he => ⟨he, he ▸ hv⟩, And.left⟩

theorem entry_cases (h : cs.apply w = .ok (n, cs')) (hf : cs'.find? c k = some stored) :
    (w.place? ≠ some (c, k) ∧ cs.find? c k = some stored) ∨
      (∃ record id, w = .insert c record ∧ recordId? record = some id ∧ id.text = k ∧ stored = { record }) ∨
      ∃ id changes old record own, w = .update c id changes ∧ id.text = k ∧ cs.find? c k = some old ∧
        changes.apply old.record = .ok record ∧ record.field? Value.idKey = some own ∧ own.same id ∧
        stored = { record, version := old.version + 1 } := by
  by_cases hp : w.place? = some (c, k)
  · obtain ⟨c', k', o, hplace, hrevise, rfl⟩ := apply_ok h
    cases hplace.symm.trans hp
    rw [find?_put, if_pos ⟨rfl, rfl⟩] at hf
    subst hf
    cases w with
    | insert c' record =>
      obtain ⟨id, hid, he⟩ := Option.map_eq_some_iff.mp hp
      cases he
      cases hold : cs.find? c id.text with
      | some old => simp [revise, hid, hold] at hrevise
      | none =>
        simp only [revise, hid, hold] at hrevise
        cases hrevise
        exact .inr (.inl ⟨record, id, rfl, hid, rfl, rfl⟩)
    | update c' id changes =>
      cases hp
      cases hold : cs.find? c id.text with
      | none =>
        rw [hold] at hrevise
        cases hrevise
      | some old =>
        simp only [revise, hold] at hrevise
        split at hrevise
        · cases hrevise
        · case _ record hchanges =>
          split at hrevise
          · case isTrue hsame =>
            cases hrevise
            cases hown : record.field? Value.idKey with
            | none =>
              rw [hown] at hsame
              cases hsame
            | some own =>
              rw [hown] at hsame
              exact .inr (.inr ⟨id, changes, old, record, own, rfl, rfl, rfl, hchanges, hown, hsame, rfl⟩)
          · cases hrevise
    | delete => cases hrevise
  · rw [find?_of_apply h hp] at hf
    exact .inl ⟨hp, hf⟩

-- A record is filed by the identifier that it was inserted with, and is the same as when it was.
structure Entry (P : Value → Prop) (history : List Write) (p : String × String) (stored : Stored) : Prop where
  id      : ∃ id own, P id ∧ id.text = p.2 ∧ recordId? stored.record = some own ∧ own.same id
  version : Revised history p stored.version

-- Everything that is filed has been filed by writes.
def Kept (P : Value → Prop) (history : List Write) (cs : Collections) : Prop :=
  ∀ c k stored, cs.find? c k = some stored → Entry P history (c, k) stored

theorem kept_empty : Kept P [] ∅ := by
  intro c k stored h
  cases h

theorem Kept.apply (h : Kept P history cs) (ha : cs.apply w = .ok (n, cs'))
    (hw : ∀ c record id, w = .insert c record → recordId? record = some id → P id) : Kept P (history ++ [w]) cs' := by
  intro c k stored hf
  rcases entry_cases ha hf with ⟨hp, hold⟩ | ⟨record, id, rfl, hid, rfl, rfl⟩ |
    ⟨id, changes, old, record, own, rfl, rfl, hold, -, hown, hsame, rfl⟩
  · obtain ⟨hid, hversion⟩ := h c k stored hold
    exact ⟨hid, hversion.elsewhere hp⟩
  · have hplace : place? (.insert c record) = some (c, id.text) := by
      rw [place?, hid]
      rfl
    exact ⟨⟨id, id, hw c record id rfl hid, rfl, hid, id.same_refl⟩, revised_insert (p := (c, id.text)) hplace⟩
  · -- The texts are equal, so the changeset names the identifier of the insertion.
    obtain ⟨⟨id', own', hP, htext, hown', hsame'⟩, hversion⟩ := h c id.text old hold
    cases text_inj.mp htext
    have hnull : own ≠ .null :=
      (ne_null_of_same hsame).mpr ((ne_null_of_same hsame').mp (recordId?_eq_some_iff.mp hown').2)
    exact ⟨⟨id, own, hP, rfl, recordId?_eq_some_iff.mpr ⟨hown, hnull⟩, hsame⟩, hversion.update rfl rfl⟩

theorem Kept.applyAll (h : Kept P history cs) (ha : cs.applyAll ws = .ok cs')
    (hws : ∀ c record id, .insert c record ∈ ws → recordId? record = some id → P id) : Kept P (history ++ ws) cs' := by
  induction ws generalizing history cs with
  | nil =>
    cases ha
    rwa [append_nil]
  | cons w ws ih =>
    rw [Collections.applyAll] at ha
    split at ha
    · cases ha
    · case _ n cs₁ hw =>
      have hstep := h.apply hw fun c record id he => hws c record id (by simp [he])
      have hrest := ih hstep ha fun c record id hm => hws c record id (mem_cons_of_mem _ hm)
      rwa [append_assoc] at hrest

-- Each record is an object that is filed under the text of its own identifier, no two records of a
-- collection have the same one, and versions count changesets.
structure Faithful (history : List Write) (cs : Collections) : Prop where
  own      : ∀ c k stored, cs.find? c k = some stored → ∃ fields id, stored.record = .obj fields ∧
    Entries.get? Value.idKey fields = some id ∧ id ≠ .null ∧ id.text = k
  distinct : ∀ c k k' stored stored' id id', cs.find? c k = some stored → cs.find? c k' = some stored' →
    stored.record.field? Value.idKey = some id → stored'.record.field? Value.idKey = some id' →
      id.same id' → k = k'
  version  : ∀ c k stored, cs.find? c k = some stored → Revised history (c, k) stored.version

theorem Entry.ownId (h : Entry (fun id => id.doubleFree) history p stored) :
    ∃ id, stored.record.field? Value.idKey = some id ∧ id ≠ .null ∧ id.doubleFree ∧ id.text = p.2 := by
  obtain ⟨id, own, hfree, htext, hown, hsame⟩ := h.id
  rw [eq_of_same own id hfree hsame, recordId?_eq_some_iff] at hown
  exact ⟨id, hown.1, hown.2, hfree, htext⟩

theorem Kept.faithful (h : Kept (fun id => id.doubleFree) history cs) : Faithful history cs where
  own c k stored hf := by
    obtain ⟨id, hfield, hnull, -, htext⟩ := (h c k stored hf).ownId
    cases hr : stored.record with
    | obj fields =>
      rw [hr] at hfield
      exact ⟨fields, id, rfl, hfield, hnull, htext⟩
    | _ =>
      rw [hr] at hfield
      cases hfield
  distinct c k k' stored stored' id id' hf hf' hid hid' hsame := by
    obtain ⟨own, hown, -, -, htext⟩ := (h c k stored hf).ownId
    obtain ⟨own', hown', -, hfree', htext'⟩ := (h c k' stored' hf').ownId
    cases hid.symm.trans hown
    cases hid'.symm.trans hown'
    cases eq_of_same id id' hfree' hsame
    exact htext.symm.trans htext'
  version c k stored hf := (h c k stored hf).version

theorem faithful_of_applyAll (h : applyAll ∅ ws = .ok cs) (hws : ∀ w ∈ ws, w.doubleFree) : Faithful ws cs := by
  refine (kept_empty.applyAll h fun c record id hm hid => ?_).faithful
  have hfree := hws _ hm
  simpa [Write.doubleFree, hid] using hfree

end Collections

-- Runs

namespace Store

open Collections

variable {s : Store} {before after : List Event} {requests : List Request} {id : SessionId} {session : Session}
  {w : Write}

theorem mem_acceptedIn (h : w ∈ acceptedIn id events) : ∃ e ∈ events, ∃ session, e.request = .write w session := by
  obtain ⟨e, he, hw⟩ := mem_filterMap.mp h
  refine ⟨e, he, some id, ?_⟩
  rcases e with ⟨_ | ⟨w', _ | id'⟩ | _ | _, _ | _⟩
  all_goals simp [Event.acceptedIn?] at hw
  rw [hw.1, hw.2]

theorem mem_settled (h : w ∈ settled past events) : ∃ e ∈ past ++ events, ∃ session, e.request = .write w session := by
  induction events generalizing past with
  | nil => cases h
  | cons e events ih =>
    rcases mem_append.mp h with h | h
    · rcases e with ⟨_ | ⟨w', _ | id'⟩ | id' | _, _ | n⟩
      all_goals simp only [settledBy, not_mem_nil, mem_singleton] at h
      · subst h
        exact ⟨⟨.write w none, .ok n⟩, by simp, none, rfl⟩
      · obtain ⟨e, he, hw⟩ := mem_acceptedIn h
        exact ⟨e, by simp [he], hw⟩
    · have := ih h
      rwa [append_assoc] at this

theorem request_mem (h : e ∈ (s.serve requests).1) : e.request ∈ requests := by
  induction requests generalizing s with
  | nil => cases h
  | cons r requests ih =>
    rw [serve_cons] at h
    rcases mem_cons.mp h with rfl | h
    · exact mem_cons_self
    · exact mem_cons_of_mem _ (ih h)

-- A session that is open has begun, and it has accepted nothing before.
def Begun (past : List Event) (s : Store) : Prop :=
  ∀ id session, s.sessions.get? id = some session →
    ∃ before after, past = before ++ ⟨.start, .ok id⟩ :: after ∧ acceptedIn id before = []

theorem begun_empty {handles : Supply SessionId} : Begun [] { handles } := by
  intro id session hs
  cases hs

theorem get?_answer (h : (s.answer r).2.sessions.get? id = some session) :
    (r = .start ∧ id = s.next) ∨ (s.sessions.get? id).isSome := by
  cases r with
  | start =>
    simp only [answer, Store.start, OrdMap.get?_insert] at h
    split at h
    · case isTrue he => exact .inl ⟨rfl, he.symm⟩
    · exact .inr (by simp [h])
  | write w session' =>
    right
    cases session' with
    | none =>
      simp only [answer, Store.write, writeLive] at h
      split at h <;> simp [h]
    | some id' =>
      simp only [answer, Store.write, writeIn] at h
      split at h
      · simp [h]
      · case _ session'' hs =>
        split at h
        · simp [h]
        · rw [OrdMap.get?_insert] at h
          split at h
          · case isTrue he => simp [← he, hs]
          · simp [h]
  | commit id' =>
    right
    simp only [answer, Store.commit] at h
    split at h
    · simp [h]
    · split at h <;> simp [Follows.get?_of_erase h]
  | abort id' =>
    right
    simp only [answer, Store.abort] at h
    split at h
    · simp [h]
    · simp [Follows.get?_of_erase h]

theorem Begun.step (h : Begun past s) (hf : Follows past s) (r : Request) :
    Begun (past ++ [⟨r, (s.answer r).1⟩]) (s.answer r).2 := by
  intro id session hs
  rcases get?_answer hs with ⟨rfl, rfl⟩ | hold
  · exact ⟨past, [], rfl, (hf.fresh s.next Supply.fresh_next).2.1⟩
  · obtain ⟨session', hs'⟩ := Option.isSome_iff_exists.mp hold
    obtain ⟨before, after, rfl, hnone⟩ := h id session' hs'
    exact ⟨before, after ++ [⟨r, (s.answer r).1⟩], by simp, hnone⟩

theorem Begun.serve (h : Begun past s) (hf : Follows past s) (requests : List Request) :
    Begun (past ++ (s.serve requests).1) (s.serve requests).2 := by
  induction requests generalizing past s with
  | nil => simpa [Store.serve] using h
  | cons r requests ih =>
    have := ih (h.step hf r) (hf.step r)
    rw [append_assoc] at this
    exact this

-- In any run of requests whose identifiers have no doubles, records are filed under their own identifiers, and
-- their versions count the changesets that went into them, in the store and in each open session.
theorem records_faithful (handles : Supply SessionId) (requests : List Request)
    (hids : ∀ w session, .write w session ∈ requests → w.doubleFree) :
    Faithful (settled [] (serve { handles } requests).1) (serve { handles } requests).2.live ∧
      ∀ id session, (serve { handles } requests).2.sessions.get? id = some session →
        ∃ before after, (serve { handles } requests).1 = before ++ ⟨.start, .ok id⟩ :: after ∧
          Faithful (settled [] before ++ acceptedIn id after) session.working := by
  have hfree : ∀ e ∈ (serve { handles } requests).1, ∀ w session, e.request = .write w session → w.doubleFree :=
    fun e he w session hr => hids w session (hr ▸ request_mem he)
  have hrun := Follows.served handles requests
  constructor
  · refine faithful_of_applyAll hrun.live fun w hw => ?_
    obtain ⟨e, he, session, hr⟩ := mem_settled hw
    exact hfree e he w session hr
  · intro id session hs
    obtain ⟨before, after, hsplit, hnone⟩ := (begun_empty.serve (.empty handles) requests) id session hs
    rw [nil_append] at hsplit
    obtain ⟨base, hbase, hwork⟩ := hrun.working id session hs before after hsplit
    rw [hrun.staged id session hs, hsplit, acceptedIn_append, hnone] at hwork
    rw [hsplit] at hfree
    refine ⟨before, after, hsplit, faithful_of_applyAll ?_ fun w hw => ?_⟩
    · rw [applyAll_append, hbase]
      exact hwork
    · rcases List.mem_append.mp hw with hw | hw
      · obtain ⟨e, he, session, hr⟩ := mem_settled hw
        exact hfree e (List.mem_append_left _ he) w session hr
      · obtain ⟨e, he, session, hr⟩ := mem_acceptedIn hw
        exact hfree e (by simp [he]) w session hr

theorem records_faithful_companions :
    (∀ w session, .write w session ∈ companions → w.doubleFree) ∧
      Faithful (settled [] (serve {} companions).1) (serve {} companions).2.live ∧
      ∃ session, (serve {} companions).2.sessions.get? 0 = some session ∧
        session.working.find? "users" "\"a\"" = some ⟨user "a" 2, 1⟩ ∧
        ∃ before after, (serve {} companions).1 = before ++ ⟨.start, .ok 0⟩ :: after ∧
          Faithful (settled [] before ++ acceptedIn 0 after) session.working := by
  have hids : ∀ w session, .write w session ∈ companions → w.doubleFree := by
    intro w session h
    simp only [companions, List.mem_cons, List.not_mem_nil, or_false, Request.write.injEq, reduceCtorEq,
      false_or] at h
    rcases h with ⟨rfl, -⟩ | ⟨rfl, -⟩ | ⟨rfl, -⟩ <;> rfl
  obtain ⟨hlive, hsessions⟩ := records_faithful .numbers companions hids
  exact ⟨hids, hlive, _, rfl, rfl, hsessions 0 _ rfl⟩

end Store

end Dossier

import Dossier.Proofs.Create

-- What can be done to a document from outside, and the documents that come of it.

namespace Dossier

inductive Call where
  | set (path : Path) (v : Value) (opts : SetOptions)
  | push (path : Path) (values : List Value)
  | pull (path : Path) (v : Value)
  | mark (path : Path)
  | unmark (path : Path)
  | populate (path : Path) (record : Value)
  | depopulate (path : Path)
  -- Failures are recorded or dropped, and validations begin and end.
  | report (issues : Option Issues) (validating : Bool)
  | commit
  | rollback

namespace Call

def edit : Call → Edit Unit
  | set path v opts => Edit.set path v opts
  | push path values => Edit.push path values
  | pull path v => Edit.pull path v
  | mark path => Edit.markModified path
  | unmark path => Edit.change (·.unmarkModified path)
  | populate path record => Edit.populate path record
  | depopulate path => Edit.depopulate path
  | report issues validating => Edit.change fun d => { d with issues, validating }
  | commit => Edit.change (·.commit)
  | rollback => Edit.change (·.rollback)

-- The path that is written.
def path? : Call → Option Path
  | set path .. | push path .. | pull path .. | populate path .. | depopulate path => some path
  | _ => none

def run (c : Call) (s : Desk) : Desk :=
  (c.edit.outcome s).2

def runAll (calls : List Call) (s : Desk) : Desk :=
  calls.foldl (fun s c => c.run s) s

end Call

namespace Document

open Edit

inductive Reached : Document → Prop
  | created {schema initial effects d} : (create schema initial effects).1 = .ok d → Reached d
  | loaded {schema record projection effects d} :
      (load schema record projection effects).1 = .ok d → Reached d
  | called {d} (c : Call) (effects : Effects) : Reached d → Reached (c.run ⟨d, effects⟩).doc

theorem keeps_call (h : Lasting (· ≠ []) I) (hpopulated : ∀ d p, I d → (d.populated.get? p).isSome → p ≠ [])
    (hreport : ∀ d issues validating, I d → I { d with issues, validating }) (hcommit : ∀ d, I d → I d.commit)
    (hrollback : ∀ d, I d → I d.rollback) (c : Call) : Keeps I c.edit := by
  cases c with
  | set => exact h.keeps_set
  | push => exact h.keeps_push
  | pull => exact h.keeps_pull id
  | mark => exact h.keeps_markModified
  | unmark => exact keeps_change fun _ hd => h.unmarked hd
  | populate => exact h.keeps_populate id
  | depopulate => exact h.keeps_depopulate fun d hd => hpopulated d _ hd
  | report => exact keeps_change fun d hd => hreport d _ _ hd
  | commit => exact keeps_change hcommit
  | rollback => exact keeps_change hrollback

theorem keeps_call_sound (c : Call) : Keeps Sound c.edit :=
  keeps_call lasting_sound (fun _ p hd => hd.populated p)
    (fun _ _ _ hd => ⟨hd.tracker, hd.scopes, hd.object, hd.populated, hd.snapshot, hd.backup⟩)
    (fun _ hd => hd.commit) (fun _ hd => hd.rollback) c

theorem keeps_call_of_sound (h : Lasting (· ≠ []) I)
    (hreport : ∀ d issues validating, I d → I { d with issues, validating }) (hcommit : ∀ d, I d → I d.commit)
    (hrollback : ∀ d, I d → I d.rollback) (c : Call) : Keeps (fun d => d.Sound ∧ I d) c.edit :=
  keeps_call (lasting_sound.and h) (fun _ p hd => hd.1.populated p)
    (fun d issues validating hd =>
      ⟨keeps_call_sound (.report issues validating) ⟨d, {}⟩ hd.1, hreport d issues validating hd.2⟩)
    (fun d hd => ⟨hd.1.commit, hcommit d hd.2⟩) (fun d hd => ⟨hd.1.rollback, hrollback d hd.2⟩) c

theorem Reached.sound {d : Document} (h : d.Reached) : d.Sound := by
  induction h with
  | created h => exact create_sound h
  | loaded h => exact (load_loaded h).sound
  | called c effects _ ih => exact keeps_call_sound c ⟨_, effects⟩ ih

theorem Reached.runAll (h : s.doc.Reached) (calls : List Call) : (Call.runAll calls s).doc.Reached := by
  induction calls generalizing s with
  | nil => exact h
  | cons c calls ih => exact ih (.called c s.effects h)

-- Stored documents

-- A document whose value is the stored one, with nothing populated: it was just loaded and no default had to be
-- filled in, or it was just committed.
inductive AtRest : Document → Prop
  | loaded {schema record projection effects d} : (load schema record projection effects).1 = .ok d →
      (∀ p, d.stateOf? p ≠ some .default) → AtRest d
  | committed {d} : Reached d → d.populated = ∅ → AtRest d.commit

theorem atRest_of_load {schema : Schema} {projection : Option Projection}
    (h : (load schema record projection effects).1 = .ok d) (hd : d.tracker.pathsIn .default = []) : d.AtRest := by
  refine .loaded h fun p hp => ?_
  have := ((load_loaded h).sound.tracker p .default).mpr hp
  rw [hd] at this
  cases this

structure Untouched (d : Document) : Prop where
  sound     : d.Sound
  isNew     : d.isNew = false
  populated : d.populated = ∅
  arrayOps  : d.arrayOps = ∅
  snapshot  : d.snapshot = ∅
  backup    : d.backup = none
  states    : ∀ p, d.stateOf? p ≠ some .modify ∧ d.stateOf? p ≠ some .default
  scopes    : d.scopes.All (¬ ·.isNew)

theorem stateOf?_commit {d : Document} (h : d.tracker.Consistent) (p : Path) :
    d.commit.stateOf? p ≠ some .modify ∧ d.commit.stateOf? p ≠ some .default := by
  simp only [stateOf?, commit, commitTracker, Tracker.stateOf?_moveAll h.moveAll,
    Tracker.stateOf?_moveAll h]
  constructor <;> split <;> (try split) <;> simp_all

theorem AtRest.untouched {d : Document} (h : d.AtRest) : d.Untouched := by
  cases h with
  | loaded h hd =>
    have h := load_loaded h
    refine ⟨h.sound, h.isNew, h.populated, h.arrayOps, h.snapshot, h.backup,
      fun p => ⟨h.unmodified p, hd p⟩, ?_⟩
    exact h.scopes.resolve_right fun ⟨p, hp⟩ => hd p hp
  | committed h hp =>
    refine ⟨h.sound.commit, rfl, hp, rfl, rfl, rfl, stateOf?_commit h.sound.tracker, ?_⟩
    intro k scope hs
    rw [commit, Scopes.get?_mapAll] at hs
    obtain ⟨scope, -, rfl⟩ := Option.map_eq_some_iff.mp hs
    simp

-- A stored document that was only set and appended to since.
inductive Persisted : Document → Prop
  | loaded {schema record projection effects d} :
      (load schema record projection effects).1 = .ok d → Persisted d
  | committed {d} : Reached d → Persisted d.commit
  | set {d} (p : Path) (v : Value) (opts : SetOptions) (effects : Effects) : Persisted d →
      Persisted ((Edit.set p v opts).outcome ⟨d, effects⟩).2.doc
  | push {d} (p : Path) (vs : List Value) (effects : Effects) : Persisted d →
      Persisted ((Edit.push p vs).outcome ⟨d, effects⟩).2.doc

-- What sets and appends keep of a stored document: no item was moved, so every embedded document around a path is
-- linked to its scope.
structure Linked (d : Document) : Prop where
  sound  : d.Sound
  scopes : d.scopes.Sound true
  isNew  : d.isNew = false

namespace Linked

variable {d : Document}

theorem detached (h : d.Linked) : (d.detached p).Linked :=
  ⟨h.sound.detached, (eachTracker_scopes h.scopes).removeBelow, h.isNew⟩

theorem attached (h : d.Linked) : (d.attached p f).Linked :=
  ⟨h.sound.attached, h.scopes.attachField h.scopes.innermost, h.isNew⟩

theorem noted (h : d.Linked) : (d.noteArrayOp p g).Linked :=
  ⟨h.sound.noted, h.scopes, h.isNew⟩

theorem markModified (h : d.Linked) : (d.markModified p).Linked :=
  ⟨h.sound.markModified, markModified_scopes h.scopes, h.isNew⟩

end Linked

theorem stable_linked : Stable (· ≠ []) Linked where
  opened {d} h := by
    refine ⟨h.sound.openChanges, ?_, ?_⟩ <;> rw [openChanges_eq]
    · exact h.scopes
    · exact h.isNew
  written hp h := by
    refine ⟨h.sound.write hp, ?_, ?_⟩ <;> rw [write_eq]
    · exact h.scopes
    · exact h.isNew
  detached _ h := h.detached
  attached _ h := h.attached
  extended hp h :=
    ⟨stable_sound.extended hp h.sound, h.scopes.attachItems h.scopes.innermost, h.isNew⟩
  noted _ h := h.noted
  marked _ h := h.markModified
  reported h := ⟨stable_sound.reported h.sound, h.scopes, h.isNew⟩

theorem Persisted.linked {d : Document} (h : d.Persisted) : d.Linked := by
  induction h with
  | loaded h =>
    have h := load_loaded h
    exact ⟨h.sound, h.linked, h.isNew⟩
  | committed h =>
    exact ⟨h.sound.commit, h.sound.scopes.mapAll (fun _ => rfl) (fun _ => rfl) (by simp), rfl⟩
  | set p v opts effects _ ih => exact stable_linked.keeps_set ⟨_, effects⟩ ih
  | push p vs effects _ ih => exact stable_linked.keeps_push ⟨_, effects⟩ ih

theorem Untouched.scopes_sound {d : Document} (h : d.Untouched) : d.scopes.Sound true :=
  h.sound.scopes.of_get? h.sound.scopes.tidy (fun _ => rfl) fun k scope hs =>
    ⟨scope, hs, rfl, rfl, fun hn => absurd hn.2 (h.scopes k scope hs)⟩

end Document
end Dossier

import Dossier.Proofs.References
import Dossier.Proofs.Reflection
import Dossier.Proofs.Shifting

-- Calls keep the marks inside and outside of embedded documents alike.

namespace Dossier

open Path

namespace Document

open Edit

variable {d : Document} {p q : Path} {f : Field} {v : Value}

-- The scopes of a document mirror its path states, now and when its open changes began.
structure Mirrored (d : Document) : Prop where
  sound  : d.Sound
  schema : d.schema.Meets .wellFormed
  scopes : d.scopes.Mirrors d.tracker
  backup : ∀ b, d.backup = some b → b.scopes.Mirrors b.tracker

namespace Mirrored

variable (h : d.Mirrored)

include h

theorem openChanges : d.openChanges.Mirrored := by
  have hs := h.sound.openChanges
  rw [Document.openChanges] at hs ⊢
  split at hs
  · exact h
  · exact ⟨hs, h.schema, h.scopes, by rintro b ⟨⟩; exact h.scopes⟩

theorem write (hp : p ≠ []) : (d.write p v).2.Mirrored := by
  refine ⟨h.sound.write hp, ?_, ?_, ?_⟩ <;> rw [write_eq]
  · exact h.schema
  · exact h.scopes
  · exact h.backup

theorem markModified : (d.markModified p).Mirrored :=
  ⟨h.sound.markModified, h.schema, h.scopes.mark, h.backup⟩

theorem unmarkModified : (d.unmarkModified p).Mirrored := by
  refine ⟨h.sound.unmarkModified, h.schema, ?_, h.backup⟩
  have := h.scopes.unmark (p := p)
  rwa [Document.unmarkModified, eachTracker, atPath, below?_root]

theorem detached : (d.detached p).Mirrored := by
  refine ⟨h.sound.detached, h.schema, ?_, h.backup⟩
  rw [detached_tracker]
  exact h.scopes.detach

theorem reported {issues : Option Issues} : Mirrored { d with issues } :=
  ⟨stable_sound.reported h.sound, h.schema, h.scopes, h.backup⟩

theorem markValid : (d.markValid p).Mirrored := by
  obtain ⟨issues, he⟩ := markValid_eq d p
  exact he ▸ h.reported

theorem noted {g : ArrayOps → ArrayOps} : (d.noteArrayOp p g).Mirrored :=
  ⟨h.sound.noted, h.schema, h.scopes, h.backup⟩

theorem attached (hf : f.Meets .wellFormed) (hp : p ≠ []) (hv : d.scopes.Vacant p) : (d.attached p f).Mirrored :=
  ⟨h.sound.attached, h.schema, h.scopes.attachField hf hp hv, h.backup⟩

theorem settled (hf : f.Meets .wellFormed) (hp : p ≠ []) (hv : f.type.isStructural → d.scopes.Vacant p)
    {modifies : Bool} : (d.settled p f modifies).Mirrored :=
  settled_rec (fun hs => h.attached hf hp (hv hs)) (fun _ => h) (·.noted) markModified markValid

theorem vacant_detached : (d.detached p).scopes.Vacant p :=
  Scopes.vacant_removeBelow (eachTracker_scopes h.sound.scopes)

end Mirrored

theorem heeds_mirrored : Heeds (· ≠ []) Mirrored where
  opened h := h.openChanges
  reported h := h.reported
  stored {d p f v opts effects} hp hf h := by
    refine storeField_rec (J := fun d => d.Mirrored ∧ (f.type.isStructural → d.scopes.Vacant p)) h h.markValid
      (fun _ => ⟨h.detached, fun _ => h.vacant_detached⟩) (fun hs => ⟨h, fun hs' => absurd hs' hs⟩)
      (fun hd _ => hd.1.write hp) fun hd _ => ?_
    refine (hd.1.write hp).settled (resolve_meets h.schema trivial hf) hp ?_
    rw [write_eq]
    exact hd.2
  taken hp _ h := h.write hp
  emptied hp _ _ h := h.detached.write hp
  marked _ _ _ h := h.markModified
  inner _ _ _ := by simp

-- Items

-- Whether a scope is at a path or the path is marked.
def trace? (d : Document) (r : Path) : Option Unit :=
  if (d.scopes.keyAt? r).isSome ∨ d.tracker.isIn r .modify then some () else none

theorem trace?_eq_none_iff : d.trace? p = none ↔ d.scopes.keyAt? p = none ∧ ¬ d.tracker.Marks p := by
  simp [trace?, Tracker.marks_iff_isIn]

theorem trace?_congr {d' : Document} (hk : d'.scopes.keyAt? p = d.scopes.keyAt? q)
    (hm : d'.tracker.Marks p ↔ d.tracker.Marks q) : d'.trace? p = d.trace? q := by
  rw [Tracker.marks_iff_isIn, Tracker.marks_iff_isIn] at hm
  simp only [trace?, hk, hm]

theorem dropItem_scopes : (d.dropItem q).scopes =
    (d.scopes.removeBelow q).eachOwner q (atPath q fun q t => (t.forget q).clearDescendants q) := rfl

theorem dropItem_tracker : (d.dropItem q).tracker = (d.tracker.forget q).clearDescendants q := by
  rw [dropItem, eachTracker, atPath, below?_root]

theorem moveItem_scopes {i : Nat} : (d.moveItem p i j).scopes =
    (d.scopes.rekey (p.index i) (p.index j)).eachOwner p (Scopes.moveStates p i j) := rfl

theorem moveItem_tracker : (d.moveItem p i j).tracker = d.tracker.rekey (p.index i) (p.index j) := by
  rw [moveItem, eachTracker, below?_root, below?_root]

-- An item goes to a place where no scope is and no path is marked.
theorem itemLaw_mirrored : ItemLaw p (fun d => d.Mirrored ∧ d.scopes.keyAt? p = none)
    fun d m x => d.trace? (p.index m ++ x) where
  dropped {d i} h := by
    have hkey : ∀ r, (d.dropItem (p.index i)).scopes.keyAt? r =
        if (p.index i).covers r then none else d.scopes.keyAt? r := fun r => by
      rw [dropItem_scopes, h.1.scopes.nested.removeBelow.keyAt?_eachOwner, h.1.scopes.nested.keyAt?_removeBelow]
    have hmirrored : (d.dropItem (p.index i)).Mirrored := by
      refine ⟨h.1.sound.dropItem, h.1.schema, ?_, h.1.backup⟩
      rw [dropItem_scopes, dropItem_tracker]
      exact h.1.scopes.drop
    refine ⟨⟨hmirrored, by rw [hkey, h.2, ite_self]⟩, fun m x => ?_⟩
    have hcovers := @Path.index_covers_index_append p i m x
    split
    · case isTrue hm =>
      rw [trace?_eq_none_iff, hkey, if_pos (hcovers.mpr hm), dropItem_tracker, Tracker.withdraws_drop.marks]
      exact ⟨rfl, fun hmarks => hmarks.2 (hcovers.mpr hm)⟩
    · case isFalse hm =>
      refine trace?_congr (by rw [hkey, if_neg (mt hcovers.mp hm)]) ?_
      rw [dropItem_tracker, Tracker.withdraws_drop.marks]
      exact and_iff_left (mt hcovers.mp hm)
  moved {d i j} h hij hv := by
    obtain ⟨h, hp⟩ := h
    have hblank := fun x => trace?_eq_none_iff.mp (hv x)
    have hvacant : d.scopes.Vacant (p.index j) := fun r hr => by
      obtain ⟨x, rfl⟩ := covers_iff.mp hr
      exact (hblank x).1
    have hs := h.scopes.nested.sound
    have hsound : (d.scopes.rekey (p.index i) (p.index j)).Sound false := hs.rekey fun a ha =>
      covers_trans (isAbove_append_iff.mp ha) (covers_append p _)
    have hkey : ∀ r, (d.moveItem p i j).scopes.keyAt? r = (d.scopes.rekey (p.index i) (p.index j)).keyAt? r :=
      fun r => by rw [moveItem_scopes, (h.scopes.nested.move hsound hvacant).keyAt?_eachOwner]
    obtain ⟨hmoved, hleft, hother⟩ := Tracker.marks_rekey (index_apart hij) fun x => (hblank x).2
    have hout : ∀ n, ¬ (p.index n).covers p := fun n =>
      not_covers_of_isAbove (isAbove_append_iff.mpr (covers_refl p))
    refine ⟨⟨⟨h.sound.moveItem, h.schema, ?_, h.backup⟩, ?_⟩, fun m x => ?_⟩
    · rw [moveItem_scopes, moveItem_tracker]
      exact h.scopes.move hij hp hvacant fun x => (hblank x).2
    · rw [hkey, Scopes.keyAt?_unmoved hs (hout j), if_neg (hout i), hp]
    · by_cases hm : m = j
      · rw [if_pos hm, hm]
        refine trace?_congr (by rw [hkey, Scopes.keyAt?_moved hs hvacant]) ?_
        rw [moveItem_tracker, hmoved]
      have hj := mt (@Path.index_covers_index_append p j m x).mp hm
      have hk := (hkey _).trans (Scopes.keyAt?_unmoved hs hj)
      rw [if_neg hm]
      split
      · case isTrue hi =>
        subst hi
        rw [trace?_eq_none_iff, hk, if_pos (covers_append _ x), moveItem_tracker]
        exact ⟨rfl, hleft x⟩
      · case isFalse hi =>
        have hi := mt (@Path.index_covers_index_append p i m x).mp hi
        refine trace?_congr (by rw [hk, if_neg hi]) ?_
        rw [moveItem_tracker, hother _ hi hj]

theorem Mirrored.reindex (h : d.Mirrored) (hp : d.scopes.keyAt? p = none) : (d.reindex p removed).Mirrored :=
  (itemLaw_mirrored.reindex ⟨h, hp⟩ removed).1.1

-- Calls

theorem Mirrored.appended (h : d.Mirrored) (hf : f.Meets .wellFormed) (hp : p ≠ [])
    (hopen : ∀ sub, f.type = .documentArray sub → d.scopes.keyAt? p = none ∧
      ∀ i, n ≤ i → d.scopes.Vacant (p.index i)) : (d.appended p f n pushed).Mirrored := by
  rw [Document.appended]
  refine markModified (noted ?_)
  split
  · case _ sub ht =>
    obtain ⟨hkey, hv⟩ := hopen sub ht
    have hsub : sub.Meets .wellFormed := FieldType.Meets.sub (.inr (ht ▸ hf.type))
    exact ⟨stable_sound.extended hp h.sound, h.schema, h.scopes.attachItems hsub hp hkey hv, h.backup⟩
  · exact h

theorem Mirrored.commit (h : d.Mirrored) : d.commit.Mirrored :=
  ⟨h.sound.commit, h.schema, h.scopes.commit h.sound.tracker, by simp [Document.commit]⟩

theorem Mirrored.rollback (h : d.Mirrored) : d.rollback.Mirrored := by
  have hs := h.sound.rollback
  rw [Document.rollback] at hs ⊢
  split at hs
  · exact h
  · case _ b hb => exact ⟨hs, h.schema, h.backup b hb, by simp⟩

end Document

-- No scope is in the way of an append or a removal: there is none at the array itself, and none where the new
-- items of an array of documents go.
def Call.Unobstructed (d : Document) : Call → Prop
  | .push p _ => ∀ f sub items, d.resolve p = .field f → f.type = .documentArray sub →
      Value.items? (d.get? p) = some items → d.scopes.keyAt? p = none ∧
        ∀ i, items.length ≤ i → d.scopes.Vacant (p.index i)
  | .pull p _ => d.scopes.keyAt? p = none
  | _ => True

namespace Document

open Edit

variable {s : Desk} {p : Path} {v : Value}

theorem Mirrored.push (h : s.doc.Mirrored) (hc : (Call.push p vs).Unobstructed s.doc) :
    ((Edit.push p vs).outcome s).2.doc.Mirrored := by
  refine push_rec h (fun _ => h.openChanges.reported) (fun ha _ => h.openChanges.write ha.ne_nil) fun ha _ => ?_
  refine heeds_mirrored.settle (rounds_of_forall opens_ne_nil) ((h.openChanges.write ha.ne_nil).appended
    (resolve_meets h.schema trivial ha.resolve) ha.ne_nil fun sub ht => ?_)
  rw [write_eq, openChanges_eq]
  exact hc _ sub _ ha.resolve ht ha.stored

theorem Mirrored.pull (h : s.doc.Mirrored) (hp : s.doc.scopes.keyAt? p = none) :
    ((Edit.pull p v).outcome s).2.doc.Mirrored := by
  rcases pull_cases p v s with he | ⟨items, -, -, hne, he⟩
  · rwa [he]
  · rw [he]
    refine markModified (noted (reported (reindex (h.openChanges.write hne) ?_)))
    rw [write_eq, openChanges_eq]
    exact hp

theorem Mirrored.run (h : s.doc.Mirrored) (c : Call) (hc : c.Unobstructed s.doc) : (c.run s).doc.Mirrored := by
  cases c with
  | set => exact heeds_mirrored.keeps_set s h
  | push => exact h.push hc
  | pull => exact h.pull hc
  | mark => exact h.openChanges.markModified
  | unmark => exact h.unmarkModified
  | populate =>
    exact populate_rec h (fun hp hd => hd.write hp) fun hp hd => ⟨hd.sound.stood hp, hd.schema, hd.scopes, hd.backup⟩
  | depopulate =>
    exact depopulate_rec h (fun hd => ⟨hd.sound.vacated, hd.schema, hd.scopes, hd.backup⟩)
      fun hp hd => hd.write (h.sound.populated _ hp)
  | report =>
    exact ⟨⟨h.sound.tracker, h.sound.scopes, h.sound.object, h.sound.populated, h.sound.snapshot, h.sound.backup⟩,
      h.schema, h.scopes, h.backup⟩
  | commit => exact h.commit
  | rollback => exact h.rollback

theorem Mirrored.runAll (h : s.doc.Mirrored) (hc : Call.Throughout Call.Unobstructed calls s) :
    (Call.runAll calls s).doc.Mirrored := by
  induction calls generalizing s with
  | nil => exact h
  | cons c calls ih => exact ih (h.run c hc.1) hc.2

end Document
end Dossier

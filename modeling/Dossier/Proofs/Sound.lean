import Dossier.Document.Create
import Dossier.Document.Reconcile
import Dossier.Proofs.Attach
import Dossier.Proofs.Tracker
import Dossier.Proofs.Writes

-- Whatever is done to a document, its value is an object, the two views of its tracker agree, and its scopes have
-- their ways out.

namespace Dossier

open List

namespace Document

-- What holds of every document that the library makes. The part for the backup makes it hold again after the open
-- changes were undone.
structure Sound (d : Document) : Prop where
  tracker   : d.tracker.Consistent
  scopes    : d.scopes.Sound false
  object    : ∃ fields, d.value = .obj fields
  populated : ∀ p, (d.populated.get? p).isSome → p ≠ []
  snapshot  : ∀ p, (d.snapshot.get? p).isSome → p ≠ []
  backup    : ∀ b, d.backup = some b →
    b.tracker.Consistent ∧ b.scopes.Sound false ∧ ∀ p, (b.populated.get? p).isSome → p ≠ []

variable {d : Document} {p : Path} {v : Value}

-- Trackers and scopes

theorem eachTracker_scopes (h : d.scopes.Sound full) : (d.eachTracker p f).scopes.Sound full :=
  List.foldlRecOn _ _ h fun _ h _ _ => h.modify

theorem Sound.eachTracker (h : d.Sound) (hf : ∀ t, t.Consistent → (f Path.root t).Consistent) :
    (d.eachTracker p f).Sound :=
  ⟨hf _ h.tracker, eachTracker_scopes h.scopes, h.object, h.populated, h.snapshot, h.backup⟩

theorem atPath_consistent (h : t.Consistent) (hf : ∀ rel, (f rel t).Consistent) : (atPath p f root t).Consistent := by
  rw [atPath]
  split
  · exact hf _
  · exact h

theorem markModified_scopes (h : d.scopes.Sound full) : (d.markModified p).scopes.Sound full := by
  refine List.foldlRecOn (motive := fun ms : Path × Scopes => ms.2.Sound full) _ _ h fun ms h k _ => ?_
  dsimp only
  split
  · exact h
  · exact h.modify

section

variable (h : d.Sound)

include h

theorem Sound.markModified : (d.markModified p).Sound :=
  ⟨h.tracker.transition, markModified_scopes h.scopes, h.object, h.populated, h.snapshot, h.backup⟩

theorem Sound.unmarkModified : (d.unmarkModified p).Sound := by
  refine h.eachTracker fun t ht => atPath_consistent ht fun rel => ?_
  split
  · exact ht.transition
  · exact ht

theorem Sound.detached : (d.detached p).Sound := by
  have hc : (d.eachTracker p (atPath p fun rel t => t.clearDescendants rel)).Sound :=
    h.eachTracker fun t ht => atPath_consistent ht fun rel => ht.clearDescendants
  exact ⟨hc.tracker, hc.scopes.removeBelow, hc.object, hc.populated, hc.snapshot, hc.backup⟩

theorem Sound.withScopes (hs : s.Sound false) : Sound { d with scopes := s } :=
  ⟨h.tracker, hs, h.object, h.populated, h.snapshot, h.backup⟩

theorem Sound.withValue (hw : ∃ fields, w = .obj fields) : Sound { d with value := w } :=
  ⟨h.tracker, h.scopes, hw, h.populated, h.snapshot, h.backup⟩

-- Values

theorem Sound.openChanges : d.openChanges.Sound := by
  rw [Document.openChanges]
  split
  · exact h
  · refine ⟨h.tracker, h.scopes, h.object, h.populated, h.snapshot, fun b hb => ?_⟩
    cases hb
    exact ⟨h.tracker, h.scopes, h.populated⟩

theorem Sound.keepTop (hp : p ≠ []) : (d.keepTop p).Sound := by
  rw [Document.keepTop]
  split
  · refine ⟨h.tracker, h.scopes, h.object, h.populated, fun q hq => ?_, h.backup⟩
    rw [OrdMap.get?_insert] at hq
    split at hq
    · case isTrue he => simpa [← he, Path.top] using hp
    · exact h.snapshot q hq
  · exact h

theorem Sound.write (hp : p ≠ []) : (d.write p v).2.Sound := by
  have hk := h.keepTop hp
  obtain ⟨fields, hf⟩ := hk.object
  exact hk.withValue (hf ▸ Value.set_object hp)

theorem Sound.attached : (d.attached p f).Sound :=
  h.withScopes (h.scopes.attachField h.scopes.innermost)

theorem Sound.noted : (d.noteArrayOp p g).Sound :=
  ⟨h.tracker, h.scopes, h.object, h.populated, h.snapshot, h.backup⟩

end

theorem stable_sound : Stable (· ≠ []) Sound where
  opened h := h.openChanges
  written hp h := h.write hp
  detached _ h := h.detached
  attached _ h := h.attached
  extended _ h := h.withScopes (h.scopes.attachItems h.scopes.innermost)
  noted _ h := h.noted
  marked _ h := h.markModified
  reported h := ⟨h.tracker, h.scopes, h.object, h.populated, h.snapshot, h.backup⟩

-- Removed items

theorem Sound.dropItem (h : d.Sound) : (d.dropItem p).Sound :=
  (h.withScopes h.scopes.removeBelow).eachTracker fun _ ht =>
    atPath_consistent ht fun _ => ht.forget.clearDescendants

theorem Sound.moveItem (h : d.Sound) : (d.moveItem p i j).Sound := by
  unfold Document.moveItem
  have hs : (d.scopes.rekey (p.index i) (p.index j)).Sound false := by
    refine h.scopes.rekey fun a ha => ?_
    -- What is above one item of an array is above all of them.
    have hcov : a.covers p := by
      obtain ⟨r, hr, he⟩ := Path.isAbove_iff.mp ha
      rcases eq_nil_or_concat r with rfl | ⟨r', x, rfl⟩
      · exact absurd rfl hr
      · rw [Path.index, concat_eq_append, ← append_assoc] at he
        exact Path.covers_iff.mpr ⟨r', (append_inj' he rfl).1⟩
    exact Path.covers_trans hcov (Path.covers_append _ _)
  refine Sound.eachTracker (h.withScopes hs) fun t ht => ?_
  split
  · exact ht.rekey
  · exact ht

-- References

theorem Sound.stood (h : d.Sound) (hp : p ≠ []) : Sound { d with populated := d.populated.insert p v } := by
  refine ⟨h.tracker, h.scopes, h.object, fun q hq => ?_, h.snapshot, h.backup⟩
  rw [OrdMap.get?_insert] at hq
  split at hq
  · case isTrue he => exact he ▸ hp
  · exact h.populated q hq

theorem Sound.vacated (h : d.Sound) : Sound { d with populated := d.populated.erase p } := by
  refine ⟨h.tracker, h.scopes, h.object, fun q hq => ?_, h.snapshot, h.backup⟩
  by_cases he : p = q
  · simp [he, OrdMap.get?_erase_self] at hq
  · rw [OrdMap.get?_erase_ne he] at hq
    exact h.populated q hq

theorem lasting_sound : Lasting (· ≠ []) Sound where
  toStable := stable_sound
  touched h := h.markModified
  unmarked h := h.unmarkModified
  dropped h := h.dropItem
  moved h := h.moveItem
  stood hp h := h.stood hp
  vacated h := h.vacated

-- Storing and undoing

theorem Sound.commit (h : d.Sound) : d.commit.Sound where
  tracker := h.tracker.moveAll.moveAll
  scopes := h.scopes.mapAll (fun _ => rfl) (fun _ => rfl) (by simp)
  object := h.object
  populated := h.populated
  snapshot := by simp [Document.commit]
  backup := by simp [Document.commit]

theorem restoreTop_object (he : e.1 ≠ []) (h : ∃ fields, v = .obj fields) : ∃ fields, restoreTop v e = .obj fields := by
  obtain ⟨fields, rfl⟩ := h
  obtain ⟨top, _ | old⟩ := e
  · exact Value.remove_object
  · exact Value.set_object he

theorem Sound.rollback (h : d.Sound) : d.rollback.Sound := by
  rw [Document.rollback]
  split
  · exact h
  · case _ b hb =>
    have ⟨ht, hs, hp⟩ := h.backup b hb
    refine ⟨ht, hs, ?_, hp, by simp, by simp⟩
    refine List.foldlRecOn (motive := fun v => ∃ fields, v = Value.obj fields) _ _ h.object
      fun v hv e he => restoreTop_object (h.snapshot e.1 ?_) hv
    exact OrdMap.mem_keys_iff.mp (mem_map_of_mem he)

end Document
end Dossier

import Dossier.Proofs.Rollback

-- Rolling back goes to where rolling back before the last writes would have gone, as far as no index stands in the
-- place of a key.

namespace Dossier
namespace Document

variable {d : Document}

-- Values are kept for top paths

def Topped (d : Document) : Prop :=
  ∀ p, (d.snapshot.get? p).isSome → ∃ seg, p = [seg]

theorem topped_of_empty (h : d.snapshot = ∅) : d.Topped := by
  simp [Topped, h]

theorem lasting_topped : Lasting (· ≠ []) Topped := by
  refine .of_core (fun he h p hp => h p (congrArg snapshot he ▸ hp)) (fun h => ?_) @fun d p v hp h q hq => ?_
  · rw [openChanges_eq]
    exact h
  · rw [write_eq] at hq
    dsimp only at hq
    rw [keepTop] at hq
    split at hq
    · rw [OrdMap.get?_insert] at hq
      split at hq
      · case isTrue he =>
        cases p with
        | nil => exact absurd rfl hp
        | cons seg rest => exact ⟨seg, he.symm⟩
      · exact h q hq
    · exact h q hq

theorem Topped.rollback (h : d.Topped) : d.rollback.Topped := by
  rw [Document.rollback]
  split
  · exact h
  · exact topped_of_empty rfl

theorem Topped.seedRequired (h : d.Topped) : d.seedRequired.Topped :=
  seedRequired_rec h fun _ hd => hd

theorem Reached.topped (h : d.Reached) : d.Topped :=
  h.lasts lasting_topped (fun _ _ _ _ _ hd => hd) (fun _ hd => hd.seedRequired) (fun _ _ _ hd => hd)
    (fun _ => topped_of_empty) fun _ hd => hd.rollback

-- What was open before

theorem restores_foldl (hs : Entries.Sorted fs) (ht : ∀ p, (kept.get? p).isSome → ∃ seg, p = [seg]) : ∃ gs,
      kept.entries.foldl restoreTop (.obj fs) = .obj gs ∧ Entries.Sorted gs ∧ Restores gs kept fs := by
  have hlt : kept.entries.Pairwise fun a b => compare a.1 b.1 = .lt :=
    List.pairwise_map.mp OrdMap.keys_pairwise
  have htops : ∀ e ∈ kept.entries, ∃ seg, e.1 = [seg] := by
    rintro ⟨p, o⟩ he
    exact ht p (by simp [OrdMap.mem_entries_iff.mp he])
  obtain ⟨gs, hfold, hg, hfree, hlast⟩ := Restores.foldl_restoreTop hs hlt htops
  simp only [OrdMap.mem_entries_iff] at hfree hlast
  refine ⟨gs, hfold, hg, hs, ht, fun seg hseg => ?_, fun k hk => ?_⟩
  · obtain ⟨o, ho⟩ := Option.isSome_iff_exists.mp hseg
    by_cases hi : ∃ i, (Seg.index i).toKey = seg.toKey ∧ (kept.get? [.index i]).isSome
    · obtain ⟨i, hkey, hi⟩ := hi
      obtain ⟨o', ho'⟩ := Option.isSome_iff_exists.mp hi
      refine ⟨.index i, hkey, ?_⟩
      rw [← hkey, hlast (.index i) o' ho' fun a b _ ha => ?_, ho']
      cases a with
      | key k => exact fun h => by cases h
      | index j => simp [Seg.index_toKey_injective ha, Std.ReflOrd.compare_self]
    · -- Only the key itself is kept.
      have hkey {a : Seg} {b : Option Value} (hb : kept.get? [a] = some b) (ha : a.toKey = seg.toKey) :
          a = .key seg.toKey := by
        cases a with
        | key k => exact congrArg Seg.key ha
        | index i => exact absurd ⟨i, ha, by simp [hb]⟩ hi
      refine ⟨seg, rfl, ?_⟩
      rw [hlast seg o ho fun a b hb ha => ?_, ho]
      rw [hkey hb ha, ← hkey ho rfl]
      simp [Std.ReflOrd.compare_self]
  · refine (hfree k fun a o ho ha => ?_).symm
    simp [hk a ha] at ho

theorem openSince_rollback (hd : d.Reached) (hv : d.value.Canonical)
    (hT : ∀ seg, (d.snapshot.get? [seg]).isSome → T seg) : OpenSince T d.rollback d.openChanges := by
  obtain ⟨fs, hfs⟩ := hd.sound.object
  have hs : Entries.Sorted fs := (hv.openFields (by rw [hfs]; rfl)).1
  cases hb : d.backup with
  | none =>
    rw [rollback_of_backup_none hb]
    exact .opened hb (hd.unkept hb) hfs hs
  | some b =>
    obtain ⟨gs, hfold, hg, hr⟩ := restores_foldl hs hd.topped
    rw [openChanges, hb, rollback, hb]
    refine ⟨rfl, rfl, rfl, rfl, hb, ⟨gs, fs, ?_, hg, hfs, hr⟩, hT⟩
    rw [hfs]
    exact hfold

theorem backup_rollback : d.rollback.backup = none := by
  rw [rollback]
  split
  · assumption
  · rfl

theorem Reached.snapshot_rollback (h : d.Reached) : d.rollback.snapshot = ∅ := by
  rw [rollback]
  split
  · case _ hb => exact h.unkept hb
  · rfl

-- Two ways back

-- What undoing changes that are open since `start` puts back at an index.
def putBack (start d : Document) (i : Nat) : Option Value :=
  (d.snapshot.get? [.index i]).getD (start.get? [.index i])

theorem OpenSince.rollback_value (h : OpenSince T start d) : ∃ gs fs', start.value = .obj gs ∧
    d.rollback.value = .obj fs' ∧ Entries.Sorted fs' ∧ (∀ i, Entries.get? (Seg.index i).toKey fs' = start.putBack d i) ∧
    ∀ k, (∀ i, (Seg.index i).toKey ≠ k) → Entries.get? k fs' = Entries.get? k gs := by
  obtain ⟨gs, fs, hstart, -, hd, hr⟩ := h.value
  obtain ⟨fs', hfold, hs', hindex, hrest⟩ := hr.foldl_spec
  refine ⟨gs, fs', hstart, ?_, hs', fun i => ?_, fun k hk => hrest k fun i hi => absurd hi (hk i)⟩
  · rw [rollback, h.backup]
    dsimp only
    rw [hd]
    exact hfold
  · rw [putBack, Document.get?, hstart, Value.get?_top]
    cases ho : d.snapshot.get? [.index i] with
    | some o => exact hindex i o ho
    | none =>
      refine hrest _ fun j hj => ?_
      rw [Seg.index_toKey_injective hj, ho]

theorem OpenSince.rollback_value_eq_iff (h : OpenSince T start d) (h' : OpenSince T' start d') :
    d.rollback.value = d'.rollback.value ↔ ∀ i, start.putBack d i = start.putBack d' i := by
  obtain ⟨gs, fs, hgs, hfs, hs, hindex, hrest⟩ := h.rollback_value
  obtain ⟨gs', fs', hgs', hfs', hs', hindex', hrest'⟩ := h'.rollback_value
  cases hgs.symm.trans hgs'
  rw [hfs, hfs']
  constructor
  · intro he i
    cases he
    rw [← hindex, ← hindex']
  · intro he
    congr 1
    refine Entries.sorted_ext hs hs' fun k => ?_
    by_cases hk : ∃ i, (Seg.index i).toKey = k
    · obtain ⟨i, rfl⟩ := hk
      rw [hindex, hindex', he]
    · have hk : ∀ i, (Seg.index i).toKey ≠ k := fun i hi => hk ⟨i, hi⟩
      rw [hrest k hk, hrest' k hk]

end Document
end Dossier

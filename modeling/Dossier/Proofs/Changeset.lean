import Dossier.Proofs.History
import Mathlib.Logic.ExistsUnique

-- A changeset has a change for each pending path that no other one is above, in the order of paths.

namespace Dossier

open List

namespace Path

def uppermost (ps : List Path) : List Path :=
  ps.filter fun p => ¬ ps.any fun a => a.isAbove p

variable {p : Path}

theorem mem_uppermost : p ∈ uppermost ps ↔ p ∈ ps ∧ ∀ a ∈ ps, ¬ a.isAbove p := by
  simp [uppermost]

theorem exists_uppermost (h : p ∈ ps) : ∃ c ∈ uppermost ps, c.covers p := by
  -- A path above another one is shorter.
  induction hn : p.length using Nat.strongRecOn generalizing p with
  | _ n ih =>
    by_cases ha : ∃ a ∈ ps, a.isAbove p
    · obtain ⟨a, ha, hap⟩ := ha
      have hlt : a.length < n := by
        obtain ⟨r, hr, rfl⟩ := isAbove_iff.mp hap
        have := length_pos_iff.mpr hr
        simp only [length_append] at hn
        omega
      obtain ⟨c, hc, hca⟩ := ih _ hlt ha rfl
      exact ⟨c, hc, covers_trans hca (covers_of_isAbove hap)⟩
    · exact ⟨p, mem_uppermost.mpr ⟨h, fun a ha' hap => ha ⟨a, ha', hap⟩⟩, covers_refl p⟩

theorem eq_of_uppermost (ha : a ∈ uppermost ps) (hb : b ∈ uppermost ps) (hap : a.covers p) (hbp : b.covers p) :
    a = b := by
  refine Decidable.byContradiction fun hne => ?_
  have ha := mem_uppermost.mp ha
  have hb := mem_uppermost.mp hb
  rcases covers_total hap hbp with hab | hba
  · exact hb.2 a ha.1 (isAbove_iff_covers.mpr ⟨hab, hne⟩)
  · exact ha.2 b hb.1 (isAbove_iff_covers.mpr ⟨hba, Ne.symm hne⟩)

theorem uppermost_apart (h : ps.Pairwise fun a b => compare a b = .lt) : (uppermost ps).Pairwise Apart := by
  have hlt : (uppermost ps).Pairwise fun a b => compare a b = .lt := h.filter _
  refine hlt.imp_of_mem fun {a b} ha hb hab => ?_
  have hne : a ≠ b := by
    rintro rfl
    simp [Std.ReflOrd.compare_self] at hab
  have ha := mem_uppermost.mp ha
  have hb := mem_uppermost.mp hb
  exact ⟨fun h => hb.2 a ha.1 (isAbove_iff_covers.mpr ⟨h, hne⟩),
    fun h => ha.2 b hb.1 (isAbove_iff_covers.mpr ⟨h, hne.symm⟩)⟩

end Path

namespace Document

variable {d : Document} {p : Path}

theorem mem_dirtyPaths (h : d.tracker.Consistent) : p ∈ d.dirtyPaths ↔
    d.stateOf? p = some .modify ∨ (d.stateOf? p = some .default ∧ ¬ Value.isNullish (d.get? p)) := by
  rw [dirtyPaths, OrdSet.mem_ofKeys]
  simp only [mem_append, mem_filter, h p, stateOf?]
  simp

theorem dirtyPaths_sorted : d.dirtyPaths.Pairwise fun a b => compare a b = .lt :=
  OrdMap.keys_pairwise

theorem changeset_paths : d.changeset.paths = Path.uppermost d.dirtyPaths := by
  simp [changeset, Changeset.paths, Path.uppermost, changeAt, Function.comp_def]

theorem changeset_sorted : d.changeset.paths.Pairwise fun a b => compare a b = .lt := by
  rw [changeset_paths]
  exact dirtyPaths_sorted.filter _

theorem changeset_apart : d.changeset.paths.Pairwise Path.Apart := by
  rw [changeset_paths]
  exact Path.uppermost_apart dirtyPaths_sorted

theorem mem_changeset : c ∈ d.changeset.changes ↔
    c = d.changeAt d.dirtyPaths c.path ∧ c.path ∈ d.dirtyPaths ∧ ∀ a ∈ d.dirtyPaths, ¬ a.isAbove c.path := by
  constructor
  · intro h
    obtain ⟨p, hp, rfl⟩ := mem_map.mp h
    exact ⟨rfl, Path.mem_uppermost.mp hp⟩
  · rintro ⟨he, hm⟩
    rw [he]
    exact mem_map_of_mem (Path.mem_uppermost.mpr hm)

theorem exists_change (h : p ∈ d.dirtyPaths) : ∃ c ∈ d.changeset.changes, c.path.covers p := by
  obtain ⟨c, hc, hcov⟩ := Path.exists_uppermost h
  exact ⟨_, mem_map_of_mem hc, hcov⟩

theorem incremental?_eq_some (h : d.incremental? dirty p = some op) : ∃ ops, d.arrayOps.get? p = some ops ∧
      d.isNew = false ∧ ops.replaced = false ∧ (∀ m ∈ dirty, ¬ p.isAbove m) ∧
      (ops.pushed ≠ [] ∧ ops.pulled = [] ∧ op = .push ops.pushed ∨
        ops.pushed = [] ∧ ops.pulled ≠ [] ∧ op = .pull ops.pulled) := by
  unfold incremental? at h
  split at h
  · cases h
  · case _ ops hops =>
    dsimp only at h
    split at h
    · cases h
    · case isFalse hn =>
      simp only [not_or, Bool.not_eq_true, List.any_eq_false, List.isEmpty_iff, not_and,
        Decidable.not_not] at hn
      obtain ⟨hnew, hrep, hmixed, hdirty⟩ := hn
      refine ⟨ops, hops, hnew, hrep, fun m hm => by simp [hdirty m hm], ?_⟩
      split at h
      · case isTrue hp =>
        cases h
        have hp : ops.pushed ≠ [] := by simpa using hp
        exact .inl ⟨hp, hmixed hp, rfl⟩
      · case isFalse hp =>
        split at h
        · case isTrue hl =>
          cases h
          exact .inr ⟨by simpa using hp, by simpa using hl, rfl⟩
        · cases h

theorem op_ne_unset (hc : c ∈ d.changeset.changes) (hv : (d.get? c.path).isSome) : c.op ≠ .unset := by
  obtain ⟨x, hx⟩ := Option.isSome_iff_exists.mp hv
  rw [(mem_changeset.mp hc).1, changeAt]
  dsimp only
  split
  · case _ op hop =>
    obtain ⟨_, -, -, -, -, ⟨-, -, rfl⟩ | ⟨-, -, rfl⟩⟩ := incremental?_eq_some hop <;> nofun
  · rw [hx]
    nofun

-- What is pending

def IsPending (d : Document) (p : Path) : Prop :=
  d.stateOf? p = some .modify ∨ (d.stateOf? p = some .default ∧ ¬ Value.isNullish (d.get? p))

-- The changeset of a document is a minimal cover of what is pending.
theorem changeset_covers_pending (h : d.Reached) : d.changeset.paths.Pairwise (fun a b => compare a b = .lt) ∧
    (∀ p ∈ d.changeset.paths, d.IsPending p ∧ ∀ a ∈ d.changeset.paths, ¬ a.isAbove p) ∧
    ∀ p, d.IsPending p → ∃! c, c ∈ d.changeset.paths ∧ c.covers p := by
  have hdirty {p : Path} : p ∈ d.dirtyPaths ↔ d.IsPending p := mem_dirtyPaths h.sound.tracker
  refine ⟨changeset_sorted, ?_⟩
  rw [changeset_paths]
  refine ⟨fun p hp => ?_, fun p hp => ?_⟩
  · obtain ⟨hp, hleast⟩ := Path.mem_uppermost.mp hp
    exact ⟨hdirty.mp hp, fun a ha => hleast a (Path.mem_uppermost.mp ha).1⟩
  · obtain ⟨c, hc, hcp⟩ := Path.exists_uppermost (hdirty.mpr hp)
    exact ⟨c, ⟨hc, hcp⟩, fun b ⟨hb, hbp⟩ => Path.eq_of_uppermost hb hc hbp hcp⟩

def towers : Schema :=
  ⟨{ id := false }, [([.key "floors"], .plain (.array (.plain .number))), ([.key "geo", .key "lat"], .plain .number),
    ([.key "use"], ⟨.string, { default := some (.literal (.str "none")) }⟩)], []⟩

-- A floor, the floors and a latitude are modified, and a default has been filled in.
theorem changeset_covers_pending_towers : ∃ start,
    (load towers (.obj [("floors", .arr [.int 1, .int 2])]) none).1 = .ok start ∧
    let d := (Call.runAll [.mark [.key "floors", .index 1], .mark [.key "floors"],
      .set [.key "geo", .key "lat"] (.int 5) {}] ⟨start, {}⟩).doc
    d.changeset.paths = [[.key "floors"], [.key "geo", .key "lat"], [.key "use"]] ∧
    d.IsPending [.key "floors", .index 1] ∧
    ∃! c, c ∈ d.changeset.paths ∧ c.covers [.key "floors", .index 1] := by
  have hload : (load towers (.obj [("floors", .arr [.int 1, .int 2])]) none).1 = .ok _ := rfl
  refine ⟨_, hload, by decide +kernel, .inl (by decide +kernel), ?_⟩
  obtain ⟨-, -, hcover⟩ := changeset_covers_pending ((Reached.loaded hload).runAll _)
  exact hcover _ (.inl (by decide +kernel))

end Document
end Dossier

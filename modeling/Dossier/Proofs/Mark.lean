import Dossier.Proofs.Sound

-- Where the mark of a path goes, and which marks stay when a value is replaced.

namespace Dossier

namespace Scopes

variable {s : Scopes} {Q : Scope → Prop}

-- A condition on scopes that does not look at their path states.
def Static (Q : Scope → Prop) : Prop :=
  ∀ scope t, Q scope → Q { scope with tracker := t }

theorem All.modify (h : s.All Q) (hq : Static Q) {f : Scope → Tracker} :
    (s.modify k fun scope => { scope with tracker := f scope }).All Q := by
  intro k' scope hs
  rw [get?_modify] at hs
  split at hs
  · obtain ⟨old, hold, rfl⟩ := Option.map_eq_some_iff.mp hs
    exact hq _ _ (h _ old hold)
  · exact h k' scope hs

theorem All.removeBelow (h : s.All Q) (hs : s.Sound full) : (s.removeBelow p).All Q :=
  fun k scope hk => h k scope (get?_removeBelow_of_some hs.tidy hs.rooted hk)

theorem All.rekey (h : s.All Q) (hs : s.Sound full) (hq : ∀ scope x, Q scope → Q { scope with root := new ++ x }) :
    (s.rekey old new).All Q := by
  have ⟨_, hstay, hmove, _⟩ := @rekey_spec s old new hs.tidy hs.rooted
  intro k scope hk
  by_cases hroot : ∃ x, s.keyAt? (old ++ x) = some k
  · obtain ⟨x, hx⟩ := hroot
    rw [hmove x k hx] at hk
    obtain ⟨before, hbefore, rfl⟩ := Option.map_eq_some_iff.mp hk
    exact hq before x (h k before hbefore)
  · rw [hstay k fun r hr hcov => ?_] at hk
    · exact h k scope hk
    · obtain ⟨x, rfl⟩ := Path.covers_iff.mp hcov
      exact hroot ⟨x, hr⟩

end Scopes

namespace Document

variable {d : Document} {p q : Path} {Q : Scope → Prop}

theorem eachTracker_all (h : d.scopes.All Q) (hq : Scopes.Static Q) : (d.eachTracker p f).scopes.All Q :=
  List.foldlRecOn _ _ h fun _ h _ _ => h.modify hq

theorem markModified_all (h : d.scopes.All Q) (hq : Scopes.Static Q) : (d.markModified p).scopes.All Q := by
  refine List.foldlRecOn (motive := fun ms : Path × Scopes => ms.2.All Q) _ _ h fun ms h k _ => ?_
  dsimp only
  split
  · exact h
  · exact h.modify hq

-- A scope gets the mark and passes it on, outwards.
def passMark (ms : Path × Scopes) (k : ScopeKey) : Path × Scopes :=
  match ms.2.get? k with
  | none => ms
  | some scope =>
    (if scope.isNew then scope.root else ms.1, ms.2.modify k fun scope =>
      { scope with tracker := atPath ms.1 (fun rel t => t.transition rel .modify) scope.root scope.tracker })

-- The mark of a path when all scopes around the path have got it, and the scopes then.
def passed (s : Scopes) (p : Path) : Path × Scopes :=
  (s.owners p).foldl passMark (p, s)

theorem markModified_eq : d.markModified p = { d with
    tracker := d.tracker.transition (passed d.scopes p).1 .modify
    scopes := (passed d.scopes p).2 } := rfl

theorem passed_mark (s : Scopes) (p : Path) : (passed s p).1 = p ∨ ∃ k ∈ s.owners p, ∃ scope,
    s.get? k = some scope ∧ scope.isNew ∧ scope.root = (passed s p).1 := by
  -- The scopes on the way keep their roots and stay new.
  let Same := fun s' : Scopes => ∀ k scope, s'.get? k = some scope →
    ∃ t, s.get? k = some { scope with tracker := t }
  let Goes := fun c : Path => c = p ∨ ∃ k ∈ s.owners p, ∃ scope,
    s.get? k = some scope ∧ scope.isNew ∧ scope.root = c
  refine (List.foldlRecOn (motive := fun ms : Path × Scopes => Goes ms.1 ∧ Same ms.2) _ _
    ⟨.inl rfl, fun k scope hs => ⟨scope.tracker, hs⟩⟩ ?_).1
  rintro ⟨mark, s'⟩ ⟨hgoes, hsame⟩ k hk
  rw [passMark]
  split
  · exact ⟨hgoes, hsame⟩
  · case _ scope hs =>
    obtain ⟨t, ht⟩ := hsame k scope hs
    refine ⟨?_, fun k' scope' hs' => ?_⟩
    · dsimp only
      split
      · case isTrue hnew => exact .inr ⟨k, hk, _, ht, hnew, rfl⟩
      · exact hgoes
    · rw [Scopes.get?_modify] at hs'
      split at hs'
      · case isTrue he =>
        subst he
        dsimp only at hs
        rw [hs] at hs'
        cases hs'
        exact ⟨t, ht⟩
      · exact hsame k' scope' hs'

theorem exists_owner_mark (d : Document) (p : Path) : ∃ c : Path,
    (d.markModified p).tracker = d.tracker.transition c .modify ∧
    (c = p ∨ ∃ k ∈ d.scopes.owners p, ∃ scope, d.scopes.get? k = some scope ∧ scope.isNew ∧ scope.root = c) :=
  ⟨_, rfl, passed_mark d.scopes p⟩

theorem exists_mark (h : d.scopes.Sound true) (p : Path) : ∃ c : Path, c.covers p ∧
    (d.markModified p).tracker = d.tracker.transition c .modify ∧
    (c = p ∨ ∃ k scope, d.scopes.get? k = some scope ∧ scope.isNew ∧ scope.root = c) := by
  obtain ⟨c, ht, rfl | ⟨k, hk, scope, hs, hnew, rfl⟩⟩ := exists_owner_mark d p
  · exact ⟨c, Path.covers_refl c, ht, .inl rfl⟩
  · obtain ⟨scope', hs', hroot⟩ := h.innermost _ k hk
    rw [hs] at hs'
    cases hs'
    exact ⟨_, hroot (.inr ⟨rfl, hnew⟩), ht, .inr ⟨k, scope, hs, hnew, rfl⟩⟩

theorem markValid_eq (d : Document) (p : Path) : ∃ issues, d.markValid p = { d with issues } := by
  rw [markValid]
  split
  · exact ⟨d.issues, rfl⟩
  · exact ⟨_, rfl⟩

theorem value_markValid : (d.markValid p).value = d.value := by
  obtain ⟨issues, he⟩ := markValid_eq d p
  rw [he]

theorem tracker_markValid : (d.markValid p).tracker = d.tracker := by
  obtain ⟨issues, he⟩ := markValid_eq d p
  rw [he]

theorem value_settled {modifies : Bool} : (d.settled p f modifies).value = d.value := by
  rw [settled, value_markValid]
  split <;> split <;> split <;> rfl

theorem detached_tracker : (d.detached p).tracker = d.tracker.clearDescendants p := by
  simp only [detached, clearTracking, clearIssuesBelow, eachTracker, atPath, Path.below?_root]

theorem stateOf?_detached : (d.detached p).stateOf? q = if p.isAbove q then none else d.stateOf? q := by
  rw [stateOf?, detached_tracker]
  exact Tracker.stateOf?_clearDescendants

theorem arrayOps_detached : (d.detached p).arrayOps.get? q = if p.isAbove q then none else d.arrayOps.get? q := by
  have : (d.detached p).arrayOps = d.arrayOps.filter fun q _ => ¬ p.isAbove q := rfl
  rw [this, OrdMap.get?_filter]
  by_cases h : p.isAbove q
  · cases d.arrayOps.get? q <;> simp [h, Option.filter]
  · cases d.arrayOps.get? q <;> simp [h, Option.filter]

def opsAt (d : Document) (p : Path) : ArrayOps :=
  (d.arrayOps.get? p).getD {}

theorem opsAt_detached : (d.detached p).opsAt q = if p.isAbove q then {} else d.opsAt q := by
  rw [opsAt, arrayOps_detached]
  split <;> rfl

theorem opsAt_noteArrayOp : (d.noteArrayOp p g).opsAt q = if p = q then g (d.opsAt q) else d.opsAt q := by
  rw [opsAt, noteArrayOp, OrdMap.get?_insert]
  split
  · case isTrue h => subst h; rfl
  · rfl

theorem opsAt_markModified : (d.markModified p).opsAt q = d.opsAt q := rfl

end Document
end Dossier

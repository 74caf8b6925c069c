import Dossier.Proofs.OrdMap
import Dossier.Proofs.Path
import Dossier.Tracker
import Mathlib.Data.List.Nodup
import Mathlib.Data.List.Perm.Subperm

-- What each operation does to the state of every path, and that the two views of a tracker agree whatever is done
-- to it.

namespace Dossier

open Path List

namespace Buckets

variable {b : Buckets} {s s' : PathState} {p q : Path}

theorem mem_add : q ∈ ((b.add s p).get s').keys ↔ (s = s' ∧ q = p) ∨ q ∈ (b.get s').keys := by
  by_cases hs : s = s'
  · subst hs
    simp [add, OrdSet.mem_add]
  · simp [add, get_set_ne b hs, hs]

theorem mem_drop : q ∈ ((b.drop s p).get s').keys ↔ ¬ (s = s' ∧ q = p) ∧ q ∈ (b.get s').keys := by
  by_cases hs : s = s'
  · subst hs
    simp [drop, OrdSet.mem_erase]
  · simp [drop, get_set_ne b hs, hs]

theorem mem_foldl_add {ps : List Path} : q ∈ ((ps.foldl (fun b p => b.add s p) b).get s').keys ↔
      (s = s' ∧ q ∈ ps) ∨ q ∈ (b.get s').keys := by
  induction ps generalizing b with
  | nil => simp
  | cons p ps ih =>
    simp only [foldl_cons, ih, mem_add, mem_cons]
    grind

end Buckets

namespace Tracker

variable {t : Tracker} {s s' : PathState} {p q : Path}

-- The paths in a state are those whose state it is.
def Consistent (t : Tracker) : Prop :=
  ∀ p s, p ∈ t.pathsIn s ↔ t.stateOf? p = some s

theorem Consistent.anyIn_iff (h : t.Consistent) : t.anyIn s ↔ ∃ p, t.stateOf? p = some s := by
  simp only [← h _ s, pathsIn, anyIn, OrdMap.keys, OrdMap.isEmpty, decide_eq_true_eq, List.isEmpty_iff]
  cases (t.buckets.get s).entries <;> simp

-- States after the operations

@[simp] theorem stateOf?_empty : Tracker.empty.stateOf? p = none := rfl

theorem stateOf?_transition : (t.transition p s).stateOf? q = if p = q then some s else t.stateOf? q := by
  have : (t.transition p s).states = t.states.insert p s := by
    simp only [transition]
    split
    · rfl
    · split <;> rfl
  rw [stateOf?, this, OrdMap.get?_insert]
  rfl

theorem stateOf?_forget : (t.forget p).stateOf? q = if p = q then none else t.stateOf? q := by
  simp only [forget, clearPath]
  split
  · case _ h =>
    split
    · case isTrue hp => rw [← hp, h]
    · rfl
  · split
    · case isTrue hp => rw [← hp]; exact OrdMap.get?_erase_self
    · case isFalse hp => exact OrdMap.get?_erase_ne hp

theorem stateOf?_foldl_forget {ps : List Path} :
    (ps.foldl forget t).stateOf? q = if q ∈ ps then none else t.stateOf? q := by
  induction ps generalizing t with
  | nil => simp
  | cons p ps ih =>
    simp only [foldl_cons, ih, stateOf?_forget, mem_cons]
    grind

theorem mem_descendants : q ∈ t.descendants p ↔ p.isAbove q ∧ (t.stateOf? q).isSome := by
  simp only [descendants, mem_filter, OrdMap.mem_keys_iff, stateOf?, and_comm]

theorem stateOf?_clearDescendants : (t.clearDescendants p).stateOf? q = if p.isAbove q then none else t.stateOf? q := by
  rw [clearDescendants, stateOf?_foldl_forget]
  simp only [mem_descendants]
  cases t.stateOf? q <;> simp

def moveEntry (old new : Path) (t : Tracker) (e : Path × PathState) : Tracker :=
  match e.1.rebase? old new with
  | some p => t.transition p e.2
  | none => t

-- Moves the given paths, in the order of the list, to the same places at and below `new`.
def move (t : Tracker) (es : List (Path × PathState)) (old new : Path) : Tracker :=
  es.foldl (moveEntry old new) (es.foldl (fun t e => t.forget e.1) t)

section Move

variable {old new : Path} {es : List (Path × PathState)}

theorem rekey_eq_move (h : old ≠ new) : t.rekey old new = t.move (t.entries.filter fun e => old.covers e.1) old new :=
  if_neg h

theorem stateOf?_foldl_moveEntry (t' : Tracker) (new q : Path)
    (hes : ∀ e ∈ es, t.stateOf? e.1 = some e.2 ∧ old.covers e.1) : (es.foldl (moveEntry old new) t').stateOf? q =
      if q ∈ es.filterMap fun e => e.1.rebase? old new then (q.rebase? new old).bind t.stateOf? else t'.stateOf? q := by
  induction es generalizing t' with
  | nil => simp
  | cons e es ih =>
    obtain ⟨p, s⟩ := e
    obtain ⟨⟨hs, hc⟩, hrest⟩ := forall_mem_cons.mp hes
    obtain ⟨x, rfl⟩ := covers_iff.mp hc
    have hto : (old ++ x).rebase? old new = some (new ++ x) := rebase?_eq_some_iff.mpr ⟨x, rfl, rfl⟩
    simp only [foldl_cons, ih _ hrest, moveEntry, hto, stateOf?_transition, filterMap_cons, mem_cons]
    by_cases hq : q = new ++ x
    · have hback : q.rebase? new old = some (old ++ x) := rebase?_eq_some_iff.mpr ⟨x, hq, rfl⟩
      simp [hq.symm, hback, hs]
    · grind

-- Only what is in the list counts, not where it is: an entry says what its path was in before.
theorem stateOf?_move (new : Path) (hes : ∀ e, e ∈ es ↔ t.stateOf? e.1 = some e.2 ∧ old.covers e.1) :
    (∀ x s, t.stateOf? (old ++ x) = some s → (t.move es old new).stateOf? (new ++ x) = some s) ∧
    ∀ q, (∀ x s, t.stateOf? (old ++ x) = some s → new ++ x ≠ q) →
      (t.move es old new).stateOf? q = if old.covers q then none else t.stateOf? q := by
  have hmoved := fun q => stateOf?_foldl_moveEntry (es.foldl (fun t e => t.forget e.1) t) new q
    fun e he => (hes e).mp he
  refine ⟨fun x s hs => ?_, fun q hq => ?_⟩
  · have hin := (hes (old ++ x, s)).mpr ⟨hs, covers_append old x⟩
    rw [move, hmoved, if_pos (mem_filterMap.mpr ⟨_, hin, rebase?_eq_some_iff.mpr ⟨x, rfl, rfl⟩⟩)]
    simp [Path.rebase?, hs]
  · rw [move, hmoved, if_neg, ← foldl_map, stateOf?_foldl_forget]
    · cases hs : t.stateOf? q with
      | none => simp
      | some s =>
        have hmem : q ∈ es.map (·.1) ↔ old.covers q := by
          refine ⟨fun h => ?_, fun hc => mem_map.mpr ⟨(q, s), (hes _).mpr ⟨hs, hc⟩, rfl⟩⟩
          obtain ⟨e, he, rfl⟩ := mem_map.mp h
          exact ((hes e).mp he).2
        simp only [hmem]
    · intro hm
      obtain ⟨e, he, hto⟩ := mem_filterMap.mp hm
      obtain ⟨x, hx, rfl⟩ := rebase?_eq_some_iff.mp hto
      exact hq x e.2 (hx ▸ ((hes e).mp he).1) rfl

theorem mem_moved {e : Path × PathState} :
    e ∈ t.entries.filter (fun e => old.covers e.1) ↔ t.stateOf? e.1 = some e.2 ∧ old.covers e.1 := by
  rw [mem_filter, entries, OrdMap.mem_entries_iff]
  rfl

theorem stateOf?_rekey (hne : old ≠ new) :
    (∀ x s, t.stateOf? (old ++ x) = some s → (t.rekey old new).stateOf? (new ++ x) = some s) ∧
    ∀ q, (∀ x s, t.stateOf? (old ++ x) = some s → new ++ x ≠ q) →
      (t.rekey old new).stateOf? q = if old.covers q then none else t.stateOf? q := by
  rw [rekey_eq_move hne]
  exact stateOf?_move new fun _ => mem_moved

theorem stateOf?_of_rekey (h : (t.rekey old new).stateOf? q = some s) : new.covers q ∨ t.stateOf? q = some s := by
  by_cases he : old = new
  · exact .inr (by rwa [rekey, if_pos he] at h)
  · by_cases hc : new.covers q
    · exact .inl hc
    · rw [(stateOf?_rekey he).2 q fun x _ _ hx => hc (hx ▸ covers_append new x)] at h
      exact .inr (Option.ite_none_left_eq_some.mp h).2

end Move

-- The two views

theorem consistent_empty : Tracker.empty.Consistent := by
  intro p s
  cases s <;> simp [pathsIn, empty, Buckets.get, stateOf?]

section

variable (h : t.Consistent)

include h

theorem Consistent.transition : (t.transition p s).Consistent := by
  intro q s'
  rw [stateOf?_transition]
  simp only [Tracker.transition, pathsIn]
  split
  · case _ hp =>
    rw [Buckets.mem_add, ← pathsIn, h q s']
    grind
  · case _ old hp =>
    split
    · case isTrue ho =>
      subst ho
      change q ∈ t.pathsIn s' ↔ _
      rw [h q s']
      grind
    · case isFalse ho =>
      rw [Buckets.mem_add, Buckets.mem_drop, ← pathsIn, h q s']
      grind

theorem Consistent.forget : (t.forget p).Consistent := by
  intro q s
  rw [stateOf?_forget]
  simp only [Tracker.forget, clearPath]
  split
  · case _ hp =>
    rw [h q s]
    grind
  · case _ old hp =>
    simp only [pathsIn]
    rw [Buckets.mem_drop, ← pathsIn, h q s]
    grind

theorem Consistent.clearDescendants : (t.clearDescendants p).Consistent :=
  List.foldlRecOn _ _ h fun _ h _ _ => h.forget

theorem Consistent.move : (t.move es old new).Consistent := by
  refine List.foldlRecOn _ _ (List.foldlRecOn es _ h fun _ h _ _ => h.forget) fun t h e _ => ?_
  rw [moveEntry]
  split
  · exact h.transition
  · exact h

theorem Consistent.rekey : (t.rekey old new).Consistent := by
  by_cases he : old = new
  · rwa [Tracker.rekey, if_pos he]
  · rw [rekey_eq_move he]
    exact h.move

theorem Consistent.clear : (t.clear s).Consistent := by
  intro p s'
  have hstate : (t.clear s).stateOf? p = if t.stateOf? p = some s then none else t.stateOf? p := by
    refine OrdMap.get?_foldl_erase.trans ?_
    simp only [h p s]
    rfl
  rw [hstate]
  by_cases hs : s = s'
  · subst hs
    simp [Tracker.clear, pathsIn]
  · rw [Tracker.clear, pathsIn, Buckets.get_set_ne _ hs, ← pathsIn, h p s']
    grind

theorem stateOf?_moveAll : (t.moveAll s s').stateOf? p =
    if t.stateOf? p = some s then some s' else t.stateOf? p := by
  rw [moveAll]
  split
  · case isTrue hs => subst hs; grind
  · refine OrdMap.get?_foldl_insert.trans ?_
    simp only [h p s]
    rfl

end

theorem mem_pathsIn_moveAll (hs : s ≠ s') : p ∈ (t.moveAll s s').pathsIn r ↔
    (s' = r ∧ p ∈ t.pathsIn s) ∨ (s ≠ r ∧ p ∈ t.pathsIn r) := by
  simp only [moveAll, hs, if_false, pathsIn]
  rw [Buckets.mem_foldl_add]
  by_cases hr : s = r
  · subst hr
    simp [Buckets.get_set_self]
  · simp [Buckets.get_set_ne _ hr, hr]

theorem Consistent.moveAll (h : t.Consistent) : (t.moveAll s s').Consistent := by
  intro p r
  rw [stateOf?_moveAll h]
  by_cases hs : s = s'
  · rw [Tracker.moveAll, if_pos hs, h p r, ← hs]
    grind
  · rw [mem_pathsIn_moveAll hs, h p s, h p r]
    grind

theorem Consistent.ext (h : t.Consistent) (h' : t'.Consistent) (hs : ∀ p, t.stateOf? p = t'.stateOf? p) : t = t' := by
  have hbucket : ∀ s, t.buckets.get s = t'.buckets.get s := fun s => OrdSet.ext_mem fun p => by
    rw [← pathsIn, ← pathsIn, h p s, h' p s, hs p]
  cases t with
  | mk states buckets =>
    cases t' with
    | mk states' buckets' =>
      cases buckets
      cases buckets'
      rw [Tracker.mk.injEq, Buckets.mk.injEq]
      exact ⟨OrdMap.ext_get? hs, hbucket .require, hbucket .modify, hbucket .init, hbucket .default, hbucket .ignore⟩

-- All paths of the buckets, one bucket after the other.
def bucketed (t : Tracker) : List Path :=
  PathState.all.flatMap t.pathsIn

theorem mem_bucketed : p ∈ t.bucketed ↔ ∃ s, p ∈ t.pathsIn s := by
  refine mem_flatMap.trans (exists_congr fun s => and_iff_right ?_)
  cases s <;> decide

-- If the buckets hold nothing wrong, what they miss shows in the number of their paths.
theorem isConsistent_iff : t.isConsistent ↔ t.Consistent := by
  have hcount : PathState.all.foldl (fun n s => n + (t.buckets.get s).size) 0 = t.bucketed.length := by
    simp [PathState.all, bucketed, pathsIn, OrdMap.keys, OrdMap.size, Nat.add_assoc]
  have hright : (PathState.all.all fun s => (t.pathsIn s).all fun p => t.isIn p s) ↔
      ∀ p s, p ∈ t.pathsIn s → t.stateOf? p = some s := by
    simp only [all_eq_true, isIn, decide_eq_true_eq]
    exact ⟨fun h p s => h s (by cases s <;> decide) p, fun h s _ p => h p s⟩
  have hsize : t.states.size = t.states.keys.length := by simp [OrdMap.size, OrdMap.keys]
  rw [isConsistent, Bool.and_eq_true, beq_iff_eq, hcount, hright, hsize]
  have htracked : ∀ {p}, p ∈ t.states.keys ↔ ∃ s, t.stateOf? p = some s :=
    OrdMap.mem_keys_iff.trans Option.isSome_iff_exists
  have hnodup : (∀ p s, p ∈ t.pathsIn s → t.stateOf? p = some s) → t.bucketed.Nodup := by
    intro hright
    refine nodup_flatMap.mpr ⟨fun s _ => OrdMap.nodup_keys, ?_⟩
    refine List.Pairwise.imp (R := (· ≠ ·)) (fun hne p hp hp' => hne ?_) (by decide)
    exact Option.some.inj ((hright p _ hp).symm.trans (hright p _ hp'))
  constructor
  · rintro ⟨hlen, hright⟩ p s
    refine ⟨hright p s, fun hs => ?_⟩
    have hsub : t.bucketed ⊆ t.states.keys := fun q hq =>
      htracked.mpr ((mem_bucketed.mp hq).imp fun s => hright q s)
    have hperm := ((hnodup hright).subperm hsub).perm_of_length_le (Nat.le_of_eq hlen.symm)
    obtain ⟨s', hp⟩ := mem_bucketed.mp (hperm.mem_iff.mpr (htracked.mpr ⟨s, hs⟩))
    cases hs.symm.trans (hright p s' hp)
    exact hp
  · intro h
    have hright : ∀ p s, p ∈ t.pathsIn s → t.stateOf? p = some s := fun p s => (h p s).mp
    refine ⟨List.Perm.length_eq ((perm_ext_iff_of_nodup (hnodup hright) OrdMap.nodup_keys).mpr fun p => ?_), hright⟩
    rw [mem_bucketed, htracked]
    exact exists_congr (h p)

-- Runs

inductive Update where
  | transition (p : Path) (s : PathState)
  | clear (s : PathState)
  | moveAll (src dst : PathState)
  | clearPath (p : Path)
  | clearDescendants (p : Path)
  | rekey (old new : Path)

def update (t : Tracker) : Update → Tracker
  | .transition p s => t.transition p s
  | .clear s => t.clear s
  | .moveAll src dst => t.moveAll src dst
  | .clearPath p => (t.clearPath p).2
  | .clearDescendants p => t.clearDescendants p
  | .rekey old new => t.rekey old new

theorem Consistent.update (h : t.Consistent) (u : Update) : (t.update u).Consistent := by
  cases u with
  | transition => exact h.transition
  | clear => exact h.clear
  | moveAll => exact h.moveAll
  | clearPath => exact h.forget
  | clearDescendants => exact h.clearDescendants
  | rekey => exact h.rekey

-- After every run the two views agree, and moving a subtree gives the same whatever order its paths are taken in.
theorem views_agree (updates : List Update) : let t := updates.foldl update .empty
    (∀ p s, p ∈ t.pathsIn s ↔ t.stateOf? p = some s) ∧
    (∀ p s s', p ∈ t.pathsIn s → p ∈ t.pathsIn s' → s = s') ∧
    (∀ old new es, old ≠ new → es.Perm (t.entries.filter fun e => old.covers e.1) → t.rekey old new = t.move es old new ∧
      (∀ rel s, t.stateOf? (old ++ rel) = some s → (t.rekey old new).stateOf? (new ++ rel) = some s) ∧
      ∀ q, (∀ rel s, t.stateOf? (old ++ rel) = some s → new ++ rel ≠ q) →
        (t.rekey old new).stateOf? q = if old.covers q then none else t.stateOf? q) ∧
    ∀ t : Tracker, t.isConsistent ↔ ∀ p s, p ∈ t.pathsIn s ↔ t.stateOf? p = some s := by
  intro t
  have h : t.Consistent := List.foldlRecOn _ _ consistent_empty fun _ h u _ => h.update u
  refine ⟨h, fun p s s' hs hs' => ?_, fun old new es hne hes => ⟨?_, stateOf?_rekey hne⟩, fun _ => isConsistent_iff⟩
  · exact Option.some.inj (((h p s).mp hs).symm.trans ((h p s').mp hs'))
  · have hmem : ∀ e, e ∈ es ↔ t.stateOf? e.1 = some e.2 ∧ old.covers e.1 := fun e => hes.mem_iff.trans mem_moved
    have hsame := stateOf?_move new hmem
    refine h.rekey.ext h.move fun q => ?_
    by_cases hq : ∃ x s, t.stateOf? (old ++ x) = some s ∧ new ++ x = q
    · obtain ⟨x, s, hs, rfl⟩ := hq
      rw [(stateOf?_rekey hne).1 x s hs, hsame.1 x s hs]
    · have hq : ∀ x s, t.stateOf? (old ++ x) = some s → new ++ x ≠ q := fun x s hs he => hq ⟨x, s, hs, he⟩
      rw [(stateOf?_rekey hne).2 q hq, hsame.2 q hq]

theorem views_agree_nested : let a : Path := [.key "a"]
    let t := [Update.transition a .init, .transition (a ++ a) .modify].foldl update .empty
    t.rekey a (a ++ a) = t.move [(a ++ a, .modify), (a, .init)] a (a ++ a) ∧
      (t.rekey a (a ++ a)).stateOf? (a ++ a) = some .init ∧ (t.rekey a (a ++ a)).stateOf? a = none := by
  obtain ⟨-, -, h, -⟩ := views_agree [.transition [.key "a"] .init, .transition [.key "a", .key "a"] .modify]
  obtain ⟨hmove, htaken, hother⟩ := h [.key "a"] [.key "a", .key "a"] _ (by decide) (List.Perm.swap _ _ [])
  exact ⟨hmove, htaken [] .init rfl, hother [.key "a"] (by simp)⟩

end Tracker
end Dossier

import Dossier.Proofs.History
import Dossier.Proofs.Mark
import Dossier.Proofs.Nesting

-- As far as embedded documents are stored, what is marked in one is marked in the document too, and the other way
-- round.

namespace Dossier

open Path List

namespace Tracker

variable {t inner outer : Tracker} {p q r x : Path}

def Marks (t : Tracker) (p : Path) : Prop :=
  t.stateOf? p = some .modify

theorem marks_iff_isIn : t.Marks p ↔ t.isIn p .modify = true := by
  simp [Marks, isIn]

theorem marks_transition : (t.transition p .modify).Marks q ↔ p = q ∨ t.Marks q := by
  rw [Marks, stateOf?_transition]
  split
  · case isTrue h => simp [h]
  · case isFalse h => simp [h, Marks]

theorem marks_transition_ne {s : PathState} (hs : s ≠ .modify) : (t.transition p s).Marks q ↔ p ≠ q ∧ t.Marks q := by
  rw [Marks, stateOf?_transition]
  split
  · case isTrue h => simp [h, hs]
  · case isFalse h => simp [h, Marks]

-- Moved states

theorem marks_rekey {old new : Path} (ha : old.Apart new) (hv : ∀ x, ¬ t.Marks (new ++ x)) :
    (∀ x, (t.rekey old new).Marks (new ++ x) ↔ t.Marks (old ++ x)) ∧ (∀ x, ¬ (t.rekey old new).Marks (old ++ x)) ∧
    ∀ q, ¬ old.covers q → ¬ new.covers q → ((t.rekey old new).Marks q ↔ t.Marks q) := by
  have hne : old ≠ new := by
    rintro rfl
    exact ha.1 (covers_refl old)
  obtain ⟨hmoved, hother⟩ := stateOf?_rekey (t := t) hne
  have hout : ∀ q, ¬ new.covers q →
      (t.rekey old new).stateOf? q = if old.covers q then none else t.stateOf? q :=
    fun q hq => hother q fun x _ _ he => hq (he ▸ covers_append new x)
  refine ⟨fun x => ?_, fun x => ?_, fun q ho hn => ?_⟩
  · cases hs : t.stateOf? (old ++ x) with
    | some s => rw [Marks, Marks, hmoved x s hs, hs]
    | none =>
      have hempty : ∀ y s, t.stateOf? (old ++ y) = some s → new ++ y ≠ new ++ x := by
        rintro y s hy he
        cases append_cancel_left he
        rw [hs] at hy
        cases hy
      rw [Marks, Marks, hs, hother _ hempty]
      have := hv x
      split
      · simp
      · simpa [Marks] using this
  · have hnew : ¬ new.covers (old ++ x) := fun hc =>
      (covers_total hc (covers_append old x)).elim ha.2 ha.1
    rw [Marks, hout _ hnew, if_pos (covers_append old x)]
    simp
  · rw [Marks, hout q hn, if_neg (by simpa using ho)]
    rfl

-- Two trackers

-- What is marked in one tracker, below its root, is what is marked in the other one at the paths that start with
-- the root `r`.
def Reflects (inner : Tracker) (r : Path) (outer : Tracker) : Prop :=
  ∀ rel, rel ≠ [] → (inner.Marks rel ↔ outer.Marks (r ++ rel))

theorem Reflects.transition (h : inner.Reflects r outer) :
    (inner.transition x .modify).Reflects r (outer.transition (r ++ x) .modify) := by
  intro rel hrel
  rw [marks_transition, marks_transition, h rel hrel, append_cancel_left_eq]

theorem Reflects.transition_out (h : inner.Reflects r outer) (hp : ¬ r.isAbove p) :
    inner.Reflects r (outer.transition p .modify) := by
  intro rel hrel
  rw [marks_transition, h rel hrel, or_iff_right]
  rintro rfl
  exact hp (isAbove_iff.mpr ⟨rel, hrel, rfl⟩)

-- A change of path states that takes marks back: those at paths that stand in the relation `C` to a given one.
structure Withdraws (f : Path → Tracker → Tracker) (C : Path → Path → Prop) : Prop where
  marks      : ∀ {p t q}, (f p t).Marks q ↔ t.Marks q ∧ ¬ C p q
  consistent : ∀ {p t}, t.Consistent → (f p t).Consistent
  shift      : ∀ {r p q : Path}, C (r ++ p) (r ++ q) ↔ C p q

variable {f : Path → Tracker → Tracker} {C : Path → Path → Prop}

theorem Reflects.withdraw (h : inner.Reflects r outer) (hf : Withdraws f C) :
    (f x inner).Reflects r (f (r ++ x) outer) := by
  intro rel hrel
  rw [hf.marks, hf.marks, h rel hrel, hf.shift]

theorem Reflects.withdraw_out (h : inner.Reflects r outer) (hf : Withdraws f C)
    (hp : ∀ rel, rel ≠ [] → ¬ C p (r ++ rel)) : inner.Reflects r (f p outer) := by
  intro rel hrel
  rw [hf.marks, h rel hrel, and_iff_left (hp rel hrel)]

theorem withdraws_unmark :
    Withdraws (fun p t => if t.isIn p .modify then t.transition p .init else t) (· = ·) where
  marks {p t q} := by
    split
    · exact marks_transition_ne (by simp) |>.trans and_comm
    · case isFalse h =>
      rw [← marks_iff_isIn] at h
      refine (and_iff_left_of_imp fun hq => ?_).symm
      rintro rfl
      exact h hq
  consistent h := by
    split
    · exact h.transition
    · exact h
  shift := append_right_inj _

theorem withdraws_clearDescendants : Withdraws (fun p t => t.clearDescendants p) (Path.isAbove · ·) where
  marks {p t q} := by
    rw [Marks, stateOf?_clearDescendants]
    split
    · case isTrue h => simp [h]
    · case isFalse h => simp [h, Marks]
  consistent h := h.clearDescendants
  shift := append_isAbove_append

theorem withdraws_drop : Withdraws (fun p t => (t.forget p).clearDescendants p) (Path.covers · ·) where
  marks {p t q} := by
    rw [Marks, stateOf?_clearDescendants, stateOf?_forget]
    split
    · case isTrue h => simp [covers_of_isAbove h]
    · case isFalse h =>
      split
      · case isTrue he => simp [he]
      · case isFalse he =>
        have hc : ¬ p.covers q := fun hc => (eq_or_isAbove_of_covers hc).elim he h
        simp [hc, Marks]
  consistent h := h.forget.clearDescendants
  shift := by simp [append_covers_append]

theorem Reflects.rekey {i j : Nat} (h : inner.Reflects r outer) (hij : i ≠ j)
    (hv : ∀ y, ¬ outer.Marks (Path.index (r ++ x) j ++ y)) : (inner.rekey (x.index i) (x.index j)).Reflects r
      (outer.rekey (Path.index (r ++ x) i) (Path.index (r ++ x) j)) := by
  have hshift : ∀ n, Path.index (r ++ x) n = r ++ x.index n := fun n => append_assoc ..
  have hne : ∀ n y, x.index n ++ y ≠ [] := fun n y => by simp [Path.index]
  rw [hshift] at hv
  rw [hshift, hshift]
  obtain ⟨hi₁, hi₂, hi₃⟩ := marks_rekey (t := inner) (index_apart hij) fun y hy =>
    hv y (by rw [append_assoc]; exact (h _ (hne j y)).mp hy)
  obtain ⟨ho₁, ho₂, ho₃⟩ := marks_rekey (t := outer) (append_apart (index_apart hij)) hv
  intro rel hrel
  by_cases hj : (x.index j).covers rel
  · obtain ⟨y, rfl⟩ := covers_iff.mp hj
    rw [hi₁, ← append_assoc, ho₁, append_assoc]
    exact h _ (hne i y)
  by_cases hi : (x.index i).covers rel
  · obtain ⟨y, rfl⟩ := covers_iff.mp hi
    rw [← append_assoc]
    exact iff_of_false (hi₂ y) (ho₂ y)
  · rw [hi₃ rel hi hj, ho₃ _ (by rwa [append_covers_append]) (by rwa [append_covers_append])]
    exact h rel hrel

end Tracker

namespace Scopes

open Document (atPath passMark passed)

variable {s s' : Scopes} {t : Tracker} {k : ScopeKey} {scope scope' : Scope} {p q r : Path}
  {f g : Path → Tracker → Tracker} {C : Path → Path → Prop}

-- Scopes and the document

def Stored (s : Scopes) (r : Path) : Prop :=
  ∀ a k scope, Path.covers a r → s.keyAt? a = some k → s.get? k = some scope → ¬ scope.isNew

-- As far as scopes are stored, their trackers reflect that of the document.
structure Mirrors (s : Scopes) (t : Tracker) : Prop where
  nested     : s.Nested
  consistent : s.All (·.tracker.Consistent)
  reflects   : ∀ {r k scope}, s.keyAt? r = some k → s.get? k = some scope → s.Stored r →
    scope.tracker.Reflects r t

theorem Stored.of_kept {r' : Path} (h : s'.Stored r') (hk : ∀ a k scope, Path.covers a r →
    s.keyAt? a = some k → s.get? k = some scope → ∃ a' scope', Path.covers a' r' ∧
      s'.keyAt? a' = some k ∧ s'.get? k = some scope' ∧ scope'.isNew = scope.isNew) : s.Stored r := by
  intro a k scope ha hr hs
  obtain ⟨a', scope', ha', hr', hs', hnew⟩ := hk a k scope ha hr hs
  exact hnew ▸ h a' k scope' ha' hr' hs'

def eachOwner (s : Scopes) (p : Path) (g : Path → Tracker → Tracker) : Scopes :=
  (s.owners p).foldl (fun s k => s.modify k fun scope =>
    { scope with tracker := g scope.root scope.tracker }) s

theorem All.modify_consistent {g : Scope → Tracker} (h : s.All (·.tracker.Consistent))
    (hg : ∀ scope, scope.tracker.Consistent → (g scope).Consistent) :
    (s.modify k fun scope => { scope with tracker := g scope }).All (·.tracker.Consistent) := by
  intro k' scope' hs'
  rw [get?_modify] at hs'
  split at hs'
  · obtain ⟨scope, hs, rfl⟩ := Option.map_eq_some_iff.mp hs'
    exact hg scope (h _ scope hs)
  · exact h k' scope' hs'

theorem All.eachOwner_consistent (h : s.All (·.tracker.Consistent)) (hg : ∀ r t, t.Consistent → (g r t).Consistent) :
    (s.eachOwner p g).All (·.tracker.Consistent) :=
  List.foldlRecOn _ _ h fun _ h _ _ => h.modify_consistent fun scope => hg scope.root scope.tracker

theorem foldl_modify {ks : List ScopeKey} {g : Scope → Scope} (hn : ks.Nodup) :
    let t := ks.foldl (fun s k => s.modify k g) s
    (∀ r, t.keyAt? r = s.keyAt? r) ∧
    ∀ k, t.get? k = if k ∈ ks then (s.get? k).map g else s.get? k := by
  induction ks generalizing s with
  | nil => simp
  | cons k₀ ks ih =>
    obtain ⟨hk₀, hn⟩ := nodup_cons.mp hn
    obtain ⟨hkey, hget⟩ := ih (s := s.modify k₀ g) hn
    refine ⟨fun r => (hkey r).trans keyAt?_modify, fun k => ?_⟩
    rw [foldl_cons, hget, get?_modify]
    by_cases hk : k = k₀
    · subst hk
      simp [hk₀]
    · simp [hk]

namespace Nested

variable (h : s.Nested)
include h

theorem nodup_owners : (s.owners p).Nodup :=
  h.owners_eq ▸ h.nodup_enclosing

theorem keyAt?_eachOwner : (s.eachOwner p g).keyAt? r = s.keyAt? r :=
  (foldl_modify h.nodup_owners).1 r

theorem get?_eachOwner (hr : s.keyAt? r = some k) (hs : s.get? k = some scope) : (s.eachOwner p g).get? k =
      some { scope with tracker := if r.isAbove p then g r scope.tracker else scope.tracker } := by
  rw [eachOwner, (foldl_modify h.nodup_owners).2, hs]
  simp only [h.mem_owners_iff hr]
  split
  · rw [Option.map_some, h.keyAt?_root hr hs]
  · rfl

theorem eachOwner : (s.eachOwner p g).Nested := by
  refine h.of_get? (List.foldlRecOn _ _ h.sound fun _ h _ _ => h.modify) (fun r => h.keyAt?_eachOwner)
    fun k scope' hs' => ?_
  rw [Scopes.eachOwner, (foldl_modify h.nodup_owners).2] at hs'
  split at hs'
  · obtain ⟨scope, hs, rfl⟩ := Option.map_eq_some_iff.mp hs'
    exact ⟨scope, hs, rfl⟩
  · exact ⟨scope', hs', rfl⟩

theorem exists_scope (hr : s.keyAt? r = some k) : ∃ scope, s.get? k = some scope := by
  obtain ⟨scope, hs, -⟩ := h.sound.rooted _ _ hr
  exact ⟨scope, hs⟩

end Nested

-- Scopes are gone with those inside of them, and a change was made to the trackers of the scopes around a path.
structure Thinned (p : Path) (g : Path → Tracker → Tracker) (s s' : Scopes) : Prop where
  nested : s'.Nested
  kept   : ∀ {r k scope'}, s'.keyAt? r = some k → s'.get? k = some scope' → ∃ scope,
    s.keyAt? r = some k ∧ s.get? k = some scope ∧
      scope' = { scope with tracker := if r.isAbove p then g r scope.tracker else scope.tracker }
  around : ∀ {r k a k'}, s'.keyAt? r = some k → Path.covers a r → s.keyAt? a = some k' →
    s'.keyAt? a = some k'

theorem Nested.thinned (h : s.Nested) : Thinned p g s (s.eachOwner p g) where
  nested := h.eachOwner
  kept {r k scope'} hr hs' := by
    rw [h.keyAt?_eachOwner] at hr
    obtain ⟨scope, hs⟩ := h.exists_scope hr
    rw [h.get?_eachOwner hr hs] at hs'
    cases hs'
    exact ⟨scope, hr, hs, rfl⟩
  around _ _ ha := by rw [h.keyAt?_eachOwner, ha]

theorem Nested.keyAt?_removeBelow (h : s.Nested) :
    (s.removeBelow q).keyAt? r = if q.covers r then none else s.keyAt? r :=
  (removeBelow_spec h.sound.tidy h.sound.rooted).2.2.2 r

theorem Thinned.removeBelow (h : Thinned p g s s') : Thinned p g s (s'.removeBelow q) where
  nested := h.nested.removeBelow
  kept {r k scope'} hr hs' := by
    rw [h.nested.keyAt?_removeBelow] at hr
    split at hr
    · cases hr
    · exact h.kept hr (get?_removeBelow_of_some h.nested.sound.tidy h.nested.sound.rooted hs')
  around {r k a k'} hr hc ha := by
    rw [h.nested.keyAt?_removeBelow] at hr ⊢
    split at hr
    · cases hr
    · case isFalse hq =>
      rw [if_neg fun hqa => hq (covers_trans hqa hc), h.around hr hc ha]

theorem Thinned.stored (h : Thinned p g s s') (hr : s'.keyAt? r = some k) (hs : s'.Stored r) : s.Stored r := by
  refine hs.of_kept fun a k' scope ha hka hsa => ?_
  have hka' := h.around hr ha hka
  obtain ⟨scope', hs'⟩ := h.nested.exists_scope hka'
  obtain ⟨before, -, hbefore, rfl⟩ := h.kept hka' hs'
  rw [hsa] at hbefore
  cases hbefore
  exact ⟨a, _, ha, hka', hs', rfl⟩

-- Marks that are taken back

theorem atPath_append {x : Path} : atPath (r ++ x) f r t = f x t := by
  rw [atPath, append_below?]

theorem Mirrors.thinned (h : s.Mirrors t) (hs : Thinned p (atPath p f) s s') (hc : s'.All (·.tracker.Consistent))
    (hf : Tracker.Withdraws f C)
    (hout : ∀ {r k}, s'.keyAt? r = some k → ¬ r.isAbove p → ∀ rel, rel ≠ [] → ¬ C p (r ++ rel)) :
    s'.Mirrors (f p t) := by
  refine ⟨hs.nested, hc, fun {r k scope'} hr hs' hstored => ?_⟩
  obtain ⟨scope, hr₀, hs₀, rfl⟩ := hs.kept hr hs'
  have hreflects := h.reflects hr₀ hs₀ (hs.stored hr hstored)
  by_cases ha : r.isAbove p
  · obtain ⟨x, -, rfl⟩ := isAbove_iff.mp ha
    rw [if_pos ha, atPath_append]
    exact hreflects.withdraw hf
  · rw [if_neg ha]
    exact hreflects.withdraw_out hf (hout hr ha)

theorem atPath_consistent (hf : ∀ x t, t.Consistent → (f x t).Consistent) (r : Path) (t : Tracker) (ht : t.Consistent) :
    (atPath p f r t).Consistent :=
  Document.atPath_consistent ht fun x => hf x t ht

theorem Mirrors.removeBelow (h : s.Mirrors t) : (s.removeBelow q).Mirrors t := by
  have hsame : ∀ {r k}, (s.removeBelow q).keyAt? r = some k → ¬ q.covers r ∧ s.keyAt? r = some k := by
    intro r k hr
    rw [h.nested.keyAt?_removeBelow] at hr
    split at hr
    · cases hr
    · case isFalse hq => exact ⟨hq, hr⟩
  have hget : ∀ {k scope}, (s.removeBelow q).get? k = some scope → s.get? k = some scope :=
    get?_removeBelow_of_some h.nested.sound.tidy h.nested.sound.rooted
  refine ⟨h.nested.removeBelow, h.consistent.removeBelow h.nested.sound, fun {r k scope} hr hs hstored => ?_⟩
  obtain ⟨hq, hr⟩ := hsame hr
  refine h.reflects hr (hget hs) (hstored.of_kept fun a k' scope' ha hka hsa => ?_)
  have hka' : (s.removeBelow q).keyAt? a = some k' := by
    rw [h.nested.keyAt?_removeBelow, if_neg fun hqa => hq (covers_trans hqa ha), hka]
  obtain ⟨scope'', hs''⟩ := h.nested.removeBelow.exists_scope hka'
  have := hget hs''
  rw [hsa] at this
  cases this
  exact ⟨a, _, ha, hka', hs'', rfl⟩

theorem Mirrors.unmark (h : s.Mirrors t) :
    (s.eachOwner p (atPath p fun p t => if t.isIn p .modify then t.transition p .init else t)).Mirrors
      (if t.isIn p .modify then t.transition p .init else t) := by
  refine h.thinned h.nested.thinned (h.consistent.eachOwner_consistent (atPath_consistent fun _ _ ht => ?_))
    Tracker.withdraws_unmark fun _ ha rel hrel he => ?_
  · exact Tracker.withdraws_unmark.consistent ht
  · exact ha (isAbove_iff.mpr ⟨rel, hrel, he⟩)

theorem not_covers_of_out (hq : ¬ p.covers r) (ha : ¬ r.isAbove p) (rel : Path) : ¬ p.covers (r ++ rel) := by
  intro hc
  rcases covers_total hc (covers_append r rel) with hp | hr
  · exact hq hp
  · rcases eq_or_isAbove_of_covers hr with rfl | hr
    · exact hq (covers_refl r)
    · exact ha hr

theorem Mirrors.detach (h : s.Mirrors t) :
    ((s.eachOwner p (atPath p fun p t => t.clearDescendants p)).removeBelow p).Mirrors (t.clearDescendants p) := by
  have hc := h.consistent.eachOwner_consistent (p := p)
    (atPath_consistent (p := p) fun x t ht => Tracker.withdraws_clearDescendants.consistent (p := x) ht)
  have hthin := h.nested.thinned (p := p) (g := atPath p fun p t => t.clearDescendants p)
  refine h.thinned hthin.removeBelow (hc.removeBelow hthin.nested.sound)
    Tracker.withdraws_clearDescendants fun hr ha rel _ habove => ?_
  rw [hthin.nested.keyAt?_removeBelow] at hr
  split at hr
  · cases hr
  · case isFalse hq => exact not_covers_of_out hq ha rel (covers_of_isAbove habove)

theorem Mirrors.drop (h : s.Mirrors t) :
    ((s.removeBelow p).eachOwner p (atPath p fun p t => (t.forget p).clearDescendants p)).Mirrors
      ((t.forget p).clearDescendants p) := by
  have hremoved := h.removeBelow (q := p)
  refine hremoved.thinned hremoved.nested.thinned
    (hremoved.consistent.eachOwner_consistent (atPath_consistent fun _ _ ht => ?_))
    Tracker.withdraws_drop fun hr ha rel _ hc => ?_
  · exact Tracker.withdraws_drop.consistent ht
  · rw [hremoved.nested.keyAt?_eachOwner, h.nested.keyAt?_removeBelow] at hr
    split at hr
    · cases hr
    · case isFalse hq => exact not_covers_of_out hq ha rel hc

-- New marks

-- The keys that a mark was passed to on the way to a scope are followed by those of the scopes around it.
theorem Nested.enclosing_eq (h : s.Nested) (hr : s.keyAt? r = some k) (ha : r.isAbove p) :
    ∃ ks, s.enclosing p = ks ++ k :: s.enclosing r := by
  induction p using List.reverseRecOn with
  | nil => exact absurd ha not_isAbove_nil
  | append_singleton p seg ih =>
    have hc : r.covers p := isAbove_append_iff.mp ha
    have hp : p ≠ [] := by
      rintro rfl
      rw [covers_nil.mp hc, h.proper] at hr
      cases hr
    rw [enclosing_append, if_neg hp]
    rcases eq_or_isAbove_of_covers hc with rfl | ha
    · exact ⟨[], by rw [hr]; rfl⟩
    · obtain ⟨ks, hks⟩ := ih ha
      exact ⟨(s.keyAt? p).toList ++ ks, by rw [hks, append_assoc]⟩

theorem foldl_passMark_keyAt? {ks : List ScopeKey} {m : Path} : (ks.foldl passMark (m, s)).2.keyAt? r = s.keyAt? r := by
  induction ks generalizing m s with
  | nil => rfl
  | cons k ks ih =>
    rw [foldl_cons, passMark]
    split
    · exact ih
    · exact ih.trans keyAt?_modify

theorem foldl_passMark_get? {ks : List ScopeKey} {m : Path} (hk : k ∉ ks) :
    (ks.foldl passMark (m, s)).2.get? k = s.get? k := by
  induction ks generalizing m s with
  | nil => rfl
  | cons k' ks ih =>
    simp only [mem_cons, not_or] at hk
    rw [foldl_cons, passMark]
    split
    · exact ih hk.2
    · refine (ih hk.2).trans ?_
      rw [get?_modify, if_neg hk.1]

theorem foldl_passMark_of_get? {ks : List ScopeKey} {m : Path}
    (hs : (ks.foldl passMark (m, s)).2.get? k = some scope') : ∃ t, s.get? k = some { scope' with tracker := t } := by
  induction ks generalizing m s with
  | nil => exact ⟨_, hs⟩
  | cons k' ks ih =>
    rw [foldl_cons, passMark] at hs
    split at hs
    · exact ih hs
    · obtain ⟨t, ht⟩ := ih hs
      rw [get?_modify] at ht
      split at ht
      · case isTrue he =>
        obtain ⟨scope, hscope, he'⟩ := Option.map_eq_some_iff.mp ht
        subst he
        cases scope'
        cases scope
        cases he'
        exact ⟨_, hscope⟩
      · exact ⟨t, ht⟩

theorem foldl_passMark_mark {ks : List ScopeKey} (h : ∀ k ∈ ks, ∀ scope, s.get? k = some scope → ¬ scope.isNew) :
    (ks.foldl passMark (m, s)).1 = m := by
  induction ks generalizing s with
  | nil => rfl
  | cons k ks ih =>
    obtain ⟨hk, hks⟩ := forall_mem_cons.mp h
    rw [foldl_cons, passMark]
    split
    · exact ih hks
    · case _ scope hs =>
      rw [if_neg (hk scope hs)]
      refine ih fun k' hk' scope' hs' => ?_
      dsimp only at hs hs'
      rw [get?_modify] at hs'
      split at hs'
      · rw [hs] at hs'
        cases hs'
        exact hk scope hs
      · exact hks k' hk' scope' hs'

theorem keyAt?_passed : (passed s p).2.keyAt? r = s.keyAt? r := by
  rw [passed, foldl_passMark_keyAt?]

theorem get?_of_passed (hs : (passed s p).2.get? k = some scope') :
    ∃ t, s.get? k = some { scope' with tracker := t } := by
  rw [passed] at hs
  exact foldl_passMark_of_get? hs

theorem Nested.get?_passed (h : s.Nested) (hr : s.keyAt? r = some k) (hs : s.get? k = some scope)
    (ha : r.isAbove p) (hstored : s.Stored r) : (passed s p).2.get? k = some { scope with
      tracker := atPath (passed s p).1 (fun rel t => t.transition rel .modify) r scope.tracker } := by
  obtain ⟨ks, hks⟩ := h.enclosing_eq hr ha
  have hnodup := h.nodup_enclosing (p := p)
  rw [hks, nodup_append, nodup_cons] at hnodup
  obtain ⟨-, ⟨hout, -⟩, hapart⟩ := hnodup
  have hin : k ∉ ks := fun hk => hapart k hk k mem_cons_self rfl
  rw [passed, h.owners_eq, hks, foldl_append, foldl_cons]
  generalize hms : ks.foldl passMark (p, s) = ms
  have hget : ms.2.get? k = some scope := by rw [← hms, foldl_passMark_get? hin, hs]
  have hnew : ¬ scope.isNew := hstored r k scope (covers_refl r) hr hs
  rw [passMark, hget]
  dsimp only
  rw [if_neg hnew, foldl_passMark_mark fun k' hk' scope' hs' => ?_, foldl_passMark_get? hout, get?_modify,
    if_pos rfl, hget, Option.map_some, h.keyAt?_root hr hs]
  -- What follows are the scopes around it, which have changed in their trackers only.
  obtain ⟨a, ⟨-, ha'⟩, hka⟩ := mem_enclosing.mp hk'
  have hne : k' ≠ k := fun he => hout (he ▸ hk')
  rw [get?_modify, if_neg hne, ← hms] at hs'
  obtain ⟨t, ht⟩ := foldl_passMark_of_get? hs'
  have := hstored a k' _ (covers_of_isAbove ha') hka ht
  exact this

theorem Nested.passed_mark (h : s.Nested) : (passed s p).1 = p ∨ ∃ a k scope, a.isAbove p ∧
    s.keyAt? a = some k ∧ s.get? k = some scope ∧ scope.isNew ∧ (passed s p).1 = a := by
  rcases Document.passed_mark s p with he | ⟨k, hk, scope, hs, hnew, hroot⟩
  · exact .inl he
  · obtain ⟨a, ha, hka⟩ := h.mem_owners.mp hk
    exact .inr ⟨a, k, scope, ha, hka, hs, hnew, hroot.symm.trans (h.keyAt?_root hka hs)⟩

theorem Nested.covers_passed (h : s.Nested) (hstored : s.Stored r) (ha : r.isAbove p) : r.covers (passed s p).1 := by
  rcases h.passed_mark (p := p) with he | ⟨a, k, scope, ha', hka, hs, hnew, he⟩
  · rw [he]
    exact covers_of_isAbove ha
  · rw [he]
    refine (covers_total (covers_of_isAbove ha) (covers_of_isAbove ha')).resolve_right ?_
    exact fun hc => hstored a k scope hc hka hs hnew

theorem Nested.not_isAbove_passed (h : s.Nested) (ha : ¬ r.isAbove p) : ¬ r.isAbove (passed s p).1 := by
  intro habove
  rcases h.passed_mark (p := p) with he | ⟨a, k, scope, ha', -, -, -, he⟩
  · rw [he] at habove
    exact ha habove
  · rw [he] at habove
    exact ha (isAbove_trans habove ha')

theorem Mirrors.mark (h : s.Mirrors t) : (passed s p).2.Mirrors (t.transition (passed s p).1 .modify) := by
  have hsound : (passed s p).2.Sound false := by
    refine List.foldlRecOn (motive := fun ms : Path × Scopes => ms.2.Sound false) _ _ h.nested.sound
      fun ms h k _ => ?_
    rw [passMark]
    split
    · exact h
    · exact h.modify
  have hcons : (passed s p).2.All (·.tracker.Consistent) := by
    refine List.foldlRecOn (motive := fun ms : Path × Scopes => ms.2.All (·.tracker.Consistent)) _ _
      h.consistent fun ms h k _ => ?_
    rw [passMark]
    split
    · exact h
    · exact h.modify_consistent fun scope hc => Document.atPath_consistent hc fun _ => hc.transition
  refine ⟨h.nested.of_get? hsound (fun r => keyAt?_passed) fun k scope' hs' => ?_, hcons,
    fun {r k scope'} hr hs' hstored => ?_⟩
  · obtain ⟨t, ht⟩ := get?_of_passed hs'
    exact ⟨_, ht, rfl⟩
  · rw [keyAt?_passed] at hr
    obtain ⟨scope, hs⟩ := h.nested.exists_scope hr
    have hbefore : s.Stored r := hstored.of_kept fun a k' before ha hka hka' => by
      have hka₁ : (passed s p).2.keyAt? a = some k' := by rw [keyAt?_passed, hka]
      obtain ⟨after, hafter, -⟩ := hsound.rooted a k' hka₁
      obtain ⟨t, ht⟩ := get?_of_passed hafter
      rw [hka'] at ht
      cases ht
      exact ⟨a, after, ha, hka₁, hafter, rfl⟩
    have hreflects := h.reflects hr hs hbefore
    by_cases ha : r.isAbove p
    · rw [h.nested.get?_passed hr hs ha hbefore] at hs'
      cases hs'
      obtain ⟨x, hx⟩ := covers_iff.mp (h.nested.covers_passed hbefore ha)
      dsimp only
      rw [hx, atPath_append]
      exact hreflects.transition
    · have hout : k ∉ s.owners p := fun hk => ha ((h.nested.mem_owners_iff hr).mp hk)
      rw [passed, foldl_passMark_get? hout, hs] at hs'
      cases hs'
      exact hreflects.transition_out (h.nested.not_isAbove_passed ha)

-- Items that are moved

-- Moves the states of an item in a tracker whose root is given.
def moveStates (p : Path) (i j : Nat) (root : Path) (t : Tracker) : Tracker :=
  match (p.index i).below? root, (p.index j).below? root with
  | some old, some new => t.rekey old new
  | _, _ => t

theorem moveStates_append {x : Path} : moveStates (r ++ x) i j r t = t.rekey (x.index i) (x.index j) := by
  have hshift : ∀ n, Path.index (r ++ x) n = r ++ x.index n := fun n => append_assoc ..
  rw [moveStates, hshift, hshift, append_below?, append_below?]

theorem moveStates_consistent (ht : t.Consistent) : (moveStates p i j r t).Consistent := by
  rw [moveStates]
  split
  · exact ht.rekey
  · exact ht

-- Where a root goes when an item is moved.
def relocate (p : Path) (i j : Nat) (r : Path) : Path :=
  (r.rebase? (p.index i) (p.index j)).getD r

section

variable {i j : Nat}

theorem relocate_append : relocate p i j (p.index i ++ x) = p.index j ++ x := by
  have : Path.rebase? (p.index i ++ x) (p.index i) (p.index j) = some (p.index j ++ x) :=
    rebase?_eq_some_iff.mpr ⟨x, rfl, rfl⟩
  rw [relocate, this, Option.getD_some]

theorem relocate_of_not_covers (h : ¬ (p.index i).covers r) : relocate p i j r = r := by
  rw [relocate, Path.rebase?, Path.below?, if_neg h]
  rfl

theorem relocate_covers (h : q.covers r) : (relocate p i j q).covers (relocate p i j r) := by
  by_cases hq : (p.index i).covers q
  · obtain ⟨x, rfl⟩ := covers_iff.mp hq
    obtain ⟨y, rfl⟩ := covers_iff.mp h
    rw [append_assoc, relocate_append, relocate_append, ← append_assoc]
    exact covers_append _ y
  · rw [relocate_of_not_covers hq]
    by_cases hr : (p.index i).covers r
    · -- What is around the item at one index is around the item at the other.
      obtain ⟨y, rfl⟩ := covers_iff.mp hr
      have hle := (covers_total h hr).resolve_right hq
      rcases eq_or_isAbove_of_covers hle with rfl | habove
      · exact absurd (covers_refl _) hq
      · rw [relocate_append, Path.index, append_assoc]
        exact covers_trans (isAbove_append_iff.mp habove) (covers_append p _)
    · rwa [relocate_of_not_covers hr]

theorem Nested.rekey_live (h : s.Nested) (hv : s.Vacant (p.index j)) (hr : s.keyAt? r = some k)
    (hs : s.get? k = some scope) : (s.rekey (p.index i) (p.index j)).keyAt? (relocate p i j r) = some k ∧
      (s.rekey (p.index i) (p.index j)).get? k = some { scope with root := relocate p i j r } := by
  obtain ⟨-, hstay, hmove, -⟩ : (s.rekey (p.index i) (p.index j)).Tidy ∧ _ :=
    rekey_spec h.sound.tidy h.sound.rooted
  by_cases hi : (p.index i).covers r
  · obtain ⟨x, rfl⟩ := covers_iff.mp hi
    rw [relocate_append, keyAt?_moved h.sound hv, hmove x k hr, hs]
    exact ⟨hr, rfl⟩
  · have hj : ¬ (p.index j).covers r := fun hj => by
      rw [hv r hj] at hr
      cases hr
    rw [relocate_of_not_covers hi, keyAt?_unmoved h.sound hj, if_neg hi,
      hstay k fun r' hr' => h.sound.rooted.eq_of_keyAt? hr hr' ▸ hi, hs, ← h.keyAt?_root hr hs]
    exact ⟨by rw [h.keyAt?_root hr hs, hr], rfl⟩

theorem Nested.live_of_rekey (h : s.Nested) (hr : (s.rekey (p.index i) (p.index j)).keyAt? r = some k) :
    ∃ r₀, r = relocate p i j r₀ ∧ s.keyAt? r₀ = some k := by
  obtain ⟨-, -, -, hkey⟩ : (s.rekey (p.index i) (p.index j)).Tidy ∧ _ :=
    rekey_spec h.sound.tidy h.sound.rooted
  rcases hkey r k hr with ⟨x, rfl, hx⟩ | ⟨hi, hr⟩
  · exact ⟨_, relocate_append.symm, hx⟩
  · exact ⟨r, (relocate_of_not_covers hi).symm, hr⟩

theorem Mirrors.move (h : s.Mirrors t) (hij : i ≠ j) (hp : s.keyAt? p = none) (hv : s.Vacant (p.index j))
    (hm : ∀ x, ¬ t.Marks (p.index j ++ x)) :
    ((s.rekey (p.index i) (p.index j)).eachOwner p (moveStates p i j)).Mirrors (t.rekey (p.index i) (p.index j)) := by
  have hsound : (s.rekey (p.index i) (p.index j)).Sound false :=
    h.nested.sound.rekey fun a ha => covers_trans (isAbove_append_iff.mp ha) (covers_append p _)
  have hnested := h.nested.move hsound hv
  have hcons : (s.rekey (p.index i) (p.index j)).All (·.tracker.Consistent) :=
    h.consistent.rekey h.nested.sound fun _ _ hc => hc
  refine ⟨hnested.eachOwner, hcons.eachOwner_consistent fun _ _ => moveStates_consistent,
    fun {r k scope'} hr hs' hstored => ?_⟩
  rw [hnested.keyAt?_eachOwner] at hr
  obtain ⟨r₀, rfl, hr₀⟩ := h.nested.live_of_rekey hr
  obtain ⟨scope, hs⟩ := h.nested.exists_scope hr₀
  obtain ⟨-, hget⟩ := h.nested.rekey_live hv hr₀ hs (i := i)
  rw [hnested.get?_eachOwner hr hget] at hs'
  cases hs'
  have hbefore : s.Stored r₀ := hstored.of_kept fun a k' before ha hka hsa => by
    obtain ⟨hka', hsa'⟩ := h.nested.rekey_live hv hka hsa (i := i)
    refine ⟨_, _, relocate_covers ha, ?_, hnested.get?_eachOwner hka' hsa', rfl⟩
    rw [hnested.keyAt?_eachOwner, hka']
  have hreflects := h.reflects hr₀ hs hbefore
  obtain ⟨hmoved, -, hother⟩ := Tracker.marks_rekey (index_apart hij) hm
  by_cases hi : (p.index i).covers r₀
  · obtain ⟨x, rfl⟩ := covers_iff.mp hi
    have hnot : ¬ Path.isAbove (p.index j ++ x) p := fun ha => by
      have := isAbove_of_isAbove_covers ha (covers_append p [.index j])
      exact not_covers_of_isAbove this (covers_append _ x)
    rw [relocate_append, if_neg hnot]
    intro rel hrel
    rw [append_assoc, hmoved, ← append_assoc]
    exact hreflects rel hrel
  · rw [relocate_of_not_covers hi]
    have hj : ¬ (p.index j).covers r₀ := fun hj => by
      rw [hv r₀ hj] at hr₀
      cases hr₀
    by_cases ha : r₀.isAbove p
    · obtain ⟨x, -, rfl⟩ := isAbove_iff.mp ha
      rw [if_pos ha, moveStates_append]
      exact hreflects.rekey hij hm
    · rw [if_neg ha]
      -- The scope is neither around the array nor at it, so its paths lie apart from the items.
      have hout : ∀ n, ¬ (p.index n).covers r₀ → ∀ rel, ¬ (p.index n).covers (r₀ ++ rel) := by
        intro n hn rel
        refine not_covers_of_out hn (fun habove => ?_) rel
        rcases eq_or_isAbove_of_covers (isAbove_append_iff.mp habove) with rfl | habove
        · rw [hp] at hr₀
          cases hr₀
        · exact ha habove
      intro rel hrel
      rw [hother _ (hout i hi rel) (hout j hj rel)]
      exact hreflects rel hrel

end

-- Scopes that are added, and scopes that become stored

theorem seedTracker_consistent {schema : Schema} : (schema.seedTracker v present).Consistent := by
  refine List.foldlRecOn (motive := Tracker.Consistent) _ _ Tracker.consistent_empty fun t ht e _ => ?_
  dsimp only
  split
  · exact ht.transition
  · split
    · exact ht.transition
    · exact ht

theorem Nested.get?_insert_of_keyAt? (h : s.Nested) (hr : s.keyAt? r = some k) :
    (s.insert scope).2.get? k = s.get? k := by
  obtain ⟨before, hs⟩ := h.exists_scope hr
  rw [get?_insert h.sound.tidy, if_neg]
  rintro rfl
  rw [get?_insert_key h.sound.tidy] at hs
  cases hs

theorem Mirrors.insert (h : s.Mirrors t) (hsite : s.Site scope.root scope.parent) (hnew : scope.isNew)
    (hc : scope.tracker.Consistent) : (s.insert scope).2.Mirrors t := by
  have hvacant : s.keyAt? scope.root = none := hsite.vacant _ (covers_refl _)
  refine ⟨h.nested.insert hsite, h.consistent.insert h.nested.sound.tidy hc, fun {r k scope'} hr hs hstored => ?_⟩
  rw [keyAt?_insert] at hr
  split at hr
  · case isTrue he =>
    cases hr
    rw [get?_insert h.nested.sound.tidy, if_pos rfl] at hs
    cases hs
    refine absurd hnew (hstored scope.root (s.insert scope).1 scope (he ▸ covers_refl _) ?_ ?_)
    · rw [keyAt?_insert, if_pos rfl]
    · rw [get?_insert h.nested.sound.tidy, if_pos rfl]
  · rw [h.nested.get?_insert_of_keyAt? hr] at hs
    refine h.reflects hr hs (hstored.of_kept fun a k' before ha hka hsa => ⟨a, before, ha, ?_, ?_, rfl⟩)
    · rw [keyAt?_insert, if_neg, hka]
      rintro rfl
      rw [hvacant] at hka
      cases hka
    · rw [h.nested.get?_insert_of_keyAt? hka, hsa]

theorem graftable_mirrors : Graftable .created (Mirrors · t) Site fun _ _ => True where
  field _ := trivial
  item h := h.below
  insert hj ho _ hw := ⟨hj.insert ho rfl seedTracker_consistent, fun _ he =>
    Site.insert_below ho (hw.declared he).1⟩
  frame _ h ha hq := h.insert_apart ha hq

theorem Mirrors.attachField (h : s.Mirrors t) (hf : field.Meets .wellFormed) (hp : p ≠ []) (hv : s.Vacant p) :
    (s.attachField field p v (s.innermost? p) .created).Mirrors t :=
  graftable_mirrors.attachField hf trivial h ⟨hp, hv, rfl⟩

theorem Mirrors.attachItems (h : s.Mirrors t) (hf : sub.Meets .wellFormed) (hp : p ≠ []) (hkey : s.keyAt? p = none)
    (hv : ∀ i, n ≤ i → s.Vacant (p.index i)) : (s.attachItems sub p n vs (s.innermost? p) .created).Mirrors t := by
  refine graftable_mirrors.attachItems hf h fun i hi => ⟨by simp [Path.index], hv i hi, ?_⟩
  rw [Path.index, innermost?_append, if_neg hp, hkey, Option.none_or]

theorem marks_commitTracker (ht : t.Consistent) : ¬ (Document.commitTracker t).Marks p := by
  rw [Tracker.Marks, Document.commitTracker, Tracker.stateOf?_moveAll ht.moveAll, Tracker.stateOf?_moveAll ht]
  split <;> (try split) <;> simp_all

theorem Mirrors.commit (h : s.Mirrors t) (ht : t.Consistent) : (s.mapAll fun scope => { scope with
      tracker := Document.commitTracker scope.tracker
      isNew := false }).Mirrors (Document.commitTracker t) := by
  have hget : ∀ {k scope'}, (s.mapAll fun scope => { scope with
      tracker := Document.commitTracker scope.tracker
      isNew := false }).get? k = some scope' → ∃ scope, s.get? k = some scope ∧
        scope' = { scope with tracker := Document.commitTracker scope.tracker, isNew := false } := by
    intro k scope' hs'
    rw [get?_mapAll] at hs'
    obtain ⟨scope, hs, rfl⟩ := Option.map_eq_some_iff.mp hs'
    exact ⟨scope, hs, rfl⟩
  refine ⟨h.nested.of_get? (h.nested.sound.mapAll (fun _ => rfl) (fun _ => rfl) (by simp)) (fun _ => rfl)
    fun k scope' hs' => ?_, fun k scope' hs' => ?_, fun {r k scope'} _ hs' _ rel _ => ?_⟩
  all_goals obtain ⟨scope, hs, rfl⟩ := hget hs'
  · exact ⟨scope, hs, rfl⟩
  · exact (h.consistent k scope hs).moveAll.moveAll
  · exact iff_of_false (marks_commitTracker (h.consistent k scope hs)) (marks_commitTracker ht)

end Scopes
end Dossier

import Dossier.Document.Reconcile
import Dossier.Proofs.Writes

-- The values that the top paths had before changes were opened bring the old value back, since every write goes
-- through a top path.

namespace Dossier

open Entries List

theorem Value.get?_top : (Value.obj fs).get? [seg] = Entries.get? seg.toKey fs := by
  simp only [get?, child?]
  cases Entries.get? seg.toKey fs <;> rfl

-- A path whose first segment is of the kind `T`.
def Path.Begins (T : Seg → Prop) (p : Path) : Prop :=
  ∃ seg rest, p = seg :: rest ∧ T seg

namespace Document

-- The values kept for top paths while the fields `gs` have become `fs`. Of the segments that lead to a key, the
-- one that was written first has the old value.
structure Restores (gs : List (String × Value)) (kept : OrdMap Path (Option Value))
    (fs : List (String × Value)) : Prop where
  sorted : Entries.Sorted fs
  tops   : ∀ p, (kept.get? p).isSome → ∃ seg, p = [seg]
  first  : ∀ seg : Seg, (kept.get? [seg]).isSome → ∃ a : Seg, a.toKey = seg.toKey ∧
    kept.get? [a] = some (Entries.get? seg.toKey gs)
  same   : ∀ k, (∀ seg : Seg, seg.toKey = k → kept.get? [seg] = none) →
    Entries.get? k fs = Entries.get? k gs

namespace Restores

theorem refl (h : Entries.Sorted gs) : Restores gs ∅ gs :=
  ⟨h, by simp, by simp, fun _ _ => rfl⟩

theorem insert (h : Restores gs kept fs) : Restores gs
      (if kept.contains [seg] then kept else kept.insert [seg] (Entries.get? seg.toKey fs))
      (Entries.insert seg.toKey c fs) := by
  have hk : ∀ p, (if kept.contains [seg] then kept
      else kept.insert [seg] (Entries.get? seg.toKey fs)).get? p =
      if [seg] = p ∧ kept.get? p = none then some (Entries.get? seg.toKey fs) else kept.get? p := by
    intro p
    rw [OrdMap.contains_eq_isSome]
    by_cases hp : [seg] = p
    · subst hp
      cases hs : kept.get? [seg] <;> simp [hs]
    · cases kept.get? [seg] <;> simp [hp, OrdMap.get?_insert]
  -- What was kept stays kept.
  have hold : ∀ {a o}, kept.get? [a] = some o → (if kept.contains [seg] then kept
      else kept.insert [seg] (Entries.get? seg.toKey fs)).get? [a] = some o := by
    intro a o ha
    rw [hk, if_neg fun he => by simp [ha] at he, ha]
  refine ⟨insert_sorted h.sorted, fun p hp => ?_, fun a ha => ?_, fun k hfree => ?_⟩
  · rw [hk] at hp
    split at hp
    · case isTrue he => exact ⟨seg, he.1.symm⟩
    · exact h.tops p hp
  · rw [hk] at ha
    split at ha
    · case isTrue he =>
      obtain ⟨he, hnone⟩ := he
      cases he
      by_cases hother : ∃ b : Seg, b.toKey = seg.toKey ∧ (kept.get? [b]).isSome
      · obtain ⟨b, hb, hsome⟩ := hother
        obtain ⟨c, hc, hkept⟩ := h.first b hsome
        exact ⟨c, hc.trans hb, hb ▸ hold hkept⟩
      · refine ⟨seg, rfl, ?_⟩
        rw [hk, if_pos ⟨rfl, hnone⟩]
        refine congrArg some (h.same _ fun b hb => ?_)
        exact Option.not_isSome_iff_eq_none.mp fun hsome => hother ⟨b, hb, hsome⟩
    · obtain ⟨c, hc, hkept⟩ := h.first a ha
      exact ⟨c, hc, hold hkept⟩
  · have hfree' : ∀ a : Seg, a.toKey = k → kept.get? [a] = none := by
      intro a ha
      cases ho : kept.get? [a] with
      | none => rfl
      | some o => exact absurd (hold ho) (by simp [hfree a ha])
    have hne : seg.toKey ≠ k := by
      intro he
      have := hfree seg he
      rw [hk, if_pos ⟨rfl, hfree' seg he⟩] at this
      cases this
    rw [get?_insert_ne hne]
    exact h.same k hfree'

theorem restoreTop_obj (fs : List (String × Value)) (seg : Seg) (o : Option Value) :
    restoreTop (.obj fs) ([seg], o) = .obj (match o with
      | some v => Entries.insert seg.toKey v fs
      | none => Entries.erase seg.toKey fs) := by
  cases o <;> rfl

theorem foldl_restoreTop {es : List (Path × Option Value)} (hs : Entries.Sorted fs)
    (hlt : es.Pairwise fun a b => compare a.1 b.1 = .lt) (he : ∀ e ∈ es, ∃ seg, e.1 = [seg]) :
    ∃ fs', es.foldl restoreTop (.obj fs) = .obj fs' ∧ Entries.Sorted fs' ∧
      (∀ k, (∀ (a : Seg) o, ([a], o) ∈ es → a.toKey ≠ k) → Entries.get? k fs' = Entries.get? k fs) ∧
      ∀ (seg : Seg) o, ([seg], o) ∈ es →
        (∀ (a : Seg) b, ([a], b) ∈ es → a.toKey = seg.toKey → compare [seg] [a] ≠ .lt) →
        Entries.get? seg.toKey fs' = o := by
  induction es generalizing fs with
  | nil => exact ⟨fs, rfl, hs, by simp, by simp⟩
  | cons e es ih =>
    obtain ⟨p, o₀⟩ := e
    obtain ⟨⟨seg₀, hp⟩, hes⟩ := forall_mem_cons.mp he
    obtain ⟨hbefore, hrest⟩ := pairwise_cons.mp hlt
    dsimp only at hp
    subst hp
    rw [foldl_cons, restoreTop_obj]
    generalize hfs₁ : (match o₀ with
      | some v => Entries.insert seg₀.toKey v fs
      | none => Entries.erase seg₀.toKey fs) = fs₁
    have hs₁ : Entries.Sorted fs₁ := by
      rw [← hfs₁]
      split
      · exact insert_sorted hs
      · exact erase_sorted hs
    have hself : Entries.get? seg₀.toKey fs₁ = o₀ := by
      rw [← hfs₁]
      split
      · rw [get?_insert_self]
      · rw [get?_erase_self hs]
    have hother : ∀ k, seg₀.toKey ≠ k → Entries.get? k fs₁ = Entries.get? k fs := by
      intro k hk
      rw [← hfs₁]
      split
      · rw [get?_insert_ne hk]
      · rw [get?_erase_ne hk]
    obtain ⟨fs', hfold, hs', hfree, hlast⟩ := ih hs₁ hrest hes
    refine ⟨fs', hfold, hs', fun k hk => ?_, fun seg o hmem hmax => ?_⟩
    · rw [hfree k fun a b hab => hk a b (mem_cons_of_mem _ hab)]
      exact hother k (hk seg₀ o₀ mem_cons_self)
    · rcases mem_cons.mp hmem with he | hmem
      · cases he
        rw [hfree _ fun a b hab hkey => ?_]
        · exact hself
        · exact hmax a b (mem_cons_of_mem _ hab) hkey (hbefore _ hab)
      · exact hlast seg o hmem fun a b hab => hmax a b (mem_cons_of_mem _ hab)

theorem foldl_spec (h : Restores gs kept fs) : ∃ fs',
    kept.entries.foldl restoreTop (.obj fs) = .obj fs' ∧ Entries.Sorted fs' ∧
      (∀ i o, kept.get? [.index i] = some o → Entries.get? (Seg.index i).toKey fs' = o) ∧
      ∀ k, (∀ i, (Seg.index i).toKey = k → kept.get? [.index i] = none) → Entries.get? k fs' = Entries.get? k gs := by
  have hlt : kept.entries.Pairwise fun a b => compare a.1 b.1 = .lt :=
    pairwise_map.mp OrdMap.keys_pairwise
  have htops : ∀ e ∈ kept.entries, ∃ seg, e.1 = [seg] := by
    rintro ⟨p, o⟩ he
    exact h.tops p (by simp [OrdMap.mem_entries_iff.mp he])
  obtain ⟨fs', hfold, hs', hfree, hlast⟩ := foldl_restoreTop h.sorted hlt htops
  simp only [OrdMap.mem_entries_iff] at hfree hlast
  refine ⟨fs', hfold, hs', fun i o ho => ?_, fun k hi => ?_⟩
  · -- An index comes after the key that it leads to, and after no other segment for it.
    refine hlast (.index i) o ho fun a b _ hkey => ?_
    cases a with
    | key k => exact fun h => by cases h
    | index j => simp [Seg.index_toKey_injective hkey, Std.ReflOrd.compare_self]
  · by_cases hk : ∃ seg : Seg, seg.toKey = k ∧ (kept.get? [seg]).isSome
    · obtain ⟨seg, rfl, hseg⟩ := hk
      -- Only the key itself was written.
      have honly : ∀ (a : Seg) o, kept.get? [a] = some o → a.toKey = seg.toKey → a = .key seg.toKey := by
        intro a o ho ha
        cases a with
        | key k => rw [← ha]; rfl
        | index i => simp [hi i ha] at ho
      obtain ⟨a, ha, hkept⟩ := h.first seg hseg
      rw [← ha] at hkept ⊢
      refine hlast a _ hkept fun b o hb hkey => ?_
      rw [honly a _ hkept ha, honly b o hb (hkey.trans ha)]
      simp [Std.ReflOrd.compare_self]
    · have hnone : ∀ seg : Seg, seg.toKey = k → kept.get? [seg] = none := fun seg hseg =>
        Option.not_isSome_iff_eq_none.mp fun hsome => hk ⟨seg, hseg, hsome⟩
      rw [hfree k fun a o ho hkey => by simp [hnone a hkey] at ho, h.same k hnone]

theorem foldl_eq_iff (h : Restores gs kept fs) (hg : Entries.Sorted gs) :
    kept.entries.foldl restoreTop (.obj fs) = .obj gs ↔
      ∀ i o, kept.get? [.index i] = some o → o = Entries.get? (Seg.index i).toKey gs := by
  obtain ⟨fs', hfold, hs', hindex, hrest⟩ := h.foldl_spec
  rw [hfold]
  constructor
  · intro heq i o ho
    cases heq
    exact (hindex i o ho).symm
  · intro hold
    congr 1
    refine sorted_ext hs' hg fun k => ?_
    by_cases hi : ∃ i, (Seg.index i).toKey = k ∧ (kept.get? [.index i]).isSome
    · obtain ⟨i, rfl, hsome⟩ := hi
      obtain ⟨o, ho⟩ := Option.isSome_iff_exists.mp hsome
      rw [hindex i o ho, hold i o ho]
    · exact hrest k fun i hk => Option.not_isSome_iff_eq_none.mp fun hsome => hi ⟨i, hk, hsome⟩

end Restores

-- Open changes of documents

def toBackup (d : Document) : Backup :=
  { tracker := d.tracker, scopes := d.scopes, arrayOps := d.arrayOps, issues := d.issues,
    populated := d.populated }

-- Changes are open since the document was `start`. `T` tells the segments that writes begin with.
structure OpenSince (T : Seg → Prop) (start d : Document) : Prop where
  schema     : d.schema = start.schema
  isNew      : d.isNew = start.isNew
  projection : d.projection = start.projection
  validating : d.validating = start.validating
  backup     : d.backup = some start.toBackup
  value      : ∃ gs fs, start.value = .obj gs ∧ Entries.Sorted gs ∧ d.value = .obj fs ∧
    Restores gs d.snapshot fs
  tops       : ∀ seg, (d.snapshot.get? [seg]).isSome → T seg

namespace OpenSince

theorem opened (hb : start.backup = none) (hk : start.snapshot = ∅) (hv : start.value = .obj gs)
    (hs : Entries.Sorted gs) : OpenSince T start start.openChanges := by
  rw [openChanges, hb]
  refine ⟨rfl, rfl, rfl, rfl, rfl, ⟨gs, gs, hv, hs, hv, ?_⟩, by simp [hk]⟩
  dsimp only
  rw [hk]
  exact .refl hs

theorem openChanges_eq (h : OpenSince T start d) : d.openChanges = d := by
  rw [openChanges, h.backup]

theorem write {p : Path} (h : OpenSince T start d) (hseg : T seg) : OpenSince T start (d.write (seg :: p) v).2 := by
  obtain ⟨gs, fs, hstart, hg, hd, hr⟩ := h.value
  have hkeep : d.keepTop (seg :: p) = { d with
      snapshot :=
        if d.snapshot.contains [seg] then d.snapshot
        else d.snapshot.insert [seg] (Entries.get? seg.toKey fs) } := by
    have hget : d.get? [seg] = Entries.get? seg.toKey fs := by
      rw [Document.get?, hd, Value.get?_top]
    have htop : Path.top (seg :: p) = [seg] := rfl
    have hopen : d.backup.isSome := by rw [h.backup]; rfl
    rw [keepTop, htop, hget]
    cases d.snapshot.contains [seg] <;> simp [hopen]
  simp only [Document.write, hkeep]
  refine ⟨h.schema, h.isNew, h.projection, h.validating, h.backup, ⟨gs, _, hstart, hg, ?_,
    hr.insert (c := (Value.setFrom (seg :: p) v p ((Entries.get? seg.toKey fs).getD .null)).2)⟩, ?_⟩
  · simp only [hd, Value.set]
    rw [Value.setFrom_cons_of_openFields rfl]
  · intro a ha
    dsimp only at ha
    split at ha
    · exact h.tops a ha
    · rw [OrdMap.get?_insert] at ha
      split at ha
      · case isTrue he =>
        cases he
        exact hseg
      · exact h.tops a ha

theorem lasting : Lasting (Path.Begins T) (OpenSince T start) := by
  refine .of_core ?_ (fun h => by rwa [h.openChanges_eq]) ?_
  · rintro ⟨⟩ ⟨⟩ he h
    cases he
    exact { h with }
  · rintro d _ v ⟨seg, rest, rfl, hseg⟩ h
    exact h.write hseg

variable (h : OpenSince T start d) (hb : start.backup = none) (hk : start.snapshot = ∅)

include h hb hk

theorem rollback_eq_with : d.rollback = { start with value := d.rollback.value } := by
  rw [rollback, h.backup]
  dsimp only
  rw [h.schema, h.isNew, h.projection, h.validating, ← hk, ← hb]
  rfl

theorem rollback_eq_iff :
    d.rollback = start ↔ ∀ i o, d.snapshot.get? [.index i] = some o → o = start.get? [.index i] := by
  obtain ⟨gs, fs, hstart, hg, hd, hr⟩ := h.value
  have hvalue : d.rollback.value = d.snapshot.entries.foldl restoreTop (.obj fs) := by
    rw [rollback, h.backup, ← hd]
  simp only [Document.get?, hstart, Value.get?_top]
  rw [← hr.foldl_eq_iff hg, ← hvalue, ← hstart]
  refine ⟨fun he => by rw [he], fun he => ?_⟩
  rw [h.rollback_eq_with hb hk, he]

theorem rollback_eq (hT : ∀ {a b}, T a → T b → a.toKey = b.toKey → a = b) : d.rollback = start := by
  refine (h.rollback_eq_iff hb hk).mpr fun i o ho => ?_
  obtain ⟨gs, fs, hstart, -, -, hr⟩ := h.value
  have hsome : (d.snapshot.get? [.index i]).isSome := by simp [ho]
  obtain ⟨a, ha, hkept⟩ := hr.first _ hsome
  obtain rfl := hT (h.tops a (by simp [hkept])) (h.tops _ hsome) ha
  rw [Document.get?, hstart, Value.get?_top]
  exact Option.some.inj (ho.symm.trans hkept)

end OpenSince
end Document
end Dossier

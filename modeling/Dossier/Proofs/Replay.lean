import Dossier.Change
import Dossier.Proofs.Coverage
import Mathlib.Data.List.Pairwise

-- Changes at paths that cover the way from one record to another bring the first in line with the second.

namespace Dossier

open Value Path List

deriving instance DecidableEq for ChangeOp, Change

namespace Change

-- What a change makes of what is at its path. A path at which nothing shall be had nothing.
def Turns (c : Change) (old new : Option Value) : Prop :=
  match c.op with
  | .set v => new = some v
  | .unset => new = none
  | .push vs => ∃ xs, items? old = some xs ∧ new = some (.arr (xs ++ vs))
  | .pull vs => (isNullish old ∧ new = old) ∨
      ∃ xs, old = some (.arr xs) ∧ new = some (.arr (xs.filter fun x => ¬ vs.any (selects x)))

variable {c : Change}

theorem applyPush_eq_set (hx : items? (r.get? p) = some xs) (h : r.set p (.arr (xs ++ vs)) = (.ok (), v)) :
    applyPush p vs r = (.ok (), v) := by
  match hg : r.get? p with
  | none | some .null =>
    simp only [hg, items?, Option.some.injEq] at hx
    subst hx
    have hok : (r.set p (.arr [])).1 = .ok () := by
      rw [Value.set, setFrom_ok_iff (y := .arr vs)]
      exact congrArg Prod.fst h
    have hget := get?_setFrom_self hok
    have hput : ((r.set p (.arr [])).2).put p (.arr vs) = v := by
      rw [Value.set, put_eq_setFrom p hget, setFrom_setFrom hok]
      exact congrArg Prod.snd h
    simp only [applyPush, hg, isNullish, Value.isNull, if_true, hok]
    rw [Value.set] at hput ⊢
    simp [hget, hput]
  | some (.arr items) =>
    simp only [hg, items?, Option.some.injEq] at hx
    subst hx
    have hput : r.put p (.arr (items ++ vs)) = v := by
      rw [put_eq_setFrom p hg]
      exact congrArg Prod.snd h
    simp [applyPush, hg, isNullish, Value.isNull, hput]
  | some (.bool _) | some (.num _) | some (.str _) | some (.obj _) => simp [hg, items?] at hx

theorem apply_eq_set (ht : c.Turns (r.get? c.path) (some x)) (h : r.set c.path x = (.ok (), v)) :
    c.apply r = (.ok (), v) := by
  obtain ⟨p, op, _⟩ := c
  cases op with
  | set w =>
    cases ht
    exact h
  | unset => cases ht
  | push vs =>
    obtain ⟨xs, hx, he⟩ := ht
    cases he
    exact applyPush_eq_set hx h
  | pull vs =>
    obtain ⟨hn, he⟩ | ⟨xs, hx, he⟩ := ht
    · rw [Value.set, setFrom_of_get? he.symm] at h
      cases h
      rw [← he] at hn
      cases x <;> simp_all [apply, applyPull, isNullish, Value.isNull] <;> simp [← he]
    · cases he
      have hput : r.put p (.arr (xs.filter fun x => ¬ vs.any (selects x))) = v := by
        rw [put_eq_setFrom p hx]
        exact congrArg Prod.snd h
      simp only at hx
      simp only [apply, applyPull, hx, hput]

theorem apply_of_absent (ht : c.Turns (r.get? c.path) none) (h : r.get? c.path = none) : c.apply r = (.ok (), r) := by
  obtain ⟨p, op, _⟩ := c
  cases op with
  | set => cases ht
  | unset => simp [apply, remove_of_get?_none h]
  | push =>
    obtain ⟨xs, hx, he⟩ := ht
    cases he
  | pull => simp_all [apply, applyPull]

theorem applyPush_ok (h : applyPush p vs r = (.ok (), v)) :
    ∃ xs, items? (r.get? p) = some xs ∧ r.set p (.arr (xs ++ vs)) = (.ok (), v) := by
  unfold applyPush at h
  by_cases hn : isNullish (r.get? p)
  · have hitems : items? (r.get? p) = some [] := by
      cases hg : r.get? p with
      | none => rfl
      | some x => cases x <;> simp_all [isNullish, Value.isNull, items?]
    simp only [hn, if_true] at h
    split at h
    · cases h
    · case _ hok =>
      rw [Value.set] at hok h
      simp only [get?_setFrom_self hok, nil_append, Prod.mk.injEq, true_and] at h
      rw [put_eq_setFrom p (get?_setFrom_self hok), setFrom_setFrom hok] at h
      exact ⟨[], hitems, Prod.ext (setFrom_ok_iff.mp hok) h⟩
  · simp only [hn, Bool.false_eq_true, if_false] at h
    split at h
    · case _ items hi =>
      simp only [Prod.mk.injEq, true_and] at h
      rw [put_eq_setFrom p hi] at h
      exact ⟨items, by rw [hi, items?], Prod.ext (setFrom_ok_of_get? hi) h⟩
    · cases h

theorem apply_ok (hop : c.op ≠ .unset) (h : c.apply r = (.ok (), v)) :
    c.Turns (r.get? c.path) (v.get? c.path) ∧ (v = r ∨ ∃ x, r.set c.path x = (.ok (), v)) := by
  obtain ⟨p, op, _⟩ := c
  have wrote : ∀ {x}, r.set p x = (.ok (), v) → v.get? p = some x := fun {x} hx => by
    rw [show v = (r.set p x).2 by rw [hx]]
    exact get?_setFrom_self (congrArg Prod.fst hx)
  cases op with
  | set w => exact ⟨wrote h, .inr ⟨w, h⟩⟩
  | unset => exact absurd rfl hop
  | push vs =>
    obtain ⟨xs, hx, hset⟩ := applyPush_ok h
    exact ⟨⟨xs, hx, wrote hset⟩, .inr ⟨_, hset⟩⟩
  | pull vs =>
    simp only [apply, applyPull] at h
    split at h
    · case _ hg =>
      cases h
      exact ⟨.inl ⟨by simp only [hg]; rfl, rfl⟩, .inl rfl⟩
    · case _ hg =>
      cases h
      exact ⟨.inl ⟨by simp only [hg]; rfl, rfl⟩, .inl rfl⟩
    · case _ items hg =>
      simp only [Prod.mk.injEq, true_and] at h
      rw [put_eq_setFrom p hg] at h
      have hset : r.set p _ = (.ok (), v) := Prod.ext (setFrom_ok_of_get? hg) h
      exact ⟨.inr ⟨items, hg, wrote hset⟩, .inr ⟨_, hset⟩⟩
    · cases h

end Change

theorem Covered.replay (h : Covered (fun p => p ∈ cs.map Change.path) (some old) (some new))
    (hs : ∀ c ∈ cs, c.path.Spelled) (ho : cs.Pairwise fun a b => compare a.path b.path = .lt)
    (ha : cs.Pairwise fun a b => a.path.Apart b.path) (ht : ∀ c ∈ cs, c.Turns (old.get? c.path) (new.get? c.path)) :
    Changeset.applyAll cs old = .ok new := by
  induction cs generalizing old with
  | nil =>
    cases h.eq_of_unmarked (by simp)
    rfl
  | cons c cs ih =>
    have ⟨hc, hs⟩ := forall_mem_cons.mp hs
    have ⟨ho₁, ho⟩ := pairwise_cons.mp ho
    have ⟨ha₁, ha⟩ := pairwise_cons.mp ha
    have ⟨htc, ht⟩ := forall_mem_cons.mp ht
    rw [Changeset.applyAll]
    cases hn : new.get? c.path with
    | none =>
      have hold : old.get? c.path = none := h.absent hc (fun m hm ha' => by
        rcases mem_cons.mp hm with rfl | hm
        · exact isAbove_irrefl ha'
        · obtain ⟨b, hb, rfl⟩ := mem_map.mp hm
          exact (ha₁ b hb).2 (covers_of_isAbove ha')) hn
      rw [hn] at htc
      rw [Change.apply_of_absent htc hold]
      refine ih (h.prune hc (fun m hm => ?_) hn) hs ho ha ht
      rcases mem_cons.mp hm with rfl | hm
      · exact .inr (covers_refl _)
      · exact .inl hm
    | some x =>
      obtain ⟨v, hv, hcov⟩ : ∃ v, old.set c.path x = (.ok (), v) ∧
          Covered (fun p => p ∈ cs.map Change.path) (some v) (some new) := h.settled
        (fun m hm => mem_cons.mp hm) hc
        (fun m hm => by obtain ⟨b, hb, rfl⟩ := mem_map.mp hm; exact ha₁ b hb)
        (fun m hm => by obtain ⟨b, hb, rfl⟩ := mem_map.mp hm; exact ho₁ b hb) hn
      rw [hn] at htc
      rw [Change.apply_eq_set htc hv]
      refine ih hcov hs ho ha fun b hb => ?_
      have hget : (old.set c.path x).2.get? b.path = old.get? b.path :=
        get?_setFrom_apart (ha₁ b hb).symm (hs b hb) hc
      rw [hv] at hget
      rw [hget]
      exact ht b hb

section Locality

-- Replaying changes is a run of writes to their paths.
theorem Changeset.applyAll_rec {I : Value → Prop} (hop : ∀ c ∈ cs, c.op ≠ .unset) (hr : applyAll cs old = .ok new)
    (h : I old) (step : ∀ c ∈ cs, ∀ v x, I v → I (v.set c.path x).2) : I new := by
  induction cs generalizing old with
  | nil => cases hr; exact h
  | cons c cs ih =>
    have ⟨hop₁, hop⟩ := forall_mem_cons.mp hop
    have ⟨step₁, step⟩ := forall_mem_cons.mp step
    rw [applyAll] at hr
    split at hr
    · case _ v hv =>
      refine ih hop hr ?_ step
      obtain ⟨-, rfl | ⟨x, hx⟩⟩ := Change.apply_ok hop₁ hv
      · exact h
      · simpa [hx] using step₁ old x h
    · cases hr

theorem Covered.of_replay (h : Covered M start (some old)) (hstart : ∀ v, start = some v → v.Canonical)
    (hop : ∀ c ∈ cs, c.op ≠ .unset) (hs : ∀ c ∈ cs, c.path.Spelled) (hM : ∀ c ∈ cs, M c.path)
    (hr : Changeset.applyAll cs old = .ok new) : Covered M start (some new) :=
  Changeset.applyAll_rec (I := (Covered M start <| some ·)) hop hr h fun c hc _ _ h =>
    h.written (hM c hc) (covers_refl _) (hs c hc) hstart

theorem get?_of_replay (hop : ∀ c ∈ cs, c.op ≠ .unset) (hs : ∀ c ∈ cs, c.path.Spelled) (hq : q.Spelled)
    (ha : ∀ c ∈ cs, c.path.Apart q) (hr : Changeset.applyAll cs old = .ok new) : new.get? q = old.get? q :=
  Changeset.applyAll_rec (I := fun v => v.get? q = old.get? q) hop hr rfl fun c hc _ _ h =>
    (get?_setFrom_apart (ha c hc).symm hq (hs c hc)).trans h

theorem turns_of_replay (hop : ∀ c ∈ cs, c.op ≠ .unset) (hs : ∀ c ∈ cs, c.path.Spelled)
    (ha : cs.Pairwise fun a b => a.path.Apart b.path) (hr : Changeset.applyAll cs old = .ok new) :
    ∀ c ∈ cs, c.Turns (old.get? c.path) (new.get? c.path) := by
  induction cs generalizing old with
  | nil => simp
  | cons c cs ih =>
    have ⟨hop₁, hop⟩ := forall_mem_cons.mp hop
    have ⟨hs₁, hs⟩ := forall_mem_cons.mp hs
    have ⟨ha₁, ha⟩ := pairwise_cons.mp ha
    rw [Changeset.applyAll] at hr
    split at hr
    · case _ v hv =>
      have ⟨ht, hw⟩ := Change.apply_ok hop₁ hv
      have hfirst : new.get? c.path = v.get? c.path :=
        get?_of_replay hop hs hs₁ (fun b hb => (ha₁ b hb).symm) hr
      refine forall_mem_cons.mpr ⟨hfirst ▸ ht, fun b hb => ?_⟩
      have hrest := ih hop hs ha hr b hb
      obtain rfl | ⟨x, hx⟩ := hw
      · exact hrest
      · rw [show v = (old.set c.path x).2 by rw [hx]] at hrest
        rwa [Value.set, get?_setFrom_apart (ha₁ b hb).symm (hs b hb) hs₁] at hrest
    · cases hr

-- What changes do at a path: one at or above it turns what was stored into what a record has, or there is none,
-- and the record has there what was stored.
def Accounts (cs : List Change) (p : Path) (old new : Value) : Prop :=
  (∃ c ∈ cs, c.path.covers p ∧ c.Turns (old.get? c.path) (new.get? c.path)) ∨
    (∀ c ∈ cs, c.path.Apart p) ∧ old.get? p = new.get? p

theorem replay_iff_accounts (hop : ∀ c ∈ cs, c.op ≠ .unset) (hs : ∀ c ∈ cs, c.path.Spelled)
    (ha : cs.Pairwise fun a b => a.path.Apart b.path) (hop' : ∀ c ∈ cs', c.op ≠ .unset)
    (hs' : ∀ c ∈ cs', c.path.Spelled) (ha' : cs'.Pairwise fun a b => a.path.Apart b.path)
    (ho' : cs'.Pairwise fun a b => compare a.path b.path = .lt) (hp : p.Spelled) (hold : old.Canonical)
    (hr : Changeset.applyAll cs old = .ok new) (hnear : ∀ c ∈ cs', c.path.covers p ∨ c ∈ cs ∧ c.path.Apart p)
    (hfar : ∀ c ∈ cs, c ∈ cs' ∨ (∃ b ∈ cs', b.path.covers p ∧ b.path.covers c.path) ∨
      (∀ b ∈ cs', b.path.Apart p) ∧ p.covers c.path) :
    Changeset.applyAll cs' old = .ok new ↔ Accounts cs' p old new := by
  have hcov : Covered (fun q => q ∈ cs.map Change.path) (some old) (some new) :=
    Covered.of_replay .same (fun v hv => Option.some.inj hv ▸ hold) hop hs
      (fun c hc => mem_map_of_mem hc) hr
  have hturns := turns_of_replay hop hs ha hr
  constructor
  · intro hr'
    by_cases hc : ∃ c ∈ cs', c.path.covers p
    · obtain ⟨c, hc, hcp⟩ := hc
      exact .inl ⟨c, hc, hcp, turns_of_replay hop' hs' ha' hr' c hc⟩
    · have hall : ∀ c ∈ cs', c.path.Apart p := fun c hc' =>
        ((hnear c hc').resolve_left fun h => hc ⟨c, hc', h⟩).2
      exact .inr ⟨hall, (get?_of_replay hop' hs' hp hall hr').symm⟩
  · rintro (⟨c, hc, hcp, ht⟩ | ⟨hall, he⟩)
    · refine Covered.replay (hcov.mono fun m hm => ?_) hs' ho' ha' fun b hb => ?_
      · obtain ⟨b, hb, rfl⟩ := mem_map.mp hm
        rcases hfar b hb with hb | ⟨a, ha, -, hab⟩ | ⟨hall, -⟩
        · exact ⟨_, mem_map_of_mem hb, covers_refl _⟩
        · exact ⟨_, mem_map_of_mem ha, hab⟩
        · exact absurd hcp (hall c hc).1
      · rcases hnear b hb with hbp | ⟨hb, -⟩
        · have heq : b = c := by
            have : Std.Symm fun a b : Change => a.path.Apart b.path := ⟨fun _ _ h => h.symm⟩
            refine Classical.byContradiction fun hne => ?_
            have hapart := ha'.forall hb hc hne
            rcases covers_total hbp hcp with h | h
            · exact hapart.1 h
            · exact hapart.2 h
          exact heq ▸ ht
        · exact hturns b hb
    · refine Covered.replay (hcov.restrict hp (fun m hm => ?_) he) hs' ho' ha' fun b hb => ?_
      · obtain ⟨b, hb, rfl⟩ := mem_map.mp hm
        rcases hfar b hb with hb | ⟨a, ha, hap, -⟩ | ⟨-, hpb⟩
        · exact .inl (mem_map_of_mem hb)
        · exact absurd hap (hall a ha).1
        · exact .inr hpb
      · exact hturns b ((hnear b hb).resolve_left (hall b hb).1).1

end Locality

end Dossier

import Dossier.Document.Basic
import Dossier.Proofs.Replay

-- How the marks and the noted appends of a document stay in step with its value while it is written to.

namespace Dossier

open Value Path

-- Values were appended to what was there, or there are none and it is as it was.
def Appended (old : Option Value) (pushed : List Value) (new : Option Value) : Prop :=
  (pushed = [] ∧ new = old) ∨ ∃ xs, items? old = some xs ∧ new = some (.arr (xs ++ pushed))

theorem Appended.append (h : Appended old ps new) (hi : items? new = some items) :
    Appended old (ps ++ qs) (some (.arr (items ++ qs))) := by
  rcases h with ⟨rfl, rfl⟩ | ⟨xs, hx, rfl⟩
  · exact .inr ⟨items, hi, rfl⟩
  · cases hi
    exact .inr ⟨xs, hx, by rw [List.append_assoc]⟩

-- A part of an array is still there after the array has grown.
theorem isSome_get?_of_items (hi : items? o = some xs) (hs : (o.bind (·.get? (seg :: rest))).isSome) :
    ((Value.arr (xs ++ ys)).get? (seg :: rest)).isSome := by
  cases o with
  | none => cases hs
  | some v =>
    cases v with
    | arr zs =>
      obtain rfl : zs = xs := Option.some.inj hi
      cases seg with
      | key => simp at hs
      | index i =>
        rw [Option.bind_some, get?_index_arr] at hs
        rw [get?_index_arr]
        cases hx : zs[i]? with
        | none => simp [hx] at hs
        | some z =>
          rw [List.getElem?_append_left (List.getElem?_eq_some_iff.mp hx).1, hx]
          rwa [hx] at hs
    | null => simp [get?, child?] at hs
    | bool | num | str | obj => cases hi

-- An array at `p` is accounted for: by a mark above it, by being replaced, by a mark at one of its parts that is
-- there, or else by the values appended to it.
def Accounted (base v : Value) (M : Marks) (ops : Path → ArrayOps) (p : Path) : Prop :=
  (∃ m, M m ∧ m.isAbove p) ∨ (ops p).replaced ∨ (∃ m, M m ∧ p.isAbove m ∧ (v.get? m).isSome) ∨
    Appended (base.get? p) (ops p).pushed (v.get? p)

-- Marks and noted operations that tell how to get from one value to another. The places of arrays are those that
-- `arrays` tells.
structure Pending (arrays : Path → Prop) (base v : Value) (M : Marks) (ops : Path → ArrayOps) :
    Prop where
  covered : Covered M (some base) (some v)
  spelled : ∀ m, M m → m.Spelled
  arrays  : ∀ p, p.Spelled → arrays p → Accounted base v M ops p
  pulled  : ∀ p, (ops p).pulled = []

namespace Pending

variable {arrays : Path → Prop} {base v : Value} {M M' : Marks} {ops ops' : Path → ArrayOps}
  {c w : Path} {x : Value}

theorem start (hM : ∀ m, ¬ M m) (hops : ∀ p, ops p = {}) : Pending arrays base base M ops where
  covered := .same
  spelled m hm := absurd hm (hM m)
  arrays p _ _ := .inr (.inr (.inr (.inl ⟨by rw [hops], rfl⟩)))
  pulled p := by rw [hops]

variable (h : Pending arrays base v M ops)

include h

theorem mark (hM : ∀ m, M' m ↔ M m ∨ m = c) (hc : c.Spelled) : Pending arrays base v M' ops where
  covered := h.covered.mono (.of_imp fun m hm => (hM m).mpr (.inl hm))
  spelled m hm := by
    rcases (hM m).mp hm with hm | rfl
    · exact h.spelled m hm
    · exact hc
  arrays p hp ha := (h.arrays p hp ha).imp (fun ⟨m, hm, hab⟩ => ⟨m, (hM m).mpr (.inl hm), hab⟩)
    (.imp_right (.imp_left fun ⟨m, hm, hab⟩ => ⟨m, (hM m).mpr (.inl hm), hab⟩))
  pulled := h.pulled

-- A write with a mark that covers it. Marks below the write may be dropped. The array at the place of the write is
-- left to the caller.
theorem write (hb : base.Canonical) (hw : w.Spelled) (hok : (v.set w x).1 = .ok ()) (hc : c.covers w) (hM' : M' c)
    (hkeep : ∀ m, M m → M' m ∨ w.isAbove m) (hsub : ∀ m, M' m → M m ∨ m = c) (hroot : arrays c → c = w)
    (hops : ∀ p, ¬ w.covers p → ops' p = ops p) (hpulled : ∀ p, (ops' p).pulled = [])
    (hself : arrays w → Accounted base v M ops w → Accounted base (v.set w x).2 M' ops' w) :
    Pending arrays base (v.set w x).2 M' ops' where
  covered := by
    refine (h.covered.mono fun m hm => ?_).written hM' hc hw fun b hb' => Option.some.inj hb' ▸ hb
    rcases hkeep m hm with hm | ha
    · exact ⟨m, hm, covers_refl m⟩
    · exact ⟨c, hM', covers_trans hc (covers_of_isAbove ha)⟩
  spelled m hm := by
    rcases hsub m hm with hm | rfl
    · exact h.spelled m hm
    · exact hw.of_covers hc
  pulled := hpulled
  arrays p hp ha := by
    by_cases hwp : w.covers p
    · rcases eq_or_isAbove_of_covers hwp with rfl | habove
      · exact hself ha (h.arrays w hp ha)
      · exact .inl ⟨c, hM', isAbove_of_covers_isAbove hc habove⟩
    by_cases hpw : p.covers w
    · -- The mark and the array both cover the write.
      have hpa : p ≠ c := by
        rintro rfl
        exact hwp (hroot ha ▸ covers_refl _)
      rcases covers_total hpw hc with hpc | hcp
      · refine .inr (.inr (.inl ⟨c, hM', isAbove_iff_covers.mpr ⟨hpc, hpa⟩, ?_⟩))
        refine get?_isSome_of_covers ?_ hc
        rw [Value.set, get?_setFrom_self hok]
        rfl
      · exact .inl ⟨c, hM', isAbove_iff_covers.mpr ⟨hcp, hpa.symm⟩⟩
    · have hsame : ∀ q : Path, q.Spelled → p.covers q → (v.set w x).2.get? q = v.get? q := by
        intro q hq hpq
        refine get?_setFrom_apart ⟨fun hqw => hpw (covers_trans hpq hqw), fun hwq => ?_⟩ hq hw
        rcases covers_total hpq hwq with h | h
        · exact hpw h
        · exact hwp h
      have hstay : ∀ m, M m → m.isAbove p ∨ p.isAbove m → M' m := by
        intro m hm hor
        refine (hkeep m hm).resolve_right fun hwm => ?_
        rcases hor with hmp | hpm
        · exact hwp (covers_of_isAbove (isAbove_trans hwm hmp))
        · rcases covers_total (covers_of_isAbove hwm) (covers_of_isAbove hpm) with h | h
          · exact hwp h
          · exact hpw h
      rcases h.arrays p hp ha with ⟨m, hm, hab⟩ | hr | ⟨m, hm, hab, hs⟩ | happ
      · exact .inl ⟨m, hstay m hm (.inl hab), hab⟩
      · exact .inr (.inl (by rwa [hops p hwp]))
      · refine .inr (.inr (.inl ⟨m, hstay m hm (.inr hab), hab, ?_⟩))
        rwa [hsame m (h.spelled m hm) (covers_of_isAbove hab)]
      · refine .inr (.inr (.inr ?_))
        rwa [hops p hwp, hsame p hp (covers_refl p)]

theorem assign (hb : base.Canonical) (hw : w.Spelled) (hok : (v.set w x).1 = .ok ()) (hc : c.covers w) (hM' : M' c)
    (hkeep : ∀ m, M m → M' m ∨ w.isAbove m) (hsub : ∀ m, M' m → M m ∨ m = c) (hroot : arrays c → c = w)
    (hops : ∀ p, ¬ w.covers p → ops' p = ops p) (hpulled : ∀ p, (ops' p).pulled = [])
    (hself : arrays w → (ops' w).replaced) : Pending arrays base (v.set w x).2 M' ops' :=
  h.write hb hw hok hc hM' hkeep hsub hroot hops hpulled fun ha _ => .inr (.inl (hself ha))

theorem push (hb : base.Canonical) (hw : w.Spelled) (hi : items? (v.get? w) = some items)
    (hok : (v.set w (.arr (items ++ pushed))).1 = .ok ()) (hc : c.covers w) (hM : ∀ m, M' m ↔ M m ∨ m = c)
    (hroot : arrays c → c = w) (hops : ∀ p, p ≠ w → ops' p = ops p)
    (hself : ops' w = { ops w with pushed := (ops w).pushed ++ pushed }) :
    Pending arrays base (v.set w (.arr (items ++ pushed))).2 M' ops' := by
  have hget : (v.set w (.arr (items ++ pushed))).2.get? w = some (.arr (items ++ pushed)) :=
    get?_setFrom_self hok
  refine h.write hb hw hok hc ((hM c).mpr (.inr rfl)) (fun m hm => .inl ((hM m).mpr (.inl hm)))
    (fun m hm => (hM m).mp hm) hroot (fun p hp => hops p ?_) (fun p => ?_) fun _ hacc => ?_
  · rintro rfl
    exact hp (covers_refl _)
  · by_cases hp : p = w
    · subst hp
      rw [hself]
      exact h.pulled p
    · rw [hops p hp]
      exact h.pulled p
  · rcases hacc with ⟨m, hm, hab⟩ | hr | ⟨m, hm, hab, hs⟩ | happ
    · exact .inl ⟨m, (hM m).mpr (.inl hm), hab⟩
    · exact .inr (.inl (by rwa [hself]))
    · refine .inr (.inr (.inl ⟨m, (hM m).mpr (.inl hm), hab, ?_⟩))
      obtain ⟨r, hr, rfl⟩ := isAbove_iff.mp hab
      obtain ⟨seg, rest, rfl⟩ := List.exists_cons_of_ne_nil hr
      rw [get?_append] at hs ⊢
      rw [hget]
      exact isSome_get?_of_items hi hs
    · refine .inr (.inr (.inr ?_))
      rw [hself, hget]
      exact happ.append hi

theorem prune (hw : w.Spelled) (hn : v.get? w = none) (hkeep : ∀ m, M m → M' m ∨ w.isAbove m) (hsub : ∀ m, M' m → M m)
    (hops : ∀ p, ¬ w.isAbove p → ops' p = ops p) (hbelow : ∀ p, w.isAbove p → ops' p = {}) :
    Pending arrays base v M' ops' := by
  have hcov : Covered M' (some base) (some v) :=
    h.covered.prune hw (fun m hm => (hkeep m hm).imp_right covers_of_isAbove) hn
  refine ⟨hcov, fun m hm => h.spelled m (hsub m hm), fun p hp ha => ?_, fun p => ?_⟩
  · by_cases hwp : w.isAbove p
    · by_cases hm : ∃ m, M' m ∧ m.isAbove p
      · exact .inl hm
      · have hv : v.get? p = none := get?_of_covers hn (covers_of_isAbove hwp)
        have hbase : base.get? p = none := hcov.absent hp (fun m hm' hab => hm ⟨m, hm', hab⟩) hv
        exact .inr (.inr (.inr (.inl ⟨by rw [hbelow p hwp], by rw [hv, hbase]⟩)))
    · rcases h.arrays p hp ha with ⟨m, hm, hab⟩ | hr | ⟨m, hm, hab, hs⟩ | happ
      · exact .inl ⟨m, (hkeep m hm).resolve_right fun hwm => hwp (isAbove_trans hwm hab), hab⟩
      · exact .inr (.inl (by rwa [hops p hwp]))
      · refine .inr (.inr (.inl ⟨m, (hkeep m hm).resolve_right fun hwm => ?_, hab, hs⟩))
        rw [get?_of_covers hn (covers_of_isAbove hwm)] at hs
        cases hs
      · exact .inr (.inr (.inr (by rwa [hops p hwp])))
  · by_cases hwp : w.isAbove p
    · rw [hbelow p hwp]
    · rw [hops p hwp]; exact h.pulled p

end Pending
end Dossier

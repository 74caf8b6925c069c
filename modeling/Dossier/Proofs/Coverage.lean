import Dossier.Proofs.Equality

-- A set of paths covers the way from one value to another if the two agree wherever no path of the set leads.

namespace Dossier

open Path Entries List

abbrev Marks := Path → Prop

namespace Marks

def after (M : Marks) (seg : Seg) : Marks :=
  fun p => M (seg :: p)

-- Every mark of the first set is at or below one of the second.
def Within (M M' : Marks) : Prop :=
  ∀ m, M m → ∃ c, M' c ∧ c.covers m

variable {M : Marks}

theorem Within.of_imp (h : ∀ m, M m → M' m) : M.Within M' :=
  fun m hm => ⟨m, h m hm, covers_refl m⟩

theorem Within.root (h : M.Within M') (hm : M []) : M' [] := by
  obtain ⟨c, hc, hcov⟩ := h _ hm
  exact covers_nil.mp hcov ▸ hc

theorem Within.after (h : M.Within M') (hn : ¬ M' []) : (M.after seg).Within (M'.after seg) := by
  intro m hm
  obtain ⟨c, hc, hcov⟩ := h _ hm
  match c with
  | [] => exact absurd hc hn
  | _ :: c =>
    obtain ⟨rfl, hcov'⟩ := cons_covers_cons.mp hcov
    exact ⟨c, hc, hcov'⟩

end Marks

open Value

-- Whatever is below a mark may differ. Otherwise arrays only grow, and objects can come into being
-- where nothing or a scalar was. An object that does has fields, which marks below account for.
inductive Covered : Marks → Option Value → Option Value → Prop
  | same {M v} : Covered M v v
  | marked {M v w} : M [] → Covered M v (some w)
  | items {M xs ys} : xs.length ≤ ys.length →
      (∀ i, Covered (M.after (.index i)) xs[i]? ys[i]?) → Covered M (some (.arr xs)) (some (.arr ys))
  | fields {M v fs gs} : (v.getD .null).openFields? = some fs → v = some (.obj fs) ∨ gs ≠ [] →
      Entries.Sorted fs → Entries.Sorted gs →
      (∀ k, Covered (M.after (.spell k)) (Entries.get? k fs) (Entries.get? k gs)) →
      Covered M v (some (.obj gs))

namespace Covered

variable {M : Marks} {v w : Option Value}

theorem mono (h : Covered M v w) (hm : M.Within M') : Covered M' v w := by
  induction h generalizing M' with
  | same => exact .same
  | marked h => exact .marked (hm.root h)
  | items hl _ ih =>
    by_cases hr : M' []
    · exact .marked hr
    · exact .items hl fun i => ih i (hm.after hr)
  | fields ho hg hf hs _ ih =>
    by_cases hr : M' []
    · exact .marked hr
    · exact .fields ho hg hf hs fun k => ih k (hm.after hr)

theorem eq_of_unmarked (h : Covered M v w) (hm : ∀ p, ¬ M p) : v = w := by
  induction h with
  | same => rfl
  | marked h => exact absurd h (hm _)
  | @items M xs ys hl _ ih =>
    have : xs = ys := ext_getElem? fun i => ih i fun p => hm (.index i :: p)
    rw [this]
  | @fields M v fs gs ho hg hf hs _ ih =>
    have heq : fs = gs := sorted_ext hf hs fun k => ih k fun p => hm (.spell k :: p)
    subst heq
    rcases hg with rfl | hne
    · rfl
    · match v with
      | some (.obj _) => cases ho; rfl
      | some (.arr _) => cases ho
      | none | some .null | some (.bool _) | some (.num _) | some (.str _) =>
        cases ho
        exact absurd rfl hne

theorem exists_mark (h : Covered M none (some x)) : ∃ m, M m ∧ (x.get? m).isSome := by
  generalize hv : (none : Option Value) = v, hw : some x = w at h
  induction h generalizing x with
  | same => subst hv; cases hw
  | marked h => cases hw; exact ⟨[], h, by simp⟩
  | items => cases hv
  | @fields M v fs gs ho hg hf hs _ ih =>
    subst hv
    cases ho
    cases hw
    match gs, hg.resolve_left (by simp) with
    | (k, c) :: gs, _ =>
      obtain ⟨m, hm, hs⟩ := ih k rfl get?_cons_self.symm
      refine ⟨.spell k :: m, hm, ?_⟩
      rw [get?_cons_of_openFields rfl, Seg.toKey_spell, get?_cons_self]
      exact hs

theorem absent (h : Covered M old new) (hq : q.Spelled) (hm : ∀ m, M m → ¬ m.isAbove q)
    (hn : new.bind (·.get? q) = none) : old.bind (·.get? q) = none := by
  induction h generalizing q with
  | same => exact hn
  | marked h =>
    cases q with
    | nil => simp at hn
    | cons => exact absurd nil_isAbove_cons (hm _ h)
  | @items M xs ys hl _ ih =>
    cases q with
    | nil => simp at hn
    | cons seg rest =>
      cases seg with
      | key => simp
      | index i =>
        simp only [Option.bind_some, get?_index_arr] at hn ⊢
        exact ih i (spelled_cons.mp hq).2
          (fun m hm' ha => hm _ hm' (cons_isAbove_cons.mpr ⟨rfl, ha⟩)) hn
  | @fields M v fs gs ho hg hf hs _ ih =>
    cases q with
    | nil => simp at hn
    | cons seg rest =>
      have ⟨hseg, hrest⟩ := spelled_cons.mp hq
      have key := ih seg.toKey hrest fun m hm' ha =>
        hm _ hm' (cons_isAbove_cons.mpr ⟨hseg, ha⟩)
      rw [Option.bind_some, get?_cons_of_openFields rfl] at hn
      cases v with
      | none => rfl
      | some v =>
        rw [Option.getD_some] at ho
        rw [Option.bind_some, get?_cons_of_openFields ho]
        exact key hn

theorem restrict (h : Covered M old new) (hq : q.Spelled) (hm : ∀ m, M m → M' m ∨ q.covers m)
    (he : old.bind (·.get? q) = new.bind (·.get? q)) : Covered M' old new := by
  induction h generalizing q M' with
  | same => exact .same
  | @marked M v w h =>
    rcases hm _ h with h | hc
    · exact .marked h
    · simp only [covers_nil.mp hc, get?_nil, Option.bind_some] at he
      cases v with
      | none => cases he
      | some v => cases he; exact .same
  | @items M xs ys hl hi ih =>
    cases q with
    | nil =>
      simp only [get?_nil, Option.bind_some] at he
      exact he ▸ .same
    | cons seg rest =>
      refine .items hl fun i => ?_
      by_cases hs : seg = .index i
      · subst hs
        rw [Option.bind_some, Option.bind_some, get?_index_arr, get?_index_arr] at he
        exact ih i (spelled_cons.mp hq).2
          (fun m hm' => (hm _ hm').imp_right fun hc => (cons_covers_cons.mp hc).2) he
      · exact (hi i).mono (.of_imp fun m hm' =>
          (hm _ hm').resolve_right fun hc => hs (cons_covers_cons.mp hc).1)
  | @fields M v fs gs ho hg hf hs hi ih =>
    cases q with
    | nil =>
      cases v with
      | none => cases he
      | some v =>
        simp only [get?_nil, Option.bind_some] at he
        exact he ▸ .same
    | cons seg rest =>
      have ⟨hseg, hrest⟩ := spelled_cons.mp hq
      refine .fields ho hg hf hs fun k => ?_
      by_cases hk : seg = .spell k
      · subst hk
        have hv : v.bind (·.get? (.spell k :: rest)) = (Entries.get? k fs).bind (·.get? rest) := by
          cases v with
          | none => cases ho; rfl
          | some v =>
            rw [Option.getD_some] at ho
            rw [Option.bind_some, get?_cons_of_openFields ho, Seg.toKey_spell]
        rw [hv, Option.bind_some, get?_cons_of_openFields rfl, Seg.toKey_spell] at he
        exact ih k hrest
          (fun m hm' => (hm _ hm').imp_right fun hc => (cons_covers_cons.mp hc).2) he
      · exact (hi k).mono (.of_imp fun m hm' =>
          (hm _ hm').resolve_right fun hc => hk (cons_covers_cons.mp hc).1)

theorem prune (h : Covered M old new) (hq : q.Spelled) (hm : ∀ m, M m → M' m ∨ q.covers m)
    (hn : new.bind (·.get? q) = none) : Covered M' old new := by
  by_cases habove : ∃ a, M a ∧ a.isAbove q
  · obtain ⟨a, ha, haq⟩ := habove
    have ha' := (hm a ha).resolve_right (not_covers_of_isAbove haq)
    exact h.mono fun m hm' => (hm m hm').elim (⟨m, ·, covers_refl m⟩)
      fun hc => ⟨a, ha', covers_trans (covers_of_isAbove haq) hc⟩
  · have ho := h.absent hq (fun m hm' ha => habove ⟨m, hm', ha⟩) hn
    exact h.restrict hq hm (ho.trans hn.symm)

-- Parts

theorem openFields (h : Covered M old new) (hm : ¬ M []) (hg : (new.getD .null).openFields? = some gs)
    (hs : old = new → Entries.Sorted gs) :
    ∃ fs, (old.getD .null).openFields? = some fs ∧ Entries.Sorted fs ∧ Entries.Sorted gs ∧
      ∀ k, Covered (M.after (.spell k)) (Entries.get? k fs) (Entries.get? k gs) := by
  cases h with
  | same => exact ⟨gs, hg, hs rfl, hs rfl, fun _ => .same⟩
  | marked h => exact absurd h hm
  | items => cases hg
  | fields ho _ hf hs' hi =>
    cases hg
    exact ⟨_, ho, hf, hs', hi⟩

theorem items_left (h : Covered M old (some (.arr ys))) (hm : ¬ M []) :
    ∃ xs, old = some (.arr xs) ∧ xs.length ≤ ys.length ∧ ∀ i, Covered (M.after (.index i)) xs[i]? ys[i]? := by
  cases h with
  | same => exact ⟨ys, rfl, Nat.le_refl _, fun _ => .same⟩
  | marked h => exact absurd h hm
  | items hl hi => exact ⟨_, rfl, hl, hi⟩

-- Writes

theorem written (h : Covered M old new) (hc : M c) (hcov : c.covers p) (hp : p.Spelled)
    (hold : ∀ v, old = some v → v.Canonical) : Covered M old (some (setFrom full x p (new.getD .null)).2) := by
  induction p generalizing M old new c with
  | nil => exact .marked (covers_nil.mp hcov ▸ hc)
  | cons seg rest ih =>
    by_cases hr : M []
    · exact .marked hr
    obtain ⟨hseg, hrest⟩ := spelled_cons.mp hp
    match c with
    | [] => exact absurd hc hr
    | seg' :: c =>
      obtain ⟨heq, hcov'⟩ := cons_covers_cons.mp hcov
      subst seg'
      rcases openFields?_cases (new.getD .null) with ⟨gs, hg⟩ | ⟨ys, hy⟩
      · obtain ⟨fs, ho, hf, hs, hi⟩ := h.openFields hr hg fun he =>
          (Canonical.openFields (canonical_getD fun v hv => hold v (he ▸ hv)) hg).1
        rw [setFrom_cons_of_openFields hg]
        refine .fields ho (.inr insert_ne_nil) hf (insert_sorted hs) fun k => ?_
        by_cases hk : seg = .spell k
        · subst hk
          rw [Seg.toKey_spell, get?_insert_self]
          refine ih (hi k) hc hcov' hrest fun v hv => ?_
          exact (Canonical.openFields (canonical_getD hold) ho).2 _ (mem_of_get? hv)
        · rw [get?_insert_ne fun he => hk (by rw [← he]; exact hseg.symm)]
          exact hi k
      · match new, hy with
        | some _, rfl =>
          obtain ⟨xs, rfl, hl, hi⟩ := h.items_left hr
          rw [Option.getD_some]
          cases seg with
          | key k => exact .items hl hi
          | index i =>
            by_cases hle : i ≤ ys.length
            · rw [setFrom_index_arr hle]
              refine .items (Nat.le_trans hl length_putItem) fun j => ?_
              rw [getElem?_putItem hle]
              split
              · case isTrue hj =>
                subst hj
                refine ih (hi j) hc hcov' hrest fun v hv => ?_
                exact canonicalItems_iff.mp (hold _ rfl) v (mem_of_getElem? hv)
              · exact hi j
            · simp only [setFrom, Nat.lt_of_not_le hle, if_true]
              exact .items hl hi

-- Marks come in order, so no item before that of the first one is new.
theorem le_length_of_first {N : Marks} {xs ys : List Value}
    (hi : ∀ i, Covered (M.after (.index i)) xs[i]? ys[i]?) (hlt : i < ys.length)
    (hM : ∀ m, M m → m = .index i :: rest ∨ N m) (hfirst : ∀ m, N m → compare (.index i :: rest : Path) m = .lt) :
    i ≤ xs.length := by
  refine Nat.le_of_not_lt fun hgt => ?_
  have hj := hi xs.length
  rw [getElem?_eq_none (Nat.le_refl _), getElem?_eq_getElem (by omega)] at hj
  obtain ⟨m, hm, -⟩ := hj.exists_mark
  have hn := (hM _ hm).resolve_left fun he => by
    have := Seg.index.inj (List.cons.inj he).1
    omega
  have := index_le_of_compare_lt (hfirst _ hn)
  omega

theorem settled (h : Covered M old (some y)) (hM : ∀ m, M m → m = p ∨ N m) (hp : p.Spelled)
    (hapart : ∀ m, N m → p.Apart m) (hfirst : ∀ m, N m → compare p m = .lt) (hx : y.get? p = some x) :
    ∃ v, setFrom full x p (old.getD .null) = (.ok (), v) ∧ Covered N (some v) (some y) := by
  induction p generalizing M N old y with
  | nil =>
    rw [get?_nil] at hx
    cases hx
    exact ⟨x, by simp [setFrom], .same⟩
  | cons seg rest ih =>
    by_cases he : old = some y
    · subst he
      exact ⟨y, setFrom_of_get? hx, .same⟩
    have hr : ¬ M [] := fun h =>
      (hM _ h).elim (by simp) fun hn => (hapart _ hn).2 (nil_covers _)
    obtain ⟨hseg, hrest⟩ := spelled_cons.mp hp
    have hN : ∀ {s : Seg}, s ≠ seg → (M.after s).Within (N.after s) := fun hs => .of_imp fun m hm =>
      (hM _ hm).resolve_left fun he => hs (List.cons.inj he).1
    have step : ∀ {o : Option Value} {z : Value}, Covered (M.after seg) o (some z) →
        z.get? rest = some x → ∃ v, setFrom full x rest (o.getD .null) = (.ok (), v) ∧
          Covered (N.after seg) (some v) (some z) := fun hz hx =>
      ih hz (fun m hm => (hM _ hm).imp_left fun he => (List.cons.inj he).2) hrest
        (fun m hm => (cons_apart_cons.mp (hapart _ hm)).resolve_left (absurd rfl))
        (fun m hm => compare_cons_lt.mp (hfirst _ hm)) hx
    rcases openFields?_cases y with ⟨gs, hg⟩ | ⟨ys, rfl⟩
    · obtain ⟨fs, ho, hf, hs, hi⟩ := h.openFields hr hg (absurd · he)
      rw [get?_cons_of_openFields hg] at hx
      obtain ⟨z, hz, hx⟩ := Option.bind_eq_some_iff.mp hx
      have hi' := hi seg.toKey
      rw [hseg, hz] at hi'
      obtain ⟨v, hv, hcov⟩ := step hi' hx
      rw [setFrom_cons_of_openFields ho, hv]
      refine ⟨_, rfl, ?_⟩
      cases y with
      | obj =>
        cases hg
        refine .fields rfl (.inl rfl) (insert_sorted hf) hs fun k => ?_
        by_cases hk : seg = .spell k
        · subst hk
          rw [Seg.toKey_spell, get?_insert_self]
          rw [Seg.toKey_spell] at hz
          rwa [hz]
        · rw [get?_insert_ne fun he => hk (by rw [← he]; exact hseg.symm)]
          exact (hi k).mono (hN (Ne.symm hk))
      | arr => cases hg
      | null | bool | num | str => cases hg; cases hz
    · obtain ⟨xs, rfl, hl, hi⟩ := h.items_left hr
      cases seg with
      | key => cases hx
      | index i =>
        rw [get?_index_arr] at hx
        obtain ⟨z, hz, hx⟩ := Option.bind_eq_some_iff.mp hx
        have hlt := (List.getElem?_eq_some_iff.mp hz).1
        have hle : i ≤ xs.length := le_length_of_first hi hlt hM hfirst
        have hi' := hi i
        rw [hz] at hi'
        obtain ⟨v, hv, hcov⟩ := step hi' hx
        rw [Option.getD_some, setFrom_index_arr hle, hv]
        refine ⟨_, rfl, .items ?_ fun j => ?_⟩
        · simp only [putItem]
          split <;> simp <;> omega
        · rw [getElem?_putItem hle]
          split
          · case isTrue hj => subst hj; rwa [hz]
          · case isFalse hj => exact (hi j).mono (hN fun he => hj (Seg.index.inj he))

end Covered
end Dossier

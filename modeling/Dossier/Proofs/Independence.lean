import Dossier.Proofs.Replay

-- Changesets whose paths lie apart from each other can be applied in any order, with one result.

namespace Dossier

open Value Path Entries List

namespace Entries

variable {κ : Type} [Ord κ] [Std.TransOrd κ] [Std.LawfulEqOrd κ]
variable {k : κ} {a b : α}

theorem insert_comm (hs : Sorted es) (h : k ≠ l) : insert l b (insert k a es) = insert k a (insert l b es) := by
  refine sorted_ext (insert_sorted (insert_sorted hs)) (insert_sorted (insert_sorted hs)) fun m => ?_
  by_cases hk : k = m
  · subst hk
    rw [get?_insert_ne h.symm, get?_insert_self, get?_insert_self]
  · by_cases hl : l = m
    · subst hl
      rw [get?_insert_self, get?_insert_ne h, get?_insert_self]
    · rw [get?_insert_ne hl, get?_insert_ne hk, get?_insert_ne hk, get?_insert_ne hl]

theorem erase_insert (hs : Sorted es) (h : k ≠ l) : erase l (insert k a es) = insert k a (erase l es) := by
  refine sorted_ext (erase_sorted (insert_sorted hs)) (insert_sorted (erase_sorted hs)) fun m => ?_
  by_cases hl : l = m
  · subst hl
    rw [get?_erase_self (insert_sorted hs), get?_insert_ne h, get?_erase_self hs]
  · rw [get?_erase_ne hl]
    by_cases hk : k = m
    · subst hk
      rw [get?_insert_self, get?_insert_self]
    · rw [get?_insert_ne hk, get?_insert_ne hk, get?_erase_ne hl]

theorem erase_erase (hs : Sorted es) (h : k ≠ l) : erase l (erase k es) = erase k (erase l es) := by
  refine sorted_ext (erase_sorted (erase_sorted hs)) (erase_sorted (erase_sorted hs)) fun m => ?_
  by_cases hk : k = m
  · subst hk
    rw [get?_erase_ne h.symm, get?_erase_self hs, get?_erase_self (erase_sorted hs)]
  · by_cases hl : l = m
    · subst hl
      rw [get?_erase_self (erase_sorted hs), get?_erase_ne h, get?_erase_self hs]
    · rw [get?_erase_ne hl, get?_erase_ne hk, get?_erase_ne hk, get?_erase_ne hl]

end Entries

namespace Value

variable {v w x : Value} {a b : Seg}

theorem putItem_comm (hi : i ≤ items.length) (hj : j ≤ items.length) (h : i ≠ j) :
    putItem (putItem items i c) j d = putItem (putItem items j d) i c := by
  apply ext_getElem?
  intro k
  rw [getElem?_putItem (Nat.le_trans hj length_putItem), getElem?_putItem hi,
    getElem?_putItem (Nat.le_trans hi length_putItem), getElem?_putItem hj]
  by_cases hk : k = j
  · subst hk
    simp [Ne.symm h]
  · simp [hk]

-- One part

theorem get?_child (hp : p ≠ []) : ((v.child? seg).getD .null).get? p = v.get? (seg :: p) := by
  rw [get?]
  cases v.child? seg with
  | some => rfl
  | none =>
    obtain ⟨b, q, rfl⟩ := exists_cons_of_ne_nil hp
    rfl

-- One part of a value is made, exchanged or taken out.
inductive Alters (seg : Seg) : Option Value → Value → Value → Prop
  | insert {v c : Value} {fs : List (String × Value)} : v.openFields? = some fs →
      Alters seg (some c) v (.obj (Entries.insert seg.toKey c fs))
  | erase {fs : List (String × Value)} : (Entries.get? seg.toKey fs).isSome →
      Alters seg none (.obj fs) (.obj (Entries.erase seg.toKey fs))
  | item {items : List Value} {i : Nat} {c : Value} : seg = .index i → i ≤ items.length →
      Alters seg (some c) (.arr items) (.arr (putItem items i c))

-- If a value is an object, its fields are in order.
def InOrder (v : Value) : Prop :=
  ∀ fs, v = .obj fs → Entries.Sorted fs

theorem InOrder.openFields (h : v.InOrder) (hf : v.openFields? = some fs) : Entries.Sorted fs := by
  cases v with
  | obj fields =>
    cases hf
    exact h _ rfl
  | arr => cases hf
  | null | bool | num | str =>
    cases hf
    exact .nil

theorem Alters.inOrder (h : Alters seg o v w) (hv : v.InOrder) : w.InOrder := by
  rintro fs rfl
  cases h with
  | insert hf => exact insert_sorted (hv.openFields hf)
  | erase => exact erase_sorted (hv _ rfl)

theorem alters_putChild (h : v.takes seg) : Alters seg (some x) v (v.putChild seg x) := by
  cases v with
  | arr items =>
    cases seg with
    | key => cases h
    | index i => exact .item rfl (of_decide_eq_true h)
  | obj => exact .insert rfl
  | null | bool | num | str => exact @Alters.insert seg _ x [] rfl

theorem Alters.eq_putChild (h : Alters seg (some c) v w) : v.takes seg ∧ w = v.putChild seg c := by
  cases h with
  | @insert v _ _ hf => cases v <;> cases hf <;> exact ⟨rfl, rfl⟩
  | item hs hi =>
    subst hs
    exact ⟨decide_eq_true hi, rfl⟩

theorem Alters.child?_self (h : Alters seg (some c) v w) : w.child? seg = some c := by
  obtain ⟨ht, rfl⟩ := h.eq_putChild
  exact child?_putChild_self ht

theorem Alters.child?_ne (h : Alters a o v w) (hk : a.toKey ≠ b.toKey) : w.child? b = v.child? b := by
  cases o with
  | some =>
    obtain ⟨ht, rfl⟩ := h.eq_putChild
    exact child?_putChild_ne ht hk
  | none =>
    cases h
    exact get?_erase_ne hk

theorem Alters.again (h : Alters seg (some c) v w₁) : ∃ w, Alters seg (some d) w₁ w ∧ Alters seg (some d) v w := by
  obtain ⟨ht, rfl⟩ := h.eq_putChild
  refine ⟨v.putChild seg d, ?_, alters_putChild ht⟩
  have hput := alters_putChild (x := d) (@takes_putChild _ c seg _ ht)
  rwa [putChild_putChild ht] at hput

theorem Alters.unique (h₁ : Alters seg o v w₁) (h₂ : Alters seg o v w₂) : w₁ = w₂ := by
  cases o with
  | some => rw [h₁.eq_putChild.2, h₂.eq_putChild.2]
  | none =>
    cases h₁
    cases h₂
    rfl

theorem Alters.comm (h₁ : Alters a o v w₁) (h₂ : Alters b o' v w₂) (hk : a.toKey ≠ b.toKey) (hv : v.InOrder) :
    ∃ w, Alters b o' w₁ w ∧ Alters a o w₂ w := by
  have hsome : ∀ {es : List (String × Value)} {k l : String} {c : Value}, k ≠ l →
      (Entries.get? l es).isSome → (Entries.get? l (Entries.insert k c es)).isSome := fun h hs => by
    rwa [get?_insert_ne h]
  cases h₁ with
  | insert hf =>
    have hs := hv.openFields hf
    cases h₂ with
    | insert hf' =>
      cases hf.symm.trans hf'
      exact ⟨_, .insert rfl, insert_comm hs hk ▸ .insert rfl⟩
    | erase hb =>
      cases hf
      exact ⟨_, .erase (hsome hk hb), erase_insert hs hk ▸ .insert rfl⟩
    | item => cases hf
  | erase ha =>
    have hs := hv _ rfl
    cases h₂ with
    | insert hf =>
      cases hf
      exact ⟨_, .insert rfl, erase_insert hs hk.symm ▸ .erase (hsome hk.symm ha)⟩
    | erase hb =>
      refine ⟨_, .erase ?_, erase_erase hs hk ▸ .erase ?_⟩
      · rwa [get?_erase_ne hk]
      · rwa [get?_erase_ne hk.symm]
  | @item items i c ha hi =>
    cases h₂ with
    | insert hf => cases hf
    | @item _ j d hb hj =>
      have hij : i ≠ j := by
        rintro rfl
        exact hk (by rw [ha, hb])
      exact ⟨_, .item hb (Nat.le_trans hj length_putItem),
        putItem_comm hi hj hij ▸ .item ha (Nat.le_trans hi length_putItem)⟩

-- One place

-- Something, or nothing, is put in one place of a value. What is missing on the way to it is null.
inductive Puts (o : Option Value) : Path → Value → Value → Prop
  | here {seg : Seg} {v w : Value} : Alters seg o v w → Puts o [seg] v w
  | deeper {seg : Seg} {p : Path} {v w c : Value} : Puts o p ((v.child? seg).getD .null) c →
      Alters seg (some c) v w → Puts o (seg :: p) v w

theorem Puts.ne_nil (h : Puts o p v w) : p ≠ [] := by
  cases h <;> simp

theorem Puts.part (h : Puts o (seg :: p) v w) : ∃ c, Alters seg c v w ∧
    ∀ {v' w'}, v'.child? seg = v.child? seg → Alters seg c v' w' → Puts o (seg :: p) v' w' := by
  cases h with
  | here ha => exact ⟨_, ha, fun _ ha' => .here ha'⟩
  | deeper hp ha => exact ⟨_, ha, fun hc ha' => .deeper (hc ▸ hp) ha'⟩

theorem puts_of_setFrom (hp : p ≠ []) (h : setFrom full x p v = (.ok (), w)) : Puts (some x) p v w := by
  induction p generalizing v w with
  | nil => exact absurd rfl hp
  | cons seg rest ih =>
    have ht := takes_of_ok (congrArg Prod.fst h)
    rw [setFrom_cons ht, Prod.mk.injEq] at h
    obtain ⟨hok, rfl⟩ := h
    cases rest with
    | nil => exact .here (alters_putChild ht)
    | cons => exact .deeper (ih (by simp) (Prod.ext hok rfl)) (alters_putChild ht)

theorem Puts.setFrom_eq (h : Puts (some x) p v w) : setFrom full x p v = (.ok (), w) := by
  generalize ho : some x = o at h
  induction h with
  | here ha =>
    subst ho
    obtain ⟨ht, rfl⟩ := ha.eq_putChild
    rw [setFrom_cons ht, setFrom]
  | deeper _ ha ih =>
    obtain ⟨ht, rfl⟩ := ha.eq_putChild
    rw [setFrom_cons ht, ih]

theorem Puts.isSome (h : Puts none p v w) : (v.get? p).isSome := by
  induction p generalizing v w with
  | nil => exact absurd rfl h.ne_nil
  | cons seg rest ih =>
    cases h with
    | here ha =>
      cases ha with
      | erase hs =>
        rw [get?_cons_of_openFields rfl]
        simpa using hs
    | deeper hp =>
      rw [← get?_child hp.ne_nil]
      exact ih hp

theorem remove_cons (hp : p ≠ []) (hc : v.child? seg = some c) :
    (v.remove (seg :: p)).2 = v.setChild seg (c.remove p).2 := by
  obtain ⟨b, q, rfl⟩ := exists_cons_of_ne_nil hp
  rw [remove, hc]
  all_goals simp

theorem alters_setChild (hc : v.child? seg = some c) : Alters seg (some x) v (v.setChild seg x) :=
  setChild_eq_putChild hc ▸ alters_putChild (takes_of_child? hc)

theorem puts_remove (h : (v.get? (n ++ [.key k])).isSome) :
    Puts none (n ++ [.key k]) v (v.remove (n ++ [.key k])).2 := by
  induction n generalizing v with
  | nil =>
    cases v with
    | obj fields =>
      rw [nil_append, get?_cons_of_openFields rfl] at h
      exact .here (.erase (by simpa using h))
    | null | bool | num | str | arr => cases h
  | cons seg rest ih =>
    rw [cons_append, get?] at h
    cases hc : v.child? seg with
    | none => simp [hc] at h
    | some c =>
      rw [hc] at h
      rw [cons_append, remove_cons (by simp) hc]
      refine .deeper (c := (c.remove (rest ++ [.key k])).2) ?_ (alters_setChild hc)
      rw [hc]
      exact ih h

theorem Puts.remove_eq (h : Puts none p v w) : (v.remove p).2 = w := by
  induction p generalizing v w with
  | nil => exact absurd rfl h.ne_nil
  | cons seg rest ih =>
    cases h with
    | here ha =>
      cases ha with
      | erase => rfl
    | deeper hp ha =>
      cases hc : v.child? seg with
      | some c =>
        rw [hc, Option.getD_some] at hp
        rw [remove_cons hp.ne_nil hc, ih hp]
        exact (alters_setChild hc).unique ha
      | none =>
        rw [hc] at hp
        have hsome := hp.isSome
        obtain ⟨b, q, rfl⟩ := exists_cons_of_ne_nil hp.ne_nil
        cases hsome

-- Steps in places that lie apart

theorem Puts.get?_apart (h : Puts o p v w) (ha : p.Apart q) (hp : p.Spelled) (hq : q.Spelled) :
    w.get? q = v.get? q := by
  induction p generalizing q v w with
  | nil => exact absurd rfl h.ne_nil
  | cons a p ih =>
    cases q with
    | nil => exact absurd (nil_covers _) ha.2
    | cons b q =>
      rw [spelled_cons] at hp hq
      by_cases hab : a = b
      · subst hab
        have ha := (cons_apart_cons.mp ha).resolve_left (absurd rfl)
        cases h with
        | here => exact absurd (nil_covers q) ha.1
        | deeper hc halt =>
          have hq' : q ≠ [] := by
            rintro rfl
            exact ha.2 (nil_covers p)
          rw [← get?_child hq', ← get?_child hq', halt.child?_self]
          exact ih hc ha hp.2 hq.2
      · have hk : a.toKey ≠ b.toKey := fun hk => hab (hp.1.toKey_injective hq.1 hk)
        obtain ⟨c, halt, -⟩ := h.part
        rw [get?, get?, halt.child?_ne hk]

-- The objects on the way to both of two places have their fields in order.
def InOrderAbove (v : Value) (p q : Path) : Prop :=
  ∀ n, n.isAbove p → n.isAbove q → ∀ c, v.get? n = some c → c.InOrder

theorem inOrder_child (h : ∀ c, v.get? (seg :: n) = some c → c.InOrder) :
    ∀ c, ((v.child? seg).getD .null).get? n = some c → c.InOrder := by
  intro c hc
  cases n with
  | cons =>
    rw [get?_child (by simp)] at hc
    exact h c hc
  | nil =>
    rw [get?_nil] at hc
    cases hc
    cases hv : v.child? seg with
    | some d => exact h d (by simp [get?, hv])
    | none => rintro _ ⟨⟩

theorem InOrderAbove.child (h : v.InOrderAbove (seg :: p) (seg :: q)) :
    ((v.child? seg).getD .null).InOrderAbove p q := fun n hp hq =>
  inOrder_child
    (h (seg :: n) (cons_isAbove_cons.mpr ⟨rfl, hp⟩) (cons_isAbove_cons.mpr ⟨rfl, hq⟩))

-- Steps in places that lie apart can be swapped. They part at some value on the way, at which they go to
-- different parts.
theorem Puts.comm (h₁ : Puts o p v w₁) (h₂ : Puts o' q v w₂) (ha : p.Apart q) (hp : p.Spelled) (hq : q.Spelled)
    (hv : v.InOrderAbove p q) : ∃ w, Puts o' q w₁ w ∧ Puts o p w₂ w := by
  induction p generalizing q v w₁ w₂ with
  | nil => exact absurd rfl h₁.ne_nil
  | cons a p ih =>
    obtain ⟨b, q, rfl⟩ := exists_cons_of_ne_nil h₂.ne_nil
    rw [spelled_cons] at hp hq
    by_cases hab : a = b
    · subst hab
      have ha := (cons_apart_cons.mp ha).resolve_left (absurd rfl)
      cases h₁ with
      | here => exact absurd (nil_covers q) ha.1
      | deeper hc₁ halt₁ =>
        cases h₂ with
        | here => exact absurd (nil_covers p) ha.2
        | deeper hc₂ halt₂ =>
          obtain ⟨c, hc₂', hc₁'⟩ := ih hc₁ hc₂ ha hp.2 hq.2 hv.child
          obtain ⟨w, hw₁, hw⟩ := halt₁.again (d := c)
          obtain ⟨w', hw₂, hw'⟩ := halt₂.again (d := c)
          cases hw.unique hw'
          exact ⟨w, .deeper (halt₁.child?_self ▸ hc₂') hw₁, .deeper (halt₂.child?_self ▸ hc₁') hw₂⟩
    · have hk : a.toKey ≠ b.toKey := fun hk => hab (hp.1.toKey_injective hq.1 hk)
      have hin : v.InOrder := hv [] (by simp) (by simp) v (get?_nil v)
      obtain ⟨c₁, halt₁, hput₁⟩ := h₁.part
      obtain ⟨c₂, halt₂, hput₂⟩ := h₂.part
      obtain ⟨w, hw₁, hw₂⟩ := halt₁.comm halt₂ hk hin
      exact ⟨w, hput₂ (halt₁.child?_ne hk) hw₁, hput₁ (halt₂.child?_ne hk.symm) hw₂⟩

theorem Puts.inOrder (h : Puts o p v w) (hn : ¬ p.covers n) (hp : p.Spelled) (hs : n.Spelled)
    (hv : ∀ c, v.get? n = some c → c.InOrder) : ∀ c, w.get? n = some c → c.InOrder := by
  induction p generalizing n v w with
  | nil => exact absurd rfl h.ne_nil
  | cons a p ih =>
    intro c hc
    cases n with
    | nil =>
      rw [get?_nil] at hc
      cases hc
      obtain ⟨_, halt, -⟩ := h.part
      exact halt.inOrder (hv v (get?_nil v))
    | cons b n =>
      rw [spelled_cons] at hp hs
      by_cases hab : a = b
      · subst hab
        have hn : ¬ Path.covers p n := fun hc => hn (cons_covers_cons.mpr ⟨rfl, hc⟩)
        cases h with
        | here => exact absurd (nil_covers n) hn
        | deeper hput halt =>
          rw [get?, halt.child?_self] at hc
          exact ih hput hn hp.2 hs.2 (inOrder_child hv) c hc
      · have hk : a.toKey ≠ b.toKey := fun hk => hab (hp.1.toKey_injective hs.1 hk)
        obtain ⟨_, halt, -⟩ := h.part
        rw [get?, halt.child?_ne hk] at hc
        exact hv c hc

theorem Canonical.inOrder (h : v.Canonical) (hc : v.get? n = some c) : c.InOrder := by
  rintro fs rfl
  exact (hereditary_canonical.obj.mp (hereditary_canonical.get? h hc)).1

end Value

-- Changes

namespace Change

variable {c d : Change} {r w : Value}

-- The path is spelled, and no item of an array is taken out: that would move the items after it.
structure Plain (c : Change) : Prop where
  spelled : c.path.Spelled
  unset   : c.op = .unset → ∀ i, c.path.getLast? ≠ some (.index i)

-- A change that succeeds finds nothing and does nothing, or it is one step at its path.
theorem apply_cases (hc : c.Plain) (hp : c.path ≠ []) (h : c.apply r = (.ok (), v)) :
    (r.get? c.path = none ∧ c.Turns none none ∧ v = r) ∨ ∃ o, c.Turns (r.get? c.path) o ∧ Puts o c.path r v := by
  by_cases hop : c.op = .unset
  · have hturns : ∀ old, c.Turns old none := fun old => by rw [Turns, hop]
    rw [apply, hop] at h
    cases h
    cases hg : r.get? c.path with
    | none => exact .inl ⟨rfl, hturns none, remove_of_get?_none hg⟩
    | some x =>
      refine .inr ⟨none, hturns _, ?_⟩
      obtain ⟨n, last, hn⟩ := (eq_nil_or_concat c.path).resolve_left hp
      have hlast := hc.unset hop
      rw [hn, concat_eq_append] at hg hlast ⊢
      cases last with
      | index i => exact absurd (by simp) (hlast i)
      | key k => exact puts_remove (by rw [hg]; rfl)
  · obtain ⟨hturns, hv⟩ := apply_ok hop h
    rcases hv with rfl | ⟨x, hx⟩
    · cases hg : v.get? c.path with
      | none =>
        rw [hg] at hturns
        exact .inl ⟨rfl, hturns, rfl⟩
      | some x =>
        rw [hg] at hturns
        have hset : v.set c.path x = (.ok (), v) := setFrom_of_get? hg
        exact .inr ⟨some x, hturns, puts_of_setFrom hp hset⟩
    · have hput := puts_of_setFrom hp hx
      have hget : (r.set c.path x).2.get? c.path = some x := get?_setFrom_self (congrArg Prod.fst hx)
      rw [hx] at hget
      rw [hget] at hturns
      exact .inr ⟨some x, hturns, hput⟩

theorem apply_of_puts (ht : c.Turns (r.get? c.path) o) (h : Puts o c.path r v) : c.apply r = (.ok (), v) := by
  cases o with
  | some x => exact apply_eq_set ht h.setFrom_eq
  | none =>
    have hsome := h.isSome
    have hremove := h.remove_eq
    obtain ⟨p, op, _⟩ := c
    cases op with
    | set => cases ht
    | unset => rw [apply, hremove]
    | push =>
      obtain ⟨_, _, he⟩ := ht
      cases he
    | pull =>
      obtain ⟨-, he⟩ | ⟨_, -, he⟩ := ht
      · rw [← he] at hsome
        cases hsome
      · cases he

theorem get?_apply (hc : c.Plain) (ha : c.path.Apart q) (hq : q.Spelled) (h : c.apply r = (.ok (), v)) :
    v.get? q = r.get? q := by
  have hp : c.path ≠ [] := fun he => ha.1 (he ▸ nil_covers q)
  obtain ⟨-, -, rfl⟩ | ⟨o, -, hput⟩ := apply_cases hc hp h
  · rfl
  · exact hput.get?_apart ha hc.spelled hq

theorem inOrder_apply (hc : c.Plain) (hn : ¬ c.path.covers q) (hq : q.Spelled) (h : c.apply r = (.ok (), v))
    (hr : ∀ x, r.get? q = some x → x.InOrder) : ∀ x, v.get? q = some x → x.InOrder := by
  have hp : c.path ≠ [] := fun he => hn (he ▸ nil_covers q)
  obtain ⟨-, -, rfl⟩ | ⟨o, -, hput⟩ := apply_cases hc hp h
  · exact hr
  · exact hput.inOrder hn hc.spelled hq hr

theorem apply_comm (hc : c.Plain) (hd : d.Plain) (ha : c.path.Apart d.path) (hr : r.InOrderAbove c.path d.path)
    (h₁ : c.apply r = (.ok (), v)) (h₂ : d.apply r = (.ok (), w)) :
    ∃ x, d.apply v = (.ok (), x) ∧ c.apply w = (.ok (), x) := by
  have hpc : c.path ≠ [] := fun he => ha.1 (he ▸ nil_covers _)
  have hpd : d.path ≠ [] := fun he => ha.2 (he ▸ nil_covers _)
  have hgetd := get?_apply hc ha hd.spelled h₁
  have hgetc := get?_apply hd ha.symm hc.spelled h₂
  obtain ⟨hnone, hturns, rfl⟩ | ⟨o, hturns, hput⟩ := apply_cases hc hpc h₁
  · rw [hnone] at hgetc
    exact ⟨w, h₂, apply_of_absent (hgetc ▸ hturns) hgetc⟩
  obtain ⟨hnone, hturns', rfl⟩ | ⟨o', hturns', hput'⟩ := apply_cases hd hpd h₂
  · rw [hnone] at hgetd
    exact ⟨v, apply_of_absent (hgetd ▸ hturns') hgetd, h₁⟩
  obtain ⟨x, hx, hx'⟩ := hput.comm hput' ha hc.spelled hd.spelled hr
  exact ⟨x, apply_of_puts (hgetd ▸ hturns') hx, apply_of_puts (hgetc ▸ hturns) hx'⟩

end Change

-- Changesets

namespace Changeset

variable {cs ds : List Change} {c d : Change} {r r₁ r₂ w : Value}

-- Changes of two savers, none of which has to do with what another one changes.
structure Independent (cs ds : List Change) (r : Value) : Prop where
  left  : ∀ c ∈ cs, c.Plain
  right : ∀ d ∈ ds, d.Plain
  apart : ∀ c ∈ cs, ∀ d ∈ ds, c.path.Apart d.path
  order : ∀ c ∈ cs, ∀ d ∈ ds, r.InOrderAbove c.path d.path

theorem Independent.symm (h : Independent cs ds r) : Independent ds cs r where
  left := h.right
  right := h.left
  apart := fun d hd c hc => (h.apart c hc d hd).symm
  order := fun d hd c hc n hn hn' => h.order c hc d hd n hn' hn

theorem Independent.apply (h : Independent (c :: cs) ds r) (hc : c.apply r = (.ok (), v)) :
    Independent cs ds v where
  left := fun c' hc' => h.left c' (mem_cons_of_mem c hc')
  right := h.right
  apart := fun c' hc' => h.apart c' (mem_cons_of_mem c hc')
  order := fun c' hc' d hd n hn hn' => by
    have hcovers : ¬ c.path.covers n := fun hcn =>
      (h.apart c mem_cons_self d hd).1 (covers_trans hcn (covers_of_isAbove hn'))
    exact Change.inOrder_apply (h.left c mem_cons_self) hcovers
      ((h.right d hd).spelled.of_covers (covers_of_isAbove hn')) hc
      (h.order c' (mem_cons_of_mem c hc') d hd n hn hn')

theorem applyAll_cons_iff : applyAll (c :: cs) r = .ok w ↔ ∃ v, c.apply r = (.ok (), v) ∧ applyAll cs v = .ok w := by
  rw [applyAll]
  constructor
  · intro h
    split at h
    · case _ v hv => exact ⟨v, hv, h⟩
    · cases h
  · rintro ⟨v, hv, h⟩
    rwa [hv]

theorem Independent.swap (h : Independent cs [d] r) (h₁ : applyAll cs r = .ok r₁) (h₂ : d.apply r = (.ok (), r₂)) :
    ∃ w, d.apply r₁ = (.ok (), w) ∧ applyAll cs r₂ = .ok w := by
  induction cs generalizing r r₂ with
  | nil =>
    cases h₁
    exact ⟨r₂, h₂, rfl⟩
  | cons c cs ih =>
    obtain ⟨v, hv, h₁⟩ := applyAll_cons_iff.mp h₁
    have hd : d ∈ [d] := mem_singleton_self d
    obtain ⟨x, hx, hx'⟩ := Change.apply_comm (h.left c mem_cons_self) (h.right d hd)
      (h.apart c mem_cons_self d hd) (h.order c mem_cons_self d hd) hv h₂
    obtain ⟨w, hw, hw'⟩ := ih (h.apply hv) h₁ hx
    exact ⟨w, hw, applyAll_cons_iff.mpr ⟨x, hx', hw'⟩⟩

theorem Independent.comm (h : Independent cs ds r) (h₁ : applyAll cs r = .ok r₁) (h₂ : applyAll ds r = .ok r₂) :
    ∃ w, applyAll ds r₁ = .ok w ∧ applyAll cs r₂ = .ok w := by
  induction ds generalizing r r₁ with
  | nil =>
    cases h₂
    exact ⟨r₁, rfl, h₁⟩
  | cons d ds ih =>
    obtain ⟨v, hv, h₂⟩ := applyAll_cons_iff.mp h₂
    have hone : Independent cs [d] r := by
      refine ⟨h.left, fun d' hd' => ?_, fun c hc d' hd' => ?_, fun c hc d' hd' => ?_⟩
      all_goals
        obtain rfl := mem_singleton.mp hd'
        have hd := mem_cons_self (a := d') (l := ds)
      · exact h.right d' hd
      · exact h.apart c hc d' hd
      · exact h.order c hc d' hd
    obtain ⟨x, hx, hx'⟩ := hone.swap h₁ hv
    obtain ⟨w, hw, hw'⟩ := ih (h.symm.apply hv).symm hx' h₂
    exact ⟨w, applyAll_cons_iff.mpr ⟨x, hx, hw⟩, hw'⟩

theorem get?_applyAll (hcs : ∀ c ∈ cs, c.Plain) (ha : ∀ c ∈ cs, c.path.Apart q) (hq : q.Spelled)
    (h : applyAll cs r = .ok v) : v.get? q = r.get? q := by
  induction cs generalizing r with
  | nil =>
    cases h
    rfl
  | cons c cs ih =>
    obtain ⟨hc, hcs⟩ := forall_mem_cons.mp hcs
    obtain ⟨hac, ha⟩ := forall_mem_cons.mp ha
    obtain ⟨x, hx, h⟩ := applyAll_cons_iff.mp h
    rw [ih hcs ha h, Change.get?_apply hc hac hq hx]

-- Changesets of two savers that can each be applied to a record, at paths that lie apart from each other,
-- can be applied one after the other in any order. Both orders give the same record, and it has at the
-- paths of each saver what that saver has made of them.
theorem apply_independent (r : CanonicalValue) {cs ds : Changeset} (hcs : ∀ c ∈ cs.changes, c.Plain)
    (hds : ∀ d ∈ ds.changes, d.Plain)
    (ha : ∀ c ∈ cs.changes, ∀ d ∈ ds.changes, c.path.Apart d.path) (h₁ : cs.apply r = .ok r₁)
    (h₂ : ds.apply r = .ok r₂) :
    ∃ w, ds.apply r₁ = .ok w ∧ cs.apply r₂ = .ok w ∧
      (∀ c ∈ cs.changes, w.get? c.path = r₁.get? c.path) ∧
      ∀ d ∈ ds.changes, w.get? d.path = r₂.get? d.path := by
  have hind : Independent cs.changes ds.changes r :=
    ⟨hcs, hds, ha, fun _ _ _ _ _ _ _ _ hx => r.2.inOrder hx⟩
  obtain ⟨w, hw, hw'⟩ := hind.comm h₁ h₂
  refine ⟨w, hw, hw', fun c hc => ?_, fun d hd => ?_⟩
  · exact get?_applyAll hds (fun d hd => (ha c hc d hd).symm) (hcs c hc).spelled hw
  · exact get?_applyAll hcs (fun c hc => ha c hc d hd) (hds d hd).spelled hw'

-- A stored order, and what two savers make of it at once.
def order : Value :=
  .obj [("lines", .arr [.obj [("sku", .str "a")]]), ("log", .str "none"),
    ("state", .obj [("draft", .bool true), ("owner", .str "u1")]), ("tags", .arr [.str "x"])]

def packing : Changeset :=
  ⟨[⟨[.key "lines", .index 1, .key "sku"], .set (.str "b"), none⟩,
    ⟨[.key "log", .key "at"], .set (.str "now"), none⟩,
    ⟨[.key "state", .key "draft"], .unset, none⟩, ⟨[.key "tags"], .push [.str "y"], none⟩]⟩

def billing : Changeset :=
  ⟨[⟨[.key "lines", .index 1, .key "price"], .set (.str "9"), none⟩,
    ⟨[.key "log", .key "by"], .set (.str "me"), none⟩,
    ⟨[.key "notes"], .pull [.str "z"], none⟩, ⟨[.key "state", .key "owner"], .set (.str "u2"), none⟩]⟩

theorem apply_independent_order : ∃ r₁ r₂ w, packing.apply order = .ok r₁ ∧ billing.apply order = .ok r₂ ∧
    billing.apply r₁ = .ok w ∧ packing.apply r₂ = .ok w ∧
    w.get? [.key "lines", .index 1] = some (.obj [("price", .str "9"), ("sku", .str "b")]) := by
  have hplain : ∀ cs : Changeset, (∀ c ∈ cs.changes, c.path.Spelled) → (∀ c ∈ cs.changes, c.op = .unset →
      ∃ k, c.path.getLast? = some (.key k)) → ∀ c ∈ cs.changes, c.Plain := by
    intro cs hs hu c hc
    refine ⟨hs c hc, fun hop i hi => ?_⟩
    obtain ⟨k, hk⟩ := hu c hc hop
    rw [hk] at hi
    cases hi
  obtain ⟨r₁, hr₁⟩ : ∃ r₁, packing.apply order = .ok r₁ := ⟨_, rfl⟩
  obtain ⟨r₂, hr₂⟩ : ∃ r₂, billing.apply order = .ok r₂ := ⟨_, rfl⟩
  have horder : order.Canonical := by
    simp [order, Canonical, CanonicalFields, CanonicalItems, Entries.Sorted]
    decide
  obtain ⟨w, h₁, h₂, -, -⟩ := apply_independent ⟨order, horder⟩
    (hplain _ (by decide +kernel) (by simp [packing])) (hplain _ (by decide +kernel) (by simp [billing]))
    (by decide +kernel) hr₁ hr₂
  refine ⟨r₁, r₂, w, hr₁, hr₂, h₁, h₂, ?_⟩
  cases hr₁
  cases h₁
  rfl

end Changeset
end Dossier

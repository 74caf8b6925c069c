import Dossier.OrdMap.Basic

-- A list in strict key order is determined by what it holds under each key, so maps can be compared by look-up.

namespace Dossier

open List

namespace Entries

variable {κ α : Type} [Ord κ] {es fs : List (κ × α)} {k k' : κ} {a : α}

theorem replace_eq_self (h : get? k es = some a) : replace k a es = es := by
  induction es with
  | nil => rfl
  | cons hd tl ih =>
    simp only [get?] at h
    simp only [replace]
    split at h
    · case isTrue hk => cases h; simp [hk]
    · case isFalse hk => simp [hk, ih h]

theorem insert_eq_self (h : get? k es = some a) : insert k a es = es := by
  simp [insert, contains, h, replace_eq_self h]

theorem erase_eq_self (h : get? k es = none) : erase k es = es := by
  induction es with
  | nil => rfl
  | cons hd tl ih =>
    simp only [get?] at h
    simp only [erase]
    split at h
    · cases h
    · case isFalse hk => simp [hk, ih h]

theorem replace_replace : replace k b (replace k a es) = replace k b es := by
  induction es with
  | nil => rfl
  | cons hd tl ih =>
    simp only [replace]
    split
    · case isTrue hk => simp [replace, hk]
    · case isFalse hk => simp [replace, hk, ih]

theorem contains_replace : contains k (replace k a es) = contains k es := by
  induction es with
  | nil => rfl
  | cons hd tl ih =>
    simp only [contains] at ih
    simp only [replace, contains]
    split
    · case isTrue hk => simp [get?, hk]
    · case isFalse hk => simp [get?, hk, ih]

theorem snd_of_mem_replace (h : e ∈ replace k a es) : e.2 = a ∨ e ∈ es := by
  induction es with
  | nil => cases h
  | cons hd tl ih =>
    simp only [replace] at h
    split at h <;> grind

theorem snd_of_mem_place (h : e ∈ place k a es) : e.2 = a ∨ e ∈ es := by
  induction es with
  | nil => exact .inl (congrArg Prod.snd (mem_singleton.mp h))
  | cons hd tl ih =>
    simp only [place] at h
    split at h <;> grind

theorem snd_of_mem_insert (h : e ∈ insert k a es) : e.2 = a ∨ e ∈ es := by
  rw [insert] at h
  split at h
  · exact snd_of_mem_replace h
  · exact snd_of_mem_place h

theorem Sorted.tail (h : Sorted (e :: es)) : Sorted es :=
  (pairwise_cons.mp h).2

variable [Std.LawfulEqOrd κ]

theorem get?_cons_self : get? k ((k, a) :: es) = some a := by
  simp [get?]

theorem get?_cons_ne (h : k' ≠ k) : get? k ((k', a) :: es) = get? k es := by
  simp [get?, compare_ne_eq h]

theorem mem_of_get? (h : get? k es = some a) : (k, a) ∈ es := by
  induction es with
  | nil => simp [get?] at h
  | cons hd tl ih =>
    simp only [get?] at h
    split at h
    · case isTrue hk =>
      cases Std.LawfulEqOrd.eq_of_compare hk
      cases h
      exact mem_cons_self
    · exact mem_cons_of_mem _ (ih h)

theorem get?_eq_none_iff : get? k es = none ↔ ∀ e ∈ es, e.1 ≠ k := by
  induction es with
  | nil => simp [get?]
  | cons hd tl ih =>
    simp only [get?, forall_mem_cons]
    split
    · case isTrue hk =>
      have := Std.LawfulEqOrd.eq_of_compare hk
      simp [this]
    · case isFalse hk =>
      have hn : hd.1 ≠ k := fun e => hk (by simp [e])
      simp [ih, hn]

theorem replace_place (h : contains k es = false) : replace k b (place k a es) = place k b es := by
  induction es with
  | nil => simp [place, replace]
  | cons hd tl ih =>
    simp only [contains, get?] at h
    split at h
    · simp at h
    · case isFalse hk =>
      simp only [place]
      split
      · simp [replace]
      · simp [replace, hk, ih h]

theorem insert_ne_nil : insert k a es ≠ [] := by
  intro h
  have : get? k (insert k a es) = some a := get?_insert_self
  simp [h, get?] at this

theorem insert_insert : insert k b (insert k a es) = insert k b es := by
  simp only [insert]
  split
  · case isTrue h => simp [contains_replace, h, replace_replace]
  · case isFalse h =>
    have h : contains k es = false := by simpa using h
    rw [if_pos (by simp [contains, get?_place_self h]), replace_place h]

-- Lists in key order

theorem Sorted.get?_tail (h : Sorted ((k, a) :: es)) : get? k es = none := by
  refine get?_eq_none_iff.mpr fun e he hk => ?_
  have := (pairwise_cons.mp h).1 e he
  simp [hk] at this

theorem get?_of_mem (hs : Sorted es) (h : (k, a) ∈ es) : get? k es = some a := by
  induction es with
  | nil => cases h
  | cons hd tl ih =>
    rcases mem_cons.mp h with rfl | h
    · exact get?_cons_self
    · have hn : hd.1 ≠ k := by
        rintro rfl
        exact get?_eq_none_iff.mp (Sorted.get?_tail (a := hd.2) hs) _ h rfl
      rw [show hd = (hd.1, hd.2) from rfl, get?_cons_ne hn]
      exact ih hs.tail h

theorem get?_erase_self (hs : Sorted es) : get? k (erase k es) = none := by
  induction es with
  | nil => rfl
  | cons hd tl ih =>
    simp only [erase]
    split
    · case isTrue hk =>
      cases Std.LawfulEqOrd.eq_of_compare hk
      exact Sorted.get?_tail (a := hd.2) hs
    · case isFalse hk => simp [get?, hk, ih hs.tail]

theorem get?_filter (hs : Sorted es) : get? k (es.filter p) = (get? k es).filter fun a => p (k, a) := by
  induction es with
  | nil => rfl
  | cons hd tl ih =>
    obtain ⟨k', a'⟩ := hd
    by_cases hk : k' = k
    · subst hk
      have hn : get? k' tl = none := hs.get?_tail
      have ih := ih hs.tail
      simp only [hn, Option.filter_none] at ih
      simp only [filter_cons, get?_cons_self, Option.filter_some]
      split
      · exact get?_cons_self
      · exact ih
    · simp only [filter_cons, get?_cons_ne hk]
      split
      · rw [get?_cons_ne hk, ih hs.tail]
      · exact ih hs.tail

variable [Std.TransOrd κ]

theorem insert_eq_append (h : Sorted (es ++ [(k, a)])) : insert k a es = es ++ [(k, a)] := by
  have hlt : ∀ e ∈ es, compare e.1 k = .lt := fun e he =>
    (pairwise_append.mp h).2.2 e he _ (mem_singleton_self _)
  have hnone : get? k es = none := get?_eq_none_iff.mpr fun e he heq => by
    have := hlt e he
    rw [heq, Std.ReflOrd.compare_self] at this
    cases this
  have hplace : ∀ fs : List (κ × α), (∀ e ∈ fs, compare e.1 k = .lt) →
      place k a fs = fs ++ [(k, a)] := by
    intro fs hfs
    induction fs with
    | nil => rfl
    | cons e fs ih =>
      have ⟨he, hfs⟩ := forall_mem_cons.mp hfs
      have hgt : compare k e.1 = .gt := by rw [Std.OrientedOrd.eq_swap (a := k), he]; rfl
      simp [place, hgt, ih hfs]
  simp [insert, contains, hnone, hplace es hlt]

theorem sorted_ext (h₁ : Sorted es) (h₂ : Sorted fs) (h : ∀ k, get? k es = get? k fs) : es = fs := by
  induction es generalizing fs with
  | nil =>
    cases fs with
    | nil => rfl
    | cons e _ => simpa [get?] using h e.1
  | cons e es ih =>
    obtain ⟨k, a⟩ := e
    cases fs with
    | nil => simpa [get?] using h k
    | cons f fs =>
      obtain ⟨l, b⟩ := f
      -- Neither first key can come before the other, as the other list would not hold it.
      have hkl : k = l := by
        cases hc : compare k l with
        | eq => exact Std.LawfulEqOrd.eq_of_compare hc
        | lt =>
          have hm := mem_of_get? ((h k).symm.trans get?_cons_self)
          rcases mem_cons.mp hm with he | hm
          · exact congrArg (·.1) he
          · have := Std.TransCmp.lt_trans hc ((pairwise_cons.mp h₂).1 _ hm)
            simp at this
        | gt =>
          have hm := mem_of_get? ((h l).trans get?_cons_self)
          rcases mem_cons.mp hm with he | hm
          · exact (congrArg (·.1) he).symm
          · have := Std.TransCmp.lt_trans (Std.OrientedCmp.lt_of_gt hc)
              ((pairwise_cons.mp h₁).1 _ hm)
            simp at this
      subst hkl
      have hab : a = b := by simpa [get?] using h k
      subst hab
      congr 1
      refine ih h₁.tail h₂.tail fun k' => ?_
      by_cases hk : k = k'
      · subst hk
        rw [h₁.get?_tail, h₂.get?_tail]
      · have := h k'
        rwa [get?_cons_ne hk, get?_cons_ne hk] at this

end Entries

namespace OrdMap

variable {κ α : Type} [Ord κ] {m m' : OrdMap κ α} {k k' : κ} {a : α}

@[simp] theorem get?_empty : (∅ : OrdMap κ α).get? k = none := rfl

@[simp] theorem keys_empty : (∅ : OrdMap κ α).keys = [] := rfl

theorem contains_eq_isSome : m.contains k = (m.get? k).isSome := rfl

theorem keys_pairwise : m.keys.Pairwise fun a b => compare a b = .lt :=
  pairwise_map.mpr m.sorted

theorem nodup_keys [Std.ReflOrd κ] : m.keys.Nodup :=
  keys_pairwise.imp fun h he => by simp [he] at h

variable [Std.LawfulEqOrd κ]

theorem get?_erase_self : (m.erase k).get? k = none :=
  Entries.get?_erase_self m.sorted

theorem get?_erase_ne (h : k ≠ k') : (m.erase k).get? k' = m.get? k' :=
  Entries.get?_erase_ne h

theorem get?_filter : (m.filter p).get? k = (m.get? k).filter (p k) :=
  Entries.get?_filter m.sorted

theorem mem_entries_iff : (k, a) ∈ m.entries ↔ m.get? k = some a :=
  ⟨Entries.get?_of_mem m.sorted, Entries.mem_of_get?⟩

theorem mem_keys_iff : k ∈ m.keys ↔ (m.get? k).isSome := by
  simp only [keys, mem_map, Option.isSome_iff_exists]
  constructor
  · rintro ⟨⟨_, a⟩, h, rfl⟩
    exact ⟨a, mem_entries_iff.mp h⟩
  · rintro ⟨a, h⟩
    exact ⟨(k, a), mem_entries_iff.mpr h, rfl⟩

variable [Std.TransOrd κ]

theorem ext_get? (h : ∀ k, m.get? k = m'.get? k) : m = m' :=
  ext (Entries.sorted_ext m.sorted m'.sorted h)

@[simp] theorem get?_insert_self : (m.insert k a).get? k = some a :=
  Entries.get?_insert_self

theorem get?_insert_ne (h : k ≠ k') : (m.insert k a).get? k' = m.get? k' :=
  Entries.get?_insert_ne h

theorem get?_insert [DecidableEq κ] : (m.insert k a).get? k' = if k = k' then some a else m.get? k' := by
  split
  · case isTrue h => subst h; exact get?_insert_self
  · case isFalse h => exact get?_insert_ne h

theorem get?_foldl_insert [DecidableEq κ] {ks : List κ} :
    (ks.foldl (fun m k => m.insert k a) m).get? k = if k ∈ ks then some a else m.get? k := by
  induction ks generalizing m with
  | nil => simp
  | cons k' ks ih =>
    simp only [foldl_cons, ih, get?_insert, mem_cons]
    grind

omit [Std.TransOrd κ] in
theorem get?_foldl_erase [DecidableEq κ] {ks : List κ} :
    (ks.foldl erase m).get? k = if k ∈ ks then none else m.get? k := by
  induction ks generalizing m with
  | nil => simp
  | cons k' ks ih =>
    rw [foldl_cons, ih]
    by_cases hk : k' = k
    · simp [hk, get?_erase_self]
    · simp [get?_erase_ne hk, Ne.symm hk]

end OrdMap

namespace OrdSet

variable {κ : Type} [Ord κ] [Std.LawfulEqOrd κ] [DecidableEq κ] {s : OrdSet κ} {k k' : κ}

theorem mem_erase : k' ∈ OrdMap.keys (s.erase k) ↔ k' ≠ k ∧ k' ∈ OrdMap.keys s := by
  simp only [OrdMap.mem_keys_iff]
  by_cases h : k = k'
  · subst h; simp [OrdMap.get?_erase_self]
  · simp [OrdMap.get?_erase_ne h, Ne.symm h]

variable [Std.TransOrd κ]

theorem mem_add : k' ∈ OrdMap.keys (s.add k) ↔ k' = k ∨ k' ∈ OrdMap.keys s := by
  simp only [OrdMap.mem_keys_iff, add, OrdMap.get?_insert]
  split
  · case isTrue h => simp [h]
  · case isFalse h => simp [Ne.symm h]

omit [DecidableEq κ] in
theorem ext_mem {s' : OrdSet κ} (h : ∀ k, k ∈ OrdMap.keys s ↔ k ∈ OrdMap.keys s') : s = s' := by
  refine OrdMap.ext_get? fun k => ?_
  have := h k
  simp only [OrdMap.mem_keys_iff] at this
  cases hs : s.get? k <;> cases hs' : s'.get? k <;> simp_all

theorem mem_ofKeys : k ∈ OrdMap.keys (ofKeys ks) ↔ k ∈ ks := by
  suffices ∀ s : OrdSet κ, k ∈ OrdMap.keys (ks.foldl add s) ↔ k ∈ ks ∨ k ∈ OrdMap.keys s by
    simpa [ofKeys] using this ∅
  induction ks with
  | nil => simp
  | cons k' ks ih =>
    intro s
    simp only [foldl_cons, ih, mem_add, mem_cons]
    rw [or_left_comm, or_assoc]

end OrdSet
end Dossier

import Dossier.Proofs.Schema

-- A key and the index with the same text lead to the same part of an object, and a schema has the same there.

namespace Dossier

open Entries Value List

section

variable {α β : Type} {r : α → β → Prop} {a : α} {b : β} {o : Option α} {o' : Option β}

theorem exists_of_rel_some (h : Option.Rel r (some a) o') : ∃ b, o' = some b ∧ r a b := by
  cases h with
  | some hab => exact ⟨_, rfl, hab⟩

theorem exists_of_rel_of_some (h : Option.Rel r o (some b)) : ∃ a, o = some a ∧ r a b := by
  cases h with
  | some hab => exact ⟨_, rfl, hab⟩

theorem rel_bind {r' : γ → δ → Prop} (h : Option.Rel r o o') (hfg : ∀ {a b}, r a b → Option.Rel r' (f a) (g b)) :
    Option.Rel r' (o.bind f) (o'.bind g) := by
  cases h with
  | none => exact .none
  | some hab => exact hfg hab

end

-- Values

theorem Number.equal_comm (a b : Number) : a.equal b = b.equal a := by
  simp only [equal]
  cases a.toSigned? <;> cases b.toSigned? <;> simp [Double.same_comm, BEq.comm]

namespace Entries

variable {κ α β : Type} [Ord κ] [Std.TransOrd κ] [Std.LawfulEqOrd κ] {as : List (κ × α)} {bs : List (κ × β)}

theorem sublist_keys (ha : Sorted as) (hb : Sorted bs) (h : ∀ k, (get? k as).isSome → (get? k bs).isSome) :
    (as.map (·.1)).Sublist (bs.map (·.1)) := by
  have hsub : (as.map fun e => (e.1, ())).Sublist (bs.map fun e => (e.1, ())) := by
    refine sublist_of_subset (pairwise_map.mpr ha) (pairwise_map.mpr hb) fun e he => ?_
    obtain ⟨⟨k, a⟩, hm, rfl⟩ := mem_map.mp he
    obtain ⟨b, hb⟩ := Option.isSome_iff_exists.mp (h k (by rw [get?_of_mem ha hm]; rfl))
    exact mem_map.mpr ⟨(k, b), mem_of_get? hb, rfl⟩
  simpa only [map_map, Function.comp_def] using hsub.map (·.1)

end Entries

namespace Value

-- Values that are equal, with the keys of their objects in order.
structure Like (a b : Value) : Prop where
  left  : a.Canonical
  right : b.Canonical
  equal : a.equal b

variable {a b v w x y : Value} {as bs : List Value} {fs gs : List (String × Value)} {p q full full' : Path} {k : String}

theorem like_refl (h : v.Canonical) : v.Like v :=
  ⟨h, h, v.equal_refl h⟩

theorem like_null : Like .null .null :=
  like_refl trivial

theorem Like.eq (h : a.Like b) (ha : a.Exact) (hb : b.Exact) : a = b :=
  eq_of_equal a b ha hb h.equal

theorem equalItems_iff (hl : as.length = bs.length) :
    equalItems as bs ↔ ∀ (i : Nat) a b, as[i]? = some a → bs[i]? = some b → a.equal b := by
  induction as generalizing bs with
  | nil => simp [equalItems]
  | cons a as ih =>
    cases bs with
    | nil => cases hl
    | cons b bs =>
      rw [equalItems, Bool.and_eq_true, ih (Nat.succ.inj hl)]
      constructor
      · rintro ⟨hab, h⟩ (_ | i) x y hx hy
        · cases hx
          cases hy
          exact hab
        · exact h i x y hx hy
      · intro h
        exact ⟨h 0 a b rfl rfl, fun i x y hx hy => h (i + 1) x y hx hy⟩

theorem equalFields_iff : equalFields fs gs ↔ ∀ e ∈ fs, ∃ b, Entries.get? e.1 gs = some b ∧ e.2.equal b := by
  induction fs with
  | nil => simp [equalFields]
  | cons e fs ih =>
    obtain ⟨k, a⟩ := e
    rw [equalFields, Bool.and_eq_true, ih, forall_mem_cons]
    refine and_congr_left fun _ => ?_
    cases Entries.get? k gs <;> simp

theorem like_arr_iff : (arr as).Like (arr bs) ↔ ∀ i : Nat, Option.Rel Like as[i]? bs[i]? := by
  constructor
  · rintro ⟨ha, hb, h⟩ i
    simp only [Value.equal, Bool.and_eq_true, beq_iff_eq] at h
    have hitems := (equalItems_iff h.1).mp h.2 i
    cases hx : as[i]? with
    | none =>
      rw [getElem?_eq_none (h.1 ▸ getElem?_eq_none_iff.mp hx)]
      exact .none
    | some x =>
      have hi := h.1 ▸ (List.getElem?_eq_some_iff.mp hx).1
      rw [getElem?_eq_getElem hi] at hitems ⊢
      exact .some ⟨hereditary_canonical.arr.mp ha x (mem_of_getElem? hx),
        hereditary_canonical.arr.mp hb _ (getElem_mem hi), hitems x _ hx rfl⟩
  · intro h
    have hleft {i : Nat} {x : Value} (hx : as[i]? = some x) : ∃ y, bs[i]? = some y ∧ x.Like y :=
      exists_of_rel_some (hx ▸ h i)
    have hright {i : Nat} {y : Value} (hy : bs[i]? = some y) : ∃ x, as[i]? = some x ∧ x.Like y :=
      exists_of_rel_of_some (hy ▸ h i)
    have hl : as.length = bs.length := by
      refine Nat.le_antisymm (Nat.le_of_not_lt fun hlt => ?_) (Nat.le_of_not_lt fun hlt => ?_)
      · obtain ⟨y, hy, -⟩ := hleft (getElem?_eq_getElem hlt)
        exact Nat.lt_irrefl _ (List.getElem?_eq_some_iff.mp hy).1
      · obtain ⟨x, hx, -⟩ := hright (getElem?_eq_getElem hlt)
        exact Nat.lt_irrefl _ (List.getElem?_eq_some_iff.mp hx).1
    refine ⟨hereditary_canonical.arr.mpr fun x hx => ?_, hereditary_canonical.arr.mpr fun y hy => ?_, ?_⟩
    · obtain ⟨i, hi⟩ := getElem?_of_mem hx
      obtain ⟨y, -, hxy⟩ := hleft hi
      exact hxy.left
    · obtain ⟨i, hi⟩ := getElem?_of_mem hy
      obtain ⟨x, -, hxy⟩ := hright hi
      exact hxy.right
    · simp only [Value.equal, Bool.and_eq_true, beq_iff_eq]
      refine ⟨hl, (equalItems_iff hl).mpr fun i x y hx hy => ?_⟩
      obtain ⟨z, hz, hxz⟩ := hleft hx
      cases hz.symm.trans hy
      exact hxz.equal

theorem like_obj_iff : (obj fs).Like (obj gs) ↔ Entries.Sorted fs ∧ Entries.Sorted gs ∧
    ∀ k, Option.Rel Like (Entries.get? k fs) (Entries.get? k gs) := by
  constructor
  · rintro ⟨hf, hg, h⟩
    obtain ⟨hfs, hf⟩ := hereditary_canonical.obj.mp hf
    obtain ⟨hgs, hg⟩ := hereditary_canonical.obj.mp hg
    simp only [Value.equal, Bool.and_eq_true, beq_iff_eq] at h
    have hfields := equalFields_iff.mp h.2
    -- There are as many keys on both sides, and all of the left are on the right.
    have hkeys : fs.map (·.1) = gs.map (·.1) := by
      refine (sublist_keys hfs hgs fun k hk => ?_).eq_of_length (by simpa using h.1)
      obtain ⟨x, hx⟩ := Option.isSome_iff_exists.mp hk
      obtain ⟨y, hy, -⟩ := hfields _ (mem_of_get? hx)
      rw [hy]
      rfl
    refine ⟨hfs, hgs, fun k => ?_⟩
    cases hx : Entries.get? k fs with
    | none =>
      have hnone : Entries.get? k gs = none := by
        rw [get?_eq_none_iff, ← forall_mem_map (P := (· ≠ k)), ← hkeys, forall_mem_map]
        exact get?_eq_none_iff.mp hx
      rw [hnone]
      exact .none
    | some x =>
      obtain ⟨y, hy, hxy⟩ := hfields _ (mem_of_get? hx)
      rw [hy]
      exact .some ⟨hf _ (mem_of_get? hx), hg _ (mem_of_get? hy), hxy⟩
  · rintro ⟨hfs, hgs, h⟩
    have hleft {k : String} {x : Value} (hx : Entries.get? k fs = some x) :
        ∃ y, Entries.get? k gs = some y ∧ x.Like y :=
      exists_of_rel_some (hx ▸ h k)
    have hright {k : String} {y : Value} (hy : Entries.get? k gs = some y) :
        ∃ x, Entries.get? k fs = some x ∧ x.Like y :=
      exists_of_rel_of_some (hy ▸ h k)
    refine ⟨hereditary_canonical.obj.mpr ⟨hfs, fun e he => ?_⟩, hereditary_canonical.obj.mpr ⟨hgs, fun e he => ?_⟩, ?_⟩
    · obtain ⟨y, -, hxy⟩ := hleft (get?_of_mem hfs he)
      exact hxy.left
    · obtain ⟨x, -, hxy⟩ := hright (get?_of_mem hgs he)
      exact hxy.right
    · simp only [Value.equal, Bool.and_eq_true, beq_iff_eq]
      refine ⟨Nat.le_antisymm ?_ ?_, equalFields_iff.mpr fun e he => ?_⟩
      · have hsub := sublist_keys hfs hgs fun k hk => by
          obtain ⟨x, hx⟩ := Option.isSome_iff_exists.mp hk
          obtain ⟨y, hy, -⟩ := hleft hx
          simp [hy]
        simpa using hsub.length_le
      · have hsub := sublist_keys hgs hfs fun k hk => by
          obtain ⟨y, hy⟩ := Option.isSome_iff_exists.mp hk
          obtain ⟨x, hx, -⟩ := hright hy
          simp [hx]
        simpa using hsub.length_le
      · obtain ⟨y, hy, hxy⟩ := hleft (get?_of_mem hfs he)
        exact ⟨y, hy, hxy.equal⟩

end Value

-- Paths

namespace Path

variable {p q : Path} {a b : Seg} {C : Path → Prop}

-- Segments that are the same wherever a condition holds of the path before them.
theorem agree_concat_iff (hl : p.length = q.length) : (∀ i, C ((p ++ [a]).take i) → (p ++ [a])[i]? = (q ++ [b])[i]?) ↔
      (∀ i, C (p.take i) → p[i]? = q[i]?) ∧ (C p → a = b) := by
  constructor
  · intro h
    refine ⟨fun i hC => ?_, fun hC => ?_⟩
    · rcases Nat.lt_or_ge i p.length with hi | hi
      · have hseg := h i (by rwa [take_append_of_le_length (Nat.le_of_lt hi)])
        rwa [getElem?_append_left hi, getElem?_append_left (hl ▸ hi)] at hseg
      · rw [getElem?_eq_none hi, getElem?_eq_none (hl ▸ hi)]
    · have hseg := h p.length (by rwa [take_left])
      rw [getElem?_concat_length, hl, getElem?_concat_length] at hseg
      exact Option.some.inj hseg
  · rintro ⟨h, hab⟩ i hC
    rcases Nat.lt_trichotomy i p.length with hi | rfl | hi
    · rw [take_append_of_le_length (Nat.le_of_lt hi)] at hC
      rw [getElem?_append_left hi, getElem?_append_left (hl ▸ hi)]
      exact h i hC
    · rw [take_left] at hC
      rw [getElem?_concat_length, hl, getElem?_concat_length, hab hC]
    · rw [getElem?_eq_none (by simpa using Nat.succ_le_of_lt hi),
        getElem?_eq_none (by simpa using Nat.succ_le_of_lt (hl ▸ hi))]

theorem agree_take (h : ∀ i, C (p.take i) → p[i]? = q[i]?) (n i : Nat) (hC : C ((p.take n).take i)) :
    (p.take n)[i]? = (q.take n)[i]? := by
  rw [getElem?_take, getElem?_take]
  split
  · case isTrue hi =>
    rw [take_take, Nat.min_eq_left (Nat.le_of_lt hi)] at hC
    exact h i hC
  · rfl

end Path

namespace Value

variable {a b v w x y : Value} {as bs : List Value} {fs gs : List (String × Value)} {p q full full' : Path} {k : String}

-- Two paths with the same texts, and the same segments where an array is entered.
structure Respelled (v : Value) (p q : Path) : Prop where
  keys   : p.map Seg.toKey = q.map Seg.toKey
  arrays : ∀ i items, v.get? (p.take i) = some (.arr items) → p[i]? = q[i]?

variable {seg seg' : Seg}

theorem respelled_refl (v : Value) (p : Path) : v.Respelled p p :=
  ⟨rfl, fun _ _ _ => rfl⟩

theorem Respelled.length_eq (h : v.Respelled p q) : p.length = q.length := by
  simpa using congrArg List.length h.keys

theorem Respelled.cons (h : v.Respelled (seg :: p) q) : ∃ seg' q', q = seg' :: q' ∧ seg.toKey = seg'.toKey ∧
    (∀ items, v = .arr items → seg = seg') ∧ Respelled ((v.child? seg).getD .null) p q' := by
  cases q with
  | nil => cases h.keys
  | cons seg' q' =>
    obtain ⟨hkey, hkeys⟩ := List.cons.inj h.keys
    refine ⟨seg', q', rfl, hkey, fun items hv => ?_, hkeys, fun i items hget => ?_⟩
    · have hseg := h.arrays 0 items (by rw [take_zero, get?_nil, hv])
      exact Option.some.inj hseg
    · refine h.arrays (i + 1) items ?_
      rw [take_succ_cons, get?]
      cases hc : v.child? seg with
      | some c => simpa only [hc, Option.getD_some] using hget
      | none =>
        rw [hc, Option.getD_none] at hget
        exact absurd hget (by cases p.take i <;> simp [get?, child?])

theorem Respelled.concat (h : v.Respelled (p ++ [seg]) q) : ∃ q' seg', q = q' ++ [seg'] ∧ seg.toKey = seg'.toKey ∧
    p.map Seg.toKey = q'.map Seg.toKey := by
  have hkeys := h.keys
  rw [map_append, map_singleton] at hkeys
  obtain ⟨q', r, rfl, hq', hr⟩ := map_eq_append_iff.mp hkeys.symm
  obtain ⟨seg', rfl, hseg⟩ := map_eq_singleton_iff.mp hr
  exact ⟨q', seg', rfl, hseg.symm, hq'.symm⟩

theorem Like.child? (h : v.Like w) (hkey : seg.toKey = seg'.toKey) (harr : ∀ items, v = .arr items → seg = seg') :
    Option.Rel Like (v.child? seg) (w.child? seg') := by
  have he := h.equal
  cases v with
  | null | bool | num | str =>
    cases w <;> simp only [Value.equal, Bool.false_eq_true] at he
    exact .none
  | arr items =>
    cases w <;> simp only [Value.equal, Bool.false_eq_true] at he
    obtain rfl := harr items rfl
    cases seg with
    | key => exact .none
    | index i => exact like_arr_iff.mp h i
  | obj fs =>
    cases w <;> simp only [Value.equal, Bool.false_eq_true] at he
    rw [Value.child?, Value.child?, hkey]
    exact (like_obj_iff.mp h).2.2 _

theorem Like.get? (h : v.Like w) (hp : v.Respelled p q) : Option.Rel Like (v.get? p) (w.get? q) := by
  induction p generalizing v w q with
  | nil =>
    obtain rfl := length_eq_zero_iff.mp hp.length_eq.symm
    rw [get?_nil, get?_nil]
    exact .some h
  | cons seg p ih =>
    obtain ⟨seg', q', rfl, hkey, harr, hrest⟩ := hp.cons
    have hrel := h.child? hkey harr
    rw [Value.get?, Value.get?]
    cases hc : v.child? seg with
    | none =>
      rw [hc] at hrel
      generalize w.child? seg' = o at hrel
      cases hrel
      exact .none
    | some c =>
      rw [hc] at hrel hrest
      obtain ⟨c', hc', hlike⟩ := exists_of_rel_some hrel
      rw [hc']
      exact ih hlike hrest

theorem Like.openFields (h : v.Like w) (hf : v.openFields? = some fs) : ∃ gs, w.openFields? = some gs ∧
    (obj fs).Like (obj gs) := by
  have he := h.equal
  cases v with
  | null | bool | num | str =>
    cases w <;> simp only [Value.equal, Bool.false_eq_true] at he
    cases hf
    exact ⟨[], rfl, like_refl ⟨.nil, trivial⟩⟩
  | arr => cases hf
  | obj =>
    cases w <;> simp only [Value.equal, Bool.false_eq_true] at he
    cases hf
    exact ⟨_, rfl, h⟩

theorem Like.insert (h : (obj fs).Like (obj gs)) (hx : x.Like y) :
    (obj (Entries.insert k x fs)).Like (obj (Entries.insert k y gs)) := by
  obtain ⟨hf, hg, hrel⟩ := like_obj_iff.mp h
  refine like_obj_iff.mpr ⟨insert_sorted hf, insert_sorted hg, fun k' => ?_⟩
  by_cases hk : k = k'
  · subst hk
    rw [get?_insert_self, get?_insert_self]
    exact .some hx
  · rw [get?_insert_ne hk, get?_insert_ne hk]
    exact hrel k'

theorem like_getD (h : Option.Rel Like o o') : (o.getD .null).Like (o'.getD .null) := by
  cases h with
  | none => exact like_null
  | some hxy => exact hxy

theorem Like.setFrom (h : v.Like w) (hp : v.Respelled p q) (hx : x.Like y) :
    ((setFrom full x p v).1 = .ok () ↔ (setFrom full' y q w).1 = .ok ()) ∧
      (setFrom full x p v).2.Like (setFrom full' y q w).2 := by
  induction p generalizing v w q with
  | nil =>
    obtain rfl := length_eq_zero_iff.mp hp.length_eq.symm
    exact ⟨Iff.rfl, hx⟩
  | cons seg p ih =>
    obtain ⟨seg', q', rfl, hkey, harr, hrest⟩ := hp.cons
    have hchild := like_getD (h.child? hkey harr)
    rcases openFields?_cases v with ⟨fs, hf⟩ | ⟨items, rfl⟩
    · obtain ⟨gs, hg, hlike⟩ := h.openFields hf
      rw [child?_of_openFields hf] at hrest hchild
      rw [child?_of_openFields hg] at hchild
      obtain ⟨hok, hc⟩ := ih hchild hrest
      rw [setFrom_cons_of_openFields hf, setFrom_cons_of_openFields hg, hkey] at *
      exact ⟨hok, hlike.insert hc⟩
    · obtain rfl := harr items rfl
      obtain ⟨items', rfl⟩ : ∃ items', w = .arr items' := by
        have he := h.equal
        cases w <;> simp only [Value.equal, Bool.false_eq_true] at he
        exact ⟨_, rfl⟩
      have hl : items.length = items'.length := by
        have he := h.equal
        simp only [Value.equal, Bool.and_eq_true, beq_iff_eq] at he
        exact he.1
      cases seg with
      | key k => exact ⟨by simp [Value.setFrom], h⟩
      | index i =>
        by_cases hi : i ≤ items.length
        · obtain ⟨hok, hc⟩ := ih hchild hrest
          rw [setFrom_index_arr hi, setFrom_index_arr (hl ▸ hi)]
          refine ⟨hok, like_arr_iff.mpr fun j => ?_⟩
          rw [getElem?_putItem hi, getElem?_putItem (hl ▸ hi)]
          split
          · exact .some hc
          · exact like_arr_iff.mp h j
        · have hlt := Nat.lt_of_not_le hi
          simp only [Value.setFrom, hlt, hl ▸ hlt, if_true]
          exact ⟨by simp, h⟩

-- Keys lead nowhere in an array, so what they lead to other segments with their texts lead to.
theorem get?_of_keys (h : v.get? (p.map fun seg => .key seg.toKey) = some x) : v.get? p = some x := by
  induction p generalizing v with
  | nil => exact h
  | cons seg p ih =>
    have hchild {c : Value} (hc : v.child? (.key seg.toKey) = some c) : v.child? seg = some c := by
      cases v with
      | obj => exact hc
      | null | bool | num | str | arr => cases hc
    rw [map_cons, Value.get?] at h
    cases hc : v.child? (.key seg.toKey) with
    | none =>
      rw [hc] at h
      cases h
    | some c =>
      rw [hc] at h
      rw [Value.get?, hchild hc]
      exact ih h

theorem Like.field? (h : v.Like w) : Option.Rel Like (v.field? k) (w.field? k) := by
  have he (u : Value) : u.field? k = u.child? (.key k) := by cases u <;> rfl
  rw [he, he]
  exact h.child? rfl fun _ _ => rfl

end Value

-- Places

theorem SubSchema.selectOrBase_like {sub : SubSchema} (h : Option.Rel Value.Like o o') :
    sub.selectOrBase o = sub.selectOrBase o' := by
  have hkey : Option.Rel Value.Like (o.bind (·.field? sub.discriminatorKey))
      (o'.bind (·.field? sub.discriminatorKey)) :=
    rel_bind h Value.Like.field?
  rw [selectOrBase, selectOrBase, select, select, variant?, variant?]
  by_cases hv : sub.variants.isEmpty
  · rw [if_pos hv, if_pos hv]
  rw [if_neg hv, if_neg hv]
  generalize o.bind _ = x at hkey
  generalize o'.bind _ = y at hkey
  cases hkey with
  | none => rfl
  | @some a b hab =>
    have he := hab.equal
    cases a <;> cases b <;> simp only [Value.equal, Bool.false_eq_true, beq_iff_eq] at he
    case str.str => rw [he]
    all_goals rfl

namespace Cursor

variable {c c' : Cursor} {s : Schema} {seg seg' : Seg} {p q place : Path} {o o' : Option Value} {x y : Value}

-- Places of alike values.
inductive Like : Cursor → Cursor → Prop
  | schema {s : Schema} {place : Path} {o o' : Option Value} : Option.Rel Value.Like o o' →
      Like (.schema s place o) (.schema s place o')
  | field {f : Field} {o o' : Option Value} : Option.Rel Value.Like o o' → Like (.field f o) (.field f o')
  | inMixed : Like .inMixed .inMixed
  | lost : Like .lost .lost

theorem Like.resolution (h : Like c c') : c.resolution = c'.resolution := by
  cases h <;> rfl

theorem Like.stepSchema (h : Option.Rel Value.Like o o') (hkey : seg.toKey = seg'.toKey) :
    Like (stepSchema s place o seg) (stepSchema s place o' seg') := by
  simp only [Cursor.stepSchema, hkey]
  split
  · exact .field (rel_bind h fun hv => hv.get? (respelled_refl _ _))
  · split
    · exact .schema h
    · exact .lost

theorem Like.step (h : Like c c') (hkey : seg.toKey = seg'.toKey)
    (harr : ∀ f items, c = .field f (some (.arr items)) → seg = seg')
    (hdeclared : ∀ f o, c = .field f o → f.type.isArray → seg = seg') : Like (c.step seg) (c'.step seg') := by
  cases h with
  | schema h => exact Like.stepSchema h hkey
  | inMixed => exact .inMixed
  | lost => exact .lost
  | @field f o o' h =>
    have hchild : Option.Rel Value.Like (o.bind (·.child? seg)) (o'.bind (·.child? seg')) := by
      cases h with
      | none => exact .none
      | some hv => exact hv.child? hkey fun items he => harr f items (by rw [he])
    refine step_field₂ (hdeclared f o rfl) .inMixed .lost (fun sub _ => ?_) fun _ _ => .field hchild
    rw [SubSchema.selectOrBase_like h]
    exact Like.stepSchema h hkey

def Reads (x : Value) (p : Path) : Cursor → Prop
  | .schema _ place doc => ∃ root rest, p = root ++ rest ∧ place = rest.map (fun seg => .key seg.toKey) ∧
      ∀ y, doc = some y → x.get? root = some y
  | .field _ o => ∀ y, o = some y → x.get? p = some y
  | .inMixed | .lost => True

theorem reads_stepSchema (h : Reads x p (.schema s place o)) : Reads x (p ++ [seg]) (stepSchema s place o seg) := by
  obtain ⟨root, rest, rfl, rfl, hdoc⟩ := h
  have hplace : Path.key (rest.map fun seg => .key seg.toKey) seg.toKey =
      (rest ++ [seg]).map fun seg => .key seg.toKey := by
    rw [Path.key, map_append, map_singleton]
  simp only [stepSchema]
  split
  · intro y hy
    obtain ⟨z, hz, hget⟩ := Option.bind_eq_some_iff.mp hy
    rw [hplace] at hget
    rw [append_assoc, get?_append, hdoc z hz, Option.bind_some]
    exact get?_of_keys hget
  · split
    · exact ⟨root, rest ++ [seg], append_assoc .., hplace, hdoc⟩
    · trivial

theorem Reads.step (h : c.Reads x p) : (c.step seg).Reads x (p ++ [seg]) := by
  cases c with
  | schema => exact reads_stepSchema h
  | inMixed | lost => trivial
  | field f o =>
    refine step_field (P := fun c => c.Reads x (p ++ [seg])) trivial trivial
      (fun _ _ => reads_stepSchema ⟨p, [], (append_nil p).symm, rfl, h⟩) fun _ _ y hy => ?_
    obtain ⟨z, hz, hc⟩ := Option.bind_eq_some_iff.mp hy
    rw [get?_concat, h z hz, Option.bind_some, hc]

theorem reads_foldl (s : Schema) (x : Value) (p : Path) :
    (p.foldl Cursor.step (.schema s Path.root (some x))).Reads x p := by
  induction p using List.reverseRecOn with
  | nil => exact ⟨[], [], rfl, rfl, fun y hy => by rw [get?_nil, hy]⟩
  | append_singleton p seg ih =>
    rw [foldl_append]
    exact ih.step

end Cursor

namespace Schema

variable {s : Schema} {x y : Value} {p q : Path}

-- Two paths with the same texts, and the same segments where an array is entered or declared in some variant.
structure Respelled (s : Schema) (x : Value) (p q : Path) : Prop extends x.Respelled p q where
  declared : ∀ i z f, s.resolve z (p.take i) = .field f → f.type.isArray → p[i]? = q[i]?

-- An array is at the path, or declared there in some variant.
def Arrays (s : Schema) (x : Value) (p : Path) : Prop :=
  (∃ items, x.get? p = some (.arr items)) ∨ ∃ z f, s.resolve z p = .field f ∧ f.type.isArray

theorem respelled_iff : s.Respelled x p q ↔
    p.map Seg.toKey = q.map Seg.toKey ∧ ∀ i, s.Arrays x (p.take i) → p[i]? = q[i]? := by
  constructor
  · intro h
    refine ⟨h.keys, fun i hi => ?_⟩
    rcases hi with ⟨items, hx⟩ | ⟨z, f, hf, ha⟩
    · exact h.arrays i items hx
    · exact h.declared i z f hf ha
  · rintro ⟨hkeys, h⟩
    exact ⟨⟨hkeys, fun i items hx => h i (.inl ⟨items, hx⟩)⟩, fun i z f hf ha => h i (.inr ⟨z, f, hf, ha⟩)⟩

theorem Respelled.concat (h : s.Respelled x (p ++ [seg]) q) : ∃ q' seg', q = q' ++ [seg'] ∧
    seg.toKey = seg'.toKey ∧ (s.Arrays x p → seg = seg') ∧ s.Respelled x p q' := by
  obtain ⟨q', seg', rfl, hkey, hkeys⟩ := h.toRespelled.concat
  have hl : p.length = q'.length := by simpa using congrArg List.length hkeys
  obtain ⟨hrest, hseg⟩ := (Path.agree_concat_iff hl).mp (respelled_iff.mp h).2
  exact ⟨q', seg', rfl, hkey, hseg, respelled_iff.mpr ⟨hkeys, hrest⟩⟩

theorem Respelled.append (h : s.Respelled x p q) (hkey : a.toKey = b.toKey) (hab : s.Arrays x p → a = b) :
    s.Respelled x (p ++ [a]) (q ++ [b]) := by
  obtain ⟨hkeys, harrays⟩ := respelled_iff.mp h
  refine respelled_iff.mpr ⟨?_, (Path.agree_concat_iff h.length_eq).mpr ⟨harrays, hab⟩⟩
  rw [map_append, map_append, hkeys, map_singleton, map_singleton, hkey]

theorem Respelled.take (h : s.Respelled x p q) (n : Nat) : s.Respelled x (p.take n) (q.take n) := by
  obtain ⟨hkeys, harrays⟩ := respelled_iff.mp h
  exact respelled_iff.mpr ⟨by rw [map_take, map_take, hkeys], Path.agree_take harrays n⟩

theorem Respelled.like (h : s.Respelled x p q) (hxy : x.Like y) :
    Cursor.Like (p.foldl Cursor.step (.schema s Path.root (some x)))
      (q.foldl Cursor.step (.schema s Path.root (some y))) := by
  induction p using List.reverseRecOn generalizing q with
  | nil =>
    obtain rfl := length_eq_zero_iff.mp h.length_eq.symm
    exact .schema (.some hxy)
  | append_singleton p seg ih =>
    obtain ⟨q', seg', rfl, hkey, harrays, hrest⟩ := h.concat
    rw [foldl_append, foldl_append]
    have hreads := Cursor.reads_foldl s x p
    refine (ih hrest).step hkey (fun f items hc => harrays (.inl ⟨items, ?_⟩)) fun f o hc ha =>
      harrays (.inr ⟨x, f, ?_, ha⟩)
    · rw [hc] at hreads
      exact hreads _ rfl
    · rw [resolve, hc]
      rfl

theorem Respelled.resolve (h : s.Respelled x p q) (hxy : x.Like y) : s.resolve x p = s.resolve y q :=
  (h.like hxy).resolution

end Schema
end Dossier

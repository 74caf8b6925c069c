import Dossier.Proofs.Tree

-- Among values whose objects are in key order and whose numbers are signed integers, equality is identity.

namespace Dossier

open Entries List

instance decidableEqExcept {ε α : Type} [DecidableEq ε] [DecidableEq α] : DecidableEq (Except ε α)
  | .ok a, .ok b => decidable_of_iff (a = b) (by simp)
  | .error e, .error e' => decidable_of_iff (e = e') (by simp)
  | .ok _, .error _ => isFalse (by simp)
  | .error _, .ok _ => isFalse (by simp)

namespace Entries

variable {κ α : Type} [Ord κ] [Std.TransOrd κ] [Std.LawfulEqOrd κ] {bs : List (κ × α)}

theorem sublist_of_subset (ha : Sorted as) (hb : Sorted bs) (h : ∀ e ∈ as, e ∈ bs) : as.Sublist bs := by
  induction bs generalizing as with
  | nil =>
    cases as with
    | nil => exact .slnil
    | cons a _ => cases h a mem_cons_self
  | cons b bs ih =>
    cases as with
    | nil => exact nil_sublist _
    | cons a as =>
      have ⟨hlt, ha'⟩ := pairwise_cons.mp ha
      have ⟨hlt', hb'⟩ := pairwise_cons.mp hb
      rcases mem_cons.mp (h a mem_cons_self) with rfl | hm
      · refine (ih ha' hb' fun e he => ?_).cons_cons a
        refine (mem_cons.mp (h e (mem_cons_of_mem _ he))).resolve_left ?_
        rintro rfl
        simpa using hlt e he
      · -- All entries on the left come after `b`, so none of them is `b`.
        refine (ih ha hb' fun e he => ?_).cons b
        refine (mem_cons.mp (h e he)).resolve_left ?_
        rintro rfl
        have hba := hlt' a hm
        rcases mem_cons.mp he with rfl | he
        · simp at hba
        · simpa using Std.TransCmp.lt_trans hba (hlt e he)

theorem eq_of_subset (ha : Sorted as) (hb : Sorted bs) (h : ∀ e ∈ as, e ∈ bs) (hl : as.length = bs.length) : as = bs :=
  (sublist_of_subset ha hb h).eq_of_length hl

end Entries

namespace Number

theorem equal_refl (n : Number) : n.equal n := by
  simp only [equal]
  split
  · case _ h₁ h₂ => simp_all
  · exact n.toDouble.same_refl

theorem eq_of_equal {b : Number} (ha : a.toSigned?.isSome) (hb : b.toSigned?.isSome) (h : a.equal b) : a = b := by
  obtain ⟨i, hi⟩ := Option.isSome_iff_exists.mp ha
  obtain ⟨j, hj⟩ := Option.isSome_iff_exists.mp hb
  simp only [equal, hi, hj, beq_iff_eq] at h
  cases a <;> cases b <;> simp_all [toSigned?]

end Number

namespace Value

theorem canonicalItems_iff : CanonicalItems items ↔ ∀ v ∈ items, v.Canonical := by
  induction items with
  | nil => simp [CanonicalItems]
  | cons v items ih => simp [CanonicalItems, ih]

theorem canonicalFields_iff : CanonicalFields fields ↔ ∀ e ∈ fields, e.2.Canonical := by
  induction fields with
  | nil => simp [CanonicalFields]
  | cons e fields ih => simp [CanonicalFields, ih]

theorem canonical_getD {v : Option Value} (h : ∀ w, v = some w → w.Canonical) : (v.getD .null).Canonical := by
  cases v with
  | none => trivial
  | some w => exact h w rfl

mutual

theorem equal_refl : (v : Value) → v.Canonical → v.equal v
  | .null, _ => by simp [equal]
  | .bool _, _ => by simp [equal]
  | .num n, _ => by simp [equal, n.equal_refl]
  | .str _, _ => by simp [equal]
  | .arr items, h => by simp [equal, equalItems_refl items h]
  | .obj fields, h => by
    simp [equal, equalFields_of_get? fields fields (fun _ he => get?_of_mem h.1 he) h.2]

theorem equalItems_refl : (items : List Value) → CanonicalItems items → equalItems items items
  | [], _ => by simp [equalItems]
  | v :: items, h => by simp [equalItems, v.equal_refl h.1, equalItems_refl items h.2]

theorem equalFields_of_get? : (as bs : List (String × Value)) →
    (∀ e ∈ as, Entries.get? e.1 bs = some e.2) → CanonicalFields as → equalFields as bs
  | [], _, _, _ => by simp [equalFields]
  | (k, v) :: as, bs, hget, h => by
    have ⟨hk, hget⟩ := forall_mem_cons.mp hget
    simp [equalFields, hk, v.equal_refl h.1, equalFields_of_get? as bs hget h.2]

end

mutual

def Integral : Value → Prop
  | .num n => n.toSigned?.isSome
  | .arr items => IntegralItems items
  | .obj fields => IntegralFields fields
  | _ => True

def IntegralItems : List Value → Prop
  | [] => True
  | v :: vs => v.Integral ∧ IntegralItems vs

def IntegralFields : List (String × Value) → Prop
  | [] => True
  | (_, v) :: fields => v.Integral ∧ IntegralFields fields

end

theorem integralItems_iff : IntegralItems items ↔ ∀ v ∈ items, v.Integral := by
  induction items with
  | nil => simp [IntegralItems]
  | cons v items ih => simp [IntegralItems, ih]

theorem integralFields_iff : IntegralFields fields ↔ ∀ e ∈ fields, e.2.Integral := by
  induction fields with
  | nil => simp [IntegralFields]
  | cons e fields ih => simp [IntegralFields, ih]

-- Values that equality tells apart whenever they differ.
structure Exact (v : Value) : Prop where
  canonical : v.Canonical
  integral  : v.Integral

theorem exact_arr_iff : (arr items).Exact ↔ ∀ v ∈ items, v.Exact := by
  constructor
  · rintro ⟨hc, hi⟩ v hv
    rw [Canonical, canonicalItems_iff] at hc
    rw [Integral, integralItems_iff] at hi
    exact ⟨hc v hv, hi v hv⟩
  · intro h
    refine ⟨?_, ?_⟩
    · rw [Canonical, canonicalItems_iff]
      exact fun v hv => (h v hv).canonical
    · rw [Integral, integralItems_iff]
      exact fun v hv => (h v hv).integral

theorem exact_obj_iff : (obj fields).Exact ↔ Entries.Sorted fields ∧ ∀ e ∈ fields, e.2.Exact := by
  constructor
  · rintro ⟨hc, hi⟩
    rw [Canonical, canonicalFields_iff] at hc
    rw [Integral, integralFields_iff] at hi
    exact ⟨hc.1, fun e he => ⟨hc.2 e he, hi e he⟩⟩
  · rintro ⟨hs, h⟩
    refine ⟨?_, ?_⟩
    · rw [Canonical, canonicalFields_iff]
      exact ⟨hs, fun e he => (h e he).canonical⟩
    · rw [Integral, integralFields_iff]
      exact fun e he => (h e he).integral

theorem exact_null : null.Exact :=
  ⟨trivial, trivial⟩

theorem exact_str (s : String) : (str s).Exact :=
  ⟨trivial, trivial⟩

mutual

def decideExact : (v : Value) → Decidable v.Exact
  | .null => isTrue exact_null
  | .bool _ => isTrue ⟨trivial, trivial⟩
  | .num n => decidable_of_iff n.toSigned?.isSome ⟨fun h => ⟨trivial, h⟩, fun h => h.integral⟩
  | .str s => isTrue (exact_str s)
  | .arr items => @decidable_of_iff _ _ exact_arr_iff.symm (decideExactItems items)
  | .obj fields =>
    have := decideExactFields fields
    have : Decidable (Entries.Sorted fields) := inferInstanceAs (Decidable (List.Pairwise _ _))
    decidable_of_iff _ exact_obj_iff.symm

def decideExactItems : (items : List Value) → Decidable (∀ v ∈ items, v.Exact)
  | [] => isTrue (by simp)
  | v :: items =>
    have := decideExact v
    have := decideExactItems items
    decidable_of_iff _ forall_mem_cons.symm

def decideExactFields : (fields : List (String × Value)) → Decidable (∀ e ∈ fields, e.2.Exact)
  | [] => isTrue (by simp)
  | (_, v) :: fields =>
    have := decideExact v
    have := decideExactFields fields
    decidable_of_iff _ forall_mem_cons.symm

end

instance (v : Value) : Decidable v.Exact :=
  decideExact v

mutual

theorem eq_of_equal : (a b : Value) → a.Exact → b.Exact → a.equal b → a = b
  | .null, b, _, _, h => by cases b <;> simp_all [equal]
  | .bool _, b, _, _, h => by cases b <;> simp_all [equal]
  | .str _, b, _, _, h => by cases b <;> simp_all [equal]
  | .num m, b, ha, hb, h => by
    cases b with
    | num n => exact congrArg num (Number.eq_of_equal ha.integral hb.integral (by simpa [equal] using h))
    | _ => simp [equal] at h
  | .arr as, b, ha, hb, h => by
    cases b with
    | arr bs =>
      simp only [equal, Bool.and_eq_true, beq_iff_eq] at h
      exact congrArg arr (eq_of_equalItems as bs (exact_arr_iff.mp ha) (exact_arr_iff.mp hb) h.1 h.2)
    | _ => simp [equal] at h
  | .obj as, b, ha, hb, h => by
    cases b with
    | obj bs =>
      simp only [equal, Bool.and_eq_true, beq_iff_eq] at h
      have ⟨hsa, ha⟩ := exact_obj_iff.mp ha
      have ⟨hsb, hb⟩ := exact_obj_iff.mp hb
      exact congrArg obj (eq_of_subset hsa hsb (mem_of_equalFields as bs ha hb h.2) h.1)
    | _ => simp [equal] at h

theorem eq_of_equalItems : (as bs : List Value) → (∀ v ∈ as, v.Exact) → (∀ v ∈ bs, v.Exact) →
    as.length = bs.length → equalItems as bs → as = bs
  | [], [], _, _, _, _ => rfl
  | [], _ :: _, _, _, hl, _ => by simp at hl
  | _ :: _, [], _, _, hl, _ => by simp at hl
  | a :: as, b :: bs, ha, hb, hl, h => by
    simp only [equalItems, Bool.and_eq_true] at h
    rw [eq_of_equal a b (ha a mem_cons_self) (hb b mem_cons_self) h.1,
      eq_of_equalItems as bs (fun v hv => ha v (mem_cons_of_mem _ hv))
        (fun v hv => hb v (mem_cons_of_mem _ hv)) (by simpa using hl) h.2]

theorem mem_of_equalFields : (as bs : List (String × Value)) → (∀ e ∈ as, e.2.Exact) →
    (∀ e ∈ bs, e.2.Exact) → equalFields as bs → ∀ e ∈ as, e ∈ bs
  | [], _, _, _, _ => by simp
  | (k, a) :: as, bs, ha, hb, h => by
    simp only [equalFields, Bool.and_eq_true] at h
    intro e he
    rcases mem_cons.mp he with rfl | he
    · cases hg : Entries.get? k bs with
      | none => simp [hg] at h
      | some b =>
        have hm := mem_of_get? hg
        rw [hg] at h
        rwa [eq_of_equal a b (ha _ mem_cons_self) (hb _ hm) h.1]
    · exact mem_of_equalFields as bs (fun e he => ha e (mem_cons_of_mem _ he)) hb h.2 e he

end

-- Parts

-- A condition that values fulfil whose objects are in key order and whose parts fulfil it.
structure Hereditary (C : Value → Prop) : Prop where
  null : C .null
  arr  : ∀ {items}, C (.arr items) ↔ ∀ v ∈ items, C v
  obj  : ∀ {fields}, C (.obj fields) ↔ Entries.Sorted fields ∧ ∀ e ∈ fields, C e.2

theorem hereditary_canonical : Hereditary Canonical where
  null := trivial
  arr := canonicalItems_iff
  obj := and_congr_right fun _ => canonicalFields_iff

theorem hereditary_exact : Hereditary Exact :=
  ⟨exact_null, exact_arr_iff, exact_obj_iff⟩

variable {v : Value}

theorem sizeOf_child (h : v.child? seg = some x) : sizeOf x < sizeOf v := by
  cases v with
  | arr items =>
    cases seg with
    | key => cases h
    | index =>
      have := sizeOf_lt_of_mem (mem_of_getElem? h)
      simp only [arr.sizeOf_spec]
      omega
  | obj fields =>
    have := sizeOf_lt_of_mem (mem_of_get? h)
    simp only [obj.sizeOf_spec, Prod.mk.sizeOf_spec] at this ⊢
    omega
  | _ => cases h

theorem child_induction {P : Value → Prop} (h : ∀ v, (∀ seg x, v.child? seg = some x → P x) → P v) (v : Value) :
    P v := by
  induction hn : sizeOf v using Nat.strongRecOn generalizing v with
  | _ n ih =>
    exact h v fun seg x hx => ih (sizeOf x) (hn ▸ sizeOf_child hx) x rfl

namespace Hereditary

variable (hC : Hereditary C) (h : C v)

include hC h

theorem openFields (hf : v.openFields? = some fs) : Entries.Sorted fs ∧ ∀ e ∈ fs, C e.2 := by
  cases v with
  | obj fields => cases hf; exact hC.obj.mp h
  | arr => cases hf
  | _ => cases hf; exact ⟨.nil, by simp⟩

theorem child (hc : v.child? seg = some x) : C x := by
  rcases openFields?_cases v with ⟨fs, hf⟩ | ⟨items, rfl⟩
  · rw [child?_of_openFields hf] at hc
    exact (hC.openFields h hf).2 _ (mem_of_get? hc)
  · cases seg with
    | key => cases hc
    | index i => exact hC.arr.mp h x (mem_of_getElem? hc)

theorem get? (hg : v.get? p = some x) : C x := by
  induction p generalizing v with
  | nil => rw [get?_nil] at hg; cases hg; exact h
  | cons seg rest ih =>
    rw [Value.get?] at hg
    cases hc : v.child? seg with
    | none => simp [hc] at hg
    | some c => rw [hc] at hg; exact ih (hC.child h hc) hg

theorem putChild (hx : C x) : C (v.putChild seg x) := by
  cases v with
  | arr items =>
    cases seg with
    | key => exact h
    | index i =>
      refine hC.arr.mpr fun w hw => ?_
      rcases mem_putItem hw with rfl | hw
      · exact hx
      · exact hC.arr.mp h w hw
  | obj fields =>
    obtain ⟨hs, hfields⟩ := hC.obj.mp h
    refine hC.obj.mpr ⟨insert_sorted hs, fun e he => ?_⟩
    rcases snd_of_mem_insert he with he | he
    · exact he ▸ hx
    · exact hfields e he
  | null | bool | num | str =>
    exact hC.obj.mpr ⟨pairwise_singleton _ _, fun e he => by rw [mem_singleton.mp he]; exact hx⟩

theorem setFrom (hn : C new) : C (setFrom full new p v).2 := by
  induction p generalizing v with
  | nil => exact hn
  | cons seg rest ih =>
    cases ht : v.takes seg with
    | false =>
      obtain ⟨e, he⟩ := setFrom_refused full new rest ht
      rwa [he]
    | true =>
      rw [setFrom_cons ht]
      refine hC.putChild h (ih ?_)
      cases hc : v.child? seg with
      | none => exact hC.null
      | some c => exact hC.child h hc

end Hereditary

theorem Canonical.openFields (h : v.Canonical) (hf : v.openFields? = some fs) :
    Entries.Sorted fs ∧ ∀ e ∈ fs, e.2.Canonical :=
  hereditary_canonical.openFields h hf

theorem Exact.get? (h : v.Exact) (hg : v.get? p = some x) : x.Exact :=
  hereditary_exact.get? h hg

theorem Exact.setFrom (h : v.Exact) (hn : new.Exact) : (setFrom full new p v).2.Exact :=
  hereditary_exact.setFrom h hn

-- Identity

mutual

-- Whether two values are the same, with their numbers of the same kind and their fields in the same order.
def identical : Value → Value → Bool
  | .null, .null => true
  | .bool a, .bool b => a == b
  | .num a, .num b => a = b
  | .str a, .str b => a == b
  | .arr as, .arr bs => identicalItems as bs
  | .obj as, .obj bs => identicalFields as bs
  | _, _ => false

def identicalItems : List Value → List Value → Bool
  | [], [] => true
  | a :: as, b :: bs => a.identical b && identicalItems as bs
  | _, _ => false

def identicalFields : List (String × Value) → List (String × Value) → Bool
  | [], [] => true
  | (k, a) :: as, (l, b) :: bs => k == l && a.identical b && identicalFields as bs
  | _, _ => false

end

mutual

theorem identical_iff : (a b : Value) → (a.identical b ↔ a = b)
  | .null, b | .bool _, b | .num _, b | .str _, b => by cases b <;> simp [identical]
  | .arr as, b => by
    cases b with
    | arr bs => simp [identical, identicalItems_iff as bs]
    | null | bool | num | str | obj => simp [identical]
  | .obj as, b => by
    cases b with
    | obj bs => simp [identical, identicalFields_iff as bs]
    | null | bool | num | str | arr => simp [identical]

theorem identicalItems_iff : (as bs : List Value) → (identicalItems as bs ↔ as = bs)
  | [], bs => by cases bs <;> simp [identicalItems]
  | a :: as, bs => by
    cases bs with
    | nil => simp [identicalItems]
    | cons b bs => simp [identicalItems, identical_iff a b, identicalItems_iff as bs]

theorem identicalFields_iff : (as bs : List (String × Value)) → (identicalFields as bs ↔ as = bs)
  | [], bs => by cases bs <;> simp [identicalFields]
  | (k, a) :: as, bs => by
    cases bs with
    | nil => simp [identicalFields]
    | cons b bs =>
      obtain ⟨l, b⟩ := b
      simp [identicalFields, identical_iff a b, identicalFields_iff as bs]

end

instance : DecidableEq Value :=
  fun a b => decidable_of_iff _ (identical_iff a b)

end Value
end Dossier

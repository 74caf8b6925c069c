import Dossier.Proofs.Edit

-- When items are removed from an array, what is known of the others goes with them to their new indices, one item
-- after the other.

namespace Dossier

open List

-- Items that are left

-- The indices of the items that are left, where the flags tell which ones are removed and the first flag is that
-- of the item `i`.
def spared : Nat → List Bool → List Nat
  | _, [] => []
  | i, true :: rest => spared (i + 1) rest
  | i, false :: rest => i :: spared (i + 1) rest

theorem le_of_mem_spared {flags : List Bool} {i o : Nat} (h : o ∈ spared i flags) : i ≤ o := by
  induction flags generalizing i with
  | nil => cases h
  | cons flag flags ih =>
    cases flag with
    | true => exact Nat.le_of_succ_le (ih h)
    | false =>
      rcases mem_cons.mp h with rfl | h
      · exact Nat.le_refl _
      · exact Nat.le_of_succ_le (ih h)

theorem not_removed_of_mem_spared {flags : List Bool} {i l : Nat} (h : i + l ∈ spared i flags) :
    flags[l]? ≠ some true := by
  induction flags generalizing i l with
  | nil => cases h
  | cons flag flags ih =>
    have hnext : ∀ l, i + l ∈ spared (i + 1) flags → (flag :: flags)[l]? ≠ some true := fun l h => by
      have := le_of_mem_spared h
      obtain ⟨l, rfl⟩ : ∃ m, l = m + 1 := Nat.exists_eq_succ_of_ne_zero (by omega)
      rw [Nat.add_comm l 1, ← Nat.add_assoc] at h
      rw [getElem?_cons_succ]
      exact ih h
    cases flag with
    | true => exact hnext l h
    | false =>
      rcases mem_cons.mp h with h | h
      · obtain rfl : l = 0 := by omega
        simp
      · exact hnext l h

theorem map_spared {items : List Value} {sel : Value → Bool} :
    (spared 0 (items.map sel)).map (items[·]?) = (items.filter fun x => ¬ sel x).map some := by
  suffices ∀ past rest : List Value, (spared past.length (rest.map sel)).map ((past ++ rest)[·]?) =
      (rest.filter fun x => ¬ sel x).map some from this [] items
  intro past rest
  induction rest generalizing past with
  | nil => rfl
  | cons x rest ih =>
    have hrest := ih (past ++ [x])
    rw [length_append, length_singleton, append_assoc, singleton_append] at hrest
    rw [map_cons]
    cases hx : sel x with
    | true => rw [spared, hrest, filter_cons_of_neg (by simp [hx])]
    | false =>
      rw [spared, map_cons, hrest, filter_cons_of_pos (by simp [hx]), map_cons]
      congr 1
      simp

-- What was known of an item that is left is known of it at its new index, and nothing is known of the places that
-- follow the last one.
structure Shifts {α : Type} (kept : List Nat) (n : Nat) (before after : Nat → Path → Option α) : Prop where
  moved : ∀ {j i}, kept[j]? = some i → ∀ x, after j x = before i x
  gone  : ∀ {m}, kept.length ≤ m → m < n → ∀ x, after m x = none

-- What is known of each item in the array is known of each item that is left.
theorem Shifts.items_iff {α : Type} {items : List Value} {sel : Value → Bool} {before after : Nat → Path → Option α}
    {E : Value → Path → α → Prop} (h : Shifts (spared 0 (items.map sel)) items.length before after)
    (hrest : ∀ m x, items.length ≤ m → after m x = before m x)
    (hitems : ∀ i x a, before i x = some a ↔ ∃ v, items[i]? = some v ∧ E v x a) (j : Nat) (x : Path) (a : α) :
    after j x = some a ↔ ∃ v, (items.filter fun v => ¬ sel v)[j]? = some v ∧ E v x a := by
  have hmap := congrArg (·[j]?) (@map_spared items sel)
  simp only [getElem?_map] at hmap
  cases hj : (spared 0 (items.map sel))[j]? with
  | some i =>
    obtain ⟨v, hv, he⟩ := Option.map_eq_some_iff.mp (hmap.symm.trans (by rw [hj, Option.map_some]))
    rw [h.moved hj, hitems, hv, he]
  | none =>
    rw [hj, Option.map_none, eq_comm, Option.map_eq_none_iff] at hmap
    have hnone : after j x = none := by
      by_cases hlt : j < items.length
      · exact h.gone (getElem?_eq_none_iff.mp hj) hlt x
      · rw [hrest j x (by omega), Option.eq_none_iff_forall_ne_some]
        intro a ha
        obtain ⟨v, hv, -⟩ := (hitems j x a).mp ha
        rw [getElem?_eq_none (by omega)] at hv
        cases hv
    rw [hnone, hmap]
    simp

namespace Document

-- Something that is known of the items of an array and goes with them, in documents that fulfil `I`.
structure ItemLaw {α : Type} (p : Path) (I : Document → Prop) (V : Document → Nat → Path → Option α) : Prop where
  dropped : ∀ {d i}, I d → I (d.dropItem (p.index i)) ∧
    ∀ m x, V (d.dropItem (p.index i)) m x = if m = i then none else V d m x
  moved   : ∀ {d i j}, I d → i ≠ j → (∀ x, V d j x = none) → I (d.moveItem p i j) ∧
    ∀ m x, V (d.moveItem p i j) m x = if m = j then V d i x else if m = i then none else V d m x

namespace ItemLaw

variable {α : Type} {d : Document}

theorem dropItems (h : ItemLaw p I V) (hd : I d) (flags : List Bool) (k : Nat) :
    let d' := (flags.zipIdx k).foldl (fun d e => if e.1 then d.dropItem (p.index e.2) else d) d
    I d' ∧ (∀ l x, flags[l]? = some true → V d' (k + l) x = none) ∧
      ∀ m x, V d m x = none ∨ (∀ l, flags[l]? = some true → m ≠ k + l) → V d' m x = V d m x := by
  induction flags generalizing d k with
  | nil => exact ⟨hd, by simp, fun _ _ _ => rfl⟩
  | cons flag flags ih =>
    rw [zipIdx_cons, foldl_cons]
    have hnext : ∀ {m}, (∀ l, (flag :: flags)[l]? = some true → m ≠ k + l) →
        ∀ l, flags[l]? = some true → m ≠ k + 1 + l := fun hm l hl => by
      have := hm (l + 1) (by simpa using hl)
      omega
    cases flag with
    | false =>
      obtain ⟨h₁, h₂, h₃⟩ := ih hd (k + 1)
      refine ⟨h₁, fun l x hl => ?_, fun m x hm => h₃ m x (hm.imp_right hnext)⟩
      cases l with
      | zero => simp at hl
      | succ l =>
        rw [← Nat.add_assoc, Nat.add_right_comm]
        exact h₂ l x (by simpa using hl)
    | true =>
      obtain ⟨hd', hV⟩ := h.dropped (i := k) hd
      obtain ⟨h₁, h₂, h₃⟩ := ih hd' (k + 1)
      refine ⟨h₁, fun l x hl => ?_, fun m x hm => ?_⟩
      · cases l with
        | zero =>
          have hnone : V (d.dropItem (p.index k)) k x = none := by rw [hV, if_pos rfl]
          exact (h₃ k x (.inl hnone)).trans hnone
        | succ l =>
          rw [← Nat.add_assoc, Nat.add_right_comm]
          exact h₂ l x (by simpa using hl)
      · have hkeep : V (d.dropItem (p.index k)) m x = V d m x := by
          rw [hV]
          split
          · case isTrue he =>
            rcases hm with hm | hm
            · exact hm.symm
            · exact absurd he (hm 0 rfl)
          · rfl
        rw [← hkeep]
        exact h₃ m x (hm.imp (hkeep.trans ·) hnext)

-- When the items before the index `i` have been moved up by `shift`, nothing is known of the places between,
-- nor of the items that are yet to be left out.
theorem closeGaps (h : ItemLaw p I V) (flags : List Bool) {i shift : Nat} (hd : I d) (hle : shift ≤ i)
    (hgap : ∀ m x, i - shift ≤ m → m < i → V d m x = none)
    (hrest : ∀ l x, flags[l]? = some true → V d (i + l) x = none) :
    let d' := Document.closeGaps p flags i shift d
    I d' ∧ (∀ m x, m < i - shift → V d' m x = V d m x) ∧
      (∀ j o x, (spared i flags)[j]? = some o → V d' (i - shift + j) x = V d o x) ∧
      (∀ m x, i - shift + (spared i flags).length ≤ m → m < i + flags.length → V d' m x = none) ∧
      ∀ m x, i + flags.length ≤ m → V d' m x = V d m x := by
  induction flags generalizing d i shift with
  | nil => exact ⟨hd, fun _ _ _ => rfl, by simp [spared], fun m x hl hu => hgap m x hl hu, fun _ _ _ => rfl⟩
  | cons flag flags ih =>
    have hnext : ∀ l x, flags[l]? = some true → V d (i + 1 + l) x = none := fun l x hl => by
      rw [Nat.add_right_comm]
      exact hrest (l + 1) x (by simpa using hl)
    rw [length_cons, Nat.add_comm flags.length, ← Nat.add_assoc]
    cases flag with
    | true =>
      obtain ⟨h₁, h₂, h₃, h₄⟩ := ih hd (Nat.succ_le_succ hle) (fun m x hl hu => by
        by_cases he : m = i
        · exact he ▸ hrest 0 x rfl
        · exact hgap m x (by omega) (by omega)) hnext
      rw [Nat.succ_sub_succ] at h₂ h₃ h₄
      exact ⟨h₁, h₂, h₃, h₄⟩
    | false =>
      -- The item is at its place or is moved there; in both cases it is the next one that is left.
      obtain ⟨d₁, hd₁, he, hV₁, hV₂⟩ : ∃ d₁, I d₁ ∧
          Document.closeGaps p (false :: flags) i shift d = Document.closeGaps p flags (i + 1) shift d₁ ∧
          (∀ x, V d₁ (i - shift) x = V d i x) ∧
          ∀ m x, m ≠ i - shift → V d₁ m x = if m = i then none else V d m x := by
        rw [Document.closeGaps]
        split
        · case isTrue hz =>
          refine ⟨d, hd, rfl, fun x => by rw [hz, Nat.sub_zero], fun m x hm => ?_⟩
          rw [if_neg (by omega)]
        · case isFalse hz =>
          obtain ⟨hd₁, hV⟩ := h.moved (i := i) (j := i - shift) hd (by omega) fun x => hgap _ x (Nat.le_refl _) (by omega)
          exact ⟨_, hd₁, rfl, fun x => by rw [hV, if_pos rfl], fun m x hm => by rw [hV, if_neg hm]⟩
      have hout : ∀ m x, i < m → V d₁ m x = V d m x := fun m x hm => by
        rw [hV₂ m x (by omega), if_neg (by omega)]
      obtain ⟨h₁, h₂, h₃, h₄, h₅⟩ := ih (i := i + 1) hd₁ (Nat.le_succ_of_le hle) (fun m x hl hu => by
        rw [hV₂ m x (by omega)]
        split
        · rfl
        · exact hgap m x (by omega) (by omega)) fun l x hl => (hout _ x (by omega)).trans (hnext l x hl)
      have hbase : i + 1 - shift = i - shift + 1 := by omega
      rw [hbase] at h₂ h₃ h₄
      rw [he]
      refine ⟨h₁, fun m x hm => ?_, fun j o x hj => ?_, fun m x hl hu => h₄ m x ?_ hu, fun m x hm => ?_⟩
      · rw [h₂ m x (by omega), hV₂ m x (by omega), if_neg (by omega)]
      · cases j with
        | zero =>
          cases hj
          exact (h₂ (i - shift) x (by omega)).trans (hV₁ x)
        | succ j =>
          rw [spared, getElem?_cons_succ] at hj
          have := le_of_mem_spared (mem_of_getElem? hj)
          rw [Nat.add_comm j, ← Nat.add_assoc, h₃ j o x hj, hout o x (by omega)]
      · rw [spared, length_cons] at hl
        omega
      · rw [h₅ m x hm, hout m x (by omega)]

theorem reindex (h : ItemLaw p I V) (hd : I d) (removed : List Bool) : I (d.reindex p removed) ∧
    Shifts (spared 0 removed) removed.length (V d) (V (d.reindex p removed)) ∧
    ∀ m x, removed.length ≤ m → V (d.reindex p removed) m x = V d m x := by
  obtain ⟨hd', hgone, hkept⟩ := h.dropItems hd removed 0
  simp only [Nat.zero_add] at hgone
  obtain ⟨h₁, -, h₃, h₄, h₅⟩ := h.closeGaps removed hd' (Nat.le_refl 0)
    (fun m _ _ hu => absurd hu (Nat.not_lt_zero m)) (by simpa using hgone)
  simp only [Nat.sub_zero, Nat.zero_add] at h₃ h₄ h₅
  refine ⟨h₁, ⟨fun {j i} hj x => ?_, fun {m} hl hu x => h₄ m x hl hu⟩, fun m x hm => ?_⟩
  · refine (h₃ j i x hj).trans (hkept i x (.inr fun l hl he => ?_))
    have hmem := mem_of_getElem? hj
    rw [he] at hmem
    exact not_removed_of_mem_spared hmem hl
  · refine (h₅ m x hm).trans (hkept m x (.inr fun l hl he => ?_))
    have := (List.getElem?_eq_some_iff.mp hl).1
    omega

end ItemLaw
end Document

end Dossier

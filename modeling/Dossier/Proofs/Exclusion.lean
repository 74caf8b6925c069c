import Dossier.Projection
import Dossier.Proofs.Independence
import Mathlib.Data.List.Induction

-- Excluded paths are removed one after another, so a removal can move the items that a later path is about.

namespace Dossier

open Path Entries List

namespace Path

variable {ps : List Path}

def under (m : Seg → Bool) (ps : List Path) : List Path :=
  ps.filterMap fun
    | seg :: r => if m seg then some r else none
    | [] => none

theorem mem_under : r ∈ under m ps ↔ ∃ seg, m seg ∧ seg :: r ∈ ps := by
  rw [under, mem_filterMap]
  constructor
  · rintro ⟨p, hp, hr⟩
    cases p with
    | nil => cases hr
    | cons seg p =>
      obtain ⟨hm, ⟨⟩⟩ := Option.ite_none_right_eq_some.mp hr
      exact ⟨seg, hm, hp⟩
  · rintro ⟨seg, hm, hp⟩
    exact ⟨seg :: r, hp, if_pos hm⟩

theorem under_concat (hm : m seg) : under m (ps ++ [seg :: r]) = under m ps ++ [r] := by
  simp [under, hm]

theorem under_concat_of_not (hm : m seg = false) : under m (ps ++ [seg :: r]) = under m ps := by
  simp [under, hm]

end Path

namespace Value

variable {v x : Value} {ps : List Path} {p q : Path} {items : List Value}

mutual

-- What is left of a value without its parts at some paths, which are all deleted at once.
def without? (ps : List Path) : Value → Option Value
  | .arr items => if [] ∈ ps then none else some (.arr (itemsWithout ps 0 items))
  | .obj fields => if [] ∈ ps then none else some (.obj (fieldsWithout ps fields))
  | v => if [] ∈ ps then none else some v

-- The first of the items has the given index.
def itemsWithout (ps : List Path) : Nat → List Value → List Value
  | _, [] => []
  | i, v :: vs => (v.without? (Path.under (· = .index i) ps)).toList ++ itemsWithout ps (i + 1) vs

def fieldsWithout (ps : List Path) : List (String × Value) → List (String × Value)
  | [] => []
  | (k, v) :: fields =>
    ((v.without? (Path.under (·.toKey = k) ps)).map (k, ·)).toList ++ fieldsWithout ps fields

end

mutual

theorem without?_nil : (v : Value) → v.without? [] = some v
  | .null | .bool _ | .num _ | .str _ => by simp [without?]
  | .arr items => by simp [without?, itemsWithout_nil items]
  | .obj fields => by simp [without?, fieldsWithout_nil fields]

theorem itemsWithout_nil : (items : List Value) → {i : Nat} → itemsWithout [] i items = items
  | [], _ => by simp [itemsWithout]
  | v :: vs, _ => by simp [itemsWithout, Path.under, without?_nil v, itemsWithout_nil vs]

theorem fieldsWithout_nil : (fields : List (String × Value)) → fieldsWithout [] fields = fields
  | [] => by simp [fieldsWithout]
  | (k, v) :: fields => by simp [fieldsWithout, Path.under, without?_nil v, fieldsWithout_nil fields]

end

theorem without?_of_mem (h : [] ∈ ps) : v.without? ps = none := by
  cases v <;> simp [without?, h]

theorem isSome_without? (h : [] ∉ ps) : (v.without? ps).isSome := by
  cases v <;> simp [without?, h]

-- One more path

-- What is left when a path is removed. Nothing is left without the root.
def removed? (p : Path) (v : Value) : Option Value :=
  if p = [] then none else some (v.remove p).2

theorem removed?_cons : v.removed? (seg :: p) = some (v.remove (seg :: p)).2 := rfl

-- An item is exchanged or taken out.
def alterItem (i : Nat) (items : List Value) : Option Value → List Value
  | some x => items.set i x
  | none => items.eraseIdx i

def alterField (k : String) (fs : List (String × Value)) : Option Value → List (String × Value)
  | some x => Entries.replace k x fs
  | none => Entries.erase k fs

theorem remove_index_arr :
    ((arr items).remove (.index i :: r)).2 = arr (alterItem i items (items[i]?.bind (removed? r))) := by
  cases hi : items[i]? with
  | none =>
    rw [remove_of_get?_none (by rw [get?_index_arr, hi]; rfl), Option.bind_none, alterItem,
      eraseIdx_of_length_le (getElem?_eq_none_iff.mp hi)]
  | some x =>
    cases r with
    | nil => rfl
    | cons =>
      have hc : (arr items).child? (.index i) = some x := hi
      rw [remove_cons (cons_ne_nil _ _) hc, Option.bind_some, removed?_cons]
      rfl

theorem remove_obj : ((obj fs).remove (seg :: r)).2 =
    obj (alterField seg.toKey fs ((Entries.get? seg.toKey fs).bind (removed? r))) := by
  cases hk : Entries.get? seg.toKey fs with
  | none =>
    rw [remove_of_get?_none (by rw [get?_cons_of_openFields rfl, hk]; rfl), Option.bind_none, alterField,
      erase_eq_self hk]
  | some x =>
    cases r with
    | nil => rfl
    | cons => rw [remove_cons (v := obj fs) (cons_ne_nil _ _) hk, Option.bind_some, removed?_cons]; rfl

theorem itemsWithout_congr (h : ∀ j ≥ k, Path.under (· = .index j) ps = Path.under (· = .index j) ps') :
    itemsWithout ps k items = itemsWithout ps' k items := by
  induction items generalizing k with
  | nil => rfl
  | cons x items ih => rw [itemsWithout, itemsWithout, h k (Nat.le_refl k), ih fun j hj => h j (by omega)]

theorem alterItem_zero (o : Option Value) : alterItem 0 (x :: items) o = o.toList ++ items := by
  cases o <;> rfl

theorem alterItem_succ (o : Option Value) : alterItem (n + 1) (x :: items) o = x :: alterItem n items o := by
  cases o <;> rfl

-- No item up to the given one is left out, so it is still in its place.
theorem itemsWithout_concat (hi : i = k + n) (h : ∀ j, j ≤ i → j < k + items.length → [.index j] ∉ ps)
    (hx : ∀ x, items[n]? = some x → x.without? (Path.under (· = .index i) ps ++ [r]) =
      (x.without? (Path.under (· = .index i) ps)).bind (removed? r)) : itemsWithout (ps ++ [.index i :: r]) k items =
      alterItem n (itemsWithout ps k items) ((itemsWithout ps k items)[n]?.bind (removed? r)) := by
  induction items generalizing k n with
  | nil => cases n <;> rfl
  | cons x items ih =>
    obtain ⟨y, hy⟩ : ∃ y, x.without? (Path.under (· = .index k) ps) = some y := by
      refine Option.isSome_iff_exists.mp (isSome_without? fun hmem => ?_)
      obtain ⟨seg, hseg, hmem⟩ := mem_under.mp hmem
      rw [of_decide_eq_true hseg] at hmem
      exact h k (hi ▸ Nat.le_add_right k n) (by simp) hmem
    rw [itemsWithout, itemsWithout, hy, Option.toList_some, singleton_append]
    cases n with
    | zero =>
      obtain rfl : i = k := hi
      have hrest : itemsWithout (ps ++ [.index i :: r]) (i + 1) items = itemsWithout ps (i + 1) items :=
        itemsWithout_congr fun j hj => under_concat_of_not (by simp; omega)
      rw [hrest, under_concat (by simp), hx x rfl, hy, alterItem_zero]
      rfl
    | succ n =>
      have hrest := ih (k := k + 1) (n := n) (by omega) (fun j hj hlt => h j hj (by simp; omega)) hx
      rw [hrest, under_concat_of_not (by simp; omega), hy, alterItem_succ]
      rfl

theorem sublist_fieldsWithout : ((fieldsWithout ps fs).map (·.1)).Sublist (fs.map (·.1)) := by
  induction fs with
  | nil => exact .slnil
  | cons e fs ih =>
    rw [fieldsWithout]
    cases e.2.without? (Path.under (·.toKey = e.1) ps) with
    | none => exact ih.cons _
    | some y => exact ih.cons_cons _

theorem sorted_fieldsWithout (hs : Entries.Sorted fs) : Entries.Sorted (fieldsWithout ps fs) := by
  have hkeys : (fs.map (·.1)).Pairwise fun a b => compare a b = .lt := pairwise_map.mpr hs
  exact pairwise_map.mp (hkeys.sublist sublist_fieldsWithout)

theorem get?_fieldsWithout (hs : Entries.Sorted fs) (k : String) : Entries.get? k (fieldsWithout ps fs) =
    (Entries.get? k fs).bind (without? (Path.under (·.toKey = k) ps)) := by
  induction fs with
  | nil => rfl
  | cons e fs ih =>
    obtain ⟨k', x⟩ := e
    obtain ⟨hlt, hs'⟩ := pairwise_cons.mp hs
    rw [fieldsWithout]
    by_cases hk : k' = k
    · subst hk
      rw [get?_cons_self, Option.bind_some]
      cases x.without? (Path.under (·.toKey = k') ps) with
      | some y => exact get?_cons_self
      | none =>
        have habsent : Entries.get? k' fs = none := by
          refine get?_eq_none_iff.mpr fun e he hk => ?_
          simpa [hk] using hlt e he
        rw [Option.map_none, Option.toList_none, nil_append, ih hs', habsent]
        rfl
    · rw [get?_cons_ne hk, ← ih hs']
      cases x.without? (Path.under (·.toKey = k') ps) with
      | some y => exact get?_cons_ne hk
      | none => rfl

theorem sorted_alterField (hs : Entries.Sorted fs) (k : String) (o : Option Value) :
    Entries.Sorted (alterField k fs o) := by
  cases o with
  | none => exact erase_sorted hs
  | some x => exact replace_sorted hs

theorem get?_alterField_self (hs : Entries.Sorted fs) {k : String} :
    Entries.get? k (alterField k fs ((Entries.get? k fs).bind f)) = (Entries.get? k fs).bind f := by
  cases ho : (Entries.get? k fs).bind f with
  | none => exact get?_erase_self hs
  | some y =>
    obtain ⟨x, hx, -⟩ := Option.bind_eq_some_iff.mp ho
    exact get?_replace_self (by rw [Entries.contains, hx]; rfl)

theorem get?_alterField_ne {k : String} (h : k ≠ k') (o : Option Value) :
    Entries.get? k' (alterField k fs o) = Entries.get? k' fs := by
  cases o with
  | none => exact get?_erase_ne h
  | some x => exact get?_replace_ne h

theorem fieldsWithout_concat (hs : Entries.Sorted fs)
    (hx : ∀ x, Entries.get? seg.toKey fs = some x → x.without? (Path.under (·.toKey = seg.toKey) ps ++ [r]) =
      (x.without? (Path.under (·.toKey = seg.toKey) ps)).bind (removed? r)) :
    fieldsWithout (ps ++ [seg :: r]) fs = alterField seg.toKey (fieldsWithout ps fs)
      ((Entries.get? seg.toKey (fieldsWithout ps fs)).bind (removed? r)) := by
  have hsorted : Entries.Sorted (fieldsWithout ps fs) := sorted_fieldsWithout hs
  refine sorted_ext (sorted_fieldsWithout hs) (sorted_alterField hsorted _ _) fun k => ?_
  rw [get?_fieldsWithout hs]
  by_cases hk : seg.toKey = k
  · subst hk
    rw [get?_alterField_self hsorted, get?_fieldsWithout hs, under_concat (by simp), Option.bind_assoc]
    cases hfs : Entries.get? seg.toKey fs with
    | none => rfl
    | some x => exact hx x hfs
  · rw [get?_alterField_ne hk, get?_fieldsWithout hs, under_concat_of_not (by simpa using hk)]

-- Two paths lead through the same array, and removing the item at the end of the first one moves or takes away
-- what the second one leads to.
inductive Shifts : Value → Path → Path → Prop
  | here {items : List Value} {i j : Nat} {q : Path} : i < items.length → i ≤ j →
      Shifts (.arr items) [.index i] (.index j :: q)
  | item {items : List Value} {i : Nat} {x : Value} {p q : Path} : items[i]? = some x → Shifts x p q →
      Shifts (.arr items) (.index i :: p) (.index i :: q)
  | field {fs : List (String × Value)} {a b : Seg} {x : Value} {p q : Path} : a.toKey = b.toKey →
      Entries.get? b.toKey fs = some x → Shifts x p q → Shifts (.obj fs) (a :: p) (b :: q)

theorem without?_concat (hv : v.Canonical) (h : ∀ p ∈ ps, ¬ v.Shifts p q) :
    v.without? (ps ++ [q]) = (v.without? ps).bind (removed? q) := by
  induction q generalizing v ps with
  | nil =>
    rw [without?_of_mem (by simp)]
    cases v.without? ps <;> rfl
  | cons seg r ih =>
    by_cases hroot : [] ∈ ps
    · rw [without?_of_mem hroot, without?_of_mem (mem_append_left _ hroot)]
      rfl
    · have hroot' : [] ∉ ps ++ [seg :: r] := by simpa using hroot
      cases v with
      | arr items =>
        rw [without?, without?, if_neg hroot, if_neg hroot', Option.bind_some, removed?_cons]
        cases seg with
        | key =>
          rw [itemsWithout_congr fun j _ => under_concat_of_not (by simp), remove_of_get?_none (get?_key_arr _ _)]
        | index i =>
          rw [remove_index_arr, itemsWithout_concat (Nat.zero_add i).symm]
          · intro j hj hlt hmem
            exact h _ hmem (.here (by simpa using hlt) hj)
          · intro x hx
            refine ih (hereditary_canonical.arr.mp hv x (mem_of_getElem? hx)) fun p hp hshift => ?_
            obtain ⟨a, ha, hp⟩ := mem_under.mp hp
            rw [of_decide_eq_true ha] at hp
            exact h _ hp (.item hx hshift)
      | obj fs =>
        obtain ⟨hs, hfs⟩ := hereditary_canonical.obj.mp hv
        rw [without?, without?, if_neg hroot, if_neg hroot', Option.bind_some, removed?_cons, remove_obj,
          fieldsWithout_concat hs]
        intro x hx
        refine ih (hfs _ (mem_of_get? hx)) fun p hp hshift => ?_
        obtain ⟨a, ha, hp⟩ := mem_under.mp hp
        exact h _ hp (.field (of_decide_eq_true ha) hx hshift)
      | null | bool | num | str =>
        rw [without?, without?, if_neg hroot, if_neg hroot', Option.bind_some, removed?_cons,
          remove_of_get?_none rfl]
        all_goals nofun

end Value

open Value

-- An exclusive projection of a record is what is left of the record when all that is at the excluded paths is
-- deleted at once, unless one removal shifts another one.
theorem Projection.excluding_apply (record : CanonicalValue) {paths : OrdSet Path} (hne : [] ∉ paths.keys)
    (h : paths.keys.Pairwise fun p q => ¬ record.1.Shifts p q) :
    record.1.without? paths.keys = some ((Projection.excluding paths).apply record) := by
  rw [apply]
  generalize paths.keys = ps at hne h
  induction ps using List.reverseRecOn with
  | nil => exact without?_nil record.1
  | append_singleton ps q ih =>
    obtain ⟨hps, -, hq⟩ := List.pairwise_append.mp h
    rw [without?_concat record.2 fun p hp => hq p hp q (List.mem_singleton_self q),
      ih (fun hmem => hne (List.mem_append_left _ hmem)) hps, List.foldl_append]
    have hq : q ≠ [] := fun h => hne (by simp [h])
    exact if_neg hq

-- Of two paths into an array the earlier one goes on inside of its item, and numbers are keys of an object.
theorem Projection.excluding_apply_mixed :
    let record := obj [("list", .arr [.obj [("x", .int 1), ("y", .int 2)], .int 3, .int 4]),
      ("years", .obj [("7", .int 1), ("8", .int 2), ("9", .int 3)])]
    let paths : OrdSet Path := .ofKeys [[.key "list", .index 0, .key "x"], [.key "list", .index 1],
      [.key "years", .index 7], [.key "years", .index 8]]
    record.without? paths.keys = some ((Projection.excluding paths).apply record) ∧
    (Projection.excluding paths).apply record =
      .obj [("list", .arr [.obj [("y", .int 2)], .int 4]), ("years", .obj [("9", .int 3)])] := by
  intro record paths
  have hkeys : paths.keys = [[.key "list", .index 0, .key "x"], [.key "list", .index 1],
    [.key "years", .index 7], [.key "years", .index 8]] := by decide +kernel
  have hrecord : record.Canonical := by
    simp [record, Canonical, CanonicalItems, CanonicalFields, Entries.Sorted, Value.int]
    decide
  refine ⟨excluding_apply ⟨record, hrecord⟩ ?_ ?_, by decide +kernel⟩
  · decide +kernel
  · rw [hkeys]
    have hapart {p q : Path} : ¬ record.Shifts (.key "list" :: p) (.key "years" :: q) := by
      intro h
      cases (show Shifts (obj _) _ _ from h) with
      | field hkey => exact absurd hkey (by decide)
    simp only [List.pairwise_cons, List.mem_cons, List.not_mem_nil, or_false, forall_eq_or_imp, forall_eq]
    refine ⟨⟨fun h => ?_, hapart, hapart⟩, ⟨hapart, hapart⟩, fun h => ?_, by simp⟩
    · cases (show Shifts (obj _) _ _ from h) with
      | field _ hget hshift =>
        cases hget
        cases hshift
    · cases (show Shifts (obj _) _ _ from h) with
      | field _ hget hshift =>
        cases hget
        cases hshift with
        | field hkey => exact absurd hkey (by decide)

theorem Projection.excluding_apply_shifted :
    let record := obj [("items", .arr [.str "a", .str "b", .str "c"])]
    let paths : OrdSet Path := .ofKeys [[.key "items", .index 0], [.key "items", .index 1]]
    record.without? paths.keys = some (.obj [("items", .arr [.str "c"])]) ∧
    (Projection.excluding paths).apply record = .obj [("items", .arr [.str "b"])] := by
  decide +kernel

end Dossier

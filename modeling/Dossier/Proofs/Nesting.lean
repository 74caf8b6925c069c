import Dossier.Proofs.Attach
import Mathlib.Data.List.Perm.Subperm

-- If every scope is linked to the innermost one around it, the scopes around a path are those with a root above
-- it.

namespace Dossier

open Path List

namespace Path

variable {p : Path}

theorem ancestors_append : ancestors (p ++ [seg]) = if p = [] then [] else p.ancestors ++ [p] := by
  rw [ancestors, length_append, length_singleton, Nat.add_sub_cancel]
  split
  · case isTrue h => simp [h]
  · case isFalse h =>
    obtain ⟨n, hn⟩ : ∃ n, p.length = n + 1 := Nat.exists_eq_succ_of_ne_zero (by simpa using h)
    have htake : p.take (n + 1) = p := take_of_length_le (by omega)
    rw [ancestors, hn, range_succ, map_append, Nat.add_sub_cancel, map_singleton,
      take_append_of_le_length (by omega), htake]
    congr 1
    refine map_congr_left fun i hi => ?_
    rw [take_append_of_le_length]
    have := mem_range.mp hi
    omega

theorem nodup_ancestors : p.ancestors.Nodup := by
  induction p using List.reverseRecOn with
  | nil => exact .nil
  | append_singleton p seg ih =>
    rw [ancestors_append]
    split
    · exact .nil
    · refine nodup_append.mpr ⟨ih, nodup_singleton p, ?_⟩
      rintro a ha b hb rfl
      rw [mem_singleton] at hb
      subst hb
      exact isAbove_irrefl (mem_ancestors_iff.mp ha).2

theorem Apart.below {a : Path} (h : a.Apart q) (hc : a.covers p) : p.Apart q :=
  ⟨fun hp => h.1 (covers_trans hc hp), fun hq => (covers_total hc hq).elim h.1 h.2⟩

theorem append_isAbove_append {r : Path} : isAbove (r ++ p) (r ++ q) ↔ p.isAbove q := by
  rw [isAbove_iff_covers, append_covers_append, isAbove_iff_covers, ne_eq, append_cancel_left_eq]

theorem eq_or_isAbove_or {r : Path} (hp : p.covers r) (hq : q.covers r) : p = q ∨ p.isAbove q ∨ q.isAbove p := by
  rcases covers_total hp hq with h | h
  · exact (eq_or_isAbove_of_covers h).imp_right .inl
  · exact (eq_or_isAbove_of_covers h).elim (fun h => .inl h.symm) fun h => .inr (.inr h)

theorem append_apart {r : Path} (h : p.Apart q) : Apart (r ++ p) (r ++ q) := by
  rwa [Apart, append_covers_append, append_covers_append]

theorem index_apart {i j : Nat} (h : i ≠ j) : (p.index i).Apart (p.index j) := by
  refine ⟨fun hc => ?_, fun hc => ?_⟩
  all_goals
    rw [index, index, append_covers_append, cons_covers_cons] at hc
    simp_all

theorem index_covers_index_append {x : Path} : (p.index i).covers (p.index m ++ x) ↔ m = i := by
  constructor
  · intro hc
    by_contra hne
    have ha := index_apart (p := p) hne
    exact (covers_total hc (covers_append (p.index m) x)).elim ha.2 ha.1
  · rintro rfl
    exact covers_append _ x

end Path

namespace Scopes

variable {s s' : Scopes} {scope : Scope} {p q r : Path}

-- The scopes around a path

-- The scopes with roots above a path, the innermost first.
def enclosing (s : Scopes) (p : Path) : List ScopeKey :=
  p.ancestors.reverse.filterMap s.keyAt?

theorem mem_enclosing : k ∈ s.enclosing p ↔ ∃ r : Path, (r ≠ [] ∧ r.isAbove p) ∧ s.keyAt? r = some k := by
  simp only [enclosing, mem_filterMap, mem_reverse, mem_ancestors_iff]

theorem enclosing_append : s.enclosing (p ++ [seg]) = if p = [] then [] else (s.keyAt? p).toList ++ s.enclosing p := by
  rw [enclosing, ancestors_append]
  split
  · rfl
  · rw [reverse_append, reverse_singleton, singleton_append, filterMap_cons, enclosing]
    cases s.keyAt? p <;> rfl

theorem innermost?_append : s.innermost? (p ++ [seg]) = if p = [] then none else (s.keyAt? p).or (s.innermost? p) := by
  rw [innermost?, ancestors_append]
  split
  · rfl
  · rw [reverse_append, reverse_singleton, singleton_append, findSome?_cons]
    cases s.keyAt? p <;> rfl

theorem innermost?_eq_none (h : ∀ r k, s.keyAt? r = some k → ¬ r.isAbove p) : s.innermost? p = none := by
  rw [innermost?, findSome?_eq_none_iff]
  intro a ha
  cases hk : s.keyAt? a with
  | none => rfl
  | some k => exact absurd (mem_ancestors_iff.mp (mem_reverse.mp ha)).2 (h a k hk)

theorem innermost?_congr (h : ∀ a, a.isAbove p → s'.keyAt? a = s.keyAt? a) : s'.innermost? p = s.innermost? p := by
  induction p using List.reverseRecOn with
  | nil => rfl
  | append_singleton p seg ih =>
    have hp : Path.isAbove p (p ++ [seg]) := isAbove_iff.mpr ⟨[seg], by simp, rfl⟩
    rw [innermost?_append, innermost?_append, h p hp, ih fun a ha => h a (isAbove_trans ha hp)]

theorem length_le_slots {ks : List ScopeKey} (hn : ks.Nodup) (hlive : ∀ k ∈ ks, ∃ scope, s.get? k = some scope) :
    ks.length ≤ s.slots.length := by
  have hslot : ∀ k ∈ ks, ∃ scope, s.slots[k.slot]? = some ⟨k.generation, some scope⟩ := by
    intro k hk
    obtain ⟨scope, hs⟩ := hlive k hk
    exact ⟨scope, get?_eq_some_iff.mp hs⟩
  have hnodup : (ks.map (·.slot)).Nodup := by
    refine hn.map_on fun a ha b hb he => ?_
    obtain ⟨_, hsa⟩ := hslot a ha
    obtain ⟨_, hsb⟩ := hslot b hb
    cases a
    cases b
    simp_all
  have hsub : ks.map (·.slot) ⊆ List.range s.slots.length := by
    intro i hi
    obtain ⟨k, hk, rfl⟩ := mem_map.mp hi
    obtain ⟨_, hs⟩ := hslot k hk
    exact List.mem_range.mpr (List.getElem?_eq_some_iff.mp hs).1
  simpa using (hnodup.subperm hsub).length_le

-- Every scope is linked to the innermost one around it.
structure Nested (s : Scopes) : Prop where
  sound  : s.Sound false
  proper : s.keyAt? [] = none
  linked : ∀ {r k scope}, s.keyAt? r = some k → s.get? k = some scope → scope.parent = s.innermost? r

namespace Nested

variable (h : s.Nested)

include h

-- The links lead from each scope to the next one in the list. No more are followed than there are.
theorem chain_eq (hn : (s.enclosing p).length ≤ n) : s.chain n (s.innermost? p) = s.enclosing p := by
  induction p using List.reverseRecOn generalizing n with
  | nil => cases n <;> rfl
  | append_singleton p seg ih =>
    rw [innermost?_append, enclosing_append] at *
    by_cases hp : p = []
    · rw [if_pos hp, if_pos hp]
      cases n <;> rfl
    · rw [if_neg hp] at hn ⊢
      rw [if_neg hp]
      cases hk : s.keyAt? p with
      | none =>
        rw [hk] at hn
        exact ih hn
      | some k =>
        rw [hk, Option.toList_some, singleton_append, length_cons] at hn
        obtain ⟨scope, hs, -⟩ := h.sound.rooted _ _ hk
        obtain ⟨n, rfl⟩ : ∃ m, n = m + 1 := Nat.exists_eq_succ_of_ne_zero (by omega)
        rw [Option.some_or, chain, hs, Option.bind_some, h.linked hk hs, ih (by omega)]
        rfl

theorem nodup_enclosing : (s.enclosing p).Nodup :=
  (nodup_reverse.mpr nodup_ancestors).filterMap fun _ _ _ ha hb => h.sound.rooted.eq_of_keyAt? ha hb

theorem length_enclosing_le : (s.enclosing p).length ≤ s.slots.length := by
  refine length_le_slots h.nodup_enclosing fun k hk => ?_
  obtain ⟨r, -, hr⟩ := mem_enclosing.mp hk
  obtain ⟨scope, hs, -⟩ := h.sound.rooted _ _ hr
  exact ⟨scope, hs⟩

theorem owners_eq : s.owners p = s.enclosing p :=
  h.chain_eq (Nat.le_succ_of_le h.length_enclosing_le)

theorem mem_owners : k ∈ s.owners p ↔ ∃ r : Path, r.isAbove p ∧ s.keyAt? r = some k := by
  rw [h.owners_eq, mem_enclosing]
  constructor
  · rintro ⟨r, ⟨-, ha⟩, hr⟩
    exact ⟨r, ha, hr⟩
  · rintro ⟨r, ha, hr⟩
    refine ⟨r, ⟨?_, ha⟩, hr⟩
    rintro rfl
    simp [h.proper] at hr

theorem keyAt?_root (hk : s.keyAt? r = some k) (hs : s.get? k = some scope) : scope.root = r :=
  h.sound.rooted.root_eq hk hs

theorem mem_owners_iff (hk : s.keyAt? r = some k) : k ∈ s.owners p ↔ r.isAbove p := by
  rw [h.mem_owners]
  constructor
  · rintro ⟨r', ha, hr'⟩
    rwa [h.sound.rooted.eq_of_keyAt? hk hr']
  · exact fun ha => ⟨r, ha, hk⟩

end Nested

-- Adding and removing scopes

def Vacant (s : Scopes) (r : Path) : Prop :=
  ∀ q, r.covers q → s.keyAt? q = none

-- A place for a scope: nothing is there, and the innermost scope around it is known.
structure Site (s : Scopes) (r : Path) (o : Option ScopeKey) : Prop where
  proper : r ≠ []
  vacant : s.Vacant r
  within : s.innermost? r = o

theorem innermost?_below (hr : r ≠ []) (hq : q ≠ []) (h : ∀ x : Path, x ≠ [] → x.isAbove q → s.keyAt? (r ++ x) = none) :
    s.innermost? (r ++ q) = (s.keyAt? r).or (s.innermost? r) := by
  induction q using List.reverseRecOn with
  | nil => exact absurd rfl hq
  | append_singleton q seg ih =>
    rw [← append_assoc, innermost?_append, if_neg (by simp [hr])]
    by_cases hnil : q = []
    · rw [hnil, append_nil]
    · have habove : Path.isAbove q (q ++ [seg]) := isAbove_iff.mpr ⟨[seg], by simp, rfl⟩
      rw [h q hnil habove, Option.none_or]
      exact ih hnil fun x hx ha => h x hx (isAbove_trans ha habove)

theorem Site.below (h : s.Site r o) : s.Site (r ++ q) o := by
  refine ⟨by simp [h.proper], fun q' hq' => h.vacant q' (covers_trans (covers_append r q) hq'), ?_⟩
  by_cases hq : q = []
  · rw [hq, append_nil, h.within]
  · rw [innermost?_below h.proper hq fun x _ _ => h.vacant _ (covers_append r x),
      h.vacant r (covers_refl r), Option.none_or, h.within]

theorem Site.insert_apart (h : s.Site r o) (ha : q.Apart r) (hq : q.covers scope.root) :
    (s.insert scope).2.Site r o := by
  have hne : ∀ a, a.covers r ∨ r.covers a → scope.root ≠ a := by
    rintro a hc rfl
    rcases hc with hc | hc
    · exact ha.1 (covers_trans hq hc)
    · exact (covers_total hq hc).elim ha.1 ha.2
  have hkey : ∀ a, a.covers r ∨ r.covers a → (s.insert scope).2.keyAt? a = s.keyAt? a := fun a hc => by
    rw [keyAt?_insert, if_neg (hne a hc)]
  refine ⟨h.proper, fun q' hq' => ?_, ?_⟩
  · rw [hkey q' (.inr hq'), h.vacant q' hq']
  · rw [innermost?_congr fun a habove => hkey a (.inl (covers_of_isAbove habove)), h.within]

theorem Site.insert_below (h : s.Site scope.root o) (hq : q ≠ []) :
    (s.insert scope).2.Site (scope.root ++ q) (some (s.insert scope).1) := by
  have hkey : ∀ x : Path, x ≠ [] → (s.insert scope).2.keyAt? (scope.root ++ x) = none := fun x hx => by
    rw [keyAt?_insert, if_neg (by simpa using hx), h.vacant _ (covers_append _ x)]
  refine ⟨by simp [h.proper], fun q' hq' => ?_, ?_⟩
  · obtain ⟨x, rfl⟩ := covers_iff.mp hq'
    rw [append_assoc, hkey _ (by simp [hq])]
  · rw [innermost?_below h.proper hq fun x hx _ => hkey x hx, keyAt?_insert, if_pos rfl, Option.some_or]

namespace Nested

theorem of_get? (h : s.Nested) (hs : s'.Sound false) (hk : ∀ r, s'.keyAt? r = s.keyAt? r)
    (hg : ∀ k scope', s'.get? k = some scope' → ∃ scope, s.get? k = some scope ∧
      scope'.parent = scope.parent) : s'.Nested := by
  refine ⟨hs, (hk []).trans h.proper, fun {r k scope'} hr hs' => ?_⟩
  obtain ⟨scope, hs, hparent⟩ := hg k scope' hs'
  rw [hparent, h.linked (hk r ▸ hr) hs, innermost?_congr fun a _ => hk a]

theorem insert (h : s.Nested) (hsite : s.Site scope.root scope.parent) : (s.insert scope).2.Nested := by
  have hnew : s.get? (s.insert scope).1 = none := get?_insert_key h.sound.tidy
  refine ⟨(h.sound.insert (hsite.within ▸ h.sound.innermost)).1, ?_, fun {r k scope'} hr hs => ?_⟩
  · rw [keyAt?_insert, if_neg hsite.proper, h.proper]
  · rw [keyAt?_insert] at hr
    rw [get?_insert h.sound.tidy] at hs
    split at hr
    · case isTrue hroot =>
      subst hroot
      cases hr
      rw [if_pos rfl] at hs
      cases hs
      rw [← hsite.within]
      refine (innermost?_congr fun a ha => ?_).symm
      rw [keyAt?_insert, if_neg (ne_of_isAbove ha).symm]
    · have hne : k ≠ (s.insert scope).1 := by
        rintro rfl
        obtain ⟨_, hold, -⟩ := h.sound.rooted _ _ hr
        rw [hnew] at hold
        cases hold
      rw [if_neg hne] at hs
      rw [h.linked hr hs]
      refine (innermost?_congr fun a ha => ?_).symm
      -- The new scope is above no other one.
      have hroot : scope.root ≠ a := by
        rintro rfl
        rw [hsite.vacant r (covers_of_isAbove ha)] at hr
        cases hr
      rw [keyAt?_insert, if_neg hroot]

theorem removeBelow (h : s.Nested) : (s.removeBelow p).Nested := by
  obtain ⟨-, -, -, hk⟩ := removeBelow_spec h.sound.tidy h.sound.rooted (p := p)
  refine ⟨h.sound.removeBelow, ?_, fun {r k scope} hr hs => ?_⟩
  · rw [hk, h.proper, ite_self]
  · rw [hk] at hr
    split at hr
    · cases hr
    · case isFalse hp =>
      rw [h.linked hr (get?_removeBelow_of_some h.sound.tidy h.sound.rooted hs)]
      refine (innermost?_congr fun a ha => ?_).symm
      rw [hk, if_neg fun hc => hp (covers_trans hc (covers_of_isAbove ha))]

end Nested

-- The scopes of one item of an array are moved to the place of another one that has none.
section Moved

variable {i : Nat}

theorem keyAt?_moved (h : s.Sound false) (hv : s.Vacant (p.index j)) (x : Path) :
    (s.rekey (p.index i) (p.index j)).keyAt? (p.index j ++ x) = s.keyAt? (p.index i ++ x) := by
  obtain ⟨hmoved, hother⟩ := keyAt?_rekey h.tidy h.rooted
  cases hk : s.keyAt? (p.index i ++ x) with
  | some k => exact hmoved x k hk
  | none =>
    rw [hother _ fun y k hy he => ?_]
    · rw [hv _ (covers_append _ x), ite_self]
    · cases append_cancel_left he
      rw [hk] at hy
      cases hy

theorem keyAt?_unmoved (h : s.Sound false) (hj : ¬ (p.index j).covers r) :
    (s.rekey (p.index i) (p.index j)).keyAt? r = if (p.index i).covers r then none else s.keyAt? r :=
  (keyAt?_rekey h.tidy h.rooted).2 r fun x _ _ he => hj (he ▸ covers_append _ x)

theorem innermost?_unmoved (h : s.Sound false) (hi : ¬ (p.index i).covers r) (hj : ¬ (p.index j).covers r) :
    (s.rekey (p.index i) (p.index j)).innermost? r = s.innermost? r := by
  refine innermost?_congr fun a ha => ?_
  have hc := covers_of_isAbove ha
  rw [keyAt?_unmoved h fun hj' => hj (covers_trans hj' hc),
    if_neg fun hi' => hi (covers_trans hi' hc)]

theorem innermost?_moved (h : s.Sound false) (hv : s.Vacant (p.index j)) (x : Path) :
    (s.rekey (p.index i) (p.index j)).innermost? (p.index j ++ x) = s.innermost? (p.index i ++ x) := by
  have hp : ∀ n, ¬ (p.index n).covers p := fun n =>
    not_covers_of_isAbove (isAbove_iff.mpr ⟨[.index n], by simp, rfl⟩)
  induction x using List.reverseRecOn with
  | nil =>
    rw [append_nil, append_nil, Path.index, Path.index, innermost?_append, innermost?_append,
      ← Path.index, ← Path.index, keyAt?_unmoved h (hp j), if_neg (hp i), innermost?_unmoved h (hp i) (hp j)]
  | append_singleton x seg ih =>
    have hne : ∀ n, p.index n ++ x ≠ [] := fun n => by simp [Path.index]
    rw [← append_assoc, ← append_assoc, innermost?_append, innermost?_append, if_neg (hne j),
      if_neg (hne i), keyAt?_moved h hv, ih]

theorem Nested.move (h : s.Nested) (hs : (s.rekey (p.index i) (p.index j)).Sound false) (hv : s.Vacant (p.index j)) :
    (s.rekey (p.index i) (p.index j)).Nested := by
  obtain ⟨-, hstay, hmove, hkey⟩ := rekey_spec h.sound.tidy h.sound.rooted
  have hnil : ∀ n, ¬ (p.index n).covers [] := fun n => by simp [covers_nil, Path.index]
  refine ⟨hs, ?_, fun {r k scope} hr hscope => ?_⟩
  · rw [keyAt?_unmoved h.sound (hnil j), if_neg (hnil i), h.proper]
  · rcases hkey r k hr with ⟨x, rfl, hx⟩ | ⟨hi, hr⟩
    · rw [hmove x k hx] at hscope
      obtain ⟨before, hbefore, rfl⟩ := Option.map_eq_some_iff.mp hscope
      rw [innermost?_moved h.sound hv, ← h.linked hx hbefore]
    · have hj : ¬ (p.index j).covers r := fun hj => by
        rw [hv r hj] at hr
        cases hr
      rw [hstay k fun r' hr' => h.sound.rooted.eq_of_keyAt? hr hr' ▸ hi] at hscope
      rw [innermost?_unmoved h.sound hi hj]
      exact h.linked hr hscope

end Moved

theorem vacant_removeBelow (h : s.Sound false) : (s.removeBelow p).Vacant p := by
  intro q hq
  rw [(removeBelow_spec h.tidy h.rooted).2.2.2 q, if_pos hq]

-- Attaching

-- A property `J` of scopes that adding one at a fitting place keeps. What is fine for a new scope at a place is
-- not touched by scopes that are added apart from it. `Fits` says which values are at places.
structure Graftable (origin : Origin) (J : Scopes → Prop) (Ok : Scopes → Path → Option ScopeKey → Prop)
    (Fits : Path → Option Value → Prop) : Prop where
  field  : ∀ {r v p}, Fits r (some v) → Fits (r ++ p) (v.get? p)
  item   : ∀ {s r o i}, Ok s r o → Ok s (r.index i) o
  insert : ∀ {s r o v} {schema : Schema}, J s → Ok s r o → Fits r (some v) → schema.Meets .wellFormed →
    let added := s.insert {
      root := r, schema, parent := o
      tracker := schema.seedTracker v origin.state
      isNew := origin.isNew }
    J added.2 ∧ ∀ e ∈ schema.fields, Ok added.2 (r ++ e.1) (some added.1)
  frame  : ∀ {s r q o} {scope : Scope}, J s → Ok s r o → Path.Apart q r → Path.covers q scope.root →
    Ok (s.insert scope).2 r o

section

variable {parent : Option ScopeKey}

theorem Graftable.grafting (h : Graftable origin J Ok Fits) :
    Grafting origin J Ok (fun t r v => t.Meets .wellFormed ∧ Fits r v) Path.Apart where
  below h := h.below (covers_append _ _)
  apart h := index_apart (Nat.ne_of_lt h)
  item := h.item
  items {sub r items i w} hf hi := by
    have hitem := h.field (p := [.index i]) hf.2
    rw [Value.get?_index_arr, hi, Option.bind_some, Value.get?_nil] at hitem
    exact ⟨FieldType.meets_embedded (FieldType.Meets.sub (.inr hf.1)), hitem⟩
  fields {sub r w} hf := by
    have hs := (FieldType.Meets.sub (.inl hf.1)).selectOrBase (v := some w)
    exact ⟨fun e he => ⟨(hs.field he).type, h.field hf.2⟩, (pairwise_map.mp hs.paths.2).imp append_apart⟩
  insert hf hj ho :=
    have ⟨hj', ho'⟩ := h.insert hj ho hf.2 (FieldType.Meets.sub (.inl hf.1)).selectOrBase
    ⟨hj', ho', fun _ _ ha ho => h.frame hj ho ha (covers_refl _)⟩

theorem Graftable.attachField {root : Path} (h : Graftable origin J Ok Fits) (hf : f.Meets .wellFormed)
    (hfits : Fits root v) (hj : J s) (ho : Ok s root parent) : J (s.attachField f root v parent origin) := by
  rw [Scopes.attachField, Field.attach_eq]
  exact (f.type.attach_keptAt h.grafting ⟨hf.type, hfits⟩ hj ho).1

theorem Graftable.attachFields {root : Path} (h : Graftable origin J Ok Fits) {schema : Schema}
    (hs : schema.Meets .wellFormed) (hfits : Fits root (some value)) (hj : J s)
    (ho : ∀ e ∈ schema.fields, Ok s (root ++ e.1) parent) :
    J (Schema.attachFields parent origin root value s schema.fields) := by
  have hoff := (pairwise_map.mp hs.paths.2).imp (append_apart (r := root))
  refine (Schema.attachFields_keptAt (fun e he s hj ho => ?_) hoff hj ho).1
  rw [Field.attach_eq]
  exact e.2.type.attach_keptAt h.grafting ⟨(hs.field he).type, h.field hfits⟩ hj ho

theorem Graftable.attachItems {root : Path} (h : Graftable origin J Ok fun _ _ => True) (hf : sub.Meets .wellFormed)
    (hj : J s) (ho : ∀ i, n ≤ i → Ok s (root.index i) parent) : J (s.attachItems sub root n vs parent origin) :=
  (attachItems_keptAt h.grafting (fun _ _ _ => ⟨FieldType.meets_embedded hf, trivial⟩) hj ho).1

end
end Scopes
end Dossier

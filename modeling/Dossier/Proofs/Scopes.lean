import Dossier.Proofs.OrdMap
import Dossier.Proofs.Path
import Dossier.Scope.Attach

-- What each operation does to the scope with a key and to the scope at a root.

namespace Dossier

open Path List

namespace Scopes

variable {s s' : Scopes}

-- The slots that can be taken are empty, and none is listed twice.
structure Tidy (s : Scopes) : Prop where
  empty : ∀ i ∈ s.free, ∃ g, s.slots[i]? = some ⟨g, none⟩
  nodup : s.free.Nodup

theorem get?_eq_some_iff : s.get? k = some scope ↔ s.slots[k.slot]? = some ⟨k.generation, some scope⟩ := by
  simp only [get?]
  split
  · case _ slot hs =>
    rw [hs, Option.some.injEq, Option.ite_none_right_eq_some]
    constructor
    · rintro ⟨hg, he⟩
      cases slot
      simp_all
    · rintro rfl
      exact ⟨rfl, rfl⟩
  · case _ hs => simp [hs]

theorem get?_of_slots_eq (h : s'.slots[k.slot]? = s.slots[k.slot]?) : s'.get? k = s.get? k := by
  simp only [get?, h]

-- One scope

theorem keyAt?_insert : (s.insert scope).2.keyAt? r =
    if scope.root = r then some (s.insert scope).1 else s.keyAt? r := by
  simp only [insert]
  split <;> exact OrdMap.get?_insert

theorem get?_insert_key (h : s.Tidy) : s.get? (s.insert scope).1 = none := by
  simp only [insert]
  split
  · case _ i free hf =>
    obtain ⟨g, hg⟩ := h.empty i (by simp [hf])
    simp [get?, hg]
  · simp [get?]

theorem get?_insert (h : s.Tidy) : (s.insert scope).2.get? k =
    if k = (s.insert scope).1 then some scope else s.get? k := by
  obtain ⟨i, g⟩ := k
  split
  · case isTrue hk =>
    rw [hk]
    simp only [insert]
    split
    · case _ j free hf =>
      obtain ⟨g', hg⟩ := h.empty j (by simp [hf])
      have hlt := (List.getElem?_eq_some_iff.mp hg).1
      simp [get?, hlt]
    · simp [get?]
  · case isFalse hk =>
    cases hf : s.free with
    | cons j free =>
      simp only [insert, hf] at hk ⊢
      obtain ⟨g', hg⟩ := h.empty j (by simp [hf])
      have hlt := (List.getElem?_eq_some_iff.mp hg).1
      by_cases hij : j = i
      · subst hij
        rw [hg] at hk
        have hne : g' + 1 ≠ g := fun he => hk (by simp [he])
        simp only [get?, hg, getElem?_set_self hlt]
        simp [hne]
      · exact get?_of_slots_eq (getElem?_set_ne hij)
    | nil =>
      simp only [insert, hf] at hk ⊢
      by_cases hi : i < s.slots.length
      · exact get?_of_slots_eq (getElem?_append_left hi)
      · by_cases he : i = s.slots.length
        · subst he
          have hne : 0 ≠ g := fun he => hk (by simp [he])
          simp [get?, hne]
        · have hold : s.slots.length ≤ i := Nat.le_of_not_lt hi
          have hnew : (s.slots ++ [Slot.mk 0 (some scope)]).length ≤ i := by simp; omega
          simp only [get?, getElem?_eq_none hold, getElem?_eq_none hnew]

theorem Tidy.insert (h : s.Tidy) : (s.insert scope).2.Tidy := by
  simp only [Scopes.insert]
  split
  · case _ j free hf =>
    have hn := h.nodup
    rw [hf] at hn
    obtain ⟨hj, hn⟩ := nodup_cons.mp hn
    refine ⟨fun i hi => ?_, hn⟩
    have hne : j ≠ i := fun he => hj (he ▸ hi)
    obtain ⟨g, hg⟩ := h.empty i (by simp [hf, show i ∈ free from hi])
    exact ⟨g, by rw [getElem?_set_ne hne, hg]⟩
  · exact ⟨fun _ hi => absurd hi not_mem_nil, .nil⟩

theorem keyAt?_modify : (s.modify k f).keyAt? r = s.keyAt? r := by
  simp only [modify]
  split <;> rfl

theorem get?_of_set {o : Option Scope} (h : s.get? k = some scope)
    (hs : s'.slots = s.slots.set k.slot ⟨k.generation, o⟩) : s'.get? k' = if k' = k then o else s.get? k' := by
  have hslot := get?_eq_some_iff.mp h
  have hlt := (List.getElem?_eq_some_iff.mp hslot).1
  by_cases hk : k.slot = k'.slot
  · simp only [get?, hs, ← hk, getElem?_set_self hlt, hslot]
    split
    · case isTrue hg =>
      have : k' = k := by cases k; cases k'; simp_all
      simp [this]
    · case isFalse hg =>
      have : k' ≠ k := fun he => hg (by rw [he])
      simp [this]
  · rw [if_neg fun he => hk (by rw [he])]
    exact get?_of_slots_eq (hs ▸ getElem?_set_ne hk)

theorem get?_modify : (s.modify k f).get? k' = if k' = k then (s.get? k).map f else s.get? k' := by
  simp only [modify]
  split
  · case _ scope hs =>
    rw [hs]
    exact get?_of_set hs rfl
  · case _ hs =>
    split
    · case isTrue hk => rw [hk, hs]; rfl
    · rfl

theorem Tidy.modify (h : s.Tidy) : (s.modify k f).Tidy := by
  simp only [Scopes.modify]
  split
  · case _ scope hs =>
    refine ⟨fun i hi => ?_, h.nodup⟩
    obtain ⟨g, hg⟩ := h.empty i hi
    have hne : k.slot ≠ i := by
      rintro rfl
      rw [get?_eq_some_iff.mp hs] at hg
      cases hg
    exact ⟨g, by rw [getElem?_set_ne hne, hg]⟩
  · exact h

theorem keyAt?_remove (h : s.get? k = some scope) :
    (s.remove k).keyAt? r = if scope.root = r then none else s.keyAt? r := by
  simp only [remove, h]
  split
  · case isTrue hr => rw [← hr]; exact OrdMap.get?_erase_self
  · case isFalse hr => exact OrdMap.get?_erase_ne hr

theorem get?_remove (h : s.get? k = some scope) : (s.remove k).get? k' = if k' = k then none else s.get? k' := by
  simp only [remove, h]
  exact get?_of_set h rfl

theorem Tidy.remove (h : s.Tidy) : (s.remove k).Tidy := by
  simp only [Scopes.remove]
  split
  · case _ scope hs =>
    have hslot := get?_eq_some_iff.mp hs
    have hlt := (List.getElem?_eq_some_iff.mp hslot).1
    have hnew : ∀ i ∈ s.free, k.slot ≠ i := by
      rintro i hi rfl
      obtain ⟨g, hg⟩ := h.empty _ hi
      rw [hslot] at hg
      cases hg
    refine ⟨fun i hi => ?_, nodup_cons.mpr ⟨fun hi => hnew _ hi rfl, h.nodup⟩⟩
    rcases mem_cons.mp hi with rfl | hi
    · exact ⟨k.generation, getElem?_set_self hlt⟩
    · obtain ⟨g, hg⟩ := h.empty i hi
      exact ⟨g, by rw [getElem?_set_ne (hnew i hi), hg]⟩
  · exact h

theorem get?_mapAll : (s.mapAll f).get? k = (s.get? k).map f := by
  simp only [mapAll, get?, getElem?_map]
  cases s.slots[k.slot]? with
  | none => rfl
  | some slot =>
    simp only [Option.map_some]
    split <;> rfl

theorem Tidy.mapAll (h : s.Tidy) : (s.mapAll f).Tidy := by
  refine ⟨fun i hi => ?_, h.nodup⟩
  obtain ⟨g, hg⟩ := h.empty i hi
  exact ⟨g, by simp [Scopes.mapAll, hg]⟩

-- The scopes at and below a path

def Rooted (s : Scopes) : Prop :=
  ∀ r k, s.keyAt? r = some k → ∃ scope, s.get? k = some scope ∧ scope.root = r

theorem Rooted.root_eq (h : s.Rooted) (hr : s.keyAt? r = some k) (hs : s.get? k = some scope) : scope.root = r := by
  obtain ⟨scope', hs', hroot⟩ := h _ _ hr
  rw [hs] at hs'
  cases hs'
  exact hroot

theorem Rooted.eq_of_keyAt? (h : s.Rooted) (hr : s.keyAt? r = some k) (hq : s.keyAt? q = some k) : r = q := by
  obtain ⟨scope, hs, hroot⟩ := h _ _ hr
  exact hroot.symm.trans (h.root_eq hq hs)

theorem keyAt?_iff_mem : s.keyAt? r = some k ↔ (r, k) ∈ s.roots.entries :=
  OrdMap.mem_entries_iff.symm

theorem mem_toList (hr : s.keyAt? r = some k) (hs : s.get? k = some scope) : (k, scope) ∈ s.toList :=
  mem_filterMap.mpr ⟨k, mem_map_of_mem (keyAt?_iff_mem.mp hr), by rw [hs]; rfl⟩

theorem get?_of_mem_toList {e : ScopeKey × Scope} (h : e ∈ s.toList) : s.get? e.1 = some e.2 := by
  obtain ⟨k, -, he⟩ := mem_filterMap.mp h
  obtain ⟨scope, hs, rfl⟩ := Option.map_eq_some_iff.mp he
  exact hs

theorem Rooted.keyAt?_of_mem_toList {e : ScopeKey × Scope} (h : s.Rooted) (he : e ∈ s.toList) :
    s.keyAt? e.2.root = some e.1 := by
  have hs := get?_of_mem_toList he
  obtain ⟨k, hk, he⟩ := mem_filterMap.mp he
  obtain ⟨scope, -, rfl⟩ := Option.map_eq_some_iff.mp he
  obtain ⟨⟨r, _⟩, hr, rfl⟩ := mem_map.mp hk
  have hkey := keyAt?_iff_mem.mpr hr
  rwa [h.root_eq hkey hs]

theorem nodup_roots {p : Path × ScopeKey → Bool} : ((s.roots.entries.filter p).map (·.1)).Nodup := by
  have hsorted := Entries.filter_sorted (p := p) s.roots.sorted
  refine (pairwise_map (R := fun a b => compare a b = .lt) |>.mpr hsorted).imp ?_
  rintro a b hlt rfl
  simp at hlt

theorem nodup_keys (h : s.Rooted) {p : Path × ScopeKey → Bool} : ((s.roots.entries.filter p).map (·.2)).Nodup := by
  have hmem : ∀ e ∈ s.roots.entries.filter p, s.keyAt? e.1 = some e.2 := fun e he =>
    keyAt?_iff_mem.mpr (mem_filter.mp he).1
  refine pairwise_map.mpr ?_
  refine (pairwise_map.mp nodup_roots).imp_of_mem fun {a b} ha hb hne he => hne ?_
  exact h.eq_of_keyAt? (hmem a ha) (he ▸ hmem b hb)

-- The keys are given with their roots. Each of them is removed once, and no other.
theorem foldl_remove {es : List (Path × ScopeKey)} (ht : s.Tidy) (hr : s.Rooted)
    (hes : ∀ e ∈ es, s.keyAt? e.1 = some e.2) (hn : (es.map (·.1)).Nodup) :
    let t := es.foldl (fun s e => s.remove e.2) s
    t.Tidy ∧ t.Rooted ∧ (∀ k, t.get? k = if k ∈ es.map (·.2) then none else s.get? k) ∧
      ∀ r, t.keyAt? r = if r ∈ es.map (·.1) then none else s.keyAt? r := by
  induction es generalizing s with
  | nil => simp [ht, hr]
  | cons e es ih =>
    have ⟨he, hes⟩ := forall_mem_cons.mp hes
    have ⟨hn₁, hn⟩ := nodup_cons.mp hn
    obtain ⟨scope, hs, hroot⟩ := hr _ _ he
    have hkey : ∀ {r}, (s.remove e.2).keyAt? r = if e.1 = r then none else s.keyAt? r := by
      intro r
      rw [keyAt?_remove hs, hroot]
    have hget : ∀ {k}, (s.remove e.2).get? k = if k = e.2 then none else s.get? k := get?_remove hs
    have hr' : (s.remove e.2).Rooted := by
      intro r k hk
      rw [hkey] at hk
      split at hk
      · cases hk
      · case isFalse hne =>
        have hne' : k ≠ e.2 := fun h => hne (hr.eq_of_keyAt? he (h ▸ hk))
        rw [hget, if_neg hne']
        exact hr r k hk
    have hes' : ∀ e' ∈ es, (s.remove e.2).keyAt? e'.1 = some e'.2 := by
      intro e' he'
      have hne : e.1 ≠ e'.1 := fun h => hn₁ (mem_map.mpr ⟨e', he', h.symm⟩)
      rw [hkey, if_neg hne]
      exact hes e' he'
    obtain ⟨h₁, h₂, h₃, h₄⟩ := ih ht.remove hr' hes' hn
    refine ⟨h₁, h₂, fun k => ?_, fun r => ?_⟩
    · simp only [foldl_cons, h₃, hget, map_cons, mem_cons]
      grind
    · simp only [foldl_cons, h₄, hkey, map_cons, mem_cons]
      grind

section Below

variable (ht : s.Tidy) (hr : s.Rooted)
include ht hr

theorem removeBelow_spec : (s.removeBelow p).Tidy ∧ (s.removeBelow p).Rooted ∧ (∀ k, (s.removeBelow p).get? k =
      if k ∈ (s.roots.entries.filter fun e => p.covers e.1).map (·.2) then none else s.get? k) ∧
    ∀ r, (s.removeBelow p).keyAt? r = if p.covers r then none else s.keyAt? r := by
  have hes : ∀ e ∈ s.roots.entries.filter fun e => p.covers e.1, s.keyAt? e.1 = some e.2 :=
    fun e he => keyAt?_iff_mem.mpr (mem_filter.mp he).1
  obtain ⟨h₁, h₂, h₃, h₄⟩ := foldl_remove ht hr hes nodup_roots
  refine ⟨h₁, h₂, h₃, fun r => ?_⟩
  rw [removeBelow, h₄]
  cases hk : s.keyAt? r with
  | none => simp
  | some k =>
    have hiff : r ∈ (s.roots.entries.filter fun e => p.covers e.1).map (·.1) ↔ p.covers r := by
      simp only [mem_map, mem_filter]
      constructor
      · rintro ⟨e, ⟨-, hc⟩, rfl⟩
        exact hc
      · intro hc
        exact ⟨(r, k), ⟨keyAt?_iff_mem.mp hk, hc⟩, rfl⟩
    simp only [hiff]

theorem get?_removeBelow_of_some (h : (s.removeBelow p).get? k = some scope) : s.get? k = some scope := by
  rw [(removeBelow_spec ht hr).2.2.1 k] at h
  split at h
  · cases h
  · exact h

theorem get?_removeBelow (hs : s.get? k = some scope) (h : s.keyAt? scope.root = some k → ¬ p.covers scope.root) :
    (s.removeBelow p).get? k = some scope := by
  rw [(removeBelow_spec ht hr).2.2.1 k, if_neg, hs]
  intro hm
  obtain ⟨e, he, rfl⟩ := mem_map.mp hm
  obtain ⟨he, hc⟩ := mem_filter.mp he
  have hk := keyAt?_iff_mem.mpr he
  obtain ⟨scope', hs', hroot⟩ := hr _ _ hk
  rw [hs] at hs'
  cases hs'
  rw [hroot] at h
  exact h hk hc

end Below

-- The scopes around a scope

-- A scope whose root matters to the scopes inside it: the one at its root, and where `full` is set also every new
-- one.
def Counts (s : Scopes) (full : Bool) (k : ScopeKey) (scope : Scope) : Prop :=
  s.keyAt? scope.root = some k ∨ (full ∧ scope.isNew)

-- The scopes on the way out from a scope are there, and those that count are around a root.
def Around (s : Scopes) (full : Bool) (r : Path) (o : Option ScopeKey) : Prop :=
  ∀ n, ∀ k ∈ s.chain n o, ∃ scope, s.get? k = some scope ∧ (s.Counts full k scope → scope.root.covers r)

theorem around_none : s.Around full r none := by
  intro n
  cases n <;> simp [chain]

theorem around_some_iff : s.Around full r (some k) ↔ ∃ scope, s.get? k = some scope ∧
    (s.Counts full k scope → scope.root.covers r) ∧ s.Around full r scope.parent := by
  constructor
  · intro h
    obtain ⟨scope, hs, hc⟩ := h 1 k (by simp [chain])
    refine ⟨scope, hs, hc, fun n k' hk' => h (n + 1) k' ?_⟩
    simp [chain, hs, hk']
  · rintro ⟨scope, hs, hc, hp⟩ n k' hk'
    cases n with
    | zero => simp [chain] at hk'
    | succ n =>
      simp only [chain, hs, Option.bind_some, mem_cons] at hk'
      rcases hk' with rfl | hk'
      · exact ⟨scope, hs, hc⟩
      · exact hp n k' hk'

theorem Around.below (h : s.Around full r o) : s.Around full (r ++ q) o := by
  intro n k hk
  obtain ⟨scope, hs, hc⟩ := h n k hk
  exact ⟨scope, hs, fun h => covers_trans (hc h) (covers_append r q)⟩

theorem Around.transfer {r' : Path} (h : s.Around full r o)
    (ht : ∀ k scope, s.get? k = some scope → (s.Counts full k scope → scope.root.covers r) →
      ∃ scope', s'.get? k = some scope' ∧ scope'.parent = scope.parent ∧
        (s'.Counts full' k scope' → scope'.root.covers r')) : s'.Around full' r' o := by
  suffices ∀ n o, (∀ k ∈ s.chain n o, ∃ scope, s.get? k = some scope ∧
      (s.Counts full k scope → scope.root.covers r)) → ∀ k ∈ s'.chain n o,
      ∃ scope, s'.get? k = some scope ∧ (s'.Counts full' k scope → scope.root.covers r') from
    fun n => this n o (h n)
  intro n
  induction n with
  | zero => simp [chain]
  | succ n ih =>
    intro o h
    cases o with
    | none => simp [chain]
    | some k =>
      obtain ⟨scope, hs, hc⟩ := h k (by simp [chain])
      obtain ⟨scope', hs', hp, hc'⟩ := ht k scope hs hc
      simp only [chain, hs, hs', Option.bind_some, mem_cons, hp] at h ⊢
      rintro k' (rfl | hk')
      · exact ⟨scope', hs', hc'⟩
      · exact ih _ (fun k hk => h k (.inr hk)) k' hk'

theorem Around.modify {f : Scope → Tracker} (h : s.Around full r o) :
    (s.modify k fun scope => { scope with tracker := f scope }).Around full r o := by
  refine h.transfer fun k' scope hs hc => ?_
  rw [get?_modify]
  split
  · case isTrue hk =>
    rw [← hk, hs]
    exact ⟨_, rfl, rfl, fun hc' => hc (by rwa [Counts, keyAt?_modify] at hc')⟩
  · exact ⟨scope, hs, rfl, fun hc' => hc (by rwa [Counts, keyAt?_modify] at hc')⟩

-- Every scope at a root is there and has its way out.
structure Sound (full : Bool) (s : Scopes) : Prop where
  tidy   : s.Tidy
  rooted : s.Rooted
  linked : ∀ r k, s.keyAt? r = some k → s.Around full r (some k)

theorem sound_empty : Sound full {} :=
  ⟨⟨nofun, .nil⟩, nofun, nofun⟩

namespace Sound

variable (h : s.Sound full)

include h

theorem insert (ha : s.Around full scope.root scope.parent) : (s.insert scope).2.Sound full ∧
    (s.insert scope).2.Around full scope.root (some (s.insert scope).1) ∧
    ∀ r o, s.Around full r o → (s.insert scope).2.Around full r o := by
  have hnew : s.get? (s.insert scope).1 = none := get?_insert_key h.tidy
  have keep : ∀ r o, s.Around full r o → (s.insert scope).2.Around full r o := by
    intro r o h'
    refine h'.transfer fun k scope' hs hc => ⟨scope', ?_, rfl, fun hc' => hc ?_⟩
    · have hne : k ≠ (s.insert scope).1 := by rintro rfl; simp [hnew] at hs
      rw [get?_insert h.tidy, if_neg hne, hs]
    · refine hc'.imp_left fun hk => ?_
      rw [keyAt?_insert] at hk
      split at hk
      · cases hk; simp [hnew] at hs
      · exact hk
  have key : (s.insert scope).2.Around full scope.root (some (s.insert scope).1) := by
    refine around_some_iff.mpr ⟨scope, ?_, fun _ => covers_refl _, keep _ _ ha⟩
    rw [get?_insert h.tidy, if_pos rfl]
  refine ⟨⟨h.tidy.insert, fun r k hk => ?_, fun r k hk => ?_⟩, key, keep⟩
  · rw [keyAt?_insert] at hk
    split at hk
    · case isTrue hr =>
      cases hk
      exact ⟨scope, by rw [get?_insert h.tidy, if_pos rfl], hr⟩
    · obtain ⟨scope', hs, hroot⟩ := h.rooted _ _ hk
      have hne : k ≠ (s.insert scope).1 := by rintro rfl; simp [hnew] at hs
      exact ⟨scope', by rw [get?_insert h.tidy, if_neg hne, hs], hroot⟩
  · rw [keyAt?_insert] at hk
    split at hk
    · case isTrue hr =>
      cases hk
      exact hr ▸ key
    · exact keep _ _ (h.linked _ _ hk)

theorem of_get? {full' : Bool} (ht : s'.Tidy) (hk : ∀ r, s'.keyAt? r = s.keyAt? r)
    (hg : ∀ k scope, s.get? k = some scope → ∃ scope', s'.get? k = some scope' ∧ scope'.root = scope.root ∧
      scope'.parent = scope.parent ∧ (full' ∧ scope'.isNew → full ∧ scope.isNew)) :
    s'.Sound full' := by
  refine ⟨ht, fun r k hr => ?_, fun r k hr => ?_⟩
  · rw [hk] at hr
    obtain ⟨scope, hs, hroot⟩ := h.rooted _ _ hr
    obtain ⟨scope', hs', hroot', -, -⟩ := hg k scope hs
    exact ⟨scope', hs', hroot'.trans hroot⟩
  · rw [hk] at hr
    refine (h.linked _ _ hr).transfer fun k scope hs hc => ?_
    obtain ⟨scope', hs', hroot, hparent, hnew⟩ := hg k scope hs
    refine ⟨scope', hs', hparent, fun hc' => ?_⟩
    rw [hroot]
    refine hc (hc'.imp (fun hr => ?_) hnew)
    rwa [hk, hroot] at hr

theorem weaken : s.Sound false :=
  h.of_get? h.tidy (fun _ => rfl) fun _ scope hs => ⟨scope, hs, rfl, rfl, nofun⟩

theorem modify {f : Scope → Tracker} : (s.modify k fun scope => { scope with tracker := f scope }).Sound full := by
  refine h.of_get? h.tidy.modify (fun r => keyAt?_modify) fun k' scope hs => ?_
  rw [get?_modify]
  split
  · case isTrue hk =>
    rw [← hk, hs]
    exact ⟨_, rfl, rfl, rfl, fun h => h⟩
  · exact ⟨scope, hs, rfl, rfl, fun h => h⟩

theorem removeBelow : (s.removeBelow p).Sound full := by
  obtain ⟨ht, hr, -, hk⟩ := removeBelow_spec h.tidy h.rooted (p := p)
  refine ⟨ht, hr, fun r k hrk => ?_⟩
  rw [hk] at hrk
  split at hrk
  · cases hrk
  · case isFalse hp =>
    refine (h.linked _ _ hrk).transfer fun k scope hs hc => ⟨scope, ?_, rfl, fun hc' => hc ?_⟩
    · -- A scope that is removed is around the root, so its path covers the root.
      exact get?_removeBelow h.tidy h.rooted hs fun hkey hcov =>
        hp (covers_trans hcov (hc (.inl hkey)))
    · refine hc'.imp_left fun hkey => ?_
      rw [hk] at hkey
      split at hkey
      · cases hkey
      · exact hkey

theorem mapAll (hroot : ∀ scope, (f scope).root = scope.root) (hparent : ∀ scope, (f scope).parent = scope.parent)
    (hnew : ∀ scope, ¬ (f scope).isNew) : (s.mapAll f).Sound full' := by
  refine h.of_get? h.tidy.mapAll (fun r => rfl) fun k scope hs => ?_
  rw [get?_mapAll, hs]
  exact ⟨f scope, rfl, hroot _, hparent _, fun h => absurd h.2 (hnew _)⟩

end Sound

-- Moving scopes

section Rekey

def moveRoot (old new : Path) (s : Scopes) (e : Path × ScopeKey) : Scopes :=
  match e.1.rebase? old new with
  | some root =>
    let s := s.modify e.2 fun scope => { scope with root }
    { s with roots := s.roots.insert root e.2 }
  | none => s

def unrooted (s : Scopes) (old : Path) : Scopes :=
  { s with roots := (s.roots.entries.filter fun e => old.covers e.1).foldl (fun m e => m.erase e.1) s.roots }

theorem rekey_eq_foldl : s.rekey old new =
    (s.roots.entries.filter fun e => old.covers e.1).foldl (moveRoot old new) (s.unrooted old) := rfl

theorem keyAt?_unrooted : (s.unrooted old).keyAt? r = if old.covers r then none else s.keyAt? r := by
  rw [keyAt?, unrooted, ← foldl_map, OrdMap.get?_foldl_erase]
  cases hk : s.roots.get? r with
  | none => simp [keyAt?, hk]
  | some k =>
    have hiff : r ∈ (s.roots.entries.filter fun e => old.covers e.1).map (·.1) ↔ old.covers r := by
      simp only [mem_map, mem_filter]
      constructor
      · rintro ⟨e, ⟨-, hc⟩, rfl⟩
        exact hc
      · intro hc
        exact ⟨(r, k), ⟨OrdMap.mem_entries_iff.mpr hk, hc⟩, rfl⟩
    simp only [hiff, keyAt?, hk]

theorem moveRoot_spec (ht : s.Tidy) (old new x : Path) (k : ScopeKey) :
    let t := moveRoot old new s (old ++ x, k)
    t.Tidy ∧ (∀ k', t.get? k' =
      if k' = k then (s.get? k).map fun scope => { scope with root := new ++ x } else s.get? k') ∧
    ∀ r, t.keyAt? r = if new ++ x = r then some k else s.keyAt? r := by
  have hr : Path.rebase? (old ++ x) old new = some (new ++ x) :=
    rebase?_eq_some_iff.mpr ⟨x, rfl, rfl⟩
  simp only [moveRoot, hr]
  refine ⟨⟨ht.modify.empty, ht.modify.nodup⟩, fun k' => ?_, fun r => ?_⟩
  · exact get?_modify
  · refine OrdMap.get?_insert.trans ?_
    split
    · rfl
    · exact keyAt?_modify

theorem foldl_moveRoot (new : Path) {es : List (Path × ScopeKey)} (ht : s.Tidy)
    (hold : ∀ e ∈ es, old.covers e.1) (hn : (es.map (·.1)).Nodup) (hk : (es.map (·.2)).Nodup) :
    let t := es.foldl (moveRoot old new) s
    t.Tidy ∧
    (∀ k, k ∉ es.map (·.2) → t.get? k = s.get? k) ∧
    (∀ x k, (old ++ x, k) ∈ es →
      t.get? k = (s.get? k).map fun scope => { scope with root := new ++ x }) ∧
    (∀ x k, (old ++ x, k) ∈ es → t.keyAt? (new ++ x) = some k) ∧
    ∀ r, (∀ x k, (old ++ x, k) ∈ es → new ++ x ≠ r) → t.keyAt? r = s.keyAt? r := by
  induction es generalizing s with
  | nil => simp [ht]
  | cons e es ih =>
    obtain ⟨p, k₀⟩ := e
    have ⟨he, hold'⟩ := forall_mem_cons.mp hold
    obtain ⟨y, rfl⟩ := covers_iff.mp he
    have ⟨hn₁, hn⟩ := nodup_cons.mp hn
    have ⟨hk₁, hk⟩ := nodup_cons.mp hk
    obtain ⟨ht', hget, hkey⟩ := moveRoot_spec ht old new y k₀
    obtain ⟨h₁, h₂, h₃, h₄, h₅⟩ := ih ht' hold' hn hk
    have hy : ∀ x k, (old ++ x, k) ∈ es → x ≠ y := by
      rintro x k hm rfl
      exact hn₁ (mem_map.mpr ⟨_, hm, rfl⟩)
    rw [foldl_cons]
    refine ⟨h₁, fun k hk' => ?_, fun x k hm => ?_, fun x k hm => ?_, fun r hr => ?_⟩
    · simp only [map_cons, mem_cons, not_or] at hk'
      rw [h₂ k hk'.2, hget, if_neg hk'.1]
    · rcases mem_cons.mp hm with he | hm
      · obtain ⟨hx, rfl⟩ := Prod.mk.inj he
        cases append_cancel_left hx
        rw [h₂ k hk₁, hget, if_pos rfl]
      · have hne : k ≠ k₀ := fun h => hk₁ (mem_map.mpr ⟨_, hm, h⟩)
        rw [h₃ x k hm, hget, if_neg hne]
    · rcases mem_cons.mp hm with he | hm
      · obtain ⟨hx, rfl⟩ := Prod.mk.inj he
        cases append_cancel_left hx
        rw [h₅ _ fun x' k' hm' h => hy x' k' hm' (append_cancel_left h), hkey, if_pos rfl]
      · exact h₄ x k hm
    · rw [h₅ r fun x k hm => hr x k (mem_cons_of_mem _ hm), hkey,
        if_neg (hr y k₀ mem_cons_self)]

-- The scope at a root afterwards was there before or has been moved there.
theorem rekey_spec (ht : s.Tidy) (hr : s.Rooted) : (s.rekey old new).Tidy ∧
    (∀ k, (∀ r, s.keyAt? r = some k → ¬ old.covers r) → (s.rekey old new).get? k = s.get? k) ∧
    (∀ x k, s.keyAt? (old ++ x) = some k → (s.rekey old new).get? k =
      (s.get? k).map fun scope => { scope with root := new ++ x }) ∧ ∀ r k, (s.rekey old new).keyAt? r = some k →
      (∃ x, r = new ++ x ∧ s.keyAt? (old ++ x) = some k) ∨ (¬ old.covers r ∧ s.keyAt? r = some k) := by
  let es := s.roots.entries.filter fun e => old.covers e.1
  have hmem : ∀ {r k}, (r, k) ∈ es ↔ s.keyAt? r = some k ∧ old.covers r := by
    intro r k
    rw [mem_filter, keyAt?_iff_mem]
  have hcov : ∀ e ∈ es, old.covers e.1 := fun e he => (mem_filter.mp he).2
  have htidy : (s.unrooted old).Tidy := ⟨ht.empty, ht.nodup⟩
  obtain ⟨h₁, h₂, h₃, h₄, h₅⟩ := foldl_moveRoot new htidy hcov nodup_roots (nodup_keys hr)
  rw [rekey_eq_foldl]
  refine ⟨h₁, fun k hk => ?_, fun x k hk => ?_, fun r k hk => ?_⟩
  · refine h₂ k fun hm => ?_
    obtain ⟨e, he, rfl⟩ := mem_map.mp hm
    exact hk e.1 (hmem.mp he).1 (hmem.mp he).2
  · exact h₃ x k (hmem.mpr ⟨hk, covers_append _ _⟩)
  · by_cases hx : ∃ x k', (old ++ x, k') ∈ es ∧ new ++ x = r
    · obtain ⟨x, k', hm, rfl⟩ := hx
      rw [h₄ x k' hm] at hk
      cases hk
      exact .inl ⟨x, rfl, (hmem.mp hm).1⟩
    · rw [h₅ r fun x k' hm he => hx ⟨x, k', hm, he⟩, keyAt?_unrooted] at hk
      split at hk
      · cases hk
      · case isFalse hc => exact .inr ⟨hc, hk⟩

theorem get?_rekey (ht : s.Tidy) (hr : s.Rooted) (k : ScopeKey) :
    ((∀ r, s.keyAt? r = some k → ¬ old.covers r) ∧ (s.rekey old new).get? k = s.get? k) ∨
    ∃ x, s.keyAt? (old ++ x) = some k ∧
      (s.rekey old new).get? k = (s.get? k).map fun scope => { scope with root := new ++ x } := by
  obtain ⟨-, hstay, hmove, -⟩ := @rekey_spec s old new ht hr
  by_cases hx : ∃ x, s.keyAt? (old ++ x) = some k
  · obtain ⟨x, hx⟩ := hx
    exact .inr ⟨x, hx, hmove x k hx⟩
  · have hno : ∀ r, s.keyAt? r = some k → ¬ old.covers r := by
      intro r hr hc
      obtain ⟨x, rfl⟩ := covers_iff.mp hc
      exact hx ⟨x, hr⟩
    exact .inl ⟨hno, hstay k hno⟩

theorem keyAt?_rekey (ht : s.Tidy) (hr : s.Rooted) :
    (∀ x k, s.keyAt? (old ++ x) = some k → (s.rekey old new).keyAt? (new ++ x) = some k) ∧
    ∀ r, (∀ x k, s.keyAt? (old ++ x) = some k → new ++ x ≠ r) →
      (s.rekey old new).keyAt? r = if old.covers r then none else s.keyAt? r := by
  have htidy : (s.unrooted old).Tidy := ⟨ht.empty, ht.nodup⟩
  obtain ⟨-, -, -, h₄, h₅⟩ := foldl_moveRoot new htidy
    (fun e he => (mem_filter.mp he).2) nodup_roots (nodup_keys hr)
  rw [rekey_eq_foldl]
  refine ⟨fun x k hk => h₄ x k (mem_filter.mpr ⟨keyAt?_iff_mem.mp hk, covers_append _ _⟩),
    fun r h => ?_⟩
  rw [h₅ r fun x k hm => h x k (keyAt?_iff_mem.mpr (mem_filter.mp hm).1), keyAt?_unrooted]

theorem Sound.rekey (h : s.Sound false) (hn : ∀ a : Path, a.isAbove old → a.covers new) :
    (s.rekey old new).Sound false := by
  obtain ⟨ht, hstay, hmove, hkey⟩ : (s.rekey old new).Tidy ∧ _ := rekey_spec h.tidy h.rooted
  have unmoved : ∀ {r k}, s.keyAt? r = some k → ¬ old.covers r →
      ∀ r', s.keyAt? r' = some k → ¬ old.covers r' := by
    intro r k hk hr r' hk'
    rwa [h.rooted.eq_of_keyAt? hk' hk]
  refine ⟨ht, fun r k hk => ?_, fun r k hk => ?_⟩
  · rcases hkey r k hk with ⟨x, rfl, hx⟩ | ⟨hc, hr⟩
    · obtain ⟨scope, hs, -⟩ := h.rooted _ _ hx
      exact ⟨_, by rw [hmove x k hx, hs]; rfl, rfl⟩
    · rw [hstay k (unmoved hr hc)]
      exact h.rooted _ _ hr
  · -- What counts afterwards and did not move counted before.
    have counted : ∀ {k scope}, (∀ r, s.keyAt? r = some k → ¬ old.covers r) →
        (s.rekey old new).Counts false k scope → s.Counts false k scope ∧ ¬ old.covers scope.root := by
      intro k scope hk hc
      rcases hkey _ _ (hc.resolve_right (by simp)) with ⟨x, -, hx⟩ | ⟨hc, hr⟩
      · exact absurd (covers_append old x) (hk _ hx)
      · exact ⟨.inl hr, hc⟩
    rcases hkey r k hk with ⟨x, rfl, hx⟩ | ⟨hc, hr⟩
    · refine (h.linked _ _ hx).transfer fun k scope hs hcov => ?_
      by_cases hm : ∃ y, s.keyAt? (old ++ y) = some k
      · obtain ⟨y, hy⟩ := hm
        have hroot := h.rooted.root_eq hy hs
        refine ⟨{ scope with root := new ++ y }, by rw [hmove y k hy, hs]; rfl, rfl, fun _ => ?_⟩
        have := hcov (.inl (hroot ▸ hy))
        rw [hroot] at this
        exact append_covers_append.mpr (append_covers_append.mp this)
      · have hk' : ∀ r, s.keyAt? r = some k → ¬ old.covers r := by
          intro r hr hc
          obtain ⟨y, rfl⟩ := covers_iff.mp hc
          exact hm ⟨y, hr⟩
        refine ⟨scope, by rw [hstay k hk', hs], rfl, fun hc => ?_⟩
        obtain ⟨hc, hno⟩ := counted hk' hc
        have habove : scope.root.isAbove old := by
          refine isAbove_iff_covers.mpr ⟨?_, fun he => hno (he ▸ covers_refl _)⟩
          exact (covers_total (hcov hc) (covers_append old x)).resolve_right hno
        exact covers_trans (hn _ habove) (covers_append _ _)
    · refine (h.linked _ _ hr).transfer fun k scope hs hcov => ?_
      have hk' : ∀ r, s.keyAt? r = some k → ¬ old.covers r := by
        intro r' hr' hc'
        have hroot := h.rooted.root_eq hr' hs
        have := hcov (.inl (hroot ▸ hr'))
        exact hc (covers_trans hc' (hroot ▸ this))
      exact ⟨scope, by rw [hstay k hk', hs], rfl, fun hc => hcov (counted hk' hc).1⟩

end Rekey

end Scopes
end Dossier

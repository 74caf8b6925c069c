import Dossier.Proofs.Ranks

-- Keys and roots name each other, links lead to scopes further out, and the key of a scope that was removed stays
-- spent.

namespace Dossier

open Path List

namespace Scopes

variable {s t : Scopes} {k : ScopeKey} {scope : Scope} {p r : Path} {o : Option ScopeKey} {i m n : Nat}

-- Every scope is the one at its root, and its links lead out.
structure Coherent (s : Scopes) : Prop where
  ranked  : s.Ranked
  indexed : ∀ {k scope}, s.get? k = some scope → s.keyAt? scope.root = some k

-- No scope is at a path or below it.
def Clear (s : Scopes) (r : Path) : Prop :=
  ∀ k scope, s.get? k = some scope → ¬ r.covers scope.root

-- A scope can be inserted at a path with the given link.
structure Open (s : Scopes) (r : Path) (o : Option ScopeKey) : Prop where
  clear  : s.Clear r
  linked : ∀ k, o = some k → ∃ outer, s.get? k = some outer ∧ outer.root.isAbove r

-- Keys, roots and links

namespace Coherent

variable (h : s.Coherent)

include h

theorem tidy : s.Tidy :=
  h.ranked.sound.tidy

theorem rooted : s.Rooted :=
  h.ranked.sound.rooted

-- A link does not lead back to its own scope, as the way out is finite.
theorem linked (hs : s.get? k = some scope) (hp : scope.parent = some k') :
    ∃ outer, s.get? k' = some outer ∧ outer.root.isAbove scope.root := by
  have hk := h.indexed hs
  obtain ⟨_, hs', -, haround⟩ := around_some_iff.mp (h.ranked.sound.linked _ _ hk)
  cases hs.symm.trans hs'
  rw [hp] at haround
  obtain ⟨outer, ho, hcov, -⟩ := around_some_iff.mp haround
  refine ⟨outer, ho, isAbove_iff_covers.mpr ⟨hcov (.inl (h.indexed ho)), fun he => ?_⟩⟩
  cases (h.indexed ho).symm.trans (he ▸ hk)
  obtain ⟨m, hc⟩ := h.ranked.climbs _ _ hk
  cases hc with
  | up hs'' hl hup =>
    cases hs.symm.trans hs''
    rw [hp] at hup
    have := hup.unique (.up hs hl (hp ▸ hup))
    omega

theorem insert (ho : s.Open scope.root scope.parent) : (s.insert scope).2.Coherent := by
  have hopens : s.Opens scope.root scope.parent := by
    cases hp : scope.parent with
    | none => exact opens_none
    | some k =>
      obtain ⟨outer, houter, ha⟩ := ho.linked k hp
      obtain ⟨x, -, hx⟩ := isAbove_iff.mp ha
      exact hx ▸ (h.ranked.opens (h.indexed houter)).below
  refine ⟨(h.ranked.insert hopens).1, fun {k scope'} hs => ?_⟩
  rw [get?_insert h.tidy] at hs
  rw [keyAt?_insert]
  split at hs
  · case isTrue hk =>
    cases hs
    rw [if_pos rfl, hk]
  · rw [if_neg, h.indexed hs]
    exact fun he => ho.clear k scope' hs (he ▸ covers_refl _)

theorem removeBelow : (s.removeBelow p).Coherent := by
  obtain ⟨-, -, hget, hkey⟩ := removeBelow_spec h.tidy h.rooted (p := p)
  refine ⟨h.ranked.removeBelow, fun {k scope} hs => ?_⟩
  rw [hget] at hs
  split at hs
  · cases hs
  · case isFalse hno =>
    have hk := h.indexed hs
    rw [hkey, if_neg fun hc => hno ?_, hk]
    exact mem_map.mpr ⟨_, mem_filter.mpr ⟨keyAt?_iff_mem.mp hk, hc⟩, rfl⟩

theorem rekey (hc : s.Clear (p.index j)) : (s.rekey (p.index i) (p.index j)).Coherent := by
  obtain ⟨hmoved, hother⟩ := @keyAt?_rekey s (p.index i) (p.index j) h.tidy h.rooted
  refine ⟨h.ranked.moveItem, fun {k scope} hs => ?_⟩
  rcases @get?_rekey s (p.index i) (p.index j) h.tidy h.rooted k with ⟨hno, hsame⟩ | ⟨x, hx, hmap⟩
  · rw [hsame] at hs
    have hk := h.indexed hs
    rw [hother, if_neg (hno _ hk), hk]
    exact fun x _ _ he => hc k scope hs (he ▸ covers_append _ x)
  · rw [hmap] at hs
    obtain ⟨_, -, rfl⟩ := Option.map_eq_some_iff.mp hs
    exact hmoved x k hx

end Coherent

-- Generations

def generations (s : Scopes) : List UInt32 :=
  s.slots.map (·.generation)

theorem generations_insert (scope : Scope) (h : s.Tidy) :
    ((s.insert scope).1 = ⟨s.generations.length, 0⟩ ∧ (s.insert scope).2.generations = s.generations ++ [0]) ∨
    ∃ i g, s.generations[i]? = some g ∧ (s.insert scope).1 = ⟨i, g + 1⟩ ∧
      (s.insert scope).2.generations = s.generations.set i (g + 1) := by
  simp only [insert]
  split
  · case _ i free hf =>
    obtain ⟨g, hg⟩ := h.empty i (by simp [hf])
    exact .inr ⟨i, g, by simp [generations, hg], by simp [hg], by simp [generations, hg, map_set]⟩
  · exact .inl ⟨by simp [generations], by simp [generations]⟩

-- The key has been given out: its slot is there, in its generation or a later one.
def Issued (s : Scopes) (k : ScopeKey) : Prop :=
  ∃ g, s.generations[k.slot]? = some g ∧ k.generation ≤ g

-- No slot has been filled more than `n` times.
def Filled (s : Scopes) (n : Nat) : Prop :=
  ∀ g ∈ s.generations, g.toNat < n

theorem Filled.insert (h : s.Filled n) (ht : s.Tidy) : (s.insert scope).2.Filled (n + 1) := by
  intro g hg
  rcases generations_insert scope ht with ⟨-, hadd⟩ | ⟨i, g₀, hi, -, hset⟩
  · rw [hadd, mem_append, mem_singleton] at hg
    rcases hg with hg | rfl
    · exact Nat.lt_succ_of_lt (h g hg)
    · exact Nat.succ_pos n
  · rw [hset] at hg
    rcases mem_or_eq_of_mem_set hg with hg | rfl
    · exact Nat.lt_succ_of_lt (h g hg)
    · have := h g₀ (mem_of_getElem? hi)
      rw [UInt32.toNat_add]
      exact Nat.lt_of_le_of_lt (Nat.mod_le _ _) (Nat.succ_lt_succ this)

theorem Issued.insert (h : s.Issued k) (ht : s.Tidy) (hf : s.Filled n) (hn : n < UInt32.size) :
    (s.insert scope).2.Issued k ∧ k ≠ (s.insert scope).1 := by
  obtain ⟨g, hg, hle⟩ := h
  rcases generations_insert scope ht with ⟨hkey, hadd⟩ | ⟨i, g₀, hi, hkey, hset⟩
  · have hlt := (List.getElem?_eq_some_iff.mp hg).1
    refine ⟨⟨g, by rw [hadd, getElem?_append_left hlt, hg], hle⟩, ?_⟩
    rintro rfl
    rw [hkey] at hlt
    exact Nat.lt_irrefl _ hlt
  · by_cases hk : i = k.slot
    · subst hk
      cases hg.symm.trans hi
      have hlt : g < g + 1 := by
        have := hf g (mem_of_getElem? hi)
        rw [UInt32.lt_iff_toNat_lt, UInt32.toNat_add]
        exact Nat.lt_of_lt_of_eq (Nat.lt_succ_self _) (Nat.mod_eq_of_lt (Nat.lt_of_le_of_lt this hn)).symm
      refine ⟨⟨g + 1, ?_, ?_⟩, ?_⟩
      · rw [hset, List.getElem?_set_self (List.getElem?_eq_some_iff.mp hi).1]
      · exact UInt32.le_trans hle (UInt32.le_of_lt hlt)
      · intro he
        rw [he, hkey] at hle
        exact absurd hle (UInt32.not_le.mpr hlt)
    · refine ⟨⟨g, by rw [hset, getElem?_set_ne hk, hg], hle⟩, ?_⟩
      rintro rfl
      rw [hkey] at hk
      exact hk rfl

-- Owners

theorem chain_add (h : (s.chain n o).length < n) : s.chain (n + i) o = s.chain n o := by
  induction n generalizing o with
  | zero => cases h
  | succ n ih =>
    cases o with
    | none => rw [Nat.succ_add]; rfl
    | some k =>
      rw [Nat.succ_add, chain, chain, ih]
      rw [chain] at h
      exact Nat.lt_of_succ_lt_succ h

-- One scope is strictly around another.
def Outside (s : Scopes) (k k' : ScopeKey) : Prop :=
  ∃ inner outer, s.get? k = some inner ∧ s.get? k' = some outer ∧ outer.root.isAbove inner.root

theorem Coherent.chain_outside (h : s.Coherent) (hs : s.get? k = some scope) :
    (s.chain n (some k)).IsChain s.Outside := by
  induction n generalizing k scope with
  | zero => exact .nil
  | succ n ih =>
    rw [chain, hs, Option.bind_some]
    cases hp : scope.parent with
    | none => cases n <;> exact .singleton k
    | some k' =>
      obtain ⟨outer, houter, ha⟩ := h.linked hs hp
      cases n with
      | zero => exact .singleton k
      | succ n => exact .cons_cons ⟨scope, outer, hs, houter, ha⟩ (ih houter)

theorem Coherent.owners (h : s.Coherent) (p : Path) :
    (∀ i, s.chain (s.slots.length + 1 + i) (s.innermost? p) = s.owners p) ∧
    (∀ k ∈ s.owners p, ∃ scope, s.get? k = some scope ∧ scope.root.isAbove p) ∧ (s.owners p).IsChain s.Outside := by
  have hlive : ∀ k ∈ s.owners p, ∃ scope, s.get? k = some scope ∧ scope.root.isAbove p := by
    intro k hk
    obtain ⟨scope, hs, hcov⟩ := h.ranked.sound.innermost _ k hk
    have hlt := h.ranked.owner_shorter hk hs
    refine ⟨scope, hs, isAbove_iff_covers.mpr ⟨hcov (.inl (h.indexed hs)), ?_⟩⟩
    rintro rfl
    exact Nat.lt_irrefl _ hlt
  have hlength := length_le_slots h.ranked.nodup_owners fun k hk => (hlive k hk).imp fun _ => And.left
  refine ⟨fun i => chain_add (Nat.lt_succ_of_le hlength), hlive, ?_⟩
  cases hk : s.innermost? p with
  | none => simp [Scopes.owners, hk, chain]
  | some k =>
    obtain ⟨a, -, hkey⟩ := exists_of_findSome?_eq_some hk
    obtain ⟨scope, hs, -⟩ := h.rooted _ _ hkey
    rw [Scopes.owners, hk]
    exact h.chain_outside hs

-- Runs

-- The given number of insertions leads from some scopes to others, with removals and moves between them.
inductive Evolves (s : Scopes) : Nat → Scopes → Prop
  | refl : Evolves s 0 s
  | insert {n : Nat} {t : Scopes} {scope : Scope} : Evolves s n t → t.Open scope.root scope.parent →
      Evolves s (n + 1) (t.insert scope).2
  | removeBelow {n : Nat} {t : Scopes} (p : Path) : Evolves s n t → Evolves s n (t.removeBelow p)
  | rekey {n : Nat} {t : Scopes} (p : Path) (i j : Nat) : Evolves s n t → t.Clear (p.index j) →
      Evolves s n (t.rekey (p.index i) (p.index j))

theorem Evolves.trans (h : s.Evolves n t) (h' : t.Evolves m u) : s.Evolves (n + m) u := by
  induction h' with
  | refl => exact h
  | insert _ ho ih => exact ih.insert ho
  | removeBelow p _ ih => exact ih.removeBelow p
  | rekey p i j _ hc ih => exact ih.rekey p i j hc

theorem Open.below (h : s.Open r o) : s.Open (r ++ q) o where
  clear k scope hs hc := h.clear k scope hs (covers_trans (covers_append r q) hc)
  linked k hk := (h.linked k hk).imp fun _ ho => ⟨ho.1, isAbove_of_isAbove_covers ho.2 (covers_append r q)⟩

theorem Open.insert (h : s.Open r o) (ht : s.Tidy) (hr : ¬ r.covers scope.root) : (s.insert scope).2.Open r o := by
  have hnew : s.get? (s.insert scope).1 = none := get?_insert_key ht
  refine ⟨fun k old hs => ?_, fun k hk => ?_⟩
  · rw [get?_insert ht] at hs
    split at hs
    · cases hs
      exact hr
    · exact h.clear k old hs
  · obtain ⟨outer, hs, ha⟩ := h.linked k hk
    refine ⟨outer, ?_, ha⟩
    rw [get?_insert ht, if_neg, hs]
    rintro rfl
    rw [hnew] at hs
    cases hs

-- Attaching makes nothing but such insertions if no declared path covers another.
theorem graftable_evolves (s : Scopes) (origin : Origin) :
    Graftable origin (fun t => t.Coherent ∧ ∃ n, s.Evolves n t) Open fun _ _ => True where
  field _ := trivial
  item h := h.below
  insert := by
    rintro t r o v schema ⟨hc, n, ht⟩ ho - hw added
    refine ⟨⟨hc.insert ho, n + 1, ht.insert ho⟩, fun e he => ?_⟩
    have habove : r.isAbove (r ++ e.1) := isAbove_iff.mpr ⟨e.1, (hw.declared he).1, rfl⟩
    refine ⟨((ho.below (q := e.1)).insert hc.tidy (not_covers_of_isAbove habove)).clear, fun k hk => ?_⟩
    cases hk
    exact ⟨_, by rw [get?_insert hc.tidy, if_pos rfl], habove⟩
  frame {t r q o scope} hj ho ha hq := by
    refine ho.insert hj.1.tidy fun hr => ?_
    exact (covers_total hq hr).elim ha.1 ha.2

theorem Coherent.attach (h : s.Coherent) {schema : Schema} (hw : schema.Meets .wellFormed) (ho : s.Open r o) :
    ∃ n, s.Evolves n (schema.attach o origin r value s) := by
  have hg := graftable_evolves s origin
  obtain ⟨hj, hfields⟩ := hg.insert ⟨h, 0, .refl⟩ ho (v := value) trivial hw
  rw [Schema.attach_eq]
  exact (hg.attachFields hw trivial hj hfields).2

end Scopes
end Dossier

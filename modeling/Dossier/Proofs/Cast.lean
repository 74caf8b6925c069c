import Dossier.Proofs.Casting

-- A cast of an exact value is exact wherever nothing is declared.

namespace Dossier

open Value Path List

-- Values that are exact wherever nothing is declared

namespace Cursor

-- At a place, a value is exact wherever nothing is declared.
def Clean (c : Cursor) (x : Value) : Prop :=
  ∀ r : Path, r.Spelled → (r.foldl step c).isRaw → ∀ u, x.get? r = some u → u.Exact

variable {c : Cursor}

theorem clean_of_exact (h : x.Exact) : c.Clean x :=
  fun _ _ _ _ hu => h.get? hu

theorem Clean.exact (h : c.Clean x) (hc : c.isRaw) : x.Exact :=
  h [] (by simp) hc x (by simp)

theorem Clean.alike (h : c.Clean x) (ha : Alike c c') (hv : c.Meets .noVariants) : c'.Clean x :=
  fun r hr hraw => h r hr (by rwa [(ha.foldl hv).isRaw])

theorem Clean.part (h : c.Clean x) (hp : p.Spelled) (hy : x.get? p = some y) : (p.foldl step c).Clean y := by
  intro r hr hraw u hu
  refine h (p ++ r) (spelled_append.mpr ⟨hp, hr⟩) (by rwa [foldl_append]) u ?_
  rw [Value.get?_append, hy]
  exact hu

theorem Clean.child {seg : Seg} (h : c.Clean x) (hs : seg.Spelled) (hy : x.child? seg = some y) :
    (c.step seg).Clean y := by
  intro r hr hraw u hu
  refine h (seg :: r) (by simp [hs, hr]) hraw u ?_
  rw [get?, hy]
  exact hu

theorem clean_field (h : ∀ seg y, seg.Spelled → x.child? seg = some y → (step (.field f v) seg).Clean y) :
    (Cursor.field f v).Clean x := by
  intro r hr hraw u hu
  match r with
  | [] => cases hraw
  | seg :: r =>
    have ⟨hs, hr⟩ := spelled_cons.mp hr
    rw [get?] at hu
    cases hy : x.child? seg with
    | none => simp [hy] at hu
    | some y =>
      rw [hy] at hu
      exact h seg y hs hy r hr hraw u hu

theorem Clean.setFrom (h : c.Clean x) (hp : p.Spelled) (hy : (p.foldl step c).Clean y) :
    c.Clean (setFrom full y p x).2 := by
  intro r hr hraw u hu
  cases hok : (Value.setFrom full y p x).1 with
  | error e =>
    rw [(setFrom_of_error hok).1] at hu
    exact h r hr hraw u hu
  | ok =>
    by_cases hpr : p.covers r
    · obtain ⟨t, rfl⟩ := covers_iff.mp hpr
      rw [get?_append, get?_setFrom_self hok] at hu
      rw [foldl_append] at hraw
      exact hy t (spelled_append.mp hr).2 hraw u hu
    by_cases hrp : r.covers p
    · -- The write goes on inside a place at which nothing is declared.
      obtain ⟨t, rfl⟩ := covers_iff.mp hrp
      rw [get?_setFrom_append hok] at hu
      rw [foldl_append] at hy
      have hold : ((x.get? r).getD .null).Exact := by
        cases hx : x.get? r with
        | none => exact exact_null
        | some w => exact h r hr hraw w hx
      cases hu
      exact hold.setFrom (hy.exact (isRaw_foldl hraw))
    · rw [get?_setFrom_apart ⟨hrp, hpr⟩ hr hp] at hu
      exact h r hr hraw u hu

end Cursor

-- Embedded documents

namespace Path

-- The path that the texts of the segments stand for.
def respell (p : Path) : Path :=
  p.map fun seg => .spell seg.toKey

theorem respell_spelled (p : Path) : p.respell.Spelled := by
  intro seg hs
  obtain ⟨t, -, rfl⟩ := mem_map.mp hs
  exact Seg.spell_spelled _

theorem Spelled.respell {p : Path} (h : p.Spelled) : p.respell = p :=
  (map_congr_left h).trans (map_id p)

end Path

-- A write through keys meets no arrays, so their spelling does not matter.
theorem Value.setFrom_respell {x : Value} {p full : Path} (hk : ∀ seg ∈ p, seg.index? = none)
    (hok : (setFrom full y p x).1 = .ok ()) : setFrom full y p.respell x = setFrom full y p x := by
  induction p generalizing x with
  | nil => rfl
  | cons seg p ih =>
    have ⟨hs, hk⟩ := forall_mem_cons.mp hk
    rcases openFields?_cases x with ⟨fs, hf⟩ | ⟨items, rfl⟩
    · rw [setFrom_cons_of_openFields hf] at hok ⊢
      rw [Path.respell, map_cons, setFrom_cons_of_openFields hf, Seg.toKey_spell, ← Path.respell,
        ih hk hok]
    · match seg, hs with
      | .key k, _ => cases hok

theorem Cursor.Clean.set {c : Cursor} {y out : Value} (h : c.Clean x) (hk : ∀ seg ∈ p, seg.index? = none)
    (hset : x.set p y = (.ok (), out)) (hy : (p.respell.foldl step c).Clean y) : c.Clean out := by
  have hclean : c.Clean (Value.setFrom p y p.respell x).2 := h.setFrom (respell_spelled p) hy
  rw [setFrom_respell hk (congrArg Prod.fst hset)] at hclean
  rwa [show out = (x.set p y).2 by rw [hset]]

-- Fields

theorem Cursor.Clean.keepName {c : Cursor} {input : Value} {key : String} (h : c.Clean x) :
    c.Clean (input.keepName key x) := by
  unfold Value.keepName
  split
  · case _ name fields _ =>
    have hset : c.Clean (Value.setFrom [] (.str name) [.spell key] (.obj fields)).2 :=
      h.setFrom (by simp [Seg.spell_spelled]) (clean_of_exact (exact_str name))
    rwa [setFrom_cons_of_openFields rfl, Seg.toKey_spell] at hset
  · exact h

theorem Cursor.clean_scalar {v : Option Value} {x : Value} (h : ∀ seg, x.child? seg = none) :
    (Cursor.field f v).Clean x :=
  clean_field fun seg y _ hy => by simp [h seg] at hy

open Cast Cursor

theorem Cursor.clean_items {xs : List Value} (hel : ∀ i, ∃ d', step (.field f d) (.index i) = .field el d')
    (hv : el.Meets .noVariants) (h : ∀ x ∈ xs, (Cursor.field el none).Clean x) :
    (Cursor.field f d).Clean (.arr xs) := by
  refine clean_field fun seg y _ hy => ?_
  cases seg with
  | key => cases hy
  | index i =>
    obtain ⟨d', hd⟩ := hel i
    rw [hd]
    exact (h y (mem_of_getElem? hy)).alike .field hv

theorem Cursor.Clean.ofSub (h : (Cursor.schema sub.base Path.root none).Clean x) (hf : f.type = .embedded sub)
    (hv : sub.Meets .noVariants) : (Cursor.field f none).Clean x := by
  refine clean_field fun seg y hs hy => ?_
  simp only [step, stepField, hf, SubSchema.selectOrBase_of_noVariants hv]
  exact h.child hs hy

section Plain

variable {f : Field} {sub : SubSchema}

theorem Field.Meets.noVariants (h : f.Meets .plain) : f.Meets .noVariants :=
  fun part hp => (h part hp).2.2.1

theorem SubSchema.Meets.noVariants (h : sub.Meets .plain) : sub.Meets .noVariants :=
  fun part hp => (h part hp).2.2.1

theorem Schema.Meets.wellFormed {s : Schema} (h : s.Meets .plain) : s.Meets .wellFormed :=
  fun part hp => (h part hp).2.2.2

end Plain

theorem Field.Casts.clean (h : f.Casts (fun t _ w => ∀ rules, (Cursor.field ⟨t, rules⟩ none).Clean w) v w) :
    (Cursor.field f none).Clean w := by
  rcases h with ⟨-, -, rfl⟩ | ⟨-, h⟩
  · exact clean_scalar fun _ => rfl
  · cases f
    exact h _

theorem Cast.study_clean : Study (fun P c _ => Gives c P) Eq .plain Value.Exact
    (fun t _ w => ∀ rules, (Cursor.field ⟨t, rules⟩ none).Clean w)
    (fun _ s _ out => (Cursor.schema s Path.root none).Clean out) where
  logic := logic_gives
  mode h := congrArg _ h
  part r h := h ▸ rfl
  inner h := h ▸ rfl
  items := exact_arr_iff.mp
  fields h := (exact_obj_iff.mp h).2
  setters hr _ hv := by
    rw [setters_eq_pure hr.1]
    exact gives_pure hv
  raw hr _ _ := rawDefault_gives (fun _ hd => hr.2.1 _ hd) (fun _ _ hd hg => hr.2.1 _ hd _ _ hg) fun _ => exact_str _
  single hv _ hr rules := by
    rcases hr.kept with rfl | hnone
    · exact clean_of_exact hv
    · exact clean_scalar hnone
  array {t el _ _} ht harr hel _ hlen hws rules := by
    have hnone : t.Meets .noVariants := fun part hp => (ht part hp).2.2.1
    have hstep : ∀ i, ∃ d, step (.field ⟨t, rules⟩ none) (.index i) = .field el d := by
      cases t with
      | array | documentArray =>
        cases hel
        exact fun i => ⟨_, rfl⟩
      | string | number | boolean | date | id | mixed | map | embedded => cases harr
    exact clean_items hstep (hnone.item trivial hel) (forall_of_zip hlen hws fun _ he => he.clean)
  map {el _ es} hel _ hkeys hes rules := by
    have hclean : ∀ e ∈ es, (Cursor.field el none).Clean e.2 :=
      forall_of_zip (by simpa using congrArg List.length hkeys) hes fun _ he => he.clean
    exact clean_field fun seg y _ hy => (hclean _ (Entries.mem_of_get? hy)).alike .field hel.noVariants
  embedded {sub s given _} ht ho rules := by
    obtain rfl : s = sub.base := by
      have hbase : sub.selectOrBase (some given) = sub.base := SubSchema.selectOrBase_of_noVariants ht.whole.noVariants
      rwa [SubSchema.selectOrBase, ht.selects] at hbase
    exact ho.keepName.ofSub rfl ht.whole.noVariants
  empty _ := clean_of_exact (exact_obj_iff.mpr ⟨.nil, by simp⟩)
  write ht ho he hset _ _ _ hy := by
    obtain ⟨-, hspelled, hk⟩ := ht.meets.wellFormed.declared he
    refine ho.set hk hset ?_
    rw [hspelled.respell, Schema.foldl_declared ht.meets.wellFormed.apart he]
    exact hy.clean
  null _ ho _ _ _ hoffer hset := ho.set hoffer.keys hset (clean_of_exact exact_null)
  loose _ ho _ _ _ _ hoffer hx hset := ho.set hoffer.keys hset (clean_of_exact hx)

theorem Field.cast_clean (f : Field) (hf : f.Meets .plain) (ctx : CastContext) (v : Value) (hv : v.Exact) :
    Gives (f.cast ctx v) (Cursor.field f none).Clean :=
  (f.study_cast study_clean hf ctx ctx v rfl hv).mono fun _ hw => hw.clean

theorem Field.accept_clean (hf : f.Meets .plain) (ctx : CastContext) (hv : v.Exact) :
    Gives (f.accept ctx v) (Cursor.field f none).Clean := by
  have hs : f.rules.setters = [] := hf.rules.1
  simp only [Field.accept, Caster.accept, Field.caster, Cast.setters, hs, reverse_nil,
    foldlM_nil, pure_bind]
  exact f.cast_clean hf ctx v hv

end Dossier

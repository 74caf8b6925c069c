import Dossier.Proofs.Likeness
import Dossier.Proofs.ReferenceArrays
import Dossier.Proofs.Ways

-- A value is sated at a place if null is nowhere in it but in fields that are nullable or let off.

namespace Dossier

open Value Path List

-- What a write leaves

namespace Value

variable {w : Value}

theorem Has.of_setFrom_distinct (h : (setFrom full y p v).2.Has q) (hd : p.Distinct q) : v.Has q := by
  induction p generalizing v q with
  | nil => exact absurd nil_prefix hd.1
  | cons seg p ih =>
    cases ht : v.takes seg with
    | false =>
      obtain ⟨e, he⟩ := setFrom_refused full y p ht
      rwa [he] at h
    | true =>
      rw [setFrom_cons ht] at h
      cases q with
      | nil => exact .here
      | cons b q =>
        obtain ⟨hb, c, hc, hq⟩ := has_cons.mp h
        rcases fits_putChild_cases ht hb hc with ⟨hb, hc, -⟩ | ⟨hk, rfl, hold⟩
        · exact has_cons.mpr ⟨hb, c, hc, hq⟩
        · have hrest : Path.Distinct p q := (cons_distinct_cons.mp hd).resolve_left fun hne => hne hk
          have hq := ih hq hrest
          cases hx : v.child? seg with
          | some x =>
            rw [hx] at hq
            exact has_cons.mpr ⟨(hold x hx).1, x, (hold x hx).2, hq⟩
          | none =>
            rw [hx] at hq
            cases hq
            exact absurd nil_prefix hrest.2

theorem Has.of_setFrom_self (h : (setFrom full y p v).2.Has q) (hq : q.map Seg.toKey = p.map Seg.toKey)
    (hp : (v.get? p).isSome) : v.Has q := by
  induction p generalizing v q with
  | nil =>
    obtain rfl : q = [] := by simpa using hq
    exact .here
  | cons seg p ih =>
    rw [get?_cons] at hp
    obtain ⟨c, hc, hsome⟩ : ∃ c, v.child? seg = some c ∧ (c.get? p).isSome := by
      cases hc : v.child? seg with
      | none => simp [hc] at hp
      | some c => exact ⟨c, rfl, by simpa [hc] using hp⟩
    rw [setFrom_cons (takes_of_child? hc), hc] at h
    cases q with
    | nil => cases hq
    | cons b q =>
      obtain ⟨hk, hrest⟩ := List.cons.inj hq
      obtain ⟨hb, d, hd, h⟩ := has_cons.mp h
      obtain ⟨-, -, hne⟩ | ⟨-, rfl, hold⟩ := fits_putChild_cases (takes_of_child? hc) hb hd
      · exact absurd hk.symm hne
      · exact has_cons.mpr ⟨(hold c hc).1, c, (hold c hc).2, ih h hrest hsome⟩

theorem get?_ne_null_of_above (hp : (w.get? p).isSome) (hq : q.map Seg.toKey <+: p.map Seg.toKey)
    (hne : q.map Seg.toKey ≠ p.map Seg.toKey) : w.get? q ≠ some .null := by
  intro hnull
  obtain ⟨t, ht⟩ := hq
  obtain ⟨p, r, rfl, hp', rfl⟩ := map_eq_append_iff.mp ht.symm
  rw [get?_append] at hp
  obtain ⟨x, hx⟩ := Option.isSome_iff_exists.mp hp
  obtain ⟨c, hc, hx⟩ := Option.bind_eq_some_iff.mp hx
  obtain rfl := eq_of_get?_keys hp' hc hnull
  cases r with
  | nil => simp [hp'] at hne
  | cons => simp [get?, child?] at hx

end Value

-- Places in documents

namespace Cursor

variable {c : Cursor} {p : Path}

-- The place that a path leads to in a value, together with what it has there.
def Shows (v : Value) (p : Path) : Cursor → Prop
  | .schema _ place doc => ∃ root, p = root ++ place ∧ doc = v.get? root
  | .field _ o => o = v.get? p
  | .inMixed | .lost => True

theorem shows_stepSchema (h : Shows v p (.schema s q o)) (hw : s.Meets .wellFormed) (hseg : seg.Bounded) :
    Shows v (p ++ [seg]) (stepSchema s q o seg) := by
  obtain ⟨root, rfl, rfl⟩ := h
  have hkey : ∀ {e : Path × Field} {t : Path}, e ∈ s.fields → e.1 = q.key seg.toKey ++ t → q.key seg.toKey = q ++ [seg] := by
    intro e t he heq
    have hspelled := (hw.declared he).2.1
    have hk : (Seg.key seg.toKey).Spelled := hspelled _ (by rw [heq, Path.key]; simp)
    rw [Path.key, ← Seg.eq_key_of_toKey hk hseg rfl]
  simp only [stepSchema]
  split
  · case _ f hf =>
    rw [hkey (t := []) (Schema.mem_of_field? hf) (by simp), ← get?_append, append_assoc]
    exact rfl
  · split
    · case isTrue hn =>
      simp only [Schema.isNested, Bool.and_eq_true, any_eq_true] at hn
      obtain ⟨-, e, he, ha⟩ := hn
      obtain ⟨t, -, ht⟩ := isAbove_iff.mp ha
      rw [hkey he ht]
      exact ⟨root, append_assoc .., rfl⟩
    · trivial

theorem Shows.step (h : c.Shows v p) (hw : c.Meets .wellFormed) (hseg : seg.Bounded) :
    (c.step seg).Shows v (p ++ [seg]) := by
  cases c with
  | schema => exact shows_stepSchema h hw hseg
  | inMixed | lost => trivial
  | field f o =>
    refine step_field (P := fun c => c.Shows v (p ++ [seg])) trivial trivial (fun sub hs => ?_)
      fun _ _ => ?_
    · have ht := Field.Meets.type hw
      rw [hs] at ht
      exact shows_stepSchema ⟨p, (append_nil p).symm, h⟩ (FieldType.Meets.sub (.inl ht)).selectOrBase hseg
    · rw [show o = v.get? p from h, ← get?_concat]
      exact rfl

theorem shows_foldl (hw : s.Meets .wellFormed) (hp : p.Bounded) :
    (p.foldl Cursor.step (.schema s Path.root (some v))).Shows v p := by
  induction p using List.reverseRecOn with
  | nil => exact ⟨[], rfl, (get?_nil v).symm⟩
  | append_singleton p seg ih =>
    obtain ⟨hp, hseg⟩ := bounded_append.mp hp
    rw [foldl_append]
    exact (ih hp).step (Cursor.Meets.foldl hw trivial) (hseg seg mem_cons_self)

theorem step_respelled (ho : ∀ y, o = some y → y = x) (hseg : x.Has [seg]) (hsome : (x.get? [seg']).isSome)
    (hkey : seg.toKey = seg'.toKey) :
    step (.field f o) seg = step (.field f o) seg' ∨ (step (.field f o) seg).isRaw := by
  cases hseg with
  | @item xs i =>
    cases seg' with
    | key => simp [get?, child?] at hsome
    | index j =>
      obtain rfl := Seg.index_toKey_injective hkey
      exact .inl rfl
  | @field fs k =>
    have hchild : o.bind (·.child? (.key k)) = o.bind (·.child? seg') := by
      cases o with
      | none => rfl
      | some y =>
        obtain rfl := ho y rfl
        simp only [Option.bind_some, child?, hkey]
    simp only [step, stepField]
    split
    · exact .inr rfl
    · exact .inl (by simp only [stepSchema, hkey])
    · exact .inr rfl
    · exact .inr rfl
    · rw [hchild]
      exact .inl rfl
    · exact .inr rfl

theorem foldl_respelled (hq : v.Has q) (hp : (v.get? p).isSome) (hkeys : q.map Seg.toKey = p.map Seg.toKey) :
    q.foldl Cursor.step (.schema s Path.root (some v)) = p.foldl Cursor.step (.schema s Path.root (some v)) ∨
      (q.foldl Cursor.step (.schema s Path.root (some v))).isRaw := by
  induction q using List.reverseRecOn generalizing p with
  | nil =>
    obtain rfl : p = [] := by simpa using hkeys.symm
    exact .inl rfl
  | append_singleton q seg ih =>
    rw [map_append, map_singleton] at hkeys
    obtain ⟨p, r, rfl, hp', hr⟩ := map_eq_append_iff.mp hkeys.symm
    obtain ⟨seg', rfl, hkey⟩ := map_eq_singleton_iff.mp hr
    obtain ⟨hq, x, hx, hseg⟩ := has_append.mp hq
    rw [get?_append] at hp
    obtain ⟨z, hz⟩ := Option.isSome_iff_exists.mp hp
    obtain ⟨y, hy, hz⟩ := Option.bind_eq_some_iff.mp hz
    obtain rfl := eq_of_get?_keys hp' hy hx
    rw [foldl_append, foldl_append]
    rcases ih hq (by rw [hy]; rfl) hp'.symm with heq | hraw
    · have hreads := reads_foldl s v q
      rw [← heq]
      generalize q.foldl Cursor.step (.schema s Path.root (some v)) = c at hreads
      cases c with
      | schema t place doc =>
        simp only [foldl_cons, foldl_nil, step, stepSchema, hkey]
        exact .inl trivial
      | inMixed | lost => exact .inr rfl
      | field f o =>
        refine step_respelled (fun y' hy' => ?_) hseg (by rw [hz]; rfl) hkey.symm
        have := hreads y' hy'
        rw [hx] at this
        exact (Option.some.inj this).symm
    · exact .inr (isRaw_foldl hraw)

theorem resolution_ne_field (h : c.isRaw) : c.resolution ≠ .field f := by
  cases c with
  | schema | field => cases h
  | inMixed | lost => exact Resolution.noConfusion

theorem foldl_place (hp : p ≠ []) (h : p.foldl Cursor.step c = .schema t place o) : place ≠ [] := by
  rcases eq_nil_or_concat p with rfl | ⟨p', seg, rfl⟩
  · exact absurd rfl hp
  · rw [concat_eq_append, foldl_append] at h
    exact step_place h

end Cursor

-- Sated values

-- Null is in a document only where a field is nullable or let off.
def Schema.Sated (A : Field → Prop) (s : Schema) (v : Value) : Prop :=
  ∀ p f, v.Has p → p.Bounded → s.resolve v p = .field f → v.get? p = some .null → f.rules.nullable ∨ A f

-- Null is in the value of a field only where a field is nullable or let off.
def Field.Sated (A : Field → Prop) (g : Field) (x : Value) : Prop :=
  ∀ r f, x.Has r → r.Bounded → (r.foldl Cursor.step (.field g (some x))).resolution = .field f →
    x.get? r = some .null → f.rules.nullable ∨ A f

namespace Schema

variable {s : Schema}

theorem Sated.field (h : s.Sated A v) (hw : s.Meets .wellFormed) (hp : v.Has p) (hb : p.Bounded)
    (hr : s.resolve v p = .field g) (hx : v.get? p = some x) : g.Sated A x := by
  intro r f hhas hrb hf hnull
  refine h (p ++ r) f (has_append.mpr ⟨hp, x, hx, hhas⟩) (bounded_append.mpr ⟨hb, hrb⟩) ?_ ?_
  · have hshows := Cursor.shows_foldl (v := v) hw hb
    rw [resolve] at hr
    rw [resolve, foldl_append]
    generalize p.foldl Cursor.step (.schema s Path.root (some v)) = c at hr hshows
    cases c with
    | schema => simp only [Cursor.resolution] at hr; split at hr <;> cases hr
    | inMixed | lost => cases hr
    | field g' o =>
      cases hr
      rw [show o = some x from Eq.trans hshows hx]
      exact hf
  · rw [get?_append, hx]
    exact hnull

end Schema

namespace Document

variable {d : Document}

theorem resolve_of_set (hp : ∀ g, d.Governs p g → p.Distinct g) (hok : (d.value.set p x).1 = .ok ())
    (hq : (d.value.set p x).2.Has q) (hout : ∀ y : Path, y.isAbove q → ¬ p.map Seg.toKey <+: y.map Seg.toKey) :
    d.schema.resolve (d.value.set p x).2 q = d.resolve q := by
  refine Schema.resolve_congr (fun y fld sub r hy hfld hsub hr => ?_) (covers_refl q)
  by_cases hv : sub.variants = []
  · simp [SubSchema.selectOrBase, SubSchema.select, SubSchema.variant?, hv]
  refine SubSchema.selectOrBase_eq ?_
  suffices hd : p.Distinct (r.key sub.discriminatorKey) by
    rw [← get?_key, ← get?_key, get?_set_distinct hd]
  have hself : (d.value.set p x).2.get? p = some x := get?_setFrom_self hok
  by_cases hyp : y.map Seg.toKey <+: p.map Seg.toKey
  · -- The document is on the way to the path, so the path spares the key of its variant.
    obtain ⟨t, ht⟩ := hyp
    obtain ⟨p₁, p₂, hpp, hp₁, rfl⟩ := map_eq_append_iff.mp ht.symm
    have hsome : ((d.value.set p x).2.get? p₁).isSome := by
      rw [hpp, get?_append] at hself
      obtain ⟨c, hc, -⟩ := Option.bind_eq_some_iff.mp hself
      rw [hpp, hc]
      rfl
    have hcover : Path.covers p₁ p := covers_iff.mpr ⟨p₂, hpp⟩
    have habove : Path.isAbove p₁ p := by
      refine (eq_or_isAbove_of_covers hcover).resolve_left ?_
      rintro rfl
      exact hout y hy (hp₁ ▸ prefix_rfl)
    have hres : d.resolve p₁ = .field fld := by
      rw [← resolve_set hp x hcover, ← hfld]
      rcases Cursor.foldl_respelled (s := d.schema) (hq.of_covers (covers_of_isAbove hy)) hsome hp₁.symm with h | h
      · rw [Schema.resolve, Schema.resolve, h]
      · exact absurd hfld (Cursor.resolution_ne_field h)
    have hd := hp _ ⟨p₁, fld, sub, habove, hres, hsub, hv, rfl⟩
    simpa only [Path.Distinct, Path.key, map_append, hr, hp₁] using hd
  · refine ⟨fun h => ?_, fun h => ?_⟩
    · rw [Path.key, map_append, hr, map_singleton, prefix_concat_iff] at h
      rcases h with h | h
      · exact hyp (h ▸ prefix_append ..)
      · exact hout y hy h
    · rw [Path.key, map_append, hr] at h
      exact hyp ((prefix_append ..).trans h)

theorem sated_below (hw : d.schema.Meets .wellFormed) (hp : ∀ g, d.Governs p g → p.Distinct g) (hne : p ≠ [])
    (hok : (d.value.set p x).1 = .ok ()) (hkeys : q.map Seg.toKey = p.map Seg.toKey)
    (hfield : ∀ g, d.schema.resolve (d.value.set p x).2 q = .field g → g.Sated A x)
    (hnested : d.resolve p = .nested → ∀ r, x.Has r → r = []) (hhas : (d.value.set p x).2.Has (q ++ r))
    (hb : Path.Bounded (q ++ r)) (hf : d.schema.resolve (d.value.set p x).2 (q ++ r) = .field f)
    (hnull : (d.value.set p x).2.get? (q ++ r) = some .null) : f.rules.nullable ∨ A f := by
  have hself : (d.value.set p x).2.get? p = some x := get?_setFrom_self hok
  obtain ⟨hq, c, hc, hr⟩ := has_append.mp hhas
  obtain ⟨hqb, hrb⟩ := bounded_append.mp hb
  obtain rfl := eq_of_get?_keys hkeys hc hself
  rw [get?_append, hc] at hnull
  have hcursor := Cursor.foldl_respelled (s := d.schema) hq (by rw [hself]; rfl) hkeys
  have hshows := Cursor.shows_foldl (v := (d.value.set p c).2) hw hqb
  have hgroup : d.schema.resolve (d.value.set p c).2 p = d.resolve p := resolve_set hp c (covers_refl p)
  rw [Schema.resolve, foldl_append] at hf
  rw [Schema.resolve] at hfield hgroup
  generalize hcur : q.foldl Cursor.step (.schema d.schema Path.root (some (d.value.set p c).2)) = cur
    at hfield hf hcursor hshows
  cases cur with
  | inMixed | lost => exact absurd hf (Cursor.resolution_ne_field (Cursor.isRaw_foldl rfl))
  | field g o =>
    rw [show o = some c from Eq.trans hshows hc] at hf
    exact hfield g rfl r f hr hrb hf hnull
  | schema t place doc =>
    have hplace : place ≠ [] := by
      refine Cursor.foldl_place (fun hnil => hne ?_) hcur
      rw [hnil] at hkeys
      simpa using hkeys.symm
    rw [← hcursor.resolve_right Bool.noConfusion, Cursor.resolution, if_neg (by simpa using hplace)] at hgroup
    rw [hnested hgroup.symm r hr, foldl_nil, Cursor.resolution, if_neg (by simpa using hplace)] at hf
    cases hf

theorem sated_set (h : d.schema.Sated A d.value) (hw : d.schema.Meets .wellFormed)
    (hp : ∀ g, d.Governs p g → p.Distinct g) (hne : p ≠ [])
    (hfield : (d.value.set p x).1 = .ok () → ∀ q g, q.map Seg.toKey = p.map Seg.toKey → (d.value.set p x).2.Has q →
      q.Bounded → d.schema.resolve (d.value.set p x).2 q = .field g → g.Sated A x)
    (hnested : d.resolve p = .nested → ∀ r, x.Has r → r = []) : d.schema.Sated A (d.value.set p x).2 := by
  cases hok : (d.value.set p x).1 with
  | error e =>
    rw [show (d.value.set p x).2 = d.value from (setFrom_of_error hok).1]
    exact h
  | ok =>
    intro q f hq hb hf hnull
    by_cases hbelow : p.map Seg.toKey <+: q.map Seg.toKey
    · obtain ⟨t, ht⟩ := hbelow
      obtain ⟨q, r, rfl, hkeys, rfl⟩ := map_eq_append_iff.mp ht.symm
      refine sated_below hw hp hne hok hkeys (fun g hg => ?_) hnested hq hb hf hnull
      exact hfield hok q g hkeys (has_append.mp hq).1 (bounded_append.mp hb).1 hg
    by_cases habove : q.map Seg.toKey <+: p.map Seg.toKey
    · have hsome : ((d.value.set p x).2.get? p).isSome := by
        rw [show (d.value.set p x).2.get? p = some x from get?_setFrom_self hok]
        rfl
      exact absurd hnull (get?_ne_null_of_above hsome habove fun heq => hbelow (heq ▸ prefix_rfl))
    · have hd : p.Distinct q := ⟨hbelow, habove⟩
      have hout (y : Path) (hy : y.isAbove q) : ¬ p.map Seg.toKey <+: y.map Seg.toKey := fun hpy =>
        hbelow (hpy.trans ((covers_iff_initial.mp (covers_of_isAbove hy)).map _))
      rw [resolve_of_set hp hok hq hout] at hf
      rw [get?_set_distinct hd] at hnull
      exact h q f (Has.of_setFrom_distinct hq hd) hb hf hnull

theorem resolve_of_alias (hp : ∀ g, d.Governs p g → p.Distinct g) (hok : (d.value.set p x).1 = .ok ())
    (hkeys : q.map Seg.toKey = p.map Seg.toKey) (hq : (d.value.set p x).2.Has q)
    (hg : d.schema.resolve (d.value.set p x).2 q = .field g) : d.resolve p = .field g := by
  have hsome : ((d.value.set p x).2.get? p).isSome := by
    rw [show (d.value.set p x).2.get? p = some x from get?_setFrom_self hok]
    rfl
  rcases Cursor.foldl_respelled (s := d.schema) hq hsome hkeys with h | h
  · rw [← resolve_set hp x (covers_refl p), ← hg, Schema.resolve, Schema.resolve, h]
  · exact absurd hg (Cursor.resolution_ne_field h)

theorem sated_write (h : d.schema.Sated A d.value) (hw : d.schema.Meets .wellFormed)
    (hp : ∀ g, d.Governs p g → p.Distinct g) (hne : p ≠ []) (hfield : ∀ g, d.resolve p = .field g → g.Sated A x)
    (hnested : d.resolve p = .nested → ∀ r, x.Has r → r = []) : d.schema.Sated A (d.value.set p x).2 :=
  sated_set h hw hp hne (fun hok _ g hkeys hq _ hg => hfield g (resolve_of_alias hp hok hkeys hq hg)) hnested

end Document

-- Sated fields

namespace Field

variable {g : Field}

theorem sated_null (h : g.rules.nullable ∨ A g) : g.Sated A .null := by
  intro r f hr _ hf _
  cases hr
  cases hf
  exact h

theorem sated_of_not_structural (ht : ¬ g.type.isStructural) (hx : x = .null → g.rules.nullable ∨ A g) :
    g.Sated A x := by
  intro r f _ _ hf hnull
  by_cases hr : r = []
  · subst hr
    cases hf
    rw [get?_nil] at hnull
    exact hx (Option.some.inj hnull)
  · exact absurd hf (Cursor.resolution_ne_field (Cursor.isRaw_of_not_structural ht hr))

theorem sated_text : g.Sated A (.str t) := by
  intro r f hr _ _ hnull
  cases hr
  cases hnull

theorem step_item (ha : g.type.isArray) (hel : g.element? = some el) :
    Cursor.step (.field g (some (.arr xs))) (.index i) = .field el xs[i]? := by
  rw [element?] at hel
  split at hel
  · case _ ht => cases hel; simp [Cursor.step, Cursor.stepField, ht, Seg.index?, child?]
  · case _ ht => rw [ht] at ha; cases ha
  · case _ ht => cases hel; simp [Cursor.step, Cursor.stepField, ht, Seg.index?, child?]
  · cases hel

theorem Sated.append (h : g.Sated A (.arr xs)) (ha : g.type.isArray) (hel : g.element? = some el)
    (hys : ∀ y ∈ ys, el.Sated A y) : g.Sated A (.arr (xs ++ ys)) := by
  intro r f hr hb hf hnull
  cases hr with
  | here => cases hnull
  | @item _ i c r hc hr =>
    rw [foldl_cons, step_item ha hel, hc] at hf
    rw [get?_item hc] at hnull
    by_cases hi : i < xs.length
    · rw [getElem?_append_left hi] at hc
      refine h (.index i :: r) f (.item hc hr) hb ?_ ?_
      · rw [foldl_cons, step_item ha hel, hc]
        exact hf
      · rw [get?_item hc]
        exact hnull
    · rw [getElem?_append_right (Nat.le_of_not_lt hi)] at hc
      exact hys c (mem_of_getElem? hc) r f hr (forall_mem_cons.mp hb).2 hf hnull

theorem sated_nil (hxs : xs = []) : g.Sated A (.arr xs) := by
  subst hxs
  intro r f hr _ _ hnull
  cases hr with
  | here => cases hnull
  | item hc => cases hc

theorem sated_arr (ha : g.type.isArray) (hel : g.element? = some el) (hxs : ∀ x ∈ xs, el.Sated A x) :
    g.Sated A (.arr xs) :=
  (sated_nil rfl : g.Sated A (.arr [])).append ha hel hxs

theorem sated_map (ht : g.type = .map el) (hes : ∀ e ∈ es, el.Sated A e.2) : g.Sated A (.obj es) := by
  intro r f hr hb hf hnull
  cases hr with
  | here => cases hnull
  | @field _ k c r hc hr =>
    rw [get?_field hc] at hnull
    simp only [foldl_cons, Cursor.step, Cursor.stepField, ht, Option.bind_some, child?, Seg.toKey, hc] at hf
    exact hes _ (Entries.mem_of_get? hc) r f hr (forall_mem_cons.mp hb).2 hf hnull

theorem sated_embedded (ht : g.type = .embedded sub)
    (h : (sub.selectOrBase (some (.obj fields))).Sated A (.obj fields)) : g.Sated A (.obj fields) := by
  intro r f hr hb hf hnull
  cases r with
  | nil => cases hnull
  | cons seg r =>
    refine h (seg :: r) f hr hb ?_ hnull
    rw [← hf, Schema.resolve]
    simp only [foldl_cons, Cursor.step, Cursor.stepField, ht]

end Field

end Dossier

import Dossier.Proofs.Intake
import Dossier.Proofs.Ways

-- A document is completed from what was given to it, by casts and by the defaults that there is room for.

namespace Dossier

open Cast Path Entries List

-- One document

-- A document was completed by a schema from an object.
structure Schema.Completed (s : Schema) (v w : Value) : Prop where
  -- The name of a variant is kept as it was given.
  given  : ∀ p f x, (p, f) ∈ s.fields → v.get? p = some x →
    ∃ y, w.get? p = some y ∧ (f.cast? x = some y ∨ ∃ name, x = .str name ∧ y = x)
  filled : ∀ p f y, (p, f) ∈ s.fields → v.Room p → f.initial? = some y → w.get? p = some y
  -- What is new belongs to a value that was cast, or to a default.
  added  : ∀ p, w.Has p → ¬ v.Has p → ∃ q f, (q, f) ∈ s.fields ∧ ((v.get? q).isSome ∧ q.covers p ∨
    ∃ y, v.Room q ∧ f.initial? = some y ∧ (q.covers p ∨ p.isAbove q ∧ ∃ fs, w.get? p = some (.obj fs)))

namespace Schema

open Value

variable {s : Schema} {v w out : Value} {p : Path} {f : Field}

theorem Meets.starts_with_key (hw : s.Meets .wellFormed) (hf : (p, f) ∈ s.fields) : ∃ k t, p = .key k :: t := by
  obtain ⟨hne, -, hkeys⟩ := hw.declared hf
  cases p with
  | nil => exact absurd rfl hne
  | cons seg t =>
    cases seg with
    | key k => exact ⟨k, t, rfl⟩
    | index => cases (forall_mem_cons.mp hkeys).1

theorem Takes.filled (h : s.Takes v out) (hw : s.Meets .wellFormed) :
    Site.Filled (Site.under [] s.fields) out (out.fillAll (Site.under [] s.fields)) := by
  obtain ⟨fs, rfl⟩ := h.object
  refine Site.filled_fillAll (forall_mem_map.mpr fun e he => ⟨.here, ⟨fs, get?_nil _⟩, (hw.declared he).2.2⟩) ?_
  refine forall_mem_map.mpr fun e he => forall_mem_map.mpr fun e' he' _ _ => ?_
  by_cases hp : e.1 = e'.1
  · have hf := field?_of_mem hw.apart he
    rw [hp, field?_of_mem hw.apart he'] at hf
    exact .inl ⟨hp, (Option.some.inj hf).symm⟩
  · exact .inr (apart_of_mem hw he he' hp)

theorem completed_of_takes (h : s.Takes v out) (hw : s.Meets .wellFormed) :
    s.Completed v (out.fillAll (Site.under [] s.fields)) := by
  have hfilled := h.filled hw
  have hsite : ∀ {p f}, (p, f) ∈ s.fields → ⟨[], p, f⟩ ∈ Site.under [] s.fields := fun hf => mem_map_of_mem hf
  refine ⟨fun p f x hf hx => ?_, fun p f y hf hroom hy => ?_, fun p hp hn => ?_⟩
  · -- What was cast stays: the places that are filled in are elsewhere.
    obtain ⟨y, hcast, hy⟩ := h.cast hw hf hx
    have hhas : out.Has p := has_of_keys (hw.declared hf).2.2 (by rw [hy]; rfl)
    refine ⟨y, ?_, .inl hcast⟩
    rw [hfilled.kept p hhas (forall_mem_map.mpr fun e he hroom hc => ?_), hy]
    have heq : p = e.1 := eq_of_covers_declared hw hf he hc
    exact hroom.not_has (heq ▸ hhas)
  · exact hfilled.filled _ (hsite hf) y ((h.room_iff hw hf).mpr hroom) hy
  · by_cases hold : out.Has p
    · rcases h.within p hold with ⟨e, he, hsome, hc⟩ | ⟨hv, -⟩
      · exact ⟨e.1, e.2, he, .inl ⟨hsome, hc⟩⟩
      · exact absurd hv hn
    · obtain ⟨_, hsite, y, hroom, hy, hcases⟩ := hfilled.added p hp hold
      obtain ⟨e, he, rfl⟩ := mem_map.mp hsite
      exact ⟨e.1, e.2, he, .inr ⟨y, (h.room_iff hw he).mp hroom, hy, hcases⟩⟩

theorem Completed.keepName (h : s.Completed v w) (hw : s.Meets .wellFormed) {key : String} :
    s.Completed v (v.keepName key w) := by
  unfold Value.keepName
  split
  · case _ name gs hname =>
    obtain ⟨fs, rfl⟩ : ∃ fs, v = .obj fs := by
      cases v with
      | obj fs => exact ⟨fs, rfl⟩
      | null | bool | num | str | arr => cases hname
    have hname : Entries.get? key fs = some (.str name) := hname
    refine ⟨fun p f x hf hx => ?_, fun p f y hf hroom hy => ?_, fun p hp hn => ?_⟩
    · obtain ⟨k, t, rfl⟩ := hw.starts_with_key hf
      by_cases hk : key = k
      · subst hk
        rw [get?_field hname] at hx
        rw [get?_field get?_insert_self]
        cases t with
        | cons => cases hx
        | nil =>
          cases hx
          exact ⟨_, get?_nil _, .inr ⟨name, rfl, rfl⟩⟩
      · rw [get?_insert_apart hk]
        exact h.given _ f x hf hx
    · obtain ⟨k, t, rfl⟩ := hw.starts_with_key hf
      have hk : key ≠ k := by
        rintro rfl
        cases hroom with
        | here hk => rw [hname] at hk; cases hk
        | field hk hroom => rw [hname] at hk; cases hk; cases hroom
      rw [get?_insert_apart hk]
      exact h.filled _ f y hf hroom hy
    · obtain rfl | ⟨t, rfl, ht⟩ | ⟨k, t, rfl, hk, hold⟩ := has_insert hp
      · exact absurd .here hn
      · cases ht
        exact absurd (.field hname .here) hn
      · rw [get?_insert_apart hk]
        exact h.added _ hold hn
  · exact h

theorem cast_completed (hw : s.Meets .wellFormed) (hp : s.Meets .passive) {ctx : CastContext} (hctx : ctx.strict = none)
    {fields : List (String × Value)} (hc : (Value.obj fields).Canonical) :
    Gives (s.cast ctx fields) (s.Completed (.obj fields)) := by
  have hkeys := keys_gives_takes hw hp hctx hc
  have hdefaults : ∀ out, Gives (defaults ctx (Schema.casters s.fields) out) (· = out.fillAll (Site.under [] s.fields)) :=
    fun out => defaults_gives_fillAll (fun e he => hp.field he) hctx
  obtain ⟨options, declared, virtuals⟩ := s
  rw [Schema.cast]
  refine hkeys.bind fun out hout => (hdefaults out).mono fun w hw' => ?_
  subst hw'
  exact completed_of_takes hout hw

end Schema

theorem SubSchema.cast_completed {sub : SubSchema} (hw : sub.Meets .wellFormed) (hp : sub.Meets .passive)
    {ctx : CastContext} (hctx : ctx.strict = none) (hc : (Value.obj fields).Canonical) :
    Gives (sub.cast ctx (.obj fields)) ((sub.selectOrBase (some (.obj fields))).Completed (.obj fields)) := by
  rcases sub.cast_eq fields with ⟨s, hselect, hmem, heq⟩ | hfail
  · rw [heq, SubSchema.selectOrBase, hselect]
    have hmeets : ∀ {law : SchemaLaw}, sub.Meets law → s.Meets law := by
      intro law h
      rcases hmem with rfl | ⟨name, hname⟩
      · exact h.base
      · exact h.variant hname
    exact (s.cast_completed (hmeets hw) (hmeets hp) (by exact hctx) hc).bind fun out hout =>
      gives_pure (hout.keepName (hmeets hw))
  · obtain ⟨e, he⟩ := hfail ctx
    rw [he]
    exact gives_throw

-- What casts make of values

namespace Field

open Value

variable {f : Field} {sub : SubSchema} {x y : Value} {ctx : CastContext}

theorem passive_plain : SchemaLaw.passive (.rules {}) :=
  ⟨rfl, fun _ hd => by cases hd⟩

theorem cast_of_ne_null (hx : x ≠ .null) : f.cast ctx x = f.type.cast ctx x := by
  obtain ⟨type, rules⟩ := f
  rw [Field.cast, if_neg]
  cases x with
  | null => exact absurd rfl hx
  | bool | num | str | arr | obj => exact Bool.false_ne_true

theorem eq_null_of_cast? (h : f.cast? .null = some y) : y = .null := by
  refine of_cast? (P := (· = .null)) ?_ h
  obtain ⟨type, rules⟩ := f
  rw [Field.cast, if_pos (show isNull .null = true from rfl)]
  split
  · exact gives_pure rfl
  · exact gives_fail

theorem completed_of_cast? (hw : f.Meets .wellFormed) (hp : f.Meets .passive) (ht : f.type = .embedded sub)
    (hx : x.Canonical) (h : f.cast? x = some y) :
    x = .null ∧ y = .null ∨ ∃ fs, x = .obj fs ∧ (sub.selectOrBase (some (.obj fs))).Completed (.obj fs) y := by
  have hsub : ∀ {law : SchemaLaw}, f.Meets law → sub.Meets law := fun h => FieldType.Meets.sub (.inl (ht ▸ h.type))
  cases x with
  | null => exact .inl ⟨rfl, eq_null_of_cast? h⟩
  | obj fs =>
    refine .inr ⟨fs, rfl, of_cast? ?_ h⟩
    rw [cast_of_ne_null (by simp), ht, FieldType.cast]
    exact sub.cast_completed (hsub hw) (hsub hp) rfl hx
  | bool | num | str | arr =>
    refine (of_cast? (P := fun _ => False) ?_ h).elim
    rw [cast_of_ne_null (by simp), ht, FieldType.cast]
    obtain ⟨base, variants⟩ := sub
    unfold SubSchema.cast
    exact gives_fail

theorem items_gives_each (hf : f.Meets .passive) (hctx : ctx.strict = none) :
    Gives (items f.cast ctx whole i vs) fun ws => vs.length = ws.length ∧
      ∀ (j : Nat) v w, vs[j]? = some v → ws[j]? = some w → f.cast? v = some w := by
  induction vs generalizing i with
  | nil => exact gives_pure ⟨rfl, fun j v w hv => by cases hv⟩
  | cons v vs ih =>
    rw [items]
    refine (settles_cast hf (by exact hctx)).wrapItem.gives.bind fun w hw => ih.bind fun ws hws => gives_pure ?_
    refine ⟨congrArg (· + 1) hws.1, fun j => ?_⟩
    cases j with
    | zero =>
      rintro _ _ ⟨⟩ ⟨⟩
      exact hw
    | succ j => exact hws.2 j

theorem items_of_cast? (hp : f.Meets .passive) (ht : f.type = .documentArray sub) (hx : x ≠ .null)
    (h : f.cast? x = some y) : ∃ ws, y = .arr ws ∧ ∀ vs, x = .arr vs → vs.length = ws.length ∧
      ∀ (j : Nat) v w, vs[j]? = some v → ws[j]? = some w → (ofSub sub).cast? v = some w := by
  have hel : (ofSub sub).Meets .passive := meets_ofSub (FieldType.Meets.sub (.inr (ht ▸ hp.type))) passive_plain
  have hcast : (fun ctx v => if v.isNull then pure .null else sub.cast ctx v) = (ofSub sub).cast := by
    funext ctx v
    rw [ofSub, plain, Field.cast, FieldType.cast]
    rfl
  refine of_cast? (P := fun y => ∃ ws, y = .arr ws ∧ ∀ vs, x = .arr vs → vs.length = ws.length ∧
    ∀ (j : Nat) v w, vs[j]? = some v → ws[j]? = some w → (ofSub sub).cast? v = some w) ?_ h
  rw [cast_of_ne_null hx, ht, FieldType.cast, hcast]
  cases x with
  | arr vs =>
    refine (items_gives_each hel rfl).bind fun ws hws => gives_pure ⟨ws, rfl, ?_⟩
    rintro _ ⟨⟩
    exact hws
  | null | bool | num | str | obj =>
    exact (items_gives_each hel rfl).bind fun ws _ => gives_pure ⟨ws, rfl, fun _ hvs => by cases hvs⟩

theorem has_of_cast? (ht : f.type.isStructural = false) (h : f.cast? x = some y) (hp : y.Has p) : x.Has p := by
  by_cases hx : x = .null
  · subst hx
    rwa [eq_null_of_cast? h] at hp
  · have hgives : Gives (f.cast { path := [], root := [] } x) fun y => y = x ∨ ∀ seg, y.child? seg = none := by
      rw [cast_of_ne_null hx]
      rcases f.type.cast_single ht x with ⟨w, hw, heq⟩ | hfail
      · rw [heq]
        exact gives_pure hw.kept
      · obtain ⟨e, he⟩ := hfail { path := [], root := [] }
        rw [he]
        exact gives_throw
    rcases of_cast? hgives h with rfl | hnone
    · exact hp
    · cases hp with
      | here => exact .here
      | @field fs k c _ hc => exact absurd (hc.symm.trans (hnone (.key k))) (by simp)
      | @item xs i c _ hc => exact absurd (hc.symm.trans (hnone (.index i))) (by simp)

end Field

-- The documents in a document

-- Arrays and maps, whose elements no document keeps track of.
def FieldType.isCollection : FieldType → Bool
  | .array _ | .map _ => true
  | _ => false

namespace Schema

open Value

variable {schema : Schema} {raw made x y : Value} {q r t : Path} {f g : Field} {sub : SubSchema}
  {fs : List (String × Value)}

-- A new document was made of an object, and has all of it.
structure Makes (schema : Schema) (raw made : Value) : Prop where
  wellFormed : schema.Meets .wellFormed
  passive    : schema.Meets .passive
  canonical  : raw.Canonical
  completed  : schema.Completed raw made
  grows      : raw.Grows made

theorem leads_of_hasField (h : schema.HasField raw q f) : schema.Leads raw q f := by
  rcases h with hf | ⟨r, s, w, rel, he, hf, rfl⟩
  · exact .declared hf
  · obtain ⟨g, sub, fs, hg, ht, hv, rfl⟩ := documentAt_iff.mp ⟨w, he⟩
    exact hg.inner ht hv hf

theorem hasField_inner (h : schema.Leads raw r g) (ht : g.type = .embedded sub) (hv : raw.get? r = some (.obj fs))
    (hf : (q, f) ∈ (sub.selectOrBase (some (.obj fs))).fields) : schema.HasField raw (r ++ q) f := by
  obtain ⟨w, hw⟩ : schema.DocumentAt raw r _ := documentAt_iff.mpr ⟨g, sub, fs, h, ht, hv, rfl⟩
  exact .inr ⟨r, _, w, q, hw, hf, rfl⟩

theorem hasField_of_collection (h : schema.Leads raw q f) (ht : f.type.isCollection) : schema.HasField raw q f := by
  cases h with
  | declared hf => exact .inl hf
  | item => cases ht
  | inner hr hg hv hf => exact hasField_inner hr hg hv hf

namespace Makes

theorem document (h : schema.Makes raw made) (hl : schema.Leads raw r g) (ht : g.type = .embedded sub)
    (hv : raw.get? r = some (.obj fs))
    (hy : g.cast? (.obj fs) = some y ∨ ∃ name, Value.obj fs = .str name ∧ y = .obj fs) :
    (sub.selectOrBase (some (.obj fs))).Completed (.obj fs) y := by
  rcases hy with hy | ⟨name, hname, -⟩
  · have hc := hereditary_canonical.get? h.canonical hv
    rcases Field.completed_of_cast? (hl.meets h.wellFormed trivial) (hl.meets h.passive Field.passive_plain) ht hc hy with
      ⟨hnull, -⟩ | ⟨_, ⟨⟩, hdone⟩
    · cases hnull
    · exact hdone
  · cases hname

theorem given (h : schema.Makes raw made) (hl : schema.Leads raw q f) (hx : raw.get? q = some x) :
    ∃ y, made.get? q = some y ∧ (f.cast? x = some y ∨ ∃ name, x = .str name ∧ y = x) := by
  induction hl generalizing x with
  | declared hf => exact h.completed.given _ _ x hf hx
  | @item r f sub items i hr ht hv hi ih =>
    rw [Leads.get?_item hv] at hx
    obtain ⟨y, hy, hcast | ⟨name, hname, -⟩⟩ := ih hv
    · obtain ⟨ws, rfl, hws⟩ := Field.items_of_cast? (hr.meets h.passive Field.passive_plain) ht (by simp) hcast
      obtain ⟨hlen, hall⟩ := hws items rfl
      have hw := getElem?_eq_getElem (hlen ▸ hi)
      exact ⟨_, by rw [Leads.get?_item hy, hw], .inl (hall i x _ hx hw)⟩
    · cases hname
  | @inner r q f g sub fs hr ht hv hg ih =>
    rw [get?_append, hv, Option.bind_some] at hx
    obtain ⟨y, hy, hcast⟩ := ih hv
    rw [get?_append, hy, Option.bind_some]
    exact (h.document hr ht hv hcast).given q g x hg hx

theorem filled (h : schema.Makes raw made) (hf : schema.HasField raw q f) (hroom : raw.Room q)
    (hy : f.initial? = some y) : made.get? q = some y := by
  rcases hf with hf | ⟨r, s, w, rel, he, hf, rfl⟩
  · exact h.completed.filled q f y hf hroom hy
  · obtain ⟨g, sub, fs, hg, ht, hv, rfl⟩ := documentAt_iff.mp ⟨w, he⟩
    obtain ⟨z, hz, hcast⟩ := h.given hg hv
    rw [get?_append, hz, Option.bind_some]
    exact (h.document hg ht hv hcast).filled rel f y hf (hroom.inside hv) hy

end Makes

-- Beyond the object, what is at a path belongs to a default, or to a collection whose elements were cast.
def Extra (schema : Schema) (raw made : Value) (p : Path) : Prop :=
  (∃ q f y, schema.HasField raw q f ∧ raw.Room q ∧ f.initial? = some y ∧
    (q.covers p ∨ p.isAbove q ∧ ∃ fs, made.get? p = some (.obj fs))) ∨
  ∃ q f x y, schema.HasField raw q f ∧ f.type.isCollection ∧ raw.get? q = some x ∧ made.get? q = some y ∧
    f.cast? x = some y ∧ q.covers p

-- A field with a value is on the way to a path.
structure OnWay (schema : Schema) (raw : Value) (p q t : Path) (f : Field) (x : Value) : Prop where
  leads : schema.Leads raw q f
  has   : raw.Has q
  get   : raw.get? q = some x
  path  : p = q ++ t

namespace OnWay

variable {p : Path}

theorem document (h : schema.OnWay raw p q t f (.obj fs)) (hm : schema.Makes raw made) (ht : f.type = .embedded sub)
    (hy : made.get? q = some y) (hdone : (sub.selectOrBase (some (.obj fs))).Completed (.obj fs) y) (hyt : y.Has t)
    (hxt : ¬ (Value.obj fs).Has t) :
    Extra schema raw made p ∨ ∃ q' t' g x', t'.length < t.length ∧ schema.OnWay raw p q' t' g x' := by
  obtain ⟨hl, hq, hx, rfl⟩ := h
  obtain ⟨rel, g, hg, hcases⟩ := hdone.added t hyt hxt
  have hs : (sub.selectOrBase (some (.obj fs))).Meets .wellFormed :=
    (FieldType.Meets.sub (.inl (ht ▸ (hl.meets hm.wellFormed trivial).type))).selectOrBase
  obtain ⟨hne, -, hkeys⟩ := hs.declared hg
  rcases hcases with ⟨hsome, hcov⟩ | ⟨z, hroom, hz, hcases⟩
  · obtain ⟨t', rfl⟩ := covers_iff.mp hcov
    obtain ⟨x', hx'⟩ := Option.isSome_iff_exists.mp hsome
    have hpos := length_pos_of_ne_nil hne
    refine .inr ⟨q ++ rel, t', g, x', by rw [length_append]; omega, hl.inner ht hx hg, ?_, ?_, by simp⟩
    · exact has_append.mpr ⟨hq, _, hx, has_of_keys hkeys hsome⟩
    · rw [get?_append, hx, Option.bind_some, hx']
  · refine .inl (.inl ⟨q ++ rel, g, z, hasField_inner hl ht hx hg, .append hq hx hroom, hz, ?_⟩)
    rw [append_covers_append, append_isAbove_append, get?_append, hy, Option.bind_some]
    exact hcases

theorem item (h : schema.OnWay raw p q t f (.arr vs)) (ht : f.type = .documentArray sub) (hlen : vs.length = ws.length)
    (hyt : (Value.arr ws).Has t) (hxt : ¬ (Value.arr vs).Has t) :
    ∃ q' t' g x', t'.length < t.length ∧ schema.OnWay raw p q' t' g x' := by
  obtain ⟨hl, hq, hx, rfl⟩ := h
  cases hyt with
  | here => exact absurd .here hxt
  | @item _ i w t' hw _ =>
    have hi : i < vs.length := hlen ▸ (List.getElem?_eq_some_iff.mp hw).1
    refine ⟨q.index i, t', .ofSub sub, vs[i], Nat.lt_succ_self _, hl.item ht hx hi, ?_, ?_, by simp [Path.index]⟩
    · exact has_append.mpr ⟨hq, _, hx, .item (getElem?_eq_getElem hi) .here⟩
    · rw [Leads.get?_item hx, getElem?_eq_getElem hi]

theorem step (h : schema.OnWay raw p q t f x) (hm : schema.Makes raw made) (hnew : made.Has p) (hold : ¬ raw.Has p) :
    Extra schema raw made p ∨ ∃ q' t' g x', t'.length < t.length ∧ schema.OnWay raw p q' t' g x' := by
  have hx := h.get
  have hpath := h.path
  obtain ⟨y, hy, hcast⟩ := hm.given h.leads hx
  -- The value that was made has the rest of the path, the given one has not.
  have hyt : y.Has t := by
    obtain ⟨-, z, hz, hzt⟩ := has_append.mp (hpath ▸ hnew)
    rw [hy] at hz
    cases hz
    exact hzt
  have hxt : ¬ x.Has t := fun hxt => hold (hpath ▸ has_append.mpr ⟨h.has, x, hx, hxt⟩)
  have hkin : x.Kin y := by
    obtain ⟨z, hz, hxz⟩ := hm.grows q x hx
    rw [hy] at hz
    cases hz
    exact hxz
  have hp : f.Meets .passive := h.leads.meets hm.passive Field.passive_plain
  rcases hcast with hcast | ⟨name, -, rfl⟩
  · cases ht : f.type with
    | string | number | boolean | date | id | mixed =>
      exact absurd (Field.has_of_cast? (by rw [ht]; rfl) hcast hyt) hxt
    | array | map =>
      have hcoll : f.type.isCollection := by rw [ht]; rfl
      exact .inl (.inr ⟨q, f, x, y, hasField_of_collection h.leads hcoll, hcoll, hx, hy, hcast,
        hpath ▸ covers_append q t⟩)
    | embedded sub =>
      have hw : f.Meets .wellFormed := h.leads.meets hm.wellFormed trivial
      rcases Field.completed_of_cast? hw hp ht (hereditary_canonical.get? hm.canonical hx) hcast with
        ⟨rfl, rfl⟩ | ⟨fs, rfl, hdone⟩
      · exact absurd hyt hxt
      · exact h.document hm ht hy hdone hyt hxt
    | documentArray sub =>
      by_cases hnull : x = .null
      · subst hnull
        rw [Field.eq_null_of_cast? hcast] at hyt
        exact absurd hyt hxt
      · obtain ⟨ws, rfl, -⟩ := Field.items_of_cast? hp ht hnull hcast
        cases hkin with
        | same => exact absurd hyt hxt
        | arr hlen => exact .inr (h.item ht hlen hyt hxt)
  · exact absurd hyt hxt

theorem extra (h : schema.OnWay raw p q t f x) (hm : schema.Makes raw made) (hnew : made.Has p) (hold : ¬ raw.Has p) :
    Extra schema raw made p := by
  induction hn : t.length using Nat.strongRecOn generalizing q t f x with
  | _ n ih =>
    rcases h.step hm hnew hold with hextra | ⟨q', t', g, x', hlt, h'⟩
    · exact hextra
    · exact ih _ (hn ▸ hlt) h' rfl

end OnWay

theorem Makes.extra (h : schema.Makes raw made) (hnew : made.Has p) (hold : ¬ raw.Has p) : Extra schema raw made p := by
  obtain ⟨q, f, hf, hcases⟩ := h.completed.added p hnew hold
  rcases hcases with ⟨hsome, hcov⟩ | ⟨y, hroom, hy, hcases⟩
  · obtain ⟨x, hx⟩ := Option.isSome_iff_exists.mp hsome
    obtain ⟨t, rfl⟩ := covers_iff.mp hcov
    have hway : schema.OnWay raw (q ++ t) q t f x :=
      ⟨.declared hf, has_of_keys (h.wellFormed.declared hf).2.2 hsome, hx, rfl⟩
    exact hway.extra h hnew hold
  · exact .inl ⟨q, f, y, .inl hf, hroom, hy, hcases⟩

end Schema

end Dossier

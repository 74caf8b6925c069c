import Dossier.Proofs.Conformity
import Dossier.Proofs.Lineage
import Dossier.Proofs.Nulls

-- Whatever is cast to a field is sated there, but for blank strings that are cast to numbers.

namespace Dossier

open Value Cast Path Entries List

-- What fields are given

-- All values that the default gives are of one kind. Fresh identifiers are left out.
def Default.Makes (V : Value → Prop) : Default → Prop
  | .literal v => V v
  | .generate f => ∀ view v, f view = .ok v → V v
  | .freshId => True

-- Defaults are values of the kind `V`, setters turn such values into others, and ask for writes of the kind `E`.
def SchemaLaw.feeds (V E : Value → Prop) : SchemaLaw
  | .rules r => (∀ d, r.default = some d → d.Makes V) ∧ ∀ setter ∈ r.setters, ∀ input v, V v →
      V (setter input v).value ∧ ∀ e ∈ (setter input v).siblings, E e.2
  | _ => True

-- Declared paths are well-formed, and setters and defaults are as they should be.
def SchemaLaw.fed (V E : Value → Prop) : SchemaLaw :=
  fun part => wellFormed part ∧ feeds V E part

-- Where values of the kind `V` are given, no fields but those that are let off become null by it.
structure Fare (A : Field → Prop) (V : Value → Prop) : Prop where
  parts  : Hereditary V
  ids    : ∀ s : IdSupply, V (.str s.next)
  number : ∀ f t, f.type = .number → V (.str t) → trimChars t.toList = [] → A f

theorem Fare.sorted {A : Field → Prop} {V : Value → Prop} (h : Fare A V) (hv : V v) (fields : List (String × Value))
    (hobj : v = .obj fields) : Entries.Sorted fields :=
  (h.parts.obj.mp (hobj ▸ hv)).1

theorem Fare.raw {A : Field → Prop} {V : Value → Prop} (h : Fare A V) (hr : SchemaLaw.fed V E (.rules f.rules))
    {view : View} {ctx : CastContext} :
    Yields (fun a => E a.2) (rawDefault f view ctx) fun o => ∀ x, o = some x → V x :=
  (rawDefault_gives (fun _ hd => hr.2.1 _ hd) (fun _ _ hd hg => hr.2.1 _ hd _ _ hg) h.ids).yields

-- The field under the key that tells variants apart is given by hand only.
def Schema.Untagged (s : Schema) : Prop :=
  ∀ e ∈ s.fields, e.1 = [.key s.options.discriminatorKey] → e.2.rules.hasDefault = false ∧ e.2.rules.setters = []

-- Embedded documents

namespace Value

theorem setFrom_cons_ne_str (t : String) : (setFrom full y (seg :: p) v).2 ≠ .str t := by
  cases ht : v.takes seg with
  | true =>
    rw [setFrom_cons ht]
    cases v <;> cases seg <;> exact Value.noConfusion
  | false =>
    obtain ⟨e, he⟩ := setFrom_refused full y p ht
    rw [he]
    rintro rfl
    cases ht

theorem field?_set_ne_str {t : String} (h : (obj fs).field? k ≠ some (.str t)) (hy : p.map Seg.toKey = [k] → y ≠ .str t)
    (hp : p ≠ []) : ((obj fs).set p y).2.field? k ≠ some (.str t) := by
  obtain ⟨seg, rest, rfl⟩ := exists_cons_of_ne_nil hp
  rw [Value.set, setFrom_cons_of_openFields rfl, field?]
  by_cases hk : seg.toKey = k
  · rw [hk, get?_insert_self]
    intro ht
    cases rest with
    | nil => exact hy (by simp [hk]) (Option.some.inj ht)
    | cons => exact setFrom_cons_ne_str t (Option.some.inj ht)
  · rw [get?_insert_ne hk]
    exact h

end Value

namespace Schema

variable {s : Schema} {x : Path}

-- What an embedded document is while it is being cast. If it names no variant it gets no name on the way.
structure Stocked (A : Field → Prop) (bare : Prop) (s : Schema) (out : Value) : Prop where
  object  : ∃ fields, out = .obj fields
  sated   : s.Sated A out
  unnamed : bare → ∀ t, out.field? s.options.discriminatorKey ≠ some (.str t)

theorem stocked_empty : s.Stocked A bare (.obj []) where
  object := ⟨[], rfl⟩
  sated p f hp _ hf _ := by
    cases hp with
    | here => cases hf
    | field hc => cases hc
  unnamed _ _ ht := by cases ht

theorem not_field_of_isAbove (hw : s.Meets .wellFormed) (hx : x = [] ∨ ∃ e ∈ s.fields, x.isAbove e.1) (f : Field) :
    s.resolve out x ≠ .field f := by
  intro hf
  rcases hx with rfl | ⟨e, he, ha⟩
  · cases hf
  · by_cases hne : x = []
    · subst hne
      cases hf
    · rw [resolve_of_isAbove hw.apart he ha hne] at hf
      cases hf

theorem Stocked.write (h : s.Stocked A bare out) (hw : s.Meets .wellFormed) (hset : out.set rel y = (.ok (), out'))
    (hrel : rel ≠ []) (hway : ∀ x : Path, x.isAbove rel → x = [] ∨ ∃ e ∈ s.fields, x.isAbove e.1)
    (hfield : ∀ g, s.resolve out rel = .field g → g.Sated A y)
    (hnested : s.resolve out rel = .nested → ∀ r, y.Has r → r = [])
    (hname : bare → rel.map Seg.toKey = [s.options.discriminatorKey] → ∀ t, y ≠ .str t) : s.Stocked A bare out' := by
  have hout : out' = (out.set rel y).2 := by rw [hset]
  obtain ⟨fields, rfl⟩ := h.object
  refine ⟨?_, ?_, fun hbare t => ?_⟩
  · obtain ⟨seg, rest, rfl⟩ := exists_cons_of_ne_nil hrel
    rw [hout, Value.set, setFrom_cons_of_openFields rfl]
    exact ⟨_, rfl⟩
  · let d : Document := { schema := s, value := .obj fields, isNew := true }
    have hgoverns : ∀ g, d.Governs rel g → rel.Distinct g := by
      rintro g ⟨x, fld, sub, hx, hfld, -⟩
      exact absurd hfld (not_field_of_isAbove hw (hway x hx) fld)
    rw [hout]
    exact d.sated_write h.sated hw hgoverns hrel hfield hnested
  · rw [hout]
    exact field?_set_ne_str (h.unnamed hbare t) (fun hk => hname hbare hk t) hrel

theorem way_of_covers {e : Path × Field} (he : e ∈ s.fields) (hc : rel.covers e.1) (hx : x.isAbove rel) :
    x = [] ∨ ∃ e ∈ s.fields, x.isAbove e.1 :=
  .inr ⟨e, he, isAbove_of_isAbove_covers hx hc⟩

theorem Stocked.write_field (h : s.Stocked A bare out) (hw : s.Meets .wellFormed)
    (hset : out.set rel y = (.ok (), out')) (hg : (rel, g) ∈ s.fields) (hy : g.Sated A y)
    (hname : bare → rel = [.key s.options.discriminatorKey] → ∀ t, y ≠ .str t) : s.Stocked A bare out' := by
  obtain ⟨hne, -, hkeys⟩ := hw.declared hg
  have hres : s.resolve out rel = .field g := resolve_declared hw.apart hg
  refine h.write hw hset hne (fun x hx => way_of_covers hg (covers_refl rel) hx) (fun g' hg' => ?_) (fun hn => ?_)
    fun hbare hk => hname hbare ?_
  · rw [hres] at hg'
    cases hg'
    exact hy
  · rw [hres] at hn
    cases hn
  · rw [keys_eq hkeys, hk]
    rfl

theorem Stocked.write_null (h : s.Stocked A bare out) (hw : s.Meets .wellFormed)
    (hset : out.set rel .null = (.ok (), out')) (hne : rel ≠ []) {e : Path × Field} (he : e ∈ s.fields)
    (hr : rel.isAbove e.1) : s.Stocked A bare out' := by
  have hres : s.resolve out rel = .nested := resolve_of_isAbove hw.apart he hr hne
  refine h.write hw hset hne (fun x hx => way_of_covers he (covers_of_isAbove hr) hx) (fun g hg => ?_) (fun _ r hr => ?_)
    fun _ _ _ => Value.noConfusion
  · rw [hres] at hg
    cases hg
  · cases hr
    rfl

theorem resolve_undeclared {place : Path} {k : String} (hw : s.Meets .wellFormed)
    (hplace : place = [] ∨ ∃ e ∈ s.fields, place.isAbove e.1) (hnone : ∀ e ∈ s.fields, ¬ (place.key k).covers e.1) :
    s.resolve out (place.key k) = .undeclared := by
  have hcursor : place.foldl Cursor.step (.schema s Path.root (some out)) = .schema s place (some out) := by
    rcases hplace with rfl | ⟨e, he, ha⟩
    · rfl
    · exact foldl_of_isAbove hw.apart he ha
  rw [resolve, Path.key, foldl_append, hcursor, foldl_cons, foldl_nil, Cursor.step,
    stepSchema_of_not_covers hnone]
  rfl

end Schema

-- Variants

-- There are no variants, or the keys that tell them apart are given by hand only.
def FieldType.Tagless (t : FieldType) : Prop :=
  t.Meets .noVariants ∨ ∀ s ∈ t.schemas, s.Untagged

def Field.Tagless (f : Field) : Prop :=
  f.Meets .noVariants ∨ ∀ s ∈ f.schemas, s.Untagged

def SubSchema.Tagless (sub : SubSchema) : Prop :=
  sub.Meets .noVariants ∨ ∀ s ∈ sub.schemas, s.Untagged

def Schema.Tagless (s : Schema) : Prop :=
  s.Meets .noVariants ∨ ∀ t ∈ s.schemas, t.Untagged

theorem FieldType.Tagless.element {el : Field} (h : (FieldType.array el).Tagless ∨ (FieldType.map el).Tagless) :
    el.Tagless := by
  rcases h with (h | h) | (h | h)
  · exact .inl (FieldType.Meets.element (.inl h))
  · exact .inr (by simpa only [FieldType.schemas] using h)
  · exact .inl (FieldType.Meets.element (.inr h))
  · exact .inr (by simpa only [FieldType.schemas] using h)

theorem FieldType.Tagless.sub {sub : SubSchema}
    (h : (FieldType.embedded sub).Tagless ∨ (FieldType.documentArray sub).Tagless) : sub.Tagless := by
  rcases h with (h | h) | (h | h)
  · exact .inl (FieldType.Meets.sub (.inl h))
  · exact .inr (by simpa only [FieldType.schemas] using h)
  · exact .inl (FieldType.Meets.sub (.inr h))
  · exact .inr (by simpa only [FieldType.schemas] using h)

theorem Field.Tagless.type {f : Field} (h : f.Tagless) : f.type.Tagless :=
  h.imp (fun h => h.type) fun h => by rwa [Field.schemas_eq] at h

theorem Field.tagless_ofSub {sub : SubSchema} (h : sub.Tagless) : (Field.ofSub sub).Tagless :=
  h.imp (fun h => Field.meets_ofSub h trivial) fun h => by rwa [Field.schemas_ofSub]

theorem Schema.Tagless.field {s : Schema} (h : s.Tagless) (hf : (p, f) ∈ s.fields) : f.Tagless :=
  h.imp (fun h => h.field hf) fun h t ht => h t (Schema.schemas_field hf ht)

namespace SubSchema

variable {sub : SubSchema} {g : Field}

theorem mem_schemas_base : s ∈ sub.base.schemas → s ∈ sub.schemas := by
  cases sub
  rw [schemas]
  exact mem_append_left _

theorem Tagless.base (h : sub.Tagless) : sub.base.Tagless :=
  h.imp (fun h => h.base) fun h t ht => h t (mem_schemas_base ht)

theorem Tagless.variant {name : String} (h : sub.Tagless) (hs : (name, s) ∈ sub.variants) : s.Tagless := by
  refine h.imp (fun h => h.variant hs) fun h t ht => h t ?_
  cases sub
  rw [schemas]
  exact mem_append_right _ (Schema.mem_schemasOfVariants.mpr ⟨_, hs, ht⟩)

theorem Tagless.untagged (h : sub.Tagless) (hv : sub.variants ≠ []) : sub.base.Untagged :=
  h.elim (fun h => absurd h.variants hv) fun h => h _ (mem_schemas_base Schema.mem_schemas_self)

def Bare (sub : SubSchema) (given : Value) : Prop :=
  sub.variants ≠ [] ∧ ∀ t, given.field? sub.discriminatorKey ≠ some (.str t)

-- A document that names its variant is of that variant after the cast, and one that names none is of the base.
theorem sated_keepName (hw : s.Meets .wellFormed) (hs : sub.select (some given) = .ok s) (hg : g.type = .embedded sub)
    (ho : s.Stocked A (sub.Bare given) out) : g.Sated A (given.keepName sub.discriminatorKey out) := by
  have hsel : sub.selectOrBase (some given) = s := by rw [selectOrBase, hs]
  obtain ⟨fields, rfl⟩ := ho.object
  by_cases hname : ∃ name, given.field? sub.discriminatorKey = some (.str name)
  · obtain ⟨name, hname⟩ := hname
    simp only [Value.keepName, hname]
    have hset : (Value.obj fields).set [.key sub.discriminatorKey] (.str name) =
        (.ok (), .obj (Entries.insert sub.discriminatorKey (.str name) fields)) := rfl
    have hstocked := ho.write hw hset (by simp) (fun x hx => .inl ?_) (fun _ _ => Field.sated_text) (fun _ r hr => ?_)
      fun hbare => absurd hname (hbare.2 name)
    · refine Field.sated_embedded hg ?_
      have hnamed : sub.selectOrBase (some (.obj (Entries.insert sub.discriminatorKey (.str name) fields))) = s := by
        rw [← hsel]
        refine selectOrBase_eq ?_
        rw [Option.bind_some, Option.bind_some, hname, field?, get?_insert_self]
      rw [hnamed]
      exact hstocked.sated
    · exact covers_nil.mp (isAbove_append_iff.mp hx)
    · cases hr
      rfl
  · have hbase : sub.base = s := by
      rw [← hsel]
      exact (selectOrBase_of_ne_str (o := some given) fun t ht => hname ⟨t, ht⟩).symm
    rw [keepName_of_unnamed hname]
    refine Field.sated_embedded hg ?_
    rw [show sub.selectOrBase (some (.obj fields)) = s from ?_]
    · exact ho.sated
    · by_cases hv : sub.variants = []
      · rw [← hbase]
        simp [selectOrBase, select, variant?, named, hv]
      · rw [selectOrBase_of_ne_str, hbase]
        intro t
        rw [discriminatorKey, hbase]
        exact ho.unnamed ⟨hv, fun t ht => hname ⟨t, ht⟩⟩ t

theorem Tagless.selected (h : sub.Tagless) (hs : sub.select (some given) = .ok s) : s.Tagless := by
  have hsel : sub.selectOrBase (some given) = s := by rw [selectOrBase, hs]
  rcases sub.selectOrBase_cases (some given) with he | ⟨name, hm⟩
  · rw [← hsel, he]
    exact h.base
  · exact h.variant (hsel ▸ hm)

theorem Bare.selected (h : sub.Bare given) (hs : sub.select (some given) = .ok s) : s = sub.base := by
  have hsel : sub.selectOrBase (some given) = s := by rw [selectOrBase, hs]
  rw [← hsel]
  exact selectOrBase_of_ne_str h.2

theorem Bare.null (h : sub.Bare given) (hs : sub.select (some given) = .ok s)
    (hsorted : ∀ fields, given = .obj fields → Entries.Sorted fields)
    (hx : given.Offers [.key sub.discriminatorKey] x) : x = .null := by
  cases hx with
  | key hmem hx =>
    cases hx
    have hget := get?_of_mem (hsorted _ rfl) hmem
    rw [select, variant?, if_neg (by simpa using h.1)] at hs
    simp only [Option.bind_some, field?, hget] at hs
    cases x with
    | null => rfl
    | str t => exact absurd hget (h.2 t)
    | bool | num | arr | obj => cases hs

end SubSchema

-- Fields

theorem Schema.Meets.wellFormed_of_fed {E : Value → Prop} {s : Schema} (h : s.Meets (.fed V E)) : s.Meets .wellFormed :=
  fun part hp => (h part hp).1

section Sated

theorem Field.Casts.sated {f : Field} {v : Value}
    (h : f.Casts (fun t _ w => t.Tagless → ∀ rules, Field.Sated A ⟨t, rules⟩ w) v w) (hf : f.Tagless) :
    f.Sated A w := by
  rcases h with ⟨-, hnull, rfl⟩ | ⟨-, h⟩
  · exact Field.sated_null (.inl hnull)
  · cases f
    exact h hf.type _

theorem Cast.study_sated (hfare : Fare A V) : Study (fun P c _ => Yields (fun a => E a.2) c P) Eq (.fed V E) V
    (fun t _ w => t.Tagless → ∀ rules, Field.Sated A ⟨t, rules⟩ w)
    (fun sub s given out => sub.Tagless → s.Stocked A (sub.Bare given) out) where
  logic := logic_yields
  mode h := congrArg _ h
  part r h := h ▸ rfl
  inner h := h ▸ rfl
  items := hfare.parts.arr.mp
  fields h := (hfare.parts.obj.mp h).2
  setters hr _ hv := setters_yields (fun setter hm v hv => hr.2.2 setter hm _ v hv) hv
  raw hr _ _ := hfare.raw hr
  single {t _ w} hv hne hr _ rules := by
    have hsingle : t.isStructural = false := by cases hr <;> rfl
    refine Field.sated_of_not_structural (by simp [hsingle]) ?_
    rintro rfl
    cases hr with
    | blank hs => exact .inr (hfare.number _ _ rfl hv hs)
    | id | mixed => exact absurd rfl hne
  array {t _ _ _} _ harr hel _ hlen hws ht rules := by
    cases t with
    | array =>
      cases hel
      exact Field.sated_arr rfl rfl (forall_of_zip hlen hws fun _ he => he.sated (FieldType.Tagless.element (.inl ht)))
    | documentArray =>
      cases hel
      refine Field.sated_arr rfl rfl (forall_of_zip hlen hws fun _ he => he.sated ?_)
      exact Field.tagless_ofSub (FieldType.Tagless.sub (.inr ht))
    | string | number | boolean | date | id | mixed | map | embedded => cases harr
  map _ _ hkeys hes ht rules := by
    refine Field.sated_map rfl (forall_of_zip (by simpa using congrArg List.length hkeys) hes fun _ he => he.sated ?_)
    exact FieldType.Tagless.element (.inr ht)
  embedded ht ho htags rules :=
    SubSchema.sated_keepName ht.meets.wellFormed_of_fed ht.selects rfl (ho (FieldType.Tagless.sub (.inl htags)))
  empty _ _ := Schema.stocked_empty
  write {sub s given out out' x x' y rel f} ht ho hf hset hsource hx' _ hy htags := by
    have hfield := (htags.selected ht.selects).field hf
    refine (ho htags).write_field ht.meets.wellFormed_of_fed hset hf (hy.sated hfield) fun hbare hrel => ?_
    -- What is given there is null, and neither a setter nor a default makes a name of it.
    have hselected := hbare.selected ht.selects
    subst hselected
    obtain ⟨hdefault, hset⟩ := htags.untagged hbare.1 _ hf hrel
    have hoffer : given.Offers rel x := hsource.resolve_right (by simp [hdefault])
    obtain rfl : x = .null := hbare.null ht.selects (hfare.sorted ht.known) (hrel ▸ hoffer)
    rw [hx' hset] at hy
    rcases hy with ⟨-, -, rfl⟩ | ⟨hne, -⟩
    · exact fun _ => Value.noConfusion
    · exact absurd rfl hne
  null ht ho hne he ha _ hset htags := (ho htags).write_null ht.meets.wellFormed_of_fed hset hne he ha
  loose {sub s _ _ _ x _ _ place k} ht ho _ _ hplace hnone hoffer _ hset htags := by
    have hw := ht.meets.wellFormed_of_fed
    have hundeclared : ∀ out, s.resolve out (place.key k) = .undeclared := fun _ => Schema.resolve_undeclared hw hplace hnone
    refine (ho htags).write hw hset (by simp [Path.key]) (fun p hp => ?_) (fun g hg => ?_) (fun hg => ?_) fun hbare hk => ?_
    · have hp : p.covers place := isAbove_append_iff.mp hp
      rcases hplace with rfl | ⟨e, he, ha⟩
      · exact .inl (covers_nil.mp hp)
      · exact .inr ⟨e, he, isAbove_of_covers_isAbove hp ha⟩
    · rw [hundeclared] at hg
      cases hg
    · rw [hundeclared] at hg
      cases hg
    · have hselected := hbare.selected ht.selects
      subst hselected
      have hkey : place.key k = [.key sub.discriminatorKey] := by
        cases place with
        | nil => simpa [Path.key, Seg.toKey, SubSchema.discriminatorKey] using hk
        | cons => simp [Path.key] at hk
      obtain rfl : x = .null := hbare.null ht.selects (hfare.sorted ht.known) (hkey ▸ hoffer)
      exact fun _ => Value.noConfusion

variable {f : Field} (hfare : Fare A V) (hf : f.Meets (.fed V E)) (ht : f.Tagless)

include hfare hf ht

theorem Field.cast_sated (ctx : CastContext) (hv : V v) : Yields (fun a => E a.2) (f.cast ctx v) (f.Sated A) :=
  (f.study_cast (study_sated hfare) hf ctx ctx v rfl hv).mono fun _ hw => hw.sated ht

theorem Field.accept_sated (hv : V v) : Yields (fun a => E a.2) (f.accept ctx v) (f.Sated A) := by
  refine (f.study_accept (study_sated hfare) hf (Eq.refl ctx) hv).mono ?_
  rintro w ⟨v', -, -, hw⟩
  exact hw.sated ht

theorem Field.default_sated :
    Yields (fun a => E a.2) (f.default? view ctx) fun o => ∀ w, o = some w → f.Sated A w := by
  refine (f.study_default (study_sated hfare) hf (Eq.refl ctx) view view (hfare.raw hf.rules)).mono fun o ho w hw => ?_
  obtain ⟨x, -, hx⟩ := ho w hw
  exact hx.sated ht

end Sated

end Dossier

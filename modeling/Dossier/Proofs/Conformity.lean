import Dossier.Proofs.Intake

-- The cast of a value has the shape that its type declares, at whatever depth.

namespace Dossier

open Cast Value Path Entries

-- The shapes of types

namespace Value

theorem offers_of_field? {v x : Value} (h : v.field? k = some x) : v.Offers [.key k] x := by
  cases v with
  | obj fields => exact .key (mem_of_get? h) .here
  | null | bool | num | str | arr => cases h

end Value

-- A field is declared at the path, and nothing else at, above or below it.
def Schema.Declares (s : Schema) (p : Path) (f : Field) : Prop :=
  (p, f) ∈ s.fields ∧ ∀ e ∈ s.fields, e = (p, f) ∨ e.1.Apart p

def Schema.Knows (s : Schema) (p : Path) : Prop :=
  ∃ e ∈ s.fields, p.covers e.1 ∨ e.1.covers p

-- The path is that of the key that names variants, and a string is given for it.
def SubSchema.Names (sub : SubSchema) (given : Value) (p : Path) : Prop :=
  p = [.key sub.discriminatorKey] ∧ ∃ name, given.field? sub.discriminatorKey = some (.str name)

def FieldType.holdsText : FieldType → Bool
  | .string | .id _ | .mixed => true
  | _ => false

mutual

-- What can be stored for a given value, if it is not null.
inductive FieldType.Fits (mode : Option StrictMode) : FieldType → Value → Value → Prop
  | string {v : Value} (s : String) : FieldType.Fits mode .string v (.str s)
  | number {v : Value} (n : Number) : FieldType.Fits mode .number v (.num n)
  | boolean {v : Value} (b : Bool) : FieldType.Fits mode .boolean v (.bool b)
  | date {v : Value} (i : Instant) : FieldType.Fits mode .date v (.str i.text)
  | id {target : Option String} {v : Value} : v.isReference → FieldType.Fits mode (.id target) v v
  | mixed {v : Value} : FieldType.Fits mode .mixed v v
  | array {el : Field} {v : Value} {ws : List Value} :
    ws.length = v.asItems.length →
    (∀ e ∈ v.asItems.zip ws, e.2 ≠ .null → FieldType.Fits mode el.type e.1 e.2) →
    FieldType.Fits mode (.array el) v (.arr ws)
  | map {el : Field} {fields es : List (String × Value)} :
    es.map (·.1) = fields.map (·.1) →
    (∀ e ∈ fields.zip es, e.2.2 ≠ .null → FieldType.Fits mode el.type e.1.2 e.2.2) →
    FieldType.Fits mode (.map el) (.obj fields) (.obj es)
  | documentArray {sub : SubSchema} {v : Value} {ws : List Value} :
    ws.length = v.asItems.length →
    (∀ e ∈ v.asItems.zip ws, e.2 ≠ .null → FieldType.Fits mode (.embedded sub) e.1 e.2) →
    FieldType.Fits mode (.documentArray sub) v (.arr ws)
  | embedded {sub : SubSchema} {s : Schema} {v : Value} {fields : List (String × Value)} :
    sub.select (some v) = .ok s →
    (∀ name, v.field? sub.discriminatorKey = some (.str name) →
      Entries.get? sub.discriminatorKey fields = some (.str name)) →
    (∀ p f u, s.Declares p f → (Value.obj fields).get? p = some u → u ≠ .null →
      (sub.Names v p → f.type.holdsText) → Field.FitsAt mode f v p u) →
    (mode.getD s.options.strict ≠ .keep →
      ∀ p, p ≠ [] → (Value.obj fields).Has p → s.Knows p ∨ sub.Names v p) →
    FieldType.Fits mode (.embedded sub) v (.obj fields)

-- What can be stored for a field of an embedded document: it comes from what was given at the path, or from a
-- default.
inductive Field.FitsAt (mode : Option StrictMode) : Field → Value → Path → Value → Prop
  | given {f : Field} {v x u : Value} {p : Path} :
    v.Offers p x → FieldType.Fits mode f.type x u → Field.FitsAt mode f v p u
  | default {f : Field} {v x u : Value} {p : Path} :
    f.rules.hasDefault → FieldType.Fits mode f.type x u → Field.FitsAt mode f v p u

end

theorem FieldType.fits_text {mode : Option StrictMode} {t : FieldType} (h : t.holdsText) :
    t.Fits mode (.str s) (.str s) := by
  cases t with
  | string => exact .string s
  | id => exact .id rfl
  | mixed => exact .mixed
  | number | boolean | date | array | map | embedded | documentArray => cases h

-- Paths of keys

namespace Path

variable {p : Path}

theorem keys_eq (hp : ∀ seg ∈ p, seg.index? = none) : p = (p.map Seg.toKey).map Seg.key := by
  induction p with
  | nil => rfl
  | cons seg p ih =>
    obtain ⟨hseg, hrest⟩ := List.forall_mem_cons.mp hp
    cases seg with
    | index => cases hseg
    | key k => rw [List.map_cons, List.map_cons, ← ih hrest, Seg.toKey]

theorem Apart.distinct_of_keys (h : p.Apart q) (hp : ∀ seg ∈ p, seg.index? = none) (hq : ∀ seg ∈ q, seg.index? = none) :
    p.Distinct q := by
  have hcovers : ∀ {a b : Path}, (∀ seg ∈ a, seg.index? = none) → (∀ seg ∈ b, seg.index? = none) →
      a.map Seg.toKey <+: b.map Seg.toKey → a.covers b := by
    intro a b ha hb hab
    rw [keys_eq ha, keys_eq hb, covers_iff_initial]
    exact hab.map _
  exact ⟨fun hpq => h.1 (hcovers hp hq hpq), fun hqp => h.2 (hcovers hq hp hqp)⟩

end Path

namespace Schema

variable {s : Schema} {f : Field}

theorem Knows.above (h : s.Knows q) (hp : p.covers q) : s.Knows p := by
  obtain ⟨e, he, hq | hq⟩ := h
  · exact ⟨e, he, .inl (covers_trans hp hq)⟩
  · exact ⟨e, he, covers_total hp hq⟩

theorem Declares.eq_of_covers (h : s.Declares p f) {e : Path × Field} (he : e ∈ s.fields)
    (hc : p.covers e.1 ∨ e.1.covers p) : e = (p, f) := by
  refine (h.2 e he).resolve_right fun ha => ?_
  exact hc.elim ha.2 ha.1

theorem Declares.apart_or_isAbove (h : s.Declares p f) {e : Path × Field} (he : e ∈ s.fields) (hr : rel.isAbove e.1) :
    p.Apart rel ∨ rel.isAbove p := by
  by_cases hrp : rel.covers p
  · rcases eq_or_isAbove_of_covers hrp with rfl | ha
    · rw [h.eq_of_covers he (.inl (covers_of_isAbove hr))] at hr
      exact absurd hr isAbove_irrefl
    · exact .inr ha
  · refine .inl ⟨fun hpr => ?_, hrp⟩
    have hpe : p.covers e.1 := covers_trans hpr (covers_of_isAbove hr)
    rw [h.eq_of_covers he (.inl hpe)] at hr
    exact hrp (covers_of_isAbove hr)

theorem Declares.apart_of_undeclared (h : s.Declares p f) {place : Path} {k : String}
    (hplace : place = [] ∨ ∃ e ∈ s.fields, place.isAbove e.1) (hnone : ∀ e ∈ s.fields, ¬ (place.key k).covers e.1)
    (hne : p ≠ []) : p.Apart (place.key k) := by
  refine ⟨fun hp => ?_, hnone _ h.1⟩
  have hpp : p.covers place := by
    rw [Path.key, covers_iff_initial, List.prefix_concat_iff] at hp
    rcases hp with hp | hp
    · exact absurd (hp ▸ covers_refl _) (hnone _ h.1)
    · exact covers_iff_initial.mpr hp
  rcases hplace with rfl | ⟨e, he, ha⟩
  · exact hne (covers_nil.mp hpp)
  · rw [h.eq_of_covers he (.inl (covers_trans hpp (covers_of_isAbove ha)))] at ha
    exact not_covers_of_isAbove ha hpp

structure Filled (s : Schema) (mode : Option StrictMode) (given out : Value) : Prop where
  object   : ∃ fields, out = .obj fields
  declared : ∀ p f u, s.Declares p f → out.get? p = some u → u ≠ .null → f.FitsAt mode given p u
  closed   : mode.getD s.options.strict ≠ .keep → ∀ p, p ≠ [] → out.Has p → s.Knows p

variable {given : Value}

theorem filled_empty (hk : s.Meets .keyed) : s.Filled mode given (.obj []) where
  object := ⟨[], rfl⟩
  declared p f u hp hu hnull := by
    obtain ⟨seg, rest, rfl⟩ := List.exists_cons_of_ne_nil (hk.paths p (List.mem_map_of_mem hp.1)).1
    cases hu
  closed _ p hne hp := by
    cases hp with
    | here => exact absurd rfl hne
    | field hc => cases hc

variable (h : s.Filled mode given out) (hk : s.Meets .keyed)

include h hk

theorem Filled.write (hset : out.set rel y = (.ok (), out')) (hrel : ∀ seg ∈ rel, seg.index? = none) (hne : rel ≠ [])
    (hfield : ∀ p f, s.Declares p f → p.Apart rel ∨ ∀ u, out'.get? p = some u → u ≠ .null → f.FitsAt mode given p u)
    (hknown : mode.getD s.options.strict ≠ .keep → s.Knows rel ∧ ∀ p, rel.covers p → out'.Has p → s.Knows p) :
    s.Filled mode given out' := by
  have hout : out' = (out.set rel y).2 := by rw [hset]
  refine ⟨?_, fun p f u hp hu hnull => ?_, fun hmode p hp hhas => ?_⟩
  · obtain ⟨fields, rfl⟩ := h.object
    obtain ⟨seg, rest, rfl⟩ := List.exists_cons_of_ne_nil hne
    rw [hout, Value.set, setFrom_cons_of_openFields rfl]
    exact ⟨_, rfl⟩
  · rcases hfield p f hp with ha | hfits
    · have hkeys := (hk.paths p (List.mem_map_of_mem hp.1)).2
      rw [hout, get?_set_distinct (ha.distinct_of_keys hkeys hrel).symm] at hu
      exact h.declared p f u hp hu hnull
    · exact hfits u hu hnull
  · obtain ⟨hrk, hbelow⟩ := hknown hmode
    rw [hout] at hhas
    rcases has_setFrom_keys hrel hhas with hc | ⟨ha, -⟩ | ⟨hold, -⟩
    · exact hbelow p hc (hout ▸ hhas)
    · exact hrk.above (covers_of_isAbove ha)
    · exact h.closed hmode p hp hold

theorem Filled.write_field (hset : out.set rel y = (.ok (), out')) (hg : (rel, g) ∈ s.fields)
    (hy : y ≠ .null → g.FitsAt mode given rel y) : s.Filled mode given out' := by
  obtain ⟨hne, hrel⟩ := hk.paths rel (List.mem_map_of_mem hg)
  refine h.write hk hset hrel hne (fun p f hp => ?_) fun _ =>
    ⟨⟨_, hg, .inl (covers_refl _)⟩, fun p hc _ => ⟨_, hg, .inr hc⟩⟩
  rcases hp.2 _ hg with heq | ha
  · cases heq
    refine .inr fun u hu hnull => ?_
    rw [set_self hset] at hu
    cases hu
    exact hy hnull
  · exact .inl ha.symm

theorem Filled.write_null (hset : out.set rel .null = (.ok (), out')) (hne : rel ≠ []) {e : Path × Field}
    (he : e ∈ s.fields) (hr : rel.isAbove e.1) : s.Filled mode given out' := by
  have hrel : ∀ seg ∈ rel, seg.index? = none := fun seg hseg =>
    (hk.paths e.1 (List.mem_map_of_mem he)).2 seg ((covers_iff_initial.mp (covers_of_isAbove hr)).subset hseg)
  have hnone : ∀ p : Path, rel.isAbove p → out'.get? p = none := by
    intro p hp
    obtain ⟨t, ht, rfl⟩ := isAbove_iff.mp hp
    obtain ⟨seg, t, rfl⟩ := List.exists_cons_of_ne_nil ht
    rw [get?_append, set_self hset]
    rfl
  have hknown : s.Knows rel := ⟨e, he, .inl (covers_of_isAbove hr)⟩
  refine h.write hk hset hrel hne (fun p f hp => ?_) fun _ => ⟨hknown, fun p hc hhas => ?_⟩
  · refine (hp.apart_or_isAbove he hr).imp_right fun ha u hu => ?_
    rw [hnone p ha] at hu
    cases hu
  · rcases eq_or_isAbove_of_covers hc with rfl | ha
    · exact hknown
    · have := hhas.isSome
      rw [hnone p ha] at this
      cases this

end Schema

-- Embedded documents

namespace Schema

variable {given : Value}

theorem Filled.keepName (h : s.Filled mode given out) (hk : s.Meets .keyed) (hs : sub.select (some given) = .ok s) :
    FieldType.Fits mode (.embedded sub) given (given.keepName sub.discriminatorKey out) := by
  obtain ⟨fields, rfl⟩ := h.object
  by_cases hname : ∃ name, given.field? sub.discriminatorKey = some (.str name)
  · obtain ⟨name, hname⟩ := hname
    simp only [Value.keepName, hname]
    refine .embedded hs (fun name' hname' => ?_) (fun p f u hp hu hnull htext => ?_) fun hmode p hne hhas => ?_
    · rw [hname] at hname'
      cases hname'
      exact get?_insert_self
    · obtain ⟨hne, hkeys⟩ := hk.paths p (List.mem_map_of_mem hp.1)
      obtain ⟨seg, rest, rfl⟩ := List.exists_cons_of_ne_nil hne
      cases seg with
      | index => exact absurd (hkeys _ List.mem_cons_self) (by simp [Seg.index?])
      | key k =>
        by_cases hkey : sub.discriminatorKey = k
        · subst hkey
          rw [get?_field get?_insert_self] at hu
          cases rest with
          | nil =>
            cases hu
            exact .given (offers_of_field? hname) (FieldType.fits_text (htext ⟨rfl, name, hname⟩))
          | cons => cases hu
        · exact h.declared _ f u hp (get?_insert_apart hkey ▸ hu) hnull
    · obtain rfl | ⟨q, rfl, hq⟩ | ⟨k, q, rfl, -, hold⟩ := has_insert hhas
      · exact absurd rfl hne
      · cases hq
        exact .inr ⟨rfl, name, hname⟩
      · exact .inl (h.closed hmode _ hne hold)
  · rw [keepName_of_unnamed hname]
    refine .embedded hs (fun name hgiven => absurd ⟨name, hgiven⟩ hname) (fun p f u hp hu hnull _ => ?_)
      fun hmode p hne hhas => ?_
    · exact h.declared p f u hp hu hnull
    · exact .inl (h.closed hmode p hne hhas)

end Schema

-- Fields

def SchemaLaw.direct : SchemaLaw :=
  fun part => noSetters part ∧ keyed part

theorem Schema.Meets.keyed_of_direct {s : Schema} (h : s.Meets .direct) : s.Meets .keyed :=
  fun part hp => (h part hp).2

theorem Field.Casts.fits {f : Field} (h : f.Casts (fun t v w => w ≠ .null → t.Fits mode v w) v w) (hw : w ≠ .null) :
    f.type.Fits mode v w := by
  rcases h with ⟨-, -, hnull⟩ | ⟨-, h⟩
  · exact absurd hnull hw
  · exact h hw

theorem Cast.study_fits : Study (fun P c _ => Gives c P)
    (fun ctx ctx' => ctx = ctx' ∧ ctx.strict = mode) .direct (fun _ => True) (fun t v w => w ≠ .null → t.Fits mode v w)
    (fun _ s given out => s.Filled mode given out) where
  logic := logic_gives
  mode h := h.1 ▸ rfl
  part _ h := ⟨h.1 ▸ rfl, h.2⟩
  inner h := ⟨h.1 ▸ rfl, h.2⟩
  items _ _ _ := trivial
  fields _ _ _ := trivial
  setters hr _ _ := by
    rw [setters_eq_pure hr.1]
    exact gives_pure trivial
  raw _ _ _ := rawDefault_gives (fun _ _ => trivial) (fun _ _ _ _ => trivial) fun _ => trivial
  single _ _ hr hw := by
    cases hr with
    | string => exact .string _
    | number => exact .number _
    | blank => exact absurd rfl hw
    | boolean => exact .boolean _
    | date => exact .date _
    | id hv => exact .id hv
    | mixed => exact .mixed
  array {t _ _ _} _ harr hel _ hlen hws _ := by
    cases t with
    | array =>
      cases hel
      exact .array hlen fun e he => (hws e he).fits
    | documentArray =>
      cases hel
      exact .documentArray hlen fun e he => (hws e he).fits
    | string | number | boolean | date | id | mixed | map | embedded => cases harr
  map _ _ hkeys hes _ := .map hkeys fun e he => (hes e he).fits
  embedded ht ho _ := ho.keepName ht.meets.keyed_of_direct ht.selects
  empty ht := Schema.filled_empty ht.meets.keyed_of_direct
  write ht ho hf hset hsource hx' _ hy := by
    refine ho.write_field ht.meets.keyed_of_direct hset hf fun hnull => ?_
    rcases hsource with hoffer | hdefault
    · exact .given hoffer (hx' (ht.meets.field hf).rules.1 ▸ hy.fits hnull)
    · exact .default hdefault (hy.fits hnull)
  null ht ho hne he ha _ hset := ho.write_null ht.meets.keyed_of_direct hset hne he ha
  loose ht ho hctx hkeep hplace hnone hoffer _ hset := by
    have hk := ht.meets.keyed_of_direct
    refine ho.write hk hset hoffer.keys (by simp [Path.key]) (fun p f hp => .inl ?_) fun hmode => ?_
    · exact hp.apart_of_undeclared hplace hnone (hk.paths p (List.mem_map_of_mem hp.1)).1
    · exact absurd (hctx.2 ▸ hkeep) hmode

theorem Field.cast_fits {f : Field} (hf : f.Meets .direct) (ctx : CastContext) (v : Value) :
    Gives (f.cast ctx v) fun w => w ≠ .null → f.type.Fits ctx.strict v w :=
  (f.study_cast study_fits hf ctx ctx v ⟨rfl, rfl⟩ trivial).mono fun _ hw => hw.fits

-- The cast of a value to a field without setters is null or fits the type of the field. In embedded documents the
-- key that names variants is an exception: a string that was given for it is there as it was given.
theorem Field.cast_conforms (f : Field) (hsetters : f.Meets .noSetters) (hkeyed : f.Meets .keyed) (ctx : CastContext)
    (v w : Value) (e e' : Effects) (h : (f.cast ctx v).outcome e = (.ok w, e')) (hw : w ≠ .null) :
    f.type.Fits ctx.strict v w := by
  have hdirect : f.Meets .direct := fun part hp => ⟨hsetters part hp, hkeyed part hp⟩
  exact (Field.cast_fits hdirect ctx v e).2 w (by rw [h]) hw

-- Rows that have a name, and a note if they are of another kind.
def namedRows : Field :=
  .plain (.array (.plain (.embedded ⟨⟨{ id := false }, [([.key "name"], .plain .string)], []⟩,
    [("other", ⟨{ id := false }, [([.key "name"], .plain .string), ([.key "note", .key "text"], .plain .mixed),
      ([.key "kind"], .plain .string)], []⟩)]⟩)))

def givenRow : Value :=
  .obj [("age", .bool true), ("kind", .str "other"), ("name", .bool true), ("note", .obj [("text", .arr [])])]

def storedRows : Value :=
  .arr [.obj [("kind", .str "other"), ("name", .str "true"), ("note", .obj [("text", .arr [])])]]

theorem cast_conforms_namedRows :
    (namedRows.cast { path := [.key "rows"], root := [] } givenRow).outcome {} = (.ok storedRows, {}) ∧
    namedRows.type.Fits none givenRow storedRows := by
  have hcast : (namedRows.cast { path := [.key "rows"], root := [] } givenRow).outcome {} = (.ok storedRows, {}) := by
    simp only [givenRow, namedRows, Field.plain, Field.cast, FieldType.cast, Cast.array, items, SubSchema.cast,
      Schema.castVariant, Schema.cast, document, Schema.casters, keys]
    rfl
  exact ⟨hcast, Field.cast_conforms namedRows (by decide +kernel) (by decide +kernel) _ _ _ _ _ hcast Value.noConfusion⟩

-- A document of one field, which may be declared or not.
def marked (declared : List (Path × Field)) : Field :=
  .plain (.embedded ⟨⟨{ id := false }, declared, []⟩, []⟩)

-- There are no variants, and yet what is given under the key that would name one is kept: in the place of a truth
-- value, and where nothing is declared.
theorem cast_keeps_given_name :
    ((marked [([.key "kind"], .plain .boolean)]).cast { path := [], root := [] } (.obj [("kind", .str "yes")])).outcome {} =
      (.ok (.obj [("kind", .str "yes")]), {}) ∧
    (∀ v, ¬ FieldType.Fits none .boolean v (.str "yes")) ∧
    ((marked []).cast { path := [], root := [] } (.obj [("kind", .str "yes")])).outcome {} =
      (.ok (.obj [("kind", .str "yes")]), {}) := by
  refine ⟨?_, fun v h => ?_, ?_⟩
  · simp only [marked, Field.plain, Field.cast, FieldType.cast, SubSchema.cast, Schema.cast, document, Schema.casters, keys]
    rfl
  · cases h
  · simp only [marked, Field.plain, Field.cast, FieldType.cast, SubSchema.cast, Schema.cast, document, Schema.casters, keys]
    rfl

end Dossier

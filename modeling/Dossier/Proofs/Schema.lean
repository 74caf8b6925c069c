import Dossier.Proofs.Equality
import Dossier.Schema.Build
import Dossier.Schema.Resolve
import Mathlib.Data.List.Induction
import Mathlib.Data.List.Nodup
import Mathlib.Data.List.Pairwise

-- Conditions on all parts of a schema, at whatever depth, and what follows from them for the places that paths
-- lead to.

namespace Dossier

open Path List

inductive SchemaPart where
  | rules (r : Rules)
  | variants (vs : List (String × Schema))
  | paths (ps : List Path)

mutual

def FieldType.parts : FieldType → List SchemaPart
  | .array el | .map el => el.parts
  | .embedded sub | .documentArray sub => sub.parts
  | _ => []

def Field.parts : Field → List SchemaPart
  | ⟨type, rules⟩ => .rules rules :: type.parts

def SubSchema.parts : SubSchema → List SchemaPart
  | ⟨base, variants⟩ => .variants variants :: (base.parts ++ Schema.partsOfVariants variants)

def Schema.partsOfVariants : List (String × Schema) → List SchemaPart
  | [] => []
  | (_, schema) :: rest => schema.parts ++ Schema.partsOfVariants rest

def Schema.parts : Schema → List SchemaPart
  | ⟨_, fields, _⟩ => .paths (fields.map (·.1)) :: Schema.partsOfFields fields

def Schema.partsOfFields : List (Path × Field) → List SchemaPart
  | [] => []
  | (_, field) :: rest => field.parts ++ Schema.partsOfFields rest

end

abbrev SchemaLaw := SchemaPart → Prop

def FieldType.Meets (law : SchemaLaw) (t : FieldType) : Prop := ∀ part ∈ t.parts, law part

def Field.Meets (law : SchemaLaw) (f : Field) : Prop := ∀ part ∈ f.parts, law part

def SubSchema.Meets (law : SchemaLaw) (s : SubSchema) : Prop := ∀ part ∈ s.parts, law part

def Schema.Meets (law : SchemaLaw) (s : Schema) : Prop := ∀ part ∈ s.parts, law part

instance (law : SchemaLaw) [DecidablePred law] (f : Field) : Decidable (f.Meets law) :=
  inferInstanceAs (Decidable (∀ part ∈ f.parts, law part))

instance (law : SchemaLaw) [DecidablePred law] (s : Schema) : Decidable (s.Meets law) :=
  inferInstanceAs (Decidable (∀ part ∈ s.parts, law part))

variable {law : SchemaLaw}

namespace FieldType

theorem Meets.element {el : Field} (h : (FieldType.array el).Meets law ∨ (FieldType.map el).Meets law) :
    el.Meets law := by
  rcases h with h | h <;> simpa only [Meets, parts, Field.Meets] using h

theorem Meets.sub {sub : SubSchema} (h : (FieldType.embedded sub).Meets law ∨ (FieldType.documentArray sub).Meets law) :
    sub.Meets law := by
  rcases h with h | h <;> simpa only [Meets, parts, SubSchema.Meets] using h

theorem meets_embedded {sub : SubSchema} (h : sub.Meets law) : (FieldType.embedded sub).Meets law := by
  simpa only [Meets, parts, SubSchema.Meets] using h

end FieldType

namespace Field

variable {f : Field}

theorem meets_iff : f.Meets law ↔ law (.rules f.rules) ∧ f.type.Meets law := by
  cases f
  simp [Field.Meets, Field.parts, FieldType.Meets]

theorem Meets.rules (h : f.Meets law) : law (.rules f.rules) :=
  (meets_iff.mp h).1

theorem Meets.type (h : f.Meets law) : f.type.Meets law :=
  (meets_iff.mp h).2

end Field

namespace Schema

variable {s : Schema} {f : Field} {p : Path}

theorem mem_partsOfFields {fields : List (Path × Field)} :
    part ∈ partsOfFields fields ↔ ∃ e ∈ fields, part ∈ e.2.parts := by
  induction fields with
  | nil => simp [partsOfFields]
  | cons e fields ih => simp [partsOfFields, ih]

theorem mem_partsOfVariants {variants : List (String × Schema)} :
    part ∈ partsOfVariants variants ↔ ∃ e ∈ variants, part ∈ e.2.parts := by
  induction variants with
  | nil => simp [partsOfVariants]
  | cons e variants ih => simp [partsOfVariants, ih]

theorem Meets.paths (h : s.Meets law) : law (.paths (s.fields.map (·.1))) := by
  cases s
  exact h _ (by simp [parts])

theorem Meets.field (h : s.Meets law) (hf : (p, f) ∈ s.fields) : f.Meets law := by
  cases s
  refine fun part hp => h part ?_
  rw [parts]
  exact mem_cons_of_mem _ (mem_partsOfFields.mpr ⟨_, hf, hp⟩)

theorem mem_of_field? (h : s.field? p = some f) : (p, f) ∈ s.fields := by
  simp only [field?, Option.map_eq_some_iff] at h
  obtain ⟨⟨q, g⟩, hf, rfl⟩ := h
  have := find?_some hf
  simp only [decide_eq_true_eq] at this
  subst this
  exact mem_of_find?_eq_some hf

end Schema

namespace SubSchema

variable {sub : SubSchema} {s : Schema} {k : String}

theorem Meets.variants (h : sub.Meets law) : law (.variants sub.variants) := by
  cases sub
  exact h _ (by simp [parts])

theorem Meets.base (h : sub.Meets law) : sub.base.Meets law := by
  cases sub
  refine fun part hp => h part ?_
  simp only [parts, mem_cons, mem_append]
  exact .inr (.inl hp)

theorem Meets.variant (h : sub.Meets law) (hs : (k, s) ∈ sub.variants) : s.Meets law := by
  cases sub
  refine fun part hp => h part ?_
  simp only [parts, mem_cons, mem_append]
  exact .inr (.inr (Schema.mem_partsOfVariants.mpr ⟨_, hs, hp⟩))

end SubSchema

-- Conditions

-- No value that the default gives can be equal to one that differs from it.
def Default.Exact : Default → Prop
  | .literal v => v.Exact
  | .generate f => ∀ view v, f view = .ok v → v.Exact
  | .freshId => True

namespace SchemaLaw

def noSetters : SchemaLaw
  | .rules r => r.setters = []
  | _ => True

instance : DecidablePred noSetters := fun part =>
  match part with
  | .rules r => inferInstanceAs (Decidable (r.setters = []))
  | .variants _ | .paths _ => .isTrue trivial

def exactDefaults : SchemaLaw
  | .rules r => ∀ d, r.default = some d → d.Exact
  | _ => True

def noVariants : SchemaLaw
  | .variants vs => vs = []
  | _ => True

-- Declared paths are spelled keys, and no declared path covers another.
def wellFormed : SchemaLaw
  | .paths ps => (∀ p ∈ ps, p ≠ [] ∧ p.Spelled ∧ ∀ seg ∈ p, seg.index? = none) ∧ ps.Pairwise Path.Apart
  | _ => True

instance : DecidablePred wellFormed := fun part =>
  match part with
  | .paths ps => inferInstanceAs (Decidable
      ((∀ p ∈ ps, p ≠ [] ∧ p.Spelled ∧ ∀ seg ∈ p, seg.index? = none) ∧ ps.Pairwise Path.Apart))
  | .rules _ | .variants _ => .isTrue trivial

-- Declared paths are keys. This also holds of the variants of a schema, where one path may cover another.
def keyed : SchemaLaw
  | .paths ps => ∀ p ∈ ps, p ≠ [] ∧ ∀ seg ∈ p, seg.index? = none
  | _ => True

instance : DecidablePred keyed := fun part =>
  match part with
  | .paths ps => inferInstanceAs (Decidable (∀ p ∈ ps, p ≠ [] ∧ ∀ seg ∈ p, seg.index? = none))
  | .rules _ | .variants _ => .isTrue trivial

-- Conditions under which whatever is written can be told from whatever it replaces.
def plain : SchemaLaw :=
  fun part => noSetters part ∧ exactDefaults part ∧ noVariants part ∧ wellFormed part

end SchemaLaw

-- Places

theorem SubSchema.selectOrBase_cases (sub : SubSchema) (v : Option Value) :
    sub.selectOrBase v = sub.base ∨ ∃ name, (name, sub.selectOrBase v) ∈ sub.variants := by
  simp only [SubSchema.selectOrBase, select]
  split
  · case _ s hs =>
    split at hs
    · cases hs
      simp only [named]
      split
      · case _ hg =>
        obtain ⟨name, -, hg⟩ := Option.bind_eq_some_iff.mp hg
        exact .inr ⟨name, Entries.mem_of_get? hg⟩
      · exact .inl rfl
    · cases hs
  · exact .inl rfl

theorem SubSchema.Meets.selectOrBase {sub : SubSchema} (h : sub.Meets law) : (sub.selectOrBase v).Meets law := by
  rcases sub.selectOrBase_cases v with he | ⟨name, hm⟩
  · rw [he]
    exact h.base
  · exact h.variant hm

theorem SubSchema.selectOrBase_of_noVariants {sub : SubSchema} (h : sub.Meets .noVariants) :
    sub.selectOrBase v = sub.base := by
  have hv : sub.variants = [] := h.variants
  simp [SubSchema.selectOrBase, select, variant?, named, hv]

theorem SubSchema.variant?_isSome {sub : SubSchema} (h : sub.variant? v = .ok (some name)) :
    (Entries.get? name sub.variants).isSome := by
  rw [variant?] at h
  split at h
  · cases h
  · split at h
    · cases h
    · cases h
    · split at h
      · case isTrue hc => cases h; exact hc
      · cases h
    · cases h

theorem Field.meets_ofSub {sub : SubSchema} (h : sub.Meets law) (hr : law (.rules {})) :
    (Field.ofSub sub).Meets law := by
  refine Field.meets_iff.mpr ⟨hr, ?_⟩
  simpa only [FieldType.Meets, ofSub, plain, FieldType.parts, SubSchema.Meets] using h

theorem Field.Meets.element {f : Field} (h : f.Meets law) (hr : law (.rules {})) (he : f.element? = some el) :
    el.Meets law := by
  have ht := h.type
  rw [Field.element?] at he
  split at he
  · case _ hf => cases he; rw [hf] at ht; exact FieldType.Meets.element (.inl ht)
  · case _ hf => cases he; rw [hf] at ht; exact FieldType.Meets.element (.inr ht)
  · case _ hf => cases he; rw [hf] at ht; exact meets_ofSub (FieldType.Meets.sub (.inr ht)) hr
  · cases he

namespace Cursor

-- A condition on what is declared at a place and below it.
def Meets (law : SchemaLaw) : Cursor → Prop
  | .schema s _ _ => s.Meets law
  | .field f _ => f.Meets law
  | .inMixed | .lost => True

-- Places that differ at most in the values that are there.
inductive Alike : Cursor → Cursor → Prop
  | schema {s p d d'} : Alike (.schema s p d) (.schema s p d')
  | field {f v v'} : Alike (.field f v) (.field f v')
  | inMixed : Alike .inMixed .inMixed
  | lost : Alike .lost .lost

-- Places whose values have no declared parts.
def isRaw : Cursor → Bool
  | .inMixed | .lost => true
  | _ => false

variable {c c' : Cursor} {s : Schema} {seg : Seg} {p q : Path}

theorem Alike.resolution (h : Alike c c') : c.resolution = c'.resolution := by
  cases h <;> rfl

theorem Alike.isRaw (h : Alike c c') : c.isRaw = c'.isRaw := by
  cases h <;> rfl

-- From a field a step leads nowhere, into the document that is embedded there, or to a part.
theorem step_field₂ {R : Cursor → Cursor → Prop} (hseg : f.type.isArray → seg = seg') (hmixed : R .inMixed .inMixed)
    (hlost : R .lost .lost) (hsub : ∀ sub, f.type = .embedded sub →
      R (stepSchema (sub.selectOrBase o) Path.root o seg) (stepSchema (sub.selectOrBase o') Path.root o' seg'))
    (hpart : ∀ el, f.element? = some el → R (.field el (o.bind (·.child? seg))) (.field el (o'.bind (·.child? seg')))) :
    R (step (.field f o) seg) (step (.field f o') seg') := by
  simp only [Cursor.step, stepField]
  rw [Field.element?] at hpart
  cases ht : f.type with
  | string | number | boolean | date | id => exact hlost
  | mixed => exact hmixed
  | embedded sub => exact hsub sub ht
  | map el => exact hpart el (by rw [ht])
  | array el =>
    obtain rfl := hseg (by rw [ht]; rfl)
    dsimp only
    split
    · exact hpart el (by rw [ht])
    · exact hlost
  | documentArray sub =>
    obtain rfl := hseg (by rw [ht]; rfl)
    dsimp only
    split
    · exact hpart (.ofSub sub) (by rw [ht])
    · exact hlost

theorem step_field {P : Cursor → Prop} (hmixed : P .inMixed) (hlost : P .lost)
    (hsub : ∀ sub, f.type = .embedded sub → P (stepSchema (sub.selectOrBase o) Path.root o seg))
    (hpart : ∀ el, f.element? = some el → P (.field el (o.bind (·.child? seg)))) : P (step (.field f o) seg) :=
  (step_field₂ (R := fun c c' => c = c' ∧ P c) (fun _ => rfl) ⟨rfl, hmixed⟩ ⟨rfl, hlost⟩
    (fun sub hs => ⟨rfl, hsub sub hs⟩) fun el he => ⟨rfl, hpart el he⟩).2

theorem Meets.stepSchema {d : Option Value} (h : s.Meets law) : (stepSchema s p d seg).Meets law := by
  simp only [Cursor.stepSchema]
  split
  · case _ f hf => exact h.field (Schema.mem_of_field? hf)
  · split
    · exact h
    · trivial

theorem Meets.step (h : c.Meets law) (hr : law (.rules {})) : (c.step seg).Meets law := by
  cases c with
  | schema s p d => exact Meets.stepSchema h
  | inMixed | lost => trivial
  | field f v =>
    refine step_field (P := fun c => c.Meets law) trivial trivial (fun sub hs => ?_)
      fun el he => Field.Meets.element h hr he
    have ht := Field.Meets.type h
    rw [hs] at ht
    exact Meets.stepSchema (FieldType.Meets.sub (.inl ht)).selectOrBase

theorem Meets.foldl (h : c.Meets law) (hr : law (.rules {})) : (p.foldl Cursor.step c).Meets law := by
  induction p generalizing c with
  | nil => exact h
  | cons seg p ih => exact ih (h.step hr)

theorem Alike.stepSchema : Alike (stepSchema s p d seg) (stepSchema s p d' seg) := by
  simp only [Cursor.stepSchema]
  split
  · exact .field
  · split
    · exact .schema
    · exact .lost

theorem Alike.step (h : Alike c c') (hv : c.Meets .noVariants) : Alike (c.step seg) (c'.step seg) := by
  cases h with
  | schema => exact Alike.stepSchema
  | inMixed => exact .inMixed
  | lost => exact .lost
  | @field f v v' =>
    refine step_field₂ (fun _ => rfl) .inMixed .lost (fun sub hs => ?_) fun _ _ => .field
    have ht := Field.Meets.type hv
    rw [hs] at ht
    have ht := FieldType.Meets.sub (.inl ht)
    rw [SubSchema.selectOrBase_of_noVariants ht, SubSchema.selectOrBase_of_noVariants ht]
    exact Alike.stepSchema

theorem Alike.foldl (h : Alike c c') (hv : c.Meets .noVariants) :
    Alike (p.foldl Cursor.step c) (p.foldl Cursor.step c') := by
  induction p generalizing c c' with
  | nil => exact h
  | cons seg p ih => exact ih (h.step hv) (hv.step trivial)

theorem isRaw_foldl (h : c.isRaw) : (p.foldl Cursor.step c).isRaw := by
  induction p generalizing c with
  | nil => exact h
  | cons seg p ih =>
    cases c with
    | schema | field => cases h
    | inMixed | lost => exact ih h

theorem isRaw_of_not_structural (hf : ¬ f.type.isStructural) (hp : p ≠ []) :
    (p.foldl Cursor.step (.field f v)).isRaw := by
  match p with
  | seg :: p =>
    rw [foldl_cons]
    refine isRaw_foldl ?_
    cases h : f.type <;> simp_all [FieldType.isStructural, Cursor.step, stepField, isRaw]

end Cursor

namespace Schema

variable {s : Schema} {p q : Path} {f : Field} {v v' : Value} {d : Option Value}

def place (s : Schema) (p : Path) : Cursor :=
  p.foldl Cursor.step (.schema s Path.root none)

theorem place_append : s.place (p ++ q) = q.foldl Cursor.step (s.place p) :=
  foldl_append

theorem resolve_eq_place (h : s.Meets .noVariants) : s.resolve v p = (s.place p).resolution :=
  (Cursor.Alike.foldl .schema h).resolution

theorem Meets.place (h : s.Meets law) (hr : law (.rules {})) : (s.place p).Meets law :=
  Cursor.Meets.foldl h hr

-- Declared paths

def Apart (s : Schema) : Prop :=
  (∀ e ∈ s.fields, e.1 ≠ [] ∧ ∀ seg ∈ e.1, seg.index? = none) ∧ (s.fields.map (·.1)).Pairwise Path.Apart

theorem Meets.declared (h : s.Meets .wellFormed) (hf : (p, f) ∈ s.fields) :
    p ≠ [] ∧ p.Spelled ∧ ∀ seg ∈ p, seg.index? = none :=
  h.paths.1 p (mem_map_of_mem hf)

theorem Meets.apart (h : s.Meets .wellFormed) : s.Apart :=
  ⟨fun _ he => (h.declared he).imp_right And.right, h.paths.2⟩

theorem apart_of_pairwise (hps : (s.fields.map (·.1)).Pairwise Path.Apart) (hp : (p, f) ∈ s.fields)
    (hq : (q, g) ∈ s.fields) (hne : p ≠ q) : p.Apart q :=
  have : Std.Symm Path.Apart := ⟨fun _ _ => Path.Apart.symm⟩
  hps.forall (mem_map_of_mem hp) (mem_map_of_mem hq) hne

theorem apart_of_mem (h : s.Meets .wellFormed) (hp : (p, f) ∈ s.fields) (hq : (q, g) ∈ s.fields) (hne : p ≠ q) :
    p.Apart q :=
  apart_of_pairwise h.paths.2 hp hq hne

theorem field?_of_nodup (hn : (s.fields.map (·.1)).Nodup) (hf : (p, f) ∈ s.fields) : s.field? p = some f := by
  obtain ⟨g, hg⟩ : ∃ g, s.field? p = some g := by
    rw [← Option.isSome_iff_exists, field?, Option.isSome_map, find?_isSome]
    exact ⟨_, hf, by simp⟩
  cases inj_on_of_nodup_map hn (mem_of_field? hg) hf rfl
  exact hg

theorem Apart.nodup (h : s.Apart) : (s.fields.map (·.1)).Nodup :=
  h.2.imp fun {a b} (ha : Path.Apart a b) (he : a = b) => ha.1 (he ▸ covers_refl a)

theorem field?_of_mem (h : s.Apart) (hf : (p, f) ∈ s.fields) : s.field? p = some f :=
  field?_of_nodup h.nodup hf

theorem isNested_of_isAbove (hf : (p, f) ∈ s.fields) (hq : q.isAbove p) (hne : q ≠ []) : s.isNested q := by
  simp only [isNested, Bool.and_eq_true, any_eq_true]
  exact ⟨by simpa using hne, _, hf, hq⟩

-- A field that is declared below no other one.
structure Outermost (s : Schema) (p : Path) (f : Field) : Prop where
  ne_nil : p ≠ []
  keys   : ∀ seg ∈ p, seg.index? = none
  field  : s.field? p = some f
  free   : ∀ e ∈ s.fields, ¬ e.1.isAbove p

theorem Apart.outermost (h : s.Apart) (hf : (p, f) ∈ s.fields) : s.Outermost p f where
  ne_nil := (h.1 _ hf).1
  keys := (h.1 _ hf).2
  field := field?_of_mem h hf
  free _ he ha := (apart_of_pairwise h.2 he hf (ne_of_isAbove ha)).1 (covers_of_isAbove ha)

theorem Outermost.field?_none (h : s.Outermost p f) (hq : q.isAbove p) : s.field? q = none :=
  Option.eq_none_iff_forall_not_mem.mpr fun _ hg => h.free _ (mem_of_field? hg) hq

theorem field?_eq_none_of_isAbove (h : s.Apart) (hf : (p, f) ∈ s.fields) (hq : q.isAbove p) : s.field? q = none :=
  (h.outermost hf).field?_none hq

-- On the way to an outermost field only groups of fields are met.
theorem Outermost.foldl_of_isAbove (h : s.Outermost p f) (hq : q.isAbove p) :
    q.foldl Cursor.step (.schema s Path.root d) = .schema s q d := by
  induction q using List.reverseRecOn with
  | nil => rfl
  | append_singleton q seg ih =>
    have hq' : Path.isAbove q p :=
      isAbove_trans (isAbove_append_iff.mpr (covers_refl q)) hq
    have hseg : seg ∈ p := by
      obtain ⟨x, -, rfl⟩ := isAbove_iff.mp hq
      simp
    cases seg with
    | index i => cases h.keys _ hseg
    | key k =>
      have hnested := isNested_of_isAbove (mem_of_field? h.field) hq (by simp)
      rw [foldl_append, ih hq', foldl_cons, foldl_nil, Cursor.step, Cursor.stepSchema]
      simp only [Seg.toKey, Path.key, h.field?_none hq, hnested, if_true]

theorem Outermost.foldl (h : s.Outermost p f) :
    p.foldl Cursor.step (.schema s Path.root d) = .field f (d.bind (·.get? p)) := by
  have hfield := h.field
  obtain ⟨q, seg, rfl⟩ : ∃ q seg, p = q ++ [seg] := ⟨_, _, (dropLast_concat_getLast h.ne_nil).symm⟩
  cases seg with
  | index i => cases h.keys (.index i) (by simp)
  | key k =>
    rw [foldl_append, h.foldl_of_isAbove (isAbove_append_iff.mpr (covers_refl q)), foldl_cons,
      foldl_nil, Cursor.step, Cursor.stepSchema]
    simp only [Seg.toKey, Path.key, hfield]

section

variable (h : s.Apart) (hf : (p, f) ∈ s.fields)

include h hf

theorem foldl_of_isAbove (hq : q.isAbove p) : q.foldl Cursor.step (.schema s Path.root d) = .schema s q d :=
  (h.outermost hf).foldl_of_isAbove hq

theorem resolve_of_isAbove (hq : q.isAbove p) (hne : q ≠ []) : s.resolve v q = .nested := by
  rw [resolve, foldl_of_isAbove h hf hq, Cursor.resolution, if_neg (by simpa using hne)]

theorem foldl_declared : p.foldl Cursor.step (.schema s Path.root d) = .field f (d.bind (·.get? p)) :=
  (h.outermost hf).foldl

theorem resolve_declared : s.resolve v p = .field f := by
  rw [resolve, foldl_declared h hf]
  rfl

end

theorem stepSchema_of_not_covers (h : ∀ e ∈ s.fields, ¬ (p.key seg.toKey).covers e.1) :
    Cursor.stepSchema s p d seg = .lost := by
  have hfield : s.field? (p.key seg.toKey) = none :=
    Option.eq_none_iff_forall_not_mem.mpr fun f hf => h _ (mem_of_field? hf) (covers_refl _)
  have hnested : ¬ s.isNested (p.key seg.toKey) := by
    simp only [isNested, Bool.and_eq_true, any_eq_true, not_and, not_exists]
    exact fun _ e he ha => h e he (covers_of_isAbove ha)
  simp only [Cursor.stepSchema, hfield, hnested]
  rfl

theorem stepSchema_of_not_mem (hs : ∀ e ∈ s.fields, e.1.Spelled) (hb : seg.Bounded)
    (hp : ∀ f, (p ++ [seg], f) ∉ s.fields) : Cursor.stepSchema s p d seg = .lost ∨
      Cursor.stepSchema s p d seg = .schema s (p ++ [seg]) d ∧ ∃ e ∈ s.fields, Path.isAbove (p ++ [seg]) e.1 := by
  by_cases hc : ∃ e ∈ s.fields, (p.key seg.toKey).covers e.1
  · obtain ⟨e, he, hc⟩ := hc
    have hkey : seg = .key seg.toKey := Seg.eq_key_of_toKey ((hs e he).of_covers hc _ (by simp [Path.key])) hb rfl
    have hq : p.key seg.toKey = p ++ [seg] := by rw [Path.key, ← hkey]
    rw [hq] at hc
    have hfield : s.field? (p ++ [seg]) = none :=
      Option.eq_none_iff_forall_not_mem.mpr fun f hf => hp f (mem_of_field? hf)
    have ha : Path.isAbove (p ++ [seg]) e.1 := isAbove_iff_covers.mpr ⟨hc, fun h => hp e.2 (h ▸ he)⟩
    refine .inr ⟨?_, e, he, ha⟩
    simp only [Cursor.stepSchema, hq, hfield, isNested_of_isAbove he ha (by simp), if_true]
  · exact .inl (stepSchema_of_not_covers (by simpa using hc))

theorem resolve_of_apart (hs : ∀ e ∈ s.fields, e.1.Spelled) (hb : p.Bounded) (hp : ∀ e ∈ s.fields, p.Apart e.1) :
    s.resolve v p = .undeclared := by
  -- The way leads along groups of fields until it is lost.
  have hway (q : Path) (hq : q.covers p) : q.foldl Cursor.step (.schema s Path.root (some v)) = .lost ∨
      q.foldl Cursor.step (.schema s Path.root (some v)) = .schema s q (some v) ∧
        (q = [] ∨ ∃ e ∈ s.fields, q.isAbove e.1) := by
    induction q using List.reverseRecOn with
    | nil => exact .inr ⟨rfl, .inl rfl⟩
    | append_singleton q seg ih =>
      have hseg : seg.Bounded := hb seg ((covers_iff_initial.mp hq).subset (by simp))
      rw [foldl_append, foldl_cons, foldl_nil]
      rcases ih (covers_trans (covers_append q [seg]) hq) with h | ⟨h, -⟩ <;> rw [h, Cursor.step]
      · exact .inl rfl
      · exact (stepSchema_of_not_mem hs hseg fun f hf => (hp _ hf).2 hq).imp_right (And.imp_right .inr)
  rw [resolve]
  rcases hway p (covers_refl p) with h | ⟨h, rfl | ⟨e, he, ha⟩⟩
  · rw [h]
    rfl
  · rfl
  · exact absurd (covers_of_isAbove ha) (hp e he).1

theorem foldl_embedded (hv : sub.Meets .noVariants) (h : sub.base.Meets .wellFormed) (hg : g.type = .embedded sub)
    (hf : (p, f) ∈ sub.base.fields) : p.foldl Cursor.step (.field g d) = .field f (d.bind (·.get? p)) := by
  rw [← foldl_declared h.apart hf]
  match p, (h.declared hf).1 with
  | seg :: p, _ =>
    simp only [foldl_cons, Cursor.step, Cursor.stepField, hg,
      SubSchema.selectOrBase_of_noVariants hv]

-- What a path resolves to

theorem place_of_resolve (h : s.Meets .noVariants) (hr : s.resolve v p = .field f) : ∃ x, s.place p = .field f x := by
  rw [resolve_eq_place h] at hr
  cases hc : s.place p with
  | field f' x =>
    rw [hc] at hr
    cases hr
    exact ⟨x, rfl⟩
  | schema s' q x =>
    simp only [hc, Cursor.resolution] at hr
    split at hr <;> cases hr
  | inMixed | lost => rw [hc] at hr; cases hr

end Schema

theorem Cursor.stepSchema_place (h : stepSchema s p x seg = .schema s' q x') : q ≠ [] := by
  rw [stepSchema] at h
  split at h
  · cases h
  · split at h
    · cases h
      simp [Path.key]
    · cases h

theorem Cursor.step_place {c : Cursor} (h : c.step seg = .schema s q x) : q ≠ [] := by
  cases c with
  | schema s' p x' => exact stepSchema_place h
  | field f v =>
    refine step_field (P := fun c => c = .schema s q x → q ≠ []) (fun h => ?_) (fun h => ?_)
      (fun _ _ => stepSchema_place) (fun _ _ h => ?_) h <;> cases h
  | inMixed | lost => cases h

namespace Schema

variable {s : Schema} {p : Path} {f : Field}

theorem isRaw_place_of_resolve {v : Value} (h : s.Meets .noVariants) (hp : p ≠ [])
    (hr : s.resolve v p = .inMixed ∨ s.resolve v p = .undeclared) : (s.place p).isRaw := by
  rw [resolve_eq_place h] at hr
  cases hc : s.place p with
  | field f' x => rw [hc] at hr; rcases hr with hr | hr <;> cases hr
  | schema s' q x =>
    have hq : q ≠ [] := by
      rcases eq_nil_or_concat p with rfl | ⟨p', seg, rfl⟩
      · exact absurd rfl hp
      · rw [concat_eq_append, place_append] at hc
        exact Cursor.step_place hc
    rw [hc, Cursor.resolution, if_neg (by simp [hq])] at hr
    rcases hr with hr | hr <;> cases hr
  | inMixed | lost => rfl

theorem plain_rules : SchemaLaw.plain (.rules {}) :=
  ⟨rfl, by simp [SchemaLaw.exactDefaults], trivial, trivial⟩

theorem Meets.noVariants (h : s.Meets .plain) : s.Meets .noVariants :=
  fun part hp => (h part hp).2.2.1

theorem Meets.place_field (h : s.Meets .plain) (hf : s.place p = .field f x) : f.Meets .plain := by
  have := h.place (p := p) plain_rules
  rwa [hf] at this

end Schema
end Dossier

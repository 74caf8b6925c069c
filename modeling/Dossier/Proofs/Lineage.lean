import Dossier.Proofs.Embedding
import Dossier.Proofs.Housed

-- The schemas that a schema holds, its own and those of the documents that it embeds.

namespace Dossier

open List

mutual

def FieldType.schemas : FieldType → List Schema
  | .array el | .map el => el.schemas
  | .embedded sub | .documentArray sub => sub.schemas
  | _ => []

def Field.schemas : Field → List Schema
  | ⟨type, _⟩ => type.schemas

def SubSchema.schemas : SubSchema → List Schema
  | ⟨base, variants⟩ => base.schemas ++ Schema.schemasOfVariants variants

def Schema.schemasOfVariants : List (String × Schema) → List Schema
  | [] => []
  | (_, schema) :: rest => schema.schemas ++ Schema.schemasOfVariants rest

-- The schema, and those of the documents that it embeds at whatever depth.
def Schema.schemas : Schema → List Schema
  | ⟨options, fields, virtuals⟩ => ⟨options, fields, virtuals⟩ :: Schema.schemasOfFields fields

def Schema.schemasOfFields : List (Path × Field) → List Schema
  | [] => []
  | (_, field) :: rest => field.schemas ++ Schema.schemasOfFields rest

end

namespace Schema

variable {s : Schema}

theorem mem_schemas_self : s ∈ s.schemas := by
  cases s
  simp [schemas]

theorem mem_schemasOfFields {fields : List (Path × Field)} :
    t ∈ schemasOfFields fields ↔ ∃ e ∈ fields, t ∈ e.2.schemas := by
  induction fields with
  | nil => simp [schemasOfFields]
  | cons e fields ih => simp [schemasOfFields, ih]

theorem mem_schemasOfVariants {variants : List (String × Schema)} :
    t ∈ schemasOfVariants variants ↔ ∃ e ∈ variants, t ∈ e.2.schemas := by
  induction variants with
  | nil => simp [schemasOfVariants]
  | cons e variants ih => simp [schemasOfVariants, ih]

theorem schemas_field (hf : (p, f) ∈ s.fields) : f.schemas ⊆ s.schemas := by
  cases s
  intro t ht
  rw [schemas]
  exact mem_cons_of_mem _ (mem_schemasOfFields.mpr ⟨_, hf, ht⟩)

end Schema

theorem SubSchema.schemas_selectOrBase {sub : SubSchema} : (sub.selectOrBase v).schemas ⊆ sub.schemas := by
  intro t ht
  rcases sub.selectOrBase_cases v with he | ⟨name, hm⟩
  · rw [he] at ht
    cases sub
    rw [schemas]
    exact mem_append_left _ ht
  · cases sub
    rw [schemas]
    exact mem_append_right _ (Schema.mem_schemasOfVariants.mpr ⟨_, hm, ht⟩)

theorem Field.schemas_eq (f : Field) : f.schemas = f.type.schemas := by
  cases f
  rw [schemas]

theorem Field.schemas_ofSub (sub : SubSchema) : (Field.ofSub sub).schemas = sub.schemas := by
  simp only [ofSub, plain, schemas, FieldType.schemas]

-- The schemas that paths lead to

theorem Field.schemas_element {f : Field} (h : f.element? = some el) : el.schemas = f.schemas := by
  rw [Field.schemas_eq f]
  rw [element?] at h
  split at h
  · case _ ht => cases h; rw [ht, FieldType.schemas]
  · case _ ht => cases h; rw [ht, FieldType.schemas]
  · case _ ht => cases h; rw [ht, FieldType.schemas, Field.schemas_ofSub]
  · cases h

namespace Cursor

variable {c : Cursor} {p : Path}

def schemas : Cursor → List Schema
  | .schema s _ _ => s.schemas
  | .field f _ => f.schemas
  | .inMixed | .lost => []

theorem schemas_stepSchema : (stepSchema s p d seg).schemas ⊆ s.schemas := by
  simp only [stepSchema]
  split
  · case _ hf => exact Schema.schemas_field (Schema.mem_of_field? hf)
  · split
    · exact List.Subset.refl _
    · exact nil_subset _

theorem schemas_step : (c.step seg).schemas ⊆ c.schemas := by
  cases c with
  | schema => exact schemas_stepSchema
  | inMixed | lost => exact nil_subset _
  | field f v =>
    rw [show (field f v).schemas = f.schemas from rfl]
    refine step_field (P := fun c => c.schemas ⊆ f.schemas) (nil_subset _) (nil_subset _)
      (fun sub hs => ?_) fun el he _ hs => Field.schemas_element he ▸ hs
    rw [Field.schemas_eq f, hs, FieldType.schemas]
    exact List.Subset.trans schemas_stepSchema SubSchema.schemas_selectOrBase

theorem schemas_foldl : (p.foldl step c).schemas ⊆ c.schemas := by
  induction p generalizing c with
  | nil => exact List.Subset.refl _
  | cons seg p ih => exact List.Subset.trans ih schemas_step

end Cursor

namespace FieldType

variable {t : FieldType}

theorem schemas_of_sub? (h : t.sub? = some sub) : t.schemas = sub.schemas := by
  cases t with
  | embedded | documentArray => cases h; rw [schemas]
  | string | number | boolean | date | id | mixed | array | map => cases h

theorem Holds.schemas (h : t.Holds root v r s w) : s.schemas ⊆ t.schemas := by
  obtain ⟨sub, hsub, rfl⟩ := h.sub?
  rw [schemas_of_sub? hsub]
  exact SubSchema.schemas_selectOrBase

theorem Embeds.schemas (h : t.Embeds root v r s w) : s.schemas ⊆ t.schemas := by
  induction h with
  | here hh => exact hh.schemas
  | inner hh hf _ ih =>
    rw [← Field.schemas_eq] at ih
    exact List.Subset.trans ih (List.Subset.trans (Schema.schemas_field hf) hh.schemas)

end FieldType

-- The schemas of scopes

namespace Scopes

variable {s : Scopes} {schemas : List Schema}

def Stem (s : Scopes) (schemas : List Schema) : Prop :=
  s.All (·.schema.schemas ⊆ schemas)

theorem static_stem : Static fun scope => scope.schema.schemas ⊆ schemas :=
  fun _ _ h => h

theorem Adds.stem (ha : Adds (·.schema.schemas ⊆ schemas) s s') (h : s.Tidy ∧ s.Stem schemas) :
    s'.Tidy ∧ s'.Stem schemas :=
  ⟨ha.tidy h.1, ha.all h.1 h.2 fun _ hscope => hscope⟩

theorem stem_attachField (h : s.Tidy ∧ s.Stem schemas) (hf : f.schemas ⊆ schemas) :
    (s.attachField f p x o origin).Tidy ∧ (s.attachField f p x o origin).Stem schemas := by
  rw [Field.schemas_eq] at hf
  exact (attachField_gains (fun he => List.Subset.trans he.schemas hf) h.1).adds.stem h

theorem stem_attachItems (h : s.Tidy ∧ s.Stem schemas) (hs : sub.schemas ⊆ schemas) :
    (s.attachItems sub p n items o origin).Tidy ∧ (s.attachItems sub p n items o origin).Stem schemas := by
  have hitem (s : Scopes) (r : Path) (fs : List (String × Value)) (ht : s.Tidy) :
      Gains (·.schema.schemas ⊆ schemas) (fun _ => False) s (sub.attach o origin r (.obj fs) s) := by
    have hgains : Gains (·.schema.schemas ⊆ schemas) (fun r' => ∃ schema w, (FieldType.embedded sub).Embeds r
        (some (.obj fs)) r' schema w) s ((FieldType.embedded sub).attach o origin r (some (.obj fs)) s) := by
      refine FieldType.attach_gains _ (fun he => ?_) ht
      exact List.Subset.trans he.schemas hs
    exact hgains.mono fun _ h => h.elim
  exact (gains_forDocuments (R := fun _ _ => False) (fun s j fs _ ht => hitem s _ fs ht) h.1).adds.stem h

theorem upheld_stem : Upheld (fun _ f => f.schemas ⊆ schemas) (·.Stem schemas) where
  modified h := h.modify static_stem
  committed _ h k scope hs := by
    rw [get?_mapAll] at hs
    obtain ⟨scope, hscope, rfl⟩ := Option.map_eq_some_iff.mp hs
    exact h k scope hscope
  removed hs h := h.removeBelow hs
  moved hs h := h.rekey hs fun _ _ hscope => hscope
  attached hf hs _ h := (stem_attachField ⟨hs.tidy, h⟩ hf).2
  extended hf ht hs h := by
    rw [Field.schemas_eq, ht, FieldType.schemas] at hf
    exact (stem_attachItems ⟨hs.tidy, h⟩ hf).2

end Scopes

namespace Document

open Edit

variable {schema : Schema} {d : Document}

theorem resolve_schemas (h : d.resolve p = .field f) : f.schemas ⊆ d.schema.schemas := by
  have hfold : (p.foldl Cursor.step (.schema d.schema Path.root (some d.value))).schemas ⊆ d.schema.schemas :=
    Cursor.schemas_foldl
  rw [resolve, Schema.resolve] at h
  generalize p.foldl Cursor.step _ = c at h hfold
  cases c with
  | field g => cases h; exact hfold
  | schema s q => simp only [Cursor.resolution] at h; split at h <;> cases h
  | inMixed | lost => cases h

theorem schemas_of_resolve (hs : d.schema = schema) (hf : d.resolve p = .field f) : f.schemas ⊆ schema.schemas :=
  hs ▸ resolve_schemas hf

-- The scopes of a document have schemas that its schema holds, now and when its open changes began.
def Lineal (schema : Schema) : Document → Prop :=
  Upholds schema (·.Stem schema.schemas)

theorem heeds_lineal : Heeds (· ≠ []) (Lineal schema) :=
  heeds_upholds Scopes.upheld_stem schemas_of_resolve

theorem Lineal.run (h : s.doc.Lineal schema) (c : Call) : (c.run s).doc.Lineal schema :=
  Upholds.run Scopes.upheld_stem schemas_of_resolve h c

-- New and loaded documents

theorem keeps_loadEdit_stem : Keeps (fun d => d.scopes.Tidy ∧ d.scopes.Stem schema.schemas) (loadEdit schema) := by
  refine keeps_loadEdit_absent (R := fun scope => scope.schema.schemas ⊆ schema.schemas) (fun _ _ hd => hd)
    (fun _ _ _ _ hm _ hd => Scopes.stem_attachField hd (Schema.schemas_field hm)) (fun _ hd => hd.2)
    (fun _ _ scope _ _ _ hscope hm _ hd => ?_) fun d hd => ?_
  · exact Scopes.stem_attachField ⟨hd.1.modify, hd.2.modify Scopes.static_stem⟩
      (List.Subset.trans (Schema.schemas_field hm) hscope)
  · have hscopes : d.seedRequired.scopes = d.scopes := scopes_seedRequired.1
    exact ⟨hscopes ▸ hd.1, hscopes ▸ hd.2⟩

theorem stem_of_load {projection : Option Projection} (h : (load schema record projection effects).1 = .ok d) :
    d.scopes.Stem schema.schemas := by
  refine (load_of_keeps h keeps_loadEdit_stem fun _ _ => ?_).2
  refine List.foldlRecOn (motive := fun s : Scopes => s.Tidy ∧ s.Stem schema.schemas) _ _
    ⟨(@Scopes.sound_empty true).tidy, by rintro _ _ ⟨⟩⟩ fun s hs e he => ?_
  exact Scopes.stem_attachField hs (Schema.schemas_field he)

theorem Reached.lineal (h : d.Reached) : d.Lineal d.schema :=
  Reached.upholds Scopes.upheld_stem schemas_of_resolve Schema.schemas_field (by rintro _ _ ⟨⟩) stem_of_load h rfl

end Document
end Dossier

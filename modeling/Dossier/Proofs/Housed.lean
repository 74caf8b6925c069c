import Dossier.Proofs.Placement

-- No scope is around a field that a document declares itself, or around a group of such fields.

namespace Dossier

open Path List

namespace Scopes

variable {s s' : Scopes} {fields : List (Path × Field)}

def Inside (s : Scopes) (fields : List (Path × Field)) : Prop :=
  ∀ e ∈ fields, ∀ r k, s.keyAt? r = some k → ¬ r.isAbove e.1

theorem Inside.innermost? (h : s.Inside fields) (he : e ∈ fields) (hp : p.covers e.1) : s.innermost? p = none :=
  innermost?_eq_none fun r k hr ha => h e he r k hr (isAbove_of_isAbove_covers ha hp)

theorem owners_of_innermost? (h : s.innermost? p = none) : s.owners p = [] := by
  rw [owners, h, chain]

theorem Inside.of_keyAt? (h : s.Inside fields)
    (hk : ∀ r k, s'.keyAt? r = some k → s.keyAt? r = some k ∨ ∀ e ∈ fields, ¬ r.isAbove e.1) : s'.Inside fields :=
  fun e he r k hr => (hk r k hr).elim (h e he r k) fun hout => hout e he

theorem upheld_inside {schema : Schema} (hw : schema.Meets .wellFormed) :
    Upheld (fun p _ => ∀ e ∈ schema.fields, ¬ p.isAbove e.1) (·.Inside schema.fields) where
  modified h := h.of_keyAt? fun _ _ hr => .inl (keyAt?_modify ▸ hr)
  committed _ h := h
  removed hs h := h.of_keyAt? fun r k hr => .inl <| by
    rw [(removeBelow_spec hs.tidy hs.rooted).2.2.2] at hr
    split at hr
    · cases hr
    · exact hr
  moved {s p i j} hs h := h.of_keyAt? fun r k hr => by
    rcases (rekey_spec hs.tidy hs.rooted).2.2.2 r k hr with ⟨x, rfl, -⟩ | ⟨-, hr⟩
    · refine .inr fun e he ha => ?_
      obtain ⟨y, -, hy⟩ := isAbove_iff.mp ha
      have hseg : Seg.index j ∈ e.1 := by simp [hy, Path.index]
      cases (hw.declared he).2.2 _ hseg
    · exact .inl hr
  attached hout _ _ h := h.of_keyAt? fun _ _ hr => (keyAt?_attachField hr).symm.imp_right
    fun hc e he ha => hout e he (isAbove_of_covers_isAbove hc ha)
  extended hout _ _ h := h.of_keyAt? fun _ _ hr => (keyAt?_attachItems hr).symm.imp_right
    fun hc e he ha => hout e he (isAbove_of_covers_isAbove hc ha)

end Scopes

namespace Document

open Edit

variable {schema : Schema} {d : Document}

def Housed (schema : Schema) : Document → Prop :=
  Upholds schema (·.Inside schema.fields)

theorem outside_of_resolve (hw : schema.Meets .wellFormed) (hs : d.schema = schema) (hf : d.resolve p = .field f) :
    ∀ e ∈ schema.fields, ¬ p.isAbove e.1 :=
  outside_of_not_nested hw hs (ne_nil_of_resolve hf) (by simp [hf])

namespace Housed

variable (h : d.Housed schema)

include h

theorem openChanges : d.openChanges.Housed schema :=
  Upholds.openChanges h

theorem write {p : Path} (hp : p ≠ []) : (d.write p v).2.Housed schema :=
  Upholds.write h hp

variable (hw : schema.Meets .wellFormed)

include hw

theorem markModified : (d.markModified p).Housed schema :=
  Upholds.markModified (Scopes.upheld_inside hw) h

theorem detached : (d.detached p).Housed schema :=
  Upholds.detached (Scopes.upheld_inside hw) h

theorem attached (hout : ∀ e ∈ schema.fields, ¬ p.isAbove e.1) : (d.attached p f).Housed schema :=
  Upholds.attached (Scopes.upheld_inside hw) h hout

theorem filled (hf : (p, f) ∈ schema.fields) :
    (Document.filled { d with value := (d.value.set p v).2 } p f).Housed schema :=
  Upholds.filled (Scopes.upheld_inside hw) h (hw.declared hf).1 fun _ he =>
    Scopes.not_isAbove_declared hw (mem_map_of_mem hf) (mem_map_of_mem he)

end Housed

theorem housed_blank : Housed schema { schema, value := .obj [], isNew := true } :=
  ⟨sound_blank, by rintro _ _ _ _ ⟨⟩, by simp, rfl⟩

theorem keyAt?_eachTracker : (d.eachTracker p g).scopes.keyAt? r = d.scopes.keyAt? r :=
  List.foldlRecOn (motive := fun s : Scopes => s.keyAt? r = d.scopes.keyAt? r) _ _ rfl
    fun _ h _ _ => Scopes.keyAt?_modify.trans h

theorem heeds_housed (hw : schema.Meets .wellFormed) : Heeds (· ≠ []) (Housed schema) :=
  heeds_upholds (Scopes.upheld_inside hw) (outside_of_resolve hw)

theorem Reached.housed (h : d.Reached) (hw : d.schema.Meets .wellFormed) : d.Housed d.schema :=
  Reached.upholds (Scopes.upheld_inside hw) (outside_of_resolve hw) (fun hf _ he =>
    Scopes.not_isAbove_declared hw (mem_map_of_mem hf) (mem_map_of_mem he)) (by rintro _ _ _ _ ⟨⟩)
    (fun h _ he _ _ hr => Scopes.Laid.not_isAbove (laid_of_load hw h) (mem_map_of_mem he) hr) h rfl

end Document
end Dossier

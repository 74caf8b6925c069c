import Dossier.Proofs.Tracked
import Dossier.Proofs.Undo

-- From a stored document on, values are set and appended, paths are marked, and all of it may be undone.

namespace Dossier

open Value

namespace Document

theorem equal_of_not_modifies {d : Document} (hd : ∀ p, d.stateOf? p ≠ some .default) (h : ¬ d.modifies p prior v {}) :
    Value.equalOpt prior (some v) := by
  unfold modifies at h
  simp only [Bool.false_eq_true, if_false, hd p, false_and] at h
  split at h
  · exact absurd rfl h
  split at h
  · exact absurd rfl h
  split at h
  · exact absurd rfl h
  · simpa using h

-- Changes since a document was stored, which are tracked and can be undone.
structure Window (start d : Document) : Prop where
  tracked : Tracked start d
  opened  : OpenSince Seg.Spelled start d

-- The document on a desk is in a window of changes, and setters have asked for nothing.
def InWindow (start : Document) (s : Desk) : Prop :=
  Window start s.doc ∧ s.effects.queue = []

theorem stable_openSince (start : Document) : Stable (Path.Begins Seg.Spelled) (OpenSince Seg.Spelled start) :=
  OpenSince.lasting.toStable

section

variable {start : Document} {s : Desk} {p : Path} {f : Field} {v : Value}

theorem writable (hp : p.Spelled) (hne : p ≠ []) : p.Begins Seg.Spelled := by
  match p with
  | [] => exact absurd rfl hne
  | seg :: rest => exact ⟨seg, rest, rfl, hp seg (by simp)⟩

theorem Tracked.keeps_storeField (hs : start.schema.Meets .plain) (hb : start.value.Exact) (h : Tracked start s.doc)
    (hp : p.Spelled) {x : Option Value} (hf : start.schema.place p = .field f x) (hv : (Cursor.field f none).Clean v) :
    Tracked start ((Edit.storeField p f (s.doc.get? p) v {}).outcome s).2.doc := by
  rw [Edit.outcome_storeField]
  dsimp only
  split
  · split <;> exact h
  split
  · exact h.markValid
  · case isFalse hsame =>
    -- A write that is made is a modification.
    have hmod : s.doc.modifies p (s.doc.get? p) v {} = true := by
      by_cases hm : s.doc.modifies p (s.doc.get? p) v {}
      · exact hm
      · exact absurd ⟨equal_of_not_modifies h.defaults hm, hm⟩ hsame
    rw [hmod]
    have hfst : ((if f.type.isStructural then s.doc.detached p else s.doc).write p v).1 =
        (s.doc.value.set p v).1 := by
      split
      · rw [write_eq]
        rfl
      · rw [write_eq]
    split
    · case _ d' hd' =>
      rw [hd'] at hfst
      have := h.storeField hs hb hp hf hv hfst.symm
      rwa [hd'] at this
    · case _ e d' hd' =>
      rw [hd'] at hfst
      have := h.storeField_failed (f := f) hp hfst.symm
      rwa [hd'] at this

theorem Tracked.keeps_setRaw (hb : start.value.Exact) (h : Tracked start s.doc) (hp : p.Spelled)
    (hr : (start.schema.place p).isRaw) (hv : v.Exact) : Tracked start ((Edit.setRaw p v {}).outcome s).2.doc := by
  have hfst : (s.doc.write p v).1 = (s.doc.value.set p v).1 := by rw [write_eq]
  rw [Edit.outcome_setRaw]
  split
  · case _ d' hd' =>
    rw [hd'] at hfst
    dsimp only
    split
    · have := h.storeRaw hb hp hr hv hfst.symm
      rwa [hd'] at this
    · case isFalse hm =>
      -- The value was there already.
      have hsame := equal_of_not_modifies h.defaults hm
      have hself : (s.doc.value.set p v).2 = s.doc.value := by
        cases hget : s.doc.get? p with
        | none => rw [hget] at hsame; cases hsame
        | some u =>
          rw [hget] at hsame
          have hu : u.Exact := (h.clean.part hp hget).exact hr
          obtain rfl := eq_of_equal u v hu hv hsame
          exact congrArg Prod.snd (setFrom_of_get? hget)
      have := h.write_self hself
      rwa [hd'] at this
  · case _ e d' hd' =>
    rw [hd'] at hfst
    have := h.write_self (setFrom_of_error hfst.symm).1
    rwa [hd'] at this

-- Calls

theorem InWindow.setField (hs : start.schema.Meets .plain) (hb : start.value.Exact) (h : InWindow start s)
    (hp : p.Spelled) (hne : p ≠ []) {x : Option Value} (hf : start.schema.place p = .field f x) (hv : v.Exact) :
    InWindow start ((Edit.setField p f v {}).outcome s).2 := by
  obtain ⟨⟨ht, ho⟩, hq⟩ := h
  have hstable := stable_openSince start
  have ⟨hqueue, hgives⟩ := Field.accept_clean (hs.place_field hf)
    (Edit.castContext s.doc p {}) hv s.effects
  rw [Edit.outcome_setField]
  split
  · case _ hr =>
    rw [hr] at hqueue
    exact ⟨⟨ht.reported, hstable.recordCast ho⟩, hqueue.trans hq⟩
  · case _ hr =>
    rw [hr] at hqueue
    exact ⟨⟨ht, ho⟩, hqueue.trans hq⟩
  · case _ w effects hr =>
    rw [hr] at hqueue hgives
    refine ⟨⟨ht.keeps_storeField hs hb (s := { s with effects }) hp hf (hgives w rfl),
      hstable.keeps_storeField (writable hp hne) { s with effects } ho⟩, ?_⟩
    rw [Edit.effects_storeField]
    exact hqueue.trans hq

theorem InWindow.setRaw (hb : start.value.Exact) (h : InWindow start s) (hp : p.Spelled) (hne : p ≠ [])
    (hr : (start.schema.place p).isRaw) (hv : v.Exact) : InWindow start ((Edit.setRaw p v {}).outcome s).2 := by
  obtain ⟨⟨ht, ho⟩, hq⟩ := h
  refine ⟨⟨ht.keeps_setRaw hb hp hr hv, (stable_openSince start).keeps_setRaw (writable hp hne) s ho⟩, ?_⟩
  rw [Edit.effects_setRaw]
  exact hq

theorem InWindow.setPath (hs : start.schema.Meets .plain) (hb : start.value.Exact) (h : InWindow start s)
    (hp : p.Spelled) (hne : p ≠ []) (hn : start.resolve p ≠ .nested) (hv : v.Exact) :
    InWindow start ((Edit.setPath v p {}).outcome s).2 := by
  have hresolve : s.doc.resolve p = start.resolve p := by
    simp only [Document.resolve, h.1.tracked.schema, Schema.resolve_eq_place hs.noVariants]
  rw [Edit.outcome_setPath hne]
  split
  · exact h
  rw [hresolve]
  split
  · case _ f hf =>
    obtain ⟨x, hx⟩ := Schema.place_of_resolve hs.noVariants hf
    exact h.setField hs hb hp hne hx hv
  · case _ hr =>
    exact h.setRaw hb hp hne (Schema.isRaw_place_of_resolve hs.noVariants hne (.inl hr)) hv
  · case _ hr =>
    rw [Edit.outcome_setUndeclared]
    split
    · exact h.setRaw hb hp hne (Schema.isRaw_place_of_resolve hs.noVariants hne (.inr hr)) hv
    · exact h
    · exact h
  · case _ hr => exact absurd hr hn

def Since (start d : Document) : Prop :=
  d = start ∨ Window start d

theorem Since.openChanges (hu : start.Untouched) (hb : start.value.Exact) (h : Since start d) :
    Window start d.openChanges := by
  rcases h with rfl | h
  · refine ⟨(hu.tracked hb).openChanges, ?_⟩
    obtain ⟨gs, hgs⟩ := hu.sound.object
    exact .opened hu.backup hu.snapshot hgs (exact_obj_iff.mp (hgs ▸ hb)).1
  · rwa [h.opened.openChanges_eq]

theorem Since.rollback (hu : start.Untouched) (h : Since start d) : d.rollback = start := by
  rcases h with rfl | h
  · rw [Document.rollback, hu.backup]
  · exact h.opened.rollback_eq hu.backup hu.snapshot fun ha hb he => ha.toKey_injective hb he

theorem Since.set (hs : start.schema.Meets .plain) (hu : start.Untouched) (hb : start.value.Exact)
    (h : Since start s.doc) (hp : p.Spelled) (hne : p ≠ []) (hn : start.resolve p ≠ .nested) (hv : v.Exact) :
    Since start ((Edit.set p v).outcome s).2.doc := by
  have hw : InWindow start ⟨s.doc.openChanges, { s.effects with queue := [] }⟩ :=
    ⟨h.openChanges hu hb, rfl⟩
  have hset := hw.setPath hs hb hp hne hn hv
  rw [Edit.set, Edit.outcome_bind, Edit.outcome_change]
  dsimp only
  rw [Edit.outcome_bind, Edit.outcome_clearQueue]
  dsimp only
  rw [Edit.outcome_bind]
  rcases hr : (Edit.setPath v p {}).outcome _ with ⟨_ | _, s'⟩
  all_goals rw [hr] at hset
  · exact .inr hset.1
  · dsimp only
    rw [Edit.outcome_settle hset.2]
    exact .inr hset.1

theorem Since.mark (hu : start.Untouched) (hb : start.value.Exact) (h : Since start s.doc) (hp : p.Spelled) :
    Since start ((Edit.markModified p).outcome s).2.doc :=
  have hw := h.openChanges hu hb
  .inr ⟨hw.tracked.markModified hp, { hw.opened with }⟩

theorem Since.schema (h : Since start d) : d.schema = start.schema := by
  rcases h with rfl | h
  · rfl
  · exact h.tracked.schema

theorem Since.push (hs : start.schema.Meets .plain) (hu : start.Untouched) (hb : start.value.Exact)
    (h : Since start s.doc) (hp : p.Spelled) (hvs : ∀ v ∈ vs, v.Exact) :
    Since start ((Edit.push p vs).outcome s).2.doc := by
  have hw := h.openChanges hu hb
  have ho {x : Value} (hne : p ≠ []) := (stable_openSince start).written (v := x) (writable hp hne) hw.opened
  refine Edit.push_rec h (fun _ => .inr ⟨hw.tracked.reported, (stable_openSince start).reported hw.opened⟩)
    (fun ha hset => ?_) fun {f el items pushed s'} ha hset => ?_
  · have ht := hw.tracked.write_self (setFrom_of_error (by rwa [write_eq] at hset)).1
    exact .inr ⟨ht, ho ha.ne_nil⟩
  · have hresolve := ha.resolve
    rw [Document.resolve, h.schema] at hresolve
    obtain ⟨x, hx⟩ := Schema.place_of_resolve hs.noVariants hresolve
    have hplain := (hs.place_field hx).element Schema.plain_rules ha.element
    obtain ⟨hqueue, hclean⟩ := ha.gives fun _ v hv => el.cast_clean hplain _ v (hvs v hv)
    have hi : items? (s.doc.openChanges.get? p) = some items := by
      rw [Document.get?, openChanges_eq]
      exact ha.stored
    have ht := hw.tracked.push hs hb hp hx (arrayField?_eq_some_iff.mp ha.field).2 ha.element hi hclean
      (by rwa [write_eq] at hset)
    rw [Edit.doc_settle hqueue]
    exact .inr ⟨ht, (stable_openSince start).appended (writable hp ha.ne_nil) (ho ha.ne_nil)⟩

end

end Document
end Dossier

import Dossier.Proofs.History
import Dossier.Proofs.Mark
import Dossier.Proofs.Pending

-- The marks of a document and the operations noted for its arrays tell how to get from the stored value to the
-- current one.

namespace Dossier

open Value

namespace Schema

variable {s : Schema} {p : Path}

def HasArray (s : Schema) (p : Path) : Prop :=
  ∃ f v, s.place p = .field f v ∧ f.type.isArray

def HasEmbedded (s : Schema) (p : Path) : Prop :=
  ∃ f v sub, s.place p = .field f v ∧ f.type = .embedded sub

theorem HasEmbedded.not_hasArray (h : s.HasEmbedded p) : ¬ s.HasArray p := by
  obtain ⟨f, v, sub, hf, ht⟩ := h
  rintro ⟨f', v', hf', ha⟩
  rw [hf] at hf'
  cases hf'
  simp [ht, FieldType.isArray] at ha

-- A new scope is in the place of an embedded document.
def Places (s : Schema) (scope : Scope) : Prop :=
  scope.isNew → s.HasEmbedded scope.root

theorem places_static : Scopes.Static s.Places :=
  fun _ _ h => h

theorem attachable_places (h : s.Meets .plain) : Scopes.Attachable .created
    (fun scopes => scopes.Sound true ∧ scopes.All s.Places) (Scopes.Around · true)
    fun t r => ∃ f x, s.place r = .field f x ∧ f.type = t := by
  refine ⟨fun h => h.below, ?_, ?_, ?_⟩
  · rintro sub schema r p g ⟨f, x, hf, ht⟩ hschema hg
    have hsub : sub.Meets .plain := by
      have := (h.place_field hf).type
      rw [ht] at this
      exact FieldType.Meets.sub (.inl this)
    obtain rfl : schema = sub.base := by
      refine hschema.resolve_right fun ⟨name, hname⟩ => ?_
      rw [hsub.noVariants.variants] at hname
      cases hname
    refine ⟨g, x.bind (·.get? p), ?_, rfl⟩
    rw [place_append, hf, foldl_embedded hsub.noVariants hsub.base.wellFormed ht hg]
  · rintro sub r i ⟨f, x, hf, ht⟩
    refine ⟨.ofSub sub, x.bind (·.child? (.index i)), ?_, rfl⟩
    rw [Path.index, place_append, hf]
    simp [Cursor.step, Cursor.stepField, ht, Seg.index?]
  · rintro scopes sub scope ⟨hs, hall⟩ ho - ⟨f, x, hf, ht⟩
    obtain ⟨hsound, haround⟩ := hs.insert ho
    exact ⟨⟨hsound, hall.insert hs.tidy fun _ => ⟨f, x, sub, hf, ht⟩⟩, haround⟩

end Schema

namespace Document

def marks (d : Document) : Marks :=
  fun p => d.stateOf? p = some .modify

-- What holds of a document at every point of a change.
structure Framed (start d : Document) : Prop where
  schema    : d.schema = start.schema
  isNew     : d.isNew = false
  populated : d.populated = ∅
  tracker   : d.tracker.Consistent
  defaults  : ∀ p, d.stateOf? p ≠ some .default
  scopes    : d.scopes.Sound true ∧ d.scopes.All start.schema.Places
  noted     : ∀ p, (d.arrayOps.get? p).isSome → start.schema.HasArray p
  clean     : (Cursor.schema start.schema Path.root none).Clean d.value

-- What holds of a document between changes.
structure Tracked (start d : Document) : Prop extends Framed start d where
  pending : Pending start.schema.HasArray start.value d.value d.marks d.opsAt

variable {start d : Document} {p q : Path} {f : Field} {v : Value}

theorem Untouched.tracked (h : start.Untouched) (hv : start.value.Exact) : Tracked start start where
  schema := rfl
  isNew := h.isNew
  populated := h.populated
  tracker := h.sound.tracker
  defaults p := (h.states p).2
  scopes := ⟨h.scopes_sound, fun k scope hs hnew => absurd hnew (h.scopes k scope hs)⟩
  noted := by simp [h.arrayOps]
  clean := Cursor.clean_of_exact hv
  pending := .start (fun m => (h.states m).1) fun p => by simp [opsAt, h.arrayOps]

theorem marks_detached : (d.detached p).marks q ↔ ¬ p.isAbove q ∧ d.marks q := by
  rw [marks, stateOf?_detached]
  split
  · case isTrue h => simp [h]
  · case isFalse h => simp [h, marks]

namespace Framed

variable (h : Framed start d)

include h

theorem detached : Framed start (d.detached p) where
  schema := h.schema
  isNew := h.isNew
  populated := h.populated
  tracker := by rw [detached_tracker]; exact h.tracker.clearDescendants
  defaults q := by
    rw [stateOf?_detached]
    split
    · simp
    · exact h.defaults q
  scopes := by
    have hs := eachTracker_scopes (p := p) h.scopes.1
      (f := atPath p fun rel t => t.clearDescendants rel)
    exact ⟨hs.removeBelow, (eachTracker_all h.scopes.2 Schema.places_static).removeBelow hs⟩
  noted q hq := by
    rw [arrayOps_detached] at hq
    split at hq
    · cases hq
    · exact h.noted q hq
  clean := h.clean

theorem write (hp : p.Spelled) (hv : (start.schema.place p).Clean v) : Framed start (d.write p v).2 := by
  rw [write_eq]
  exact { h with clean := h.clean.setFrom hp hv }

theorem attached (hs : start.schema.Meets .plain) {x : Option Value} (hf : start.schema.place p = .field f x) :
    Framed start (d.attached p f) :=
  { h with
    scopes := (f.attach_keeps (Schema.attachable_places hs) _ p (d.get? p) d.scopes ⟨f, x, hf, rfl⟩
      h.scopes h.scopes.1.innermost).1 }

theorem extended (hs : start.schema.Meets .plain) {x : Option Value} (hf : start.schema.place p = .field f x)
    (ht : f.type = .documentArray sub) (n : Nat) (items : List Value) : Framed start { d with
      scopes := d.scopes.attachItems sub p n items (d.scopes.innermost? p) .created } :=
  { h with
    scopes := (Scopes.attachItems_keeps (Schema.attachable_places hs) ⟨f, x, hf, ht⟩ h.scopes
      h.scopes.1.innermost).1 }

theorem noteArrayOp (ha : start.schema.HasArray p) {g : ArrayOps → ArrayOps} : Framed start (d.noteArrayOp p g) := by
  refine { h with noted := fun q hq => ?_ }
  simp only [Document.noteArrayOp, OrdMap.get?_insert] at hq
  split at hq
  · case isTrue he => exact he ▸ ha
  · exact h.noted q hq

theorem exists_mark (p : Path) : ∃ c : Path, c.covers p ∧
    (start.schema.HasArray c → c = p) ∧ ∀ m, (d.markModified p).marks m ↔ d.marks m ∨ m = c := by
  obtain ⟨c, hc, ht, hor⟩ := Document.exists_mark h.scopes.1 p
  refine ⟨c, hc, fun ha => hor.resolve_right ?_, fun m => ?_⟩
  · rintro ⟨k, scope, hk, hnew, rfl⟩
    exact (h.scopes.2 k scope hk hnew).not_hasArray ha
  · simp only [marks, stateOf?, ht, Tracker.stateOf?_transition]
    split
    · case isTrue he => simp [he]
    · case isFalse he => simp [Ne.symm he]

theorem markModified : Framed start (d.markModified p) where
  schema := h.schema
  isNew := h.isNew
  populated := h.populated
  tracker := h.tracker.transition
  defaults q := by
    simp only [stateOf?, Document.markModified, Tracker.stateOf?_transition]
    split
    · simp
    · exact h.defaults q
  scopes := ⟨markModified_scopes h.scopes.1, markModified_all h.scopes.2 Schema.places_static⟩
  noted := h.noted
  clean := h.clean

end Framed

namespace Tracked

variable (h : Tracked start d)

include h

theorem reported {issues : Option Issues} : Tracked start { d with issues } :=
  { h with }

theorem markValid : Tracked start (d.markValid p) := by
  rw [Document.markValid]
  split
  · exact h
  · exact h.reported

theorem openChanges : Tracked start d.openChanges := by
  rw [Document.openChanges]
  split
  · exact h
  · exact { h with }

theorem markModified (hp : p.Spelled) : Tracked start (d.markModified p) := by
  obtain ⟨c, hc, -, hm⟩ := h.exists_mark p
  exact ⟨h.toFramed.markModified, h.pending.mark hm (hp.of_covers hc)⟩

theorem write_self (hv : (d.value.set p v).2 = d.value) : Tracked start (d.write p v).2 := by
  rw [write_eq, hv]
  exact { h with }

theorem detached (hp : p.Spelled) (hn : d.value.get? p = none) : Tracked start (d.detached p) := by
  refine ⟨h.toFramed.detached, h.pending.prune hp hn (fun m hm => ?_)
    (fun m hm => (marks_detached.mp hm).2) (fun q hq => ?_) fun q hq => ?_⟩
  · by_cases ha : p.isAbove m
    · exact .inr ha
    · exact .inl (marks_detached.mpr ⟨ha, hm⟩)
  · rw [opsAt_detached, if_neg hq]
  · rw [opsAt_detached, if_pos hq]

-- A write with its mark. `d'` is the document after the write, and has lost what was known of the parts of the old
-- value.
theorem assigned (hb : start.value.Exact) (hp : p.Spelled) (hok : (d.value.set p v).1 = .ok ())
    (hd' : Framed start d') (hvalue : d'.value = (d.value.set p v).2)
    (hkeep : ∀ m, d.marks m → d'.marks m ∨ p.isAbove m) (hsub : ∀ m, d'.marks m → d.marks m)
    (hops : ∀ q, ¬ p.covers q → d'.opsAt q = d.opsAt q) (hpulled : ∀ q, (d'.opsAt q).pulled = [])
    (hself : start.schema.HasArray p → (d'.opsAt p).replaced) : Tracked start (d'.markModified p) := by
  obtain ⟨c, hc, hroot, hm⟩ := hd'.exists_mark p
  refine ⟨hd'.markModified, ?_⟩
  have hpend := h.pending.assign hb.canonical hp hok hc ((hm c).mpr (.inr rfl))
    (fun m hm' => (hkeep m hm').imp_left fun hm' => (hm m).mpr (.inl hm'))
    (fun m hm' => ((hm m).mp hm').imp_left (hsub m)) hroot hops hpulled hself
  rwa [← hvalue] at hpend

theorem storeRaw (hb : start.value.Exact) (hp : p.Spelled) (hr : (start.schema.place p).isRaw) (hv : v.Exact)
    (hok : (d.value.set p v).1 = .ok ()) : Tracked start ((d.write p v).2.markModified p) := by
  have hf := h.toFramed.write hp (Cursor.clean_of_exact hv)
  rw [write_eq] at hf ⊢
  refine h.assigned hb hp hok hf rfl (fun _ hm => .inl hm) (fun _ hm => hm) (fun _ _ => rfl)
    h.pending.pulled ?_
  rintro ⟨f, x, hf, -⟩
  rw [hf] at hr
  cases hr

theorem storeField (hs : start.schema.Meets .plain) (hb : start.value.Exact) (hp : p.Spelled)
    (hf : start.schema.place p = .field f x) (hv : (Cursor.field f none).Clean v) (hok : (d.value.set p v).1 = .ok ()) :
    Tracked start (((if f.type.isStructural then d.detached p else d).write p v).2.settled p f true) := by
  have hv' : (start.schema.place p).Clean v :=
    hf ▸ hv.alike .field (hs.place_field hf).noVariants
  have harray : start.schema.HasArray p → f.type.isArray := by
    rintro ⟨f', x', hf', ha⟩
    rw [hf] at hf'
    cases hf'
    exact ha
  rw [settled]
  refine markValid ?_
  by_cases hst : f.type.isStructural
  · have hkeep : ∀ m, d.marks m → (d.detached p).marks m ∨ p.isAbove m := by
      intro m hm
      by_cases ha : p.isAbove m
      · exact .inr ha
      · exact .inl (marks_detached.mpr ⟨ha, hm⟩)
    have hsub : ∀ m, (d.detached p).marks m → d.marks m := fun m hm => (marks_detached.mp hm).2
    have hops : ∀ q, ¬ p.covers q → (d.detached p).opsAt q = d.opsAt q := by
      intro q hq
      rw [opsAt_detached, if_neg fun ha => hq (Path.covers_of_isAbove ha)]
    have hpulled : ∀ q, ((d.detached p).opsAt q).pulled = [] := by
      intro q
      rw [opsAt_detached]
      split
      · rfl
      · exact h.pending.pulled q
    have hfr := ((h.toFramed.detached (p := p)).write hp hv').attached hs hf
    rw [write_eq] at hfr
    simp only [hst, if_true, and_true, write_eq]
    by_cases ha : f.type.isArray
    · rw [if_pos ha]
      refine h.assigned hb hp hok (hfr.noteArrayOp ⟨f, x, hf, ha⟩) rfl hkeep hsub ?_ ?_ ?_
      · intro q hq
        rw [opsAt_noteArrayOp, if_neg]
        · exact hops q hq
        · rintro rfl
          exact hq (Path.covers_refl _)
      · intro q
        rw [opsAt_noteArrayOp]
        split
        · exact hpulled q
        · exact hpulled q
      · intro _
        rw [opsAt_noteArrayOp, if_pos rfl]
    · rw [if_neg ha]
      exact h.assigned hb hp hok hfr rfl hkeep hsub hops hpulled fun hp => absurd (harray hp) ha
  · have ha : ¬ f.type.isArray := fun ha => hst (FieldType.isStructural_of_isArray ha)
    have hfr := h.toFramed.write hp hv'
    rw [write_eq] at hfr
    simp only [hst, ha, if_true, false_and, if_false, write_eq, Bool.false_eq_true]
    exact h.assigned hb hp hok hfr rfl (fun _ hm => .inl hm) (fun _ hm => hm) (fun _ _ => rfl)
      h.pending.pulled fun hp => absurd (harray hp) ha

theorem storeField_failed (hp : p.Spelled) (he : (d.value.set p v).1 = .error e) :
    Tracked start ((if f.type.isStructural then d.detached p else d).write p v).2 := by
  have ⟨hself, hnone⟩ := setFrom_of_error he
  split
  · exact (h.detached hp hnone).write_self hself
  · exact h.write_self hself

theorem clean_push (hs : start.schema.Meets .plain) (hp : p.Spelled) (hf : start.schema.place p = .field f x)
    (ha : f.type.isArray) (hel : f.element? = some el) (hi : items? (d.get? p) = some items)
    (hpushed : ∀ y ∈ pushed, (Cursor.field el none).Clean y) :
    (start.schema.place p).Clean (.arr (items ++ pushed)) := by
  have hstep : ∀ x i, ∃ x', Cursor.step (.field f x) (.index i) = .field el x' := by
    intro x i
    rw [Field.element?] at hel
    simp only [Cursor.step, Cursor.stepField]
    cases ht : f.type <;> simp_all [Seg.index?, FieldType.isArray]
  have hel : el.Meets .noVariants :=
    ((hs.place_field hf).element Schema.plain_rules hel).noVariants
  rw [hf]
  refine Cursor.clean_field fun seg y hseg hy => ?_
  cases seg with
  | key k => cases hy
  | index i =>
    have hy : (items ++ pushed)[i]? = some y := hy
    by_cases hlt : i < items.length
    · -- An item that was there before.
      rw [List.getElem?_append_left hlt] at hy
      cases hget : d.get? p with
      | none => rw [hget] at hi; cases hi; cases hlt
      | some u =>
        have hu : (Cursor.field f x).Clean u := hf ▸ h.clean.part hp hget
        rw [hget] at hi
        cases u with
        | arr xs =>
          obtain rfl : xs = items := Option.some.inj hi
          exact hu.child hseg hy
        | null => cases hi; cases hlt
        | bool | num | str | obj => cases hi
    · rw [List.getElem?_append_right (Nat.le_of_not_lt hlt)] at hy
      obtain ⟨x', hx'⟩ := hstep x i
      rw [hx']
      exact (hpushed y (List.mem_of_getElem? hy)).alike .field hel

theorem push (hs : start.schema.Meets .plain) (hb : start.value.Exact) (hp : p.Spelled)
    (hf : start.schema.place p = .field f x) (ha : f.type.isArray) (hel : f.element? = some el)
    (hi : items? (d.get? p) = some items) (hpushed : ∀ y ∈ pushed, (Cursor.field el none).Clean y)
    (hok : (d.value.set p (.arr (items ++ pushed))).1 = .ok ()) :
    Tracked start ((d.write p (.arr (items ++ pushed))).2.appended p f items.length pushed) := by
  have hw := h.toFramed.write hp (h.clean_push hs hp hf ha hel hi hpushed)
  -- Only the scopes depend on the kind of the array.
  obtain ⟨scopes, heq, hfr⟩ : ∃ scopes, (d.write p (.arr (items ++ pushed))).2.appended p f items.length
      pushed = ({ (d.write p (.arr (items ++ pushed))).2 with scopes }.noteArrayOp p
        fun ops => { ops with pushed := ops.pushed ++ pushed }).markModified p ∧
      Framed start { (d.write p (.arr (items ++ pushed))).2 with scopes } := by
    cases ht : f.type with
    | documentArray sub =>
      refine ⟨_, ?_, hw.extended hs hf ht items.length pushed⟩
      rw [Document.appended, ht]
    | array _ | string | number | boolean | date | id _ | mixed | map _ | embedded _ =>
      refine ⟨(d.write p (.arr (items ++ pushed))).2.scopes, ?_, hw⟩
      rw [Document.appended, ht]
  rw [heq]
  have hfr := hfr.noteArrayOp (p := p)
    (g := fun ops => { ops with pushed := ops.pushed ++ pushed }) ⟨f, x, hf, ha⟩
  obtain ⟨c, hc, hroot, hm⟩ := hfr.exists_mark p
  refine ⟨hfr.markModified, ?_⟩
  simp only [write_eq] at hm ⊢
  refine h.pending.push hb.canonical hp hi hok hc hm hroot (fun q hq => ?_) ?_
  · rw [opsAt_markModified, opsAt_noteArrayOp, if_neg hq.symm]
    rfl
  · rw [opsAt_markModified, opsAt_noteArrayOp, if_pos rfl]
    rfl

end Tracked

end Document
end Dossier

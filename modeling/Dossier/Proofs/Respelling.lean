import Dossier.Proofs.Contexts
import Dossier.Proofs.Equivalence
import Dossier.Proofs.Lineage
import Dossier.Proofs.Restoring

-- A key that is a number can be spelled as an index, and both lead to the same part of an object.

namespace Dossier

open Value List

-- Paths with the same texts

namespace Path

variable {p : Path}

theorem opens_of_forall {P : Path → Prop} {v : Value} (h : ∀ r, P r) : p.Opens P v := by
  cases p <;> cases v <;> simp [Opens, h]

end Path

namespace Schema

variable {s : Schema}

theorem not_arrays {l : List (String × Value)} (hx : x.get? p = some (.obj l))
    (hr : ∀ z f, s.resolve z p = .field f → ¬ f.type.isArray) : ¬ s.Arrays x p := by
  rintro (⟨items, hi⟩ | ⟨z, f, hf, ha⟩)
  · cases hx.symm.trans hi
  · exact hr z f hf ha

theorem respelled_refl (s : Schema) (x : Value) (p : Path) : s.Respelled x p p :=
  ⟨Value.respelled_refl x p, fun _ _ _ _ _ => rfl⟩

namespace Respelled

theorem key (h : s.Respelled x p q) (k : String) : s.Respelled x (p ++ [.key k]) (q ++ [.key k]) :=
  h.append rfl fun _ => rfl

theorem top {a b : Seg} (h : a.toKey = b.toKey) (hx : ∃ l, x = .obj l) : s.Respelled x [a] [b] := by
  obtain ⟨l, rfl⟩ := hx
  refine (s.respelled_refl (.obj l) []).append h fun harrays => ?_
  exact absurd harrays (not_arrays (get?_nil _) fun z f hf => by cases hf)

theorem of_key {k : String} (h : s.Respelled x (p ++ [.key k]) (q ++ [.key k])) : s.Respelled x p q := by
  obtain ⟨q', seg', he, -, -, h⟩ := h.concat
  rwa [(append_inj' he rfl).1]

theorem set (h : s.Respelled x p q) (v : Value) : s.Respelled (x.set p v).2 p q := by
  refine ⟨⟨h.keys, fun i items hx => ?_⟩, h.declared⟩
  rcases Nat.lt_or_ge i p.length with hi | hi
  · have habove : Path.isAbove (p.take i) p :=
      Path.isAbove_iff.mpr ⟨p.drop i, by simpa using hi, (take_append_drop i p).symm⟩
    obtain ⟨items, hx⟩ := (arr_of_setFrom_below habove).mp ⟨items, hx⟩
    exact h.arrays i items hx
  · rw [getElem?_eq_none hi, getElem?_eq_none (h.length_eq ▸ hi)]

end Respelled
end Schema

namespace Document

variable {d d' : Document}

-- An array that is declared, is indexed and is not there.
def LacksArray (d : Document) (p : Path) (i : Nat) : Prop :=
  0 < i ∧ (∃ n, p[i]? = some (.index n)) ∧ (∀ items, d.get? (p.take i) ≠ some (.arr items)) ∧
    ∃ f, d.resolve (p.take i) = .field f ∧ f.type.isArray

theorem missingArray?_eq_none_iff : d.missingArray? p = none ↔ ∀ i, ¬ d.LacksArray p i := by
  rw [missingArray?, findSome?_eq_none_iff]
  constructor
  · rintro h i ⟨hi, ⟨n, hn⟩, harr, f, hf, ha⟩
    have hnone := h i (List.mem_range.mpr (List.getElem?_eq_some_iff.mp hn).1)
    obtain ⟨j, rfl⟩ := Nat.exists_eq_succ_of_ne_zero (Nat.ne_of_gt hi)
    simp only [hn] at hnone
    split at hnone
    · case _ hx => exact harr _ hx
    · case _ hg _ =>
      cases hf.symm.trans hg
      rw [if_pos ha] at hnone
      cases hnone
    · case _ hg => exact hg f hf
  · intro h i _
    dsimp only
    split
    · case _ j n _ hn =>
      split
      · rfl
      · case _ f hf hx =>
        split
        · case _ ha => exact absurd ⟨Nat.succ_pos j, ⟨n, hn⟩, hx, f, hf, ha⟩ (h (j + 1))
        · rfl
      · rfl
    · rfl

theorem missingArray?_respelled (hs : d.schema = d'.schema) (h : d.schema.Respelled d.value p q)
    (hv : d.value.Like d'.value) : d.missingArray? p = none ↔ d'.missingArray? q = none := by
  rw [missingArray?_eq_none_iff, missingArray?_eq_none_iff]
  refine forall_congr' fun i => not_congr (and_congr_right fun _ => ?_)
  have htake := h.take i
  have hresolve : d.resolve (p.take i) = d'.resolve (q.take i) := by
    rw [resolve, resolve, ← hs]
    exact htake.resolve hv
  have hget := hv.get? htake.toRespelled
  have harr : (∀ items, d.get? (p.take i) ≠ some (.arr items)) ↔ ∀ items, d'.get? (q.take i) ≠ some (.arr items) := by
    rw [get?, get?]
    generalize d.value.get? _ = o at hget
    generalize d'.value.get? _ = o' at hget
    cases hget with
    | none => simp
    | @some a b hab =>
      have he := hab.equal
      cases a <;> cases b <;> simp [Value.equal] at he ⊢
  rw [harr, hresolve]
  refine and_congr_left ?_
  rintro ⟨_, f, hf, ha⟩
  rw [h.declared i d.value f (hresolve.trans hf) ha]

end Document

-- Documents whose writes do not depend on scopes

def SchemaLaw.mutable : SchemaLaw
  | .rules r => ¬ r.immutable
  | _ => True

namespace Schema

variable {s : Schema}

-- The documents that are embedded have the strict mode of the document around them.
def Uniform (s : Schema) : Prop :=
  ∀ t ∈ s.schemas, t.options.strict = s.options.strict

-- Of the fields at a path and below it no setter looks at the spelling of paths, and none is immutable where that
-- matters.
def Indifferent (s : Schema) (new : Bool) (p : Path) : Prop :=
  ∀ z r f, s.resolve z (p ++ r) = .field f → f.Meets .blind ∧ (new ∨ ¬ f.rules.immutable)

theorem Indifferent.key (h : s.Indifferent new p) (k : String) : s.Indifferent new (p ++ [.key k]) := by
  intro z r f hf
  rw [append_assoc] at hf
  exact h z _ f hf

theorem resolve_meets {law : SchemaLaw} (h : s.Meets law) (hr : law (.rules {})) {z : Value}
    (hf : s.resolve z p = .field f) : f.Meets law :=
  Document.resolve_meets (d := { schema := s, value := z, isNew := false }) h hr hf

theorem indifferent_of_meets (hb : s.Meets .blind) (hm : s.Meets .mutable) : s.Indifferent new p := by
  intro z r f hf
  have hf' : f.Meets .mutable := resolve_meets hm (by simp [SchemaLaw.mutable]) hf
  exact ⟨resolve_meets hb (by simp [SchemaLaw.blind]) hf, .inr hf'.rules⟩

end Schema

namespace Document

open Edit

variable {schema : Schema} {d : Document} {f : Field}

def Pliant (schema : Schema) (new : Bool) (d : Document) : Prop :=
  d.Lineal schema ∧ d.isNew = new

theorem heeds_pliant : Heeds (· ≠ []) (Pliant schema new) :=
  heeds_lineal.and (lasting_isNew.heeds (by simp))

namespace Pliant

theorem not_immutable (h : d.Pliant schema new) (hf : new ∨ ¬ f.rules.immutable) :
    ¬ (f.rules.immutable ∧ ¬ d.isNewAt p) := by
  rintro ⟨himm, hnew⟩
  rcases hf with rfl | hf
  · simp [isNewAt, h.2] at hnew
  · exact hf himm

theorem strictAt (h : d.Pliant schema new) (hs : schema.Uniform) :
    d.strictAt p opts = opts.strict.getD schema.options.strict := by
  rw [Document.strictAt]
  cases opts.strict with
  | some mode => rfl
  | none =>
    dsimp only
    split
    · case _ scope ho =>
      obtain ⟨k, -, hk⟩ := Option.bind_eq_some_iff.mp ho
      exact hs _ (h.1.scopes k scope hk Schema.mem_schemas_self)
    · rw [h.1.schema]
      rfl

end Pliant
end Document

-- Writes side by side

namespace Edit

open Document

variable {schema : Schema} {s : Desk}

-- Desks with alike values and the same identifiers to come.
structure Kin (schema : Schema) (new : Bool) (s s' : Desk) : Prop where
  left  : s.doc.Pliant schema new
  right : s'.doc.Pliant schema new
  value : s.doc.value.Like s'.doc.value
  ids   : s.effects.ids = s'.effects.ids

-- Two paths lead to the same place on both desks, where setters have asked for nothing.
structure Alike (schema : Schema) (new : Bool) (p q : Path) (s s' : Desk) : Prop extends Kin schema new s s' where
  path   : schema.Respelled s.doc.value p q
  queue  : s.effects.queue = []
  queue' : s'.effects.queue = []

structure Matched (schema : Schema) (new : Bool) (p q : Path) (r r' : Except DocumentError Unit × Desk) : Prop where
  ok    : r.1 = .ok () ↔ r'.1 = .ok ()
  desks : Alike schema new p q r.2 r'.2

def Parallel (schema : Schema) (new : Bool) (p q : Path) (e e' : Edit Unit) : Prop :=
  ∀ s s', Alike schema new p q s s' → Matched schema new p q (e.outcome s) (e'.outcome s')

theorem parallel_pure : Parallel schema new p q (pure ()) (pure ()) :=
  fun _ _ h => ⟨Iff.rfl, h⟩

theorem parallel_throw {a b : DocumentError} : Parallel schema new p q (throw a) (throw b) :=
  fun _ _ h => ⟨by simp, h⟩

theorem Parallel.bind (h : Parallel schema new p q e e') (hg : Parallel schema new p q g g') :
    Parallel schema new p q (e >>= fun _ => g) (e' >>= fun _ => g') := by
  intro s s' hs
  obtain ⟨hok, hd⟩ := h s s' hs
  rw [outcome_bind, outcome_bind]
  generalize e.outcome s = r at hok hd
  generalize e'.outcome s' = r' at hok hd
  rcases r with ⟨_ | _, s₁⟩ <;> rcases r' with ⟨_ | _, s₁'⟩
  · exact ⟨by simp, hd⟩
  · simp at hok
  · simp at hok
  · exact hg s₁ s₁' hd

theorem Parallel.of_key {k : String} (h : Parallel schema new (p ++ [.key k]) (q ++ [.key k]) e e') :
    Parallel schema new p q e e' := by
  intro s s' hs
  obtain ⟨hok, hd⟩ := h s s' ⟨hs.toKin, hs.path.key k, hs.queue, hs.queue'⟩
  exact ⟨hok, hd.toKin, hd.path.of_key, hd.queue, hd.queue'⟩

theorem Alike.same (h : Alike schema new p q s s') (ht : t.doc.Pliant schema new) (ht' : t'.doc.Pliant schema new)
    (hv : t.doc.value = s.doc.value) (hv' : t'.doc.value = s'.doc.value) (he : t.effects = s.effects)
    (he' : t'.effects = s'.effects) : Alike schema new p q t t' :=
  ⟨⟨ht, ht', hv ▸ hv' ▸ h.value, he ▸ he' ▸ h.ids⟩, hv ▸ h.path, he ▸ h.queue, he' ▸ h.queue'⟩

structure Wrote (p : Path) (x : Value) (s : Desk) (r : Except DocumentError Unit × Desk) : Prop where
  ok      : r.1 = .ok () ↔ (s.doc.value.set p x).1 = .ok ()
  value   : r.2.doc.value = (s.doc.value.set p x).2
  effects : r.2.effects = s.effects

theorem Wrote.matched (h : Alike schema new p q s s') (hw : Wrote p x s r) (hw' : Wrote q y s' r') (hxy : x.Like y)
    (hd : r.2.doc.Pliant schema new) (hd' : r'.2.doc.Pliant schema new) : Matched schema new p q r r' := by
  obtain ⟨hok, hlike⟩ := h.value.setFrom h.path.toRespelled hxy
  refine ⟨hw.ok.trans (Iff.trans hok hw'.ok.symm), ⟨hd, hd', ?_, ?_⟩, ?_, ?_, ?_⟩
  · rw [hw.value, hw'.value]
    exact hlike
  · rw [hw.effects, hw'.effects]
    exact h.ids
  · rw [hw.value]
    exact h.path.set x
  · rw [hw.effects]
    exact h.queue
  · rw [hw'.effects]
    exact h.queue'

theorem wrote_ok {d d₁ : Document} (hw : d.write p x = (.ok (), d₁)) (hv : d.value = s.doc.value)
    (hd : d₂.value = d₁.value) : Wrote p x s (.ok (), { s with doc := d₂ }) := by
  rw [write_eq, hv] at hw
  obtain ⟨hok, rfl⟩ := Prod.mk.inj hw
  exact ⟨iff_of_true rfl hok, hd, rfl⟩

theorem wrote_error {d d₁ : Document} {b : DocumentError} (hw : d.write p x = (.error a, d₁))
    (hv : d.value = s.doc.value) : Wrote p x s (.error b, { s with doc := d₁ }) := by
  rw [write_eq, hv] at hw
  obtain ⟨herr, rfl⟩ := Prod.mk.inj hw
  exact ⟨iff_of_false (by simp) (by simp [herr]), rfl, rfl⟩

theorem wrote_setRaw : Wrote p v s ((setRaw p v opts).outcome s) := by
  rw [outcome_setRaw]
  split
  · case _ hw => exact wrote_ok hw rfl (by split <;> rfl)
  · case _ hw => exact wrote_error hw rfl

theorem wrote_setNestedNull : Wrote p .null s ((setNestedNull p prior opts).outcome s) := by
  rw [outcome_setNestedNull]
  split
  · case _ hw =>
    refine wrote_ok hw rfl ?_
    rw [value_markValid]
    split <;> rfl
  · case _ hw => exact wrote_error hw rfl

theorem wrote_again (hx : s.doc.get? p = some x) {d : Document} (hd : d.value = s.doc.value) :
    Wrote p x s (.ok (), { s with doc := d }) := by
  have hset : s.doc.value.set p x = (.ok (), s.doc.value) := setFrom_of_get? hx
  exact ⟨iff_of_true rfl (by rw [hset]), by rw [hset, hd], rfl⟩

theorem wrote_storeField (v : Value) (opts : SetOptions) (himm : ¬ (f.rules.immutable ∧ ¬ s.doc.isNewAt p)) :
    ∃ x, (x = v ∨ s.doc.get? p = some x ∧ x.equal v) ∧
      Wrote p x s ((storeField p f (s.doc.get? p) v opts).outcome s) := by
  rw [outcome_storeField]
  dsimp only
  rw [if_neg (by tauto)]
  split
  · case isTrue hsame =>
    cases hx : s.doc.get? p with
    | none => simp [hx, Value.equalOpt] at hsame
    | some x =>
      rw [hx] at hsame
      exact ⟨x, .inr ⟨rfl, hsame.1⟩, wrote_again hx value_markValid⟩
  · refine ⟨v, .inl rfl, ?_⟩
    have hv : (if f.type.isStructural then s.doc.detached p else s.doc).value = s.doc.value := by
      split <;> rfl
    split
    · case _ hw => exact wrote_ok hw hv value_settled
    · case _ hw => exact wrote_error hw hv

-- Paths side by side

theorem Alike.resolve (h : Alike schema new p q s s') : s.doc.resolve p = s'.doc.resolve q := by
  rw [Document.resolve, Document.resolve, h.left.1.schema, h.right.1.schema]
  exact h.path.resolve h.value

theorem Alike.ne_nil (h : Alike schema new p q s s') (hp : p ≠ []) : q ≠ [] := by
  have hl := h.path.length_eq
  rintro rfl
  exact hp (length_eq_zero_iff.mp hl)

theorem matched_storeField (h : Alike schema new p q s s') (hp : p ≠ []) (hf : s.doc.resolve p = .field f)
    (hm : new ∨ ¬ f.rules.immutable) (hv : v.Canonical) :
    Matched schema new p q ((storeField p f (s.doc.get? p) v opts).outcome s)
      ((storeField q f (s'.doc.get? q) v opts).outcome s') := by
  have hf' : s'.doc.resolve q = .field f := h.resolve.symm.trans hf
  obtain ⟨x, hx, hw⟩ := wrote_storeField v opts (h.left.not_immutable hm)
  obtain ⟨y, hy, hw'⟩ := wrote_storeField v opts (h.right.not_immutable hm)
  have hget : Option.Rel Value.Like (s.doc.get? p) (s'.doc.get? q) := h.value.get? h.path.toRespelled
  refine hw.matched h hw' ?_ (heeds_pliant.stored hp hf h.left) (heeds_pliant.stored (h.ne_nil hp) hf' h.right)
  rcases hx with rfl | ⟨hx, hxv⟩ <;> rcases hy with rfl | ⟨hy, hyv⟩
  · exact like_refl hv
  · have hlike : y.Like x := ⟨hereditary_canonical.get? h.value.right hy, hv, hyv⟩
    exact hlike.symm
  · exact ⟨hereditary_canonical.get? h.value.left hx, hv, hxv⟩
  · rw [hx, hy] at hget
    obtain ⟨z, hz, hlike⟩ := exists_of_rel_some hget
    cases hz
    exact hlike

theorem matched_setField (hi : schema.Indifferent new p) (h : Alike schema new p q s s') (hp : p ≠ [])
    (hf : s.doc.resolve p = .field f) (hv : v.Canonical) :
    Matched schema new p q ((setField p f v opts).outcome s) ((setField q f v opts).outcome s') := by
  obtain ⟨hblind, hm⟩ := hi s.doc.value [] f (by rwa [append_nil, ← h.left.1.schema])
  have hctx : (castContext s.doc p opts).Like (castContext s'.doc q opts) := ⟨h.path.keys, rfl, rfl⟩
  obtain ⟨hr, hids, hq, hq'⟩ := Field.blind_accept hblind hctx (v := v) s.effects s'.effects h.ids
  rw [outcome_setField, outcome_setField]
  generalize (f.accept (castContext s.doc p opts) v).outcome s.effects = r at hr hids hq
  generalize (f.accept (castContext s'.doc q opts) v).outcome s'.effects = r' at hr hids hq'
  obtain ⟨r, effects⟩ := r
  obtain ⟨r', effects'⟩ := r'
  have hcast {d d' : Document} (hd : d.Pliant schema new) (hd' : d'.Pliant schema new) (hval : d.value = s.doc.value)
      (hval' : d'.value = s'.doc.value) : Alike schema new p q ⟨d, effects⟩ ⟨d', effects'⟩ :=
    ⟨⟨hd, hd', hval ▸ hval' ▸ h.value, hids⟩, hval ▸ h.path, hq.trans h.queue, hq'.trans h.queue'⟩
  cases hr with
  | @ok w hw => exact matched_storeField (hcast h.left h.right rfl rfl) hp hf hm (hw hv)
  | cast => exact ⟨Iff.rfl, hcast (heeds_pliant.reported h.left) (heeds_pliant.reported h.right) rfl rfl⟩
  | strict => exact ⟨by simp, hcast h.left h.right rfl rfl⟩

theorem matched_setRaw (h : Alike schema new p q s s') (hp : p ≠ [])
    (hr : s.doc.resolve p = .inMixed ∨ s.doc.resolve p = .undeclared) (hv : v.Canonical) :
    Matched schema new p q ((setRaw p v opts).outcome s) ((setRaw q v opts).outcome s') :=
  wrote_setRaw.matched h wrote_setRaw (like_refl hv) (heeds_pliant.course.setRaw hp hr (p.opens_ne_nil v) h.left)
    (heeds_pliant.course.setRaw (h.ne_nil hp) (h.resolve ▸ hr) (q.opens_ne_nil v) h.right)

theorem matched_setUndeclared (hs : schema.Uniform) (h : Alike schema new p q s s') (hp : p ≠ [])
    (hr : s.doc.resolve p = .undeclared) (hv : v.Canonical) :
    Matched schema new p q ((setUndeclared p v opts).outcome s) ((setUndeclared q v opts).outcome s') := by
  rw [outcome_setUndeclared, outcome_setUndeclared, h.left.strictAt hs, h.right.strictAt hs]
  cases opts.strict.getD schema.options.strict with
  | keep => exact matched_setRaw h hp (.inr hr) hv
  | drop => exact ⟨Iff.rfl, h⟩
  | refuse => exact ⟨by simp, h⟩

theorem matched_setNestedNull (h : Alike schema new p q s s') (hp : p ≠ []) (hr : s.doc.resolve p = .nested) :
    Matched schema new p q ((setNestedNull p prior opts).outcome s) ((setNestedNull q prior' opts).outcome s') :=
  wrote_setNestedNull.matched h wrote_setNestedNull like_null
    (heeds_pliant.course.setNestedNull hp hr (p.opens_ne_nil .null) h.left)
    (heeds_pliant.course.setNestedNull (h.ne_nil hp) (h.resolve ▸ hr) (q.opens_ne_nil .null) h.right)

theorem parallel_markNested {d d' : Document} (hp : p ≠ []) (hq : q ≠ []) (hd : d.Pliant schema new)
    (hd' : d'.Pliant schema new) (hr : d.resolve p = .nested) (hr' : d'.resolve q = .nested) :
    Parallel schema new p q (markNested p prior opts) (markNested q prior' opts) := by
  intro s s' h
  have hvalue {s : Desk} {p : Path} {prior : Option Value} :
      ((markNested p prior opts).outcome s).2.doc.value = s.doc.value := by
    rw [outcome_markNested]
    dsimp only
    rw [value_markValid]
    split <;> rfl
  have hmarked {d : Document} {s : Desk} {p : Path} {prior : Option Value} (hp : p ≠ []) (hr : d.resolve p = .nested)
      (hd : d.Pliant schema new) (hs : s.doc.Pliant schema new) :
      ((markNested p prior opts).outcome s).2.doc.Pliant schema new :=
    heeds_pliant.course.markNested (s := ⟨d, s.effects⟩) hp hr (fun _ _ => hs) (p.opens_ne_nil .null) hd
  refine ⟨by simp [outcome_markNested], h.same (hmarked hp hr hd h.left) (hmarked hq hr' hd' h.right) hvalue hvalue ?_ ?_⟩
  · rw [outcome_markNested]
  · rw [outcome_markNested]

theorem matched_group {fields : List (String × Value)} (h : Alike schema new p q s s') (hp : p ≠ [])
    (hr : s.doc.resolve p = .nested) (hfill : Parallel schema new p q
      (setKeys fields p { opts with silent := true } >>= fun _ => markNested p prior opts)
      (setKeys fields q { opts with silent := true } >>= fun _ => markNested q prior' opts)) :
    Matched schema new p q ((setGroup p prior opts (.obj fields)).outcome s)
      ((setGroup q prior' opts (.obj fields)).outcome s') := by
  have hd := heeds_pliant.emptied hp hr (.inr rfl) h.left
  have hd' := heeds_pliant.emptied (h.ne_nil hp) (h.resolve ▸ hr) (.inr rfl) h.right
  have hempty : (Value.obj []).Like (.obj []) := like_refl ⟨.nil, trivial⟩
  rw [outcome_setGroup_obj, outcome_setGroup_obj]
  rcases hw : (s.doc.detached p).write p (.obj []) with ⟨_ | _, d⟩ <;>
    rcases hw' : (s'.doc.detached q).write q (.obj []) with ⟨_ | _, d'⟩ <;> rw [hw] at hd <;> rw [hw'] at hd'
  · exact (wrote_error hw rfl).matched h (wrote_error hw' rfl) hempty hd hd'
  · have hm := (wrote_error (b := .path (.wrongShape p .array)) hw rfl).matched h (wrote_ok hw' rfl rfl) hempty hd hd'
    exact absurd (hm.ok.mpr rfl) (by simp)
  · have hm := (wrote_ok hw rfl rfl).matched h (wrote_error (b := .path (.wrongShape p .array)) hw' rfl) hempty hd hd'
    exact absurd (hm.ok.mp rfl) (by simp)
  · exact hfill _ _ ((wrote_ok hw rfl rfl).matched h (wrote_ok hw' rfl rfl) hempty hd hd').desks

mutual

theorem parallel_setPath (hs : schema.Uniform) : (v : Value) → v.Canonical → (p q : Path) → (opts : SetOptions) →
    p.Opens (schema.Indifferent new) v → Parallel schema new p q (setPath v p opts) (setPath v q opts)
  | v, hv, [], q, opts, hi => by
    intro s s' h
    obtain rfl := length_eq_zero_iff.mp h.path.length_eq.symm
    cases v with
    | obj fields =>
      rw [setPath]
      exact parallel_setKeys hs fields (hereditary_canonical.obj.mp hv).2 [] [] opts hi s s' h
    | null | bool | num | str | arr =>
      simp only [setPath]
      exact parallel_throw s s' h
  | v, hv, seg :: segs, q, opts, hi => by
    intro s s' h
    have hi : schema.Indifferent new (seg :: segs) := hi
    have hp : seg :: segs ≠ [] := by simp
    have hq := h.ne_nil hp
    have hmissing : s.doc.missingArray? (seg :: segs) = none ↔ s'.doc.missingArray? q = none :=
      missingArray?_respelled (h.left.1.schema.trans h.right.1.schema.symm) (h.left.1.schema ▸ h.path) h.value
    rw [outcome_setPath hp, outcome_setPath hq, ← h.resolve]
    cases hm : s.doc.missingArray? (seg :: segs) with
    | some =>
      rw [hm] at hmissing
      obtain ⟨parent, hm'⟩ := Option.ne_none_iff_exists'.mp (mt hmissing.mpr (by simp))
      rw [hm']
      exact ⟨by simp, h⟩
    | none =>
      rw [hmissing.mp hm]
      dsimp only
      cases hr : s.doc.resolve (seg :: segs) with
      | field f => exact matched_setField hi h hp hr hv
      | inMixed => exact matched_setRaw h hp (.inl hr) hv
      | undeclared => exact matched_setUndeclared hs h hp hr hv
      | nested =>
        have hr' : s'.doc.resolve q = .nested := h.resolve.symm.trans hr
        cases v with
        | null => exact matched_setNestedNull h hp hr
        | bool | num | str | arr =>
          exact ⟨Iff.rfl, h.same (heeds_pliant.reported h.left) (heeds_pliant.reported h.right) rfl rfl rfl rfl⟩
        | obj fields =>
          have hkeys := parallel_setKeys hs fields (hereditary_canonical.obj.mp hv).2 (seg :: segs) q
            { opts with silent := true } fun e _ => hi.key e.1
          exact matched_group h hp hr (hkeys.bind (parallel_markNested hp hq h.left h.right hr hr'))

theorem parallel_setKeys (hs : schema.Uniform) : (fields : List (String × Value)) →
    (∀ e ∈ fields, e.2.Canonical) → (p q : Path) → (opts : SetOptions) →
    (∀ e ∈ fields, schema.Indifferent new (p ++ [.key e.1])) →
    Parallel schema new p q (setKeys fields p opts) (setKeys fields q opts)
  | [], _, _, _, _, _ => by
    rw [setKeys, setKeys]
    exact parallel_pure
  | (k, v) :: rest, hf, p, q, opts, hi => by
    obtain ⟨hv, hf⟩ := forall_mem_cons.mp hf
    obtain ⟨hk, hi⟩ := forall_mem_cons.mp hi
    rw [setKeys, setKeys]
    exact (parallel_setPath hs v hv (p ++ [.key k]) (q ++ [.key k]) opts
      ((Path.opens_of_ne_nil (by simp)).mpr hk)).of_key.bind (parallel_setKeys hs rest hf p q opts hi)

end

-- Calls side by side

theorem Kin.opened (h : Kin schema new s s') (hp : schema.Respelled s.doc.value p q) : Alike schema new p q
    ⟨s.doc.openChanges, { s.effects with queue := [] }⟩ ⟨s'.doc.openChanges, { s'.effects with queue := [] }⟩ := by
  have hvalue (d : Document) : d.openChanges.value = d.value := by rw [openChanges_eq]
  refine ⟨⟨heeds_pliant.opened h.left, heeds_pliant.opened h.right, ?_, h.ids⟩, ?_, rfl, rfl⟩
  · rw [hvalue, hvalue]
    exact h.value
  · rw [hvalue]
    exact hp

theorem Kin.begun (hs : schema.Uniform) (h : Kin schema new s s') (hp : schema.Respelled s.doc.value p q)
    (hv : v.Canonical) (hi : p.Opens (schema.Indifferent new) v) (opts : SetOptions) :
    Alike schema new p q (begun p v opts s) (begun q v opts s') :=
  (parallel_setPath hs v hv p q opts hi _ _ (h.opened hp)).desks

theorem run_set (h : (begun p v opts s).effects.queue = []) : (Call.set p v opts).run s = begun p v opts s := by
  rw [Call.run, Call.edit, outcome_set]
  rw [begun] at h ⊢
  generalize (setPath v p opts).outcome _ = r at h ⊢
  rcases r with ⟨_ | _, s'⟩
  · rfl
  · dsimp only at h ⊢
    rw [outcome_settle h]

end Edit

namespace Call

-- Calls that set the same values at paths which differ in spelling only, where each is made and nothing looks at
-- the spelling.
inductive Respelled : Desk → List Call → List Call → Prop
  | nil {s : Desk} : Respelled s [] []
  | set {s : Desk} {p q : Path} {v : Value} {opts : SetOptions} {calls calls' : List Call} :
      s.doc.schema.Respelled s.doc.value p q → v.Canonical → p.Opens (s.doc.schema.Indifferent s.doc.isNew) v →
      Respelled ((Call.set p v opts).run s) calls calls' →
      Respelled s (.set p v opts :: calls) (.set q v opts :: calls')

theorem Respelled.step {schema : Schema} (hb : schema.Meets .blind) (hm : schema.Meets .mutable) {p q : Path}
    {v : Value} (hs : s.doc.Lineal schema) (hp : schema.Respelled s.doc.value p q) (hv : v.Canonical)
    (h : ((Call.set p v {}).run s).doc.Lineal schema → Respelled ((Call.set p v {}).run s) calls calls') :
    Respelled s (.set p v {} :: calls) (.set q v {} :: calls') := by
  refine .set (hs.schema ▸ hp) hv (Path.opens_of_forall fun r => ?_) (h (hs.run _))
  rw [hs.schema]
  exact Schema.indifferent_of_meets hb hm

def tops : Call → List Seg
  | set (seg :: _) _ _ => [seg]
  | set [] (.obj fields) _ => fields.map fun e => .key e.1
  | _ => []

theorem opens_of_tops {p : Path} {v : Value} {opts : SetOptions} (h : ∀ seg ∈ (Call.set p v opts).tops, T seg) :
    p.Opens (Path.Begins T) v := by
  cases p with
  | cons seg rest => exact ⟨seg, rest, rfl, h seg (by simp [tops])⟩
  | nil =>
    cases v with
    | obj fields =>
      intro e he
      exact ⟨.key e.1, [], rfl, h _ (mem_map.mpr ⟨e, he, rfl⟩)⟩
    | null | bool | num | str | arr => trivial

end Call

namespace Document

open Edit

variable {schema : Schema} {s : Desk} {calls calls' : List Call}

-- Desks with alike values whose changes are open since the same document.
structure Twins (schema : Schema) (new : Bool) (T T' : Seg → Prop) (base : Document) (s s' : Desk) : Prop
    extends Kin schema new s s' where
  since  : OpenSince T base s.doc.openChanges
  since' : OpenSince T' base s'.doc.openChanges

theorem openSince_begun {v : Value} {opts : SetOptions} (h : OpenSince T base s.doc.openChanges)
    (hT : ∀ seg ∈ (Call.set p v opts).tops, T seg) : OpenSince T base (begun p v opts s).doc.openChanges := by
  have hheeds : Heeds (Path.Begins T) (OpenSince T base) :=
    OpenSince.lasting.toStable.heeds fun p k hp => hp.append [.key k]
  exact hheeds.opened (hheeds.keeps_setPath v p (Call.opens_of_tops hT) opts _ h)

theorem Twins.runAll (hs : schema.Uniform) (h : Twins schema new T T' base s s') (hc : Call.Respelled s calls calls')
    (hT : ∀ c ∈ calls, ∀ seg ∈ c.tops, T seg) (hT' : ∀ c ∈ calls', ∀ seg ∈ c.tops, T' seg) :
    Twins schema new T T' base (Call.runAll calls s) (Call.runAll calls' s') := by
  induction hc generalizing s' with
  | nil => exact h
  | @set s p q v opts _ _ hp hv hi _ ih =>
    obtain ⟨hT₁, hT⟩ := forall_mem_cons.mp hT
    obtain ⟨hT₁', hT'⟩ := forall_mem_cons.mp hT'
    rw [h.left.1.schema] at hp hi
    rw [h.left.2] at hi
    have hbegun := h.toKin.begun hs hp hv hi opts
    have hnext : Twins schema new T T' base ((Call.set p v opts).run s) ((Call.set q v opts).run s') := by
      rw [run_set hbegun.queue, run_set hbegun.queue']
      exact ⟨hbegun.toKin, openSince_begun h.since hT₁, openSince_begun h.since' hT₁'⟩
    exact ih hnext hT hT'

-- Undoing runs

-- A segment that writes begin with, those of the calls and those that can be undone before.
def Spells (d : Document) (calls : List Call) (a : Seg) : Prop :=
  (d.snapshot.get? [a]).isSome ∨ ∃ c ∈ calls, a ∈ c.tops

def SpellsOnce (d : Document) (calls : List Call) : Prop :=
  ∀ a b, d.Spells calls a → d.Spells calls b → a.toKey = b.toKey → a = b

theorem spellsOnce_of_tops {d : Document} (hd : d.snapshot = ∅) (h : ∀ a ∈ calls.flatMap Call.tops,
    ∀ b ∈ calls.flatMap Call.tops, a.toKey = b.toKey → a = b) : d.SpellsOnce calls := by
  have hmem {a : Seg} (ha : d.Spells calls a) : a ∈ calls.flatMap Call.tops := by
    rcases ha with ha | ⟨c, hc, ha⟩
    · simp [hd] at ha
    · exact mem_flatMap.mpr ⟨c, hc, ha⟩
  exact fun a b ha hb => h a (hmem ha) b (hmem hb)

theorem rollback_openChanges {d : Document} (h : d.Unkept) : d.openChanges.rollback = d.rollback := by
  cases hb : d.backup with
  | some b => rw [openChanges, hb]
  | none =>
    rw [rollback_of_backup_none hb, openChanges, hb]
    have hk := h hb
    cases d
    cases hb
    cases hk
    rfl

theorem putBack_openChanges {start : Document} : start.putBack d.openChanges i = start.putBack d i := by
  rw [openChanges_eq]
  rfl

theorem twins_refl (hstart : start.Reached) (hv : start.value.Canonical) (calls calls' : List Call) :
    Twins start.schema start.isNew (start.Spells calls) (start.Spells calls')
      start.rollback ⟨start, effects⟩ ⟨start, effects⟩ :=
  have hpliant : start.Pliant start.schema start.isNew := ⟨hstart.lineal, rfl⟩
  ⟨⟨hpliant, hpliant, like_refl hv, rfl⟩, openSince_rollback hstart hv fun _ h => .inl h,
    openSince_rollback hstart hv fun _ h => .inl h⟩

-- The values of two runs of calls that differ in spelling only are equal, and the same if their numbers are exact.
-- Undoing the runs leads to the same value exactly if both put back the same at each index. A run that spells each
-- key at the top in one way leads to where undoing would have led before.
theorem runs_respelled (start : Document) (hstart : start.Reached) (hv : start.value.Canonical)
    (hs : start.schema.Uniform) (effects : Effects) (calls calls' : List Call)
    (hc : Call.Respelled ⟨start, effects⟩ calls calls') :
    let d := (Call.runAll calls ⟨start, effects⟩).doc
    let d' := (Call.runAll calls' ⟨start, effects⟩).doc
    d.value.equal d'.value ∧ (d.value.Exact → d'.value.Exact → d.value = d'.value) ∧
    (d.rollback.value = d'.rollback.value ↔ ∀ i, start.rollback.putBack d i = start.rollback.putBack d' i) ∧
    (start.SpellsOnce calls → d.rollback = start.rollback) ∧
    (start.SpellsOnce calls' → d'.rollback = start.rollback) := by
  intro d d'
  have h := (twins_refl hstart hv calls calls').runAll hs hc (fun c hc _ hseg => .inr ⟨c, hc, hseg⟩)
    fun c hc _ hseg => .inr ⟨c, hc, hseg⟩
  have hd : d.openChanges.rollback = d.rollback :=
    rollback_openChanges (Reached.runAll (s := ⟨start, effects⟩) hstart calls).unkept
  have hd' : d'.openChanges.rollback = d'.rollback :=
    rollback_openChanges (Reached.runAll (s := ⟨start, effects⟩) hstart calls').unkept
  refine ⟨h.value.equal, h.value.eq, ?_, fun hone => ?_, fun hone => ?_⟩
  · rw [← hd, ← hd', h.since.rollback_value_eq_iff h.since']
    simp only [putBack_openChanges]
    exact Iff.rfl
  · rw [← hd]
    exact h.since.rollback_eq backup_rollback hstart.snapshot_rollback (hone _ _)
  · rw [← hd']
    exact h.since'.rollback_eq backup_rollback hstart.snapshot_rollback (hone _ _)

def card : SubSchema :=
  ⟨⟨{ id := false, strict := .keep }, [([.key "n"], .plain .number)], []⟩, []⟩

-- Cards by number, a list, and keys that are not declared.
def binder : Schema :=
  ⟨{ id := false, strict := .keep },
    [([.key "cards"], .plain (.map (.ofSub card))), ([.key "list"], .plain (.array (.plain .number)))], []⟩

theorem binder_uniform : binder.Uniform := by
  simp [Schema.Uniform, binder, card, Schema.schemas, Schema.schemasOfFields, Schema.schemasOfVariants, Field.schemas,
    FieldType.schemas, Field.plain, Field.ofSub, SubSchema.schemas]

theorem binder_blind : binder.Meets .blind := by
  simp [Schema.Meets, binder, card, Schema.parts, Schema.partsOfFields, Field.parts, FieldType.parts, Field.plain,
    Field.ofSub, SubSchema.parts, Schema.partsOfVariants, SchemaLaw.blind]

theorem binder_mutable : binder.Meets .mutable := by
  simp [Schema.Meets, binder, card, Schema.parts, Schema.partsOfFields, Field.parts, FieldType.parts, Field.plain,
    Field.ofSub, SubSchema.parts, Schema.partsOfVariants, SchemaLaw.mutable]

def bound : Value :=
  .obj [("7", .int 0), ("cards", .obj []), ("list", .arr [.int 0])]

theorem binder_cards (hx : x.get? [.key "cards"] = some (.obj l)) (h : a.toKey = b.toKey) :
    binder.Respelled x [.key "cards", a] [.key "cards", b] := by
  refine (binder.respelled_refl x [.key "cards"]).append h fun harrays => ?_
  refine absurd harrays (Schema.not_arrays hx fun z f hf => ?_)
  cases hf
  simp [Field.plain, FieldType.isArray]

-- The same calls with other spellings.
def filings (a b top : Seg) : List Call :=
  [.set [.key "cards", a] (.obj [("n", .int 1)]) {}, .set [.key "cards", b, .key "n"] (.int 2) {},
    .set [top] (.int 3) {}, .set [.key "list", .index 0] (.int 4) {}]

theorem filings_respelled (h : (load binder bound none).1 = .ok start) :
    Call.Respelled ⟨start, {}⟩ (filings (.key "5") (.index 5) (.index 7))
      (filings (.index 5) (.key "5") (.key "7")) := by
  have hlineal : start.Lineal binder := (load_loaded h).schema ▸ (Reached.loaded h).lineal
  obtain rfl : _ = start := Except.ok.inj h
  refine .step binder_blind binder_mutable hlineal (binder_cards (l := []) ?_ (by decide)) ?_ fun hs =>
    .step binder_blind binder_mutable hs
      ((binder_cards (l := [("5", .obj [("n", .int 1)])]) ?_ (by decide)).key "n") trivial fun hs =>
    .step binder_blind binder_mutable hs (.top (by decide) hs.sound.object) trivial fun hs =>
    .step binder_blind binder_mutable hs (Schema.respelled_refl _ _ _) trivial fun _ => .nil
  · decide +kernel
  · decide +kernel
  · decide +kernel

theorem runs_respelled_binder : ∃ start, (load binder bound none).1 = .ok start ∧
    let calls := filings (.key "5") (.index 5) (.index 7)
    let calls' := filings (.index 5) (.key "5") (.key "7")
    Call.Respelled ⟨start, {}⟩ calls calls' ∧
    let d := (Call.runAll calls ⟨start, {}⟩).doc
    let d' := (Call.runAll calls' ⟨start, {}⟩).doc
    d.value = .obj [("7", .int 3), ("cards", .obj [("5", .obj [("n", .int 2)])]), ("list", .arr [.int 4])] ∧
    d.value = d'.value ∧ d.rollback = start ∧ d'.rollback = start := by
  have hload : (load binder bound none).1 = .ok _ := rfl
  have hloaded := load_loaded hload
  have hcalls := filings_respelled hload
  obtain ⟨-, hsame, -, hback, hback'⟩ := runs_respelled _ (.loaded hload) (by decide +kernel : bound.Exact).canonical
    (hloaded.schema ▸ binder_uniform) {} _ _ hcalls
  rw [rollback_of_backup_none hloaded.backup] at hback hback'
  refine ⟨_, hload, hcalls, by decide +kernel, hsame (by decide +kernel) (by decide +kernel), hback ?_, hback' ?_⟩
  · exact spellsOnce_of_tops hloaded.snapshot (by decide)
  · exact spellsOnce_of_tops hloaded.snapshot (by decide)

-- Nothing is declared, and everything is kept.
def loose : Schema :=
  ⟨{ id := false, strict := .keep }, [], []⟩

theorem loose_meets (h : law (.paths [])) : loose.Meets law := by
  simpa [Schema.Meets, loose, Schema.parts, Schema.partsOfFields] using h

-- The second write of the key keeps what the first one has written when it is spelled in another way, and that is
-- what undoing puts back.
theorem index_not_undone : ∃ start, (load loose (.obj [("5", .int 0)]) none).1 = .ok start ∧
    let calls (a : Seg) : List Call := [.set [.key "5"] (.int 1) {}, .set [a] (.int 2) {}]
    Call.Respelled ⟨start, {}⟩ (calls (.key "5")) (calls (.index 5)) ∧
    let d := (Call.runAll (calls (.key "5")) ⟨start, {}⟩).doc
    let d' := (Call.runAll (calls (.index 5)) ⟨start, {}⟩).doc
    d.value = d'.value ∧ d.rollback.value = .obj [("5", .int 0)] ∧ d'.rollback.value = .obj [("5", .int 1)] := by
  have hload : (load loose (.obj [("5", .int 0)]) none).1 = .ok _ := rfl
  have hlineal := (load_loaded hload).schema ▸ (Reached.loaded hload).lineal
  refine ⟨_, hload, ?_, by decide +kernel, by decide +kernel, by decide +kernel⟩
  exact .step (loose_meets trivial) (loose_meets trivial) hlineal (.top rfl hlineal.sound.object) trivial fun hs =>
    .step (loose_meets trivial) (loose_meets trivial) hs (.top (by decide) hs.sound.object) trivial fun _ => .nil

end Document
end Dossier

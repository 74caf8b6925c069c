import Dossier.Proofs.Mirrored
import Dossier.Proofs.Upkeep

-- New and loaded documents have scopes for the embedded documents in their values, and are mirrored.

namespace Dossier

open Path Value List

namespace Value

variable {x : Value} {p r : Path}

-- A write takes away nothing but what is below its path. If nothing was there, it takes away nothing.
theorem isSome_setFrom (hq : v.get? q = none ∨ ¬ (q.map Seg.toKey <+: r.map Seg.toKey ∧ q.length < r.length))
    (hr : (v.get? r).isSome) : ((setFrom full x q v).2.get? r).isSome := by
  induction q generalizing v r with
  | nil =>
    cases r with
    | nil => simp
    | cons => simp at hq
  | cons seg q ih =>
    cases r with
    | nil => simp
    | cons seg' r =>
      obtain ⟨c, hc, hrest⟩ : ∃ c, v.child? seg' = some c ∧ (c.get? r).isSome := by
        rw [get?] at hr
        split at hr
        · case _ c hc => exact ⟨c, hc, hr⟩
        · cases hr
      -- What the two paths share leads to the same part.
      have hpart : seg.toKey = seg'.toKey → v.child? seg = some c → (c.get? q = none ∨
          ¬ (q.map Seg.toKey <+: r.map Seg.toKey ∧ q.length < r.length)) := by
        intro hkey hseg
        refine hq.imp (fun h => ?_) fun h h' => h ?_
        · rwa [get?, hseg] at h
        · simpa [hkey] using h'
      cases ht : v.takes seg with
      | false =>
        obtain ⟨e, he⟩ := setFrom_refused full x q ht
        rwa [he]
      | true =>
        rw [setFrom_cons ht, get?_cons]
        rcases child?_putChild ht seg' with hsame | ⟨hkey, hnew, hold⟩
        · rw [hsame, hc]
          exact hrest
        · rw [hnew, ← hold, hc]
          exact ih (hpart hkey (hold ▸ hc)) hrest

end Value

namespace Path

variable {p q : Path}

-- Among bounded paths only one that is above a path of keys has the texts of its first segments.
theorem Bounded.isAbove (h : q.Bounded) (hs : p.Spelled) (hk : ∀ seg ∈ p, seg.index? = none)
    (ht : q.map Seg.toKey <+: p.map Seg.toKey) (hl : q.length < p.length) : q.isAbove p := by
  suffices q.covers p by
    refine isAbove_iff_covers.mpr ⟨this, ?_⟩
    rintro rfl
    omega
  clear hl
  induction q generalizing p with
  | nil => exact nil_covers p
  | cons a q ih =>
    cases p with
    | nil => simp at ht
    | cons b p =>
      obtain ⟨ha, hq⟩ := forall_mem_cons.mp h
      obtain ⟨hb, hs⟩ := spelled_cons.mp hs
      obtain ⟨hi, hk⟩ := forall_mem_cons.mp hk
      rw [map_cons, map_cons, cons_prefix_cons] at ht
      refine cons_covers_cons.mpr ⟨?_, ih hq hs hk ht.2⟩
      cases b with
      | index i => cases hi
      | key k => exact Seg.eq_key_of_toKey hb ha ht.1

end Path

-- New documents

namespace Scopes

variable {s : Scopes} {p : Path}

theorem attachable_keyAt? (s : Scopes) (p : Path) (origin : Origin) : Attachable origin
    (fun s' => ∀ r k, s'.keyAt? r = some k → p.covers r ∨ s.keyAt? r = some k) (fun _ r _ => p.covers r)
    fun _ _ => True where
  below h := covers_trans h (covers_append _ _)
  fields _ _ _ := trivial
  items _ := trivial
  insert scope hj ho _ _ := by
    refine ⟨fun r k hr => ?_, ho, fun _ _ h => h⟩
    rw [keyAt?_insert] at hr
    split at hr
    · case isTrue he => exact .inl (he ▸ ho)
    · exact hj r k hr

theorem keyAt?_attachField {f : Field} {v : Option Value} {o : Option ScopeKey}
    (h : (s.attachField f p v o origin).keyAt? r = some k) : p.covers r ∨ s.keyAt? r = some k :=
  (f.attach_keeps (attachable_keyAt? s p origin) o p v s trivial (fun _ _ hr => .inr hr) (covers_refl p)).1 r k h

theorem keyAt?_attachItems {sub : SubSchema} {n : Nat} {vs : List Value}
    (h : (s.attachItems sub p n vs o origin).keyAt? r = some k) : p.covers r ∨ s.keyAt? r = some k :=
  (attachItems_keeps (attachable_keyAt? s p origin) trivial (fun _ _ hr => .inr hr) (covers_refl p)).1 r k h

theorem Mirrors.transition {state : PathState} (h : s.Mirrors t) (hs : state ≠ .modify)
    (hp : ∀ r k, s.keyAt? r = some k → ¬ r.isAbove p) : s.Mirrors (t.transition p state) := by
  refine ⟨h.nested, h.consistent, fun {r k scope} hr hs' hstored rel hrel => ?_⟩
  have hne : p ≠ r ++ rel := fun he => hp r k hr (isAbove_iff.mpr ⟨rel, hrel, he⟩)
  rw [Tracker.marks_transition_ne hs, and_iff_right hne]
  exact h.reflects hr hs' hstored rel hrel

end Scopes

namespace Document

open Edit

variable {schema : Schema} {d : Document} {p : Path}

-- There is room for the defaults of the document: no scope is around a declared path, and none is at or below one
-- where nothing is.
structure Roomy (schema : Schema) (d : Document) : Prop where
  around : ∀ e ∈ schema.fields, ∀ r k, d.scopes.keyAt? r = some k → ¬ r.isAbove e.1
  absent : ∀ e ∈ schema.fields, d.get? e.1 = none → d.scopes.Vacant e.1
  schema : d.schema = schema

theorem Roomy.of_keyAt? {d' : Document} (h : d.Roomy schema) (hschema : d'.schema = d.schema)
    (hvalue : ∀ e ∈ schema.fields, ∀ r k, e.1.covers r → d'.scopes.keyAt? r = some k →
      d.scopes.keyAt? r = some k → (d.get? e.1).isSome → (d'.get? e.1).isSome)
    (hscopes : ∀ r k, d'.scopes.keyAt? r = some k → d.scopes.keyAt? r = some k ∨
      p.covers r ∧ (d'.get? p).isSome ∧ ∀ e ∈ schema.fields, ¬ p.isAbove e.1) : d'.Roomy schema := by
  refine ⟨fun e he r k hr ha => ?_, fun e he hnone r hc => ?_, hschema.trans h.schema⟩
  · rcases hscopes r k hr with hr | ⟨hp, -, hout⟩
    · exact h.around e he r k hr ha
    · exact hout e he (isAbove_of_covers_isAbove hp ha)
  · cases hr : d'.scopes.keyAt? r with
    | none => rfl
    | some k =>
      rcases hscopes r k hr with hr' | ⟨hp, hsome, hout⟩
      · have hbefore : (d.get? e.1).isSome := by
          cases hd : d.get? e.1 with
          | some => rfl
          | none => rw [h.absent e he hd r hc] at hr'; cases hr'
        have := hvalue e he r k hc hr hr' hbefore
        rw [hnone] at this
        cases this
      · -- The path is at or below the declared one, so something is there too.
        have hep : e.1.covers p := (covers_total hc hp).elim id fun hpe =>
          (eq_or_isAbove_of_covers hpe).elim (fun he => he ▸ covers_refl _) fun ha =>
            absurd ha (hout e he)
        have := get?_isSome_of_covers hsome hep
        rw [← Document.get?, hnone] at this
        cases this

-- What is declared is still there after a write that is not above it.
theorem isSome_set_declared (hw : schema.Meets .wellFormed) {e : Path × Field} (he : e ∈ schema.fields)
    (hp : p.Bounded) (hout : ¬ p.isAbove e.1) (hs : (d.get? e.1).isSome) : ((d.value.set p v).2.get? e.1).isSome := by
  obtain ⟨-, hspelled, hkeys⟩ := hw.declared he
  exact isSome_setFrom (.inr fun ht => hout (hp.isAbove hspelled hkeys ht.1 ht.2)) hs

theorem Roomy.write (h : d.Roomy schema) (hw : schema.Meets .wellFormed) (hb : p.Bounded)
    (hp : ∀ e ∈ schema.fields, p.isAbove e.1 → d.scopes.Vacant e.1) : (d.write p v).2.Roomy schema := by
  refine h.of_keyAt? (p := p) (by rw [write_eq]) (fun e he r k hc hr _ hs => ?_) fun r k hr => .inl ?_
  · rw [write_eq] at hr ⊢
    refine isSome_set_declared hw he hb (fun ha => ?_) hs
    rw [hp e he ha r hc] at hr
    cases hr
  · rwa [write_eq] at hr

theorem keyAt?_detached (h : d.scopes.Nested) {r : Path} :
    (d.detached p).scopes.keyAt? r = if p.covers r then none else d.scopes.keyAt? r := by
  have heq : (d.detached p).scopes =
      (d.scopes.eachOwner p (atPath p fun rel t => t.clearDescendants rel)).removeBelow p := rfl
  rw [heq, h.eachOwner.keyAt?_removeBelow, h.keyAt?_eachOwner]

section

variable (h : d.Roomy schema)

include h

theorem Roomy.detached (hn : d.scopes.Nested) : (d.detached p).Roomy schema := by
  refine h.of_keyAt? (p := p) rfl (fun _ _ _ _ _ _ _ hs => hs) fun r k hr => .inl ?_
  rw [keyAt?_detached hn] at hr
  split at hr
  · cases hr
  · exact hr

theorem Roomy.markModified : (d.markModified p).Roomy schema := by
  refine h.of_keyAt? (p := p) rfl (fun _ _ _ _ _ _ _ hs => hs) fun r k hr => .inl ?_
  rw [markModified_eq] at hr
  dsimp only at hr
  rwa [Scopes.keyAt?_passed] at hr

theorem Roomy.attached (hp : (d.get? p).isSome) (hout : ∀ e ∈ schema.fields, ¬ p.isAbove e.1) :
    (d.attached p f).Roomy schema :=
  h.of_keyAt? rfl (fun _ _ _ _ _ _ _ hs => hs) fun _ _ hr =>
    (Scopes.keyAt?_attachField hr).elim (fun hc => .inr ⟨hc, hp, hout⟩) .inl

theorem Roomy.noted {g : ArrayOps → ArrayOps} : (d.noteArrayOp p g).Roomy schema :=
  ⟨h.around, h.absent, h.schema⟩

theorem Roomy.markValid : (d.markValid p).Roomy schema := by
  obtain ⟨issues, he⟩ := markValid_eq d p
  rw [he]
  exact ⟨h.around, h.absent, h.schema⟩

theorem Roomy.settled (hp : (d.get? p).isSome) (hout : ∀ e ∈ schema.fields, ¬ p.isAbove e.1) {modifies : Bool} :
    (d.settled p f modifies).Roomy schema :=
  settled_rec (fun _ => h.attached hp hout) (fun _ => h) (·.noted) markModified markValid

end

theorem outside_of_not_nested (hw : schema.Meets .wellFormed) (hs : d.schema = schema) (hp : p ≠ [])
    (hr : d.resolve p ≠ .nested) : ∀ e ∈ schema.fields, ¬ p.isAbove e.1 := by
  intro e he ha
  rw [Document.resolve, hs] at hr
  exact hr (Schema.resolve_of_isAbove hw.apart he ha hp)

theorem heeds_roomy (hw : schema.Meets .wellFormed) :
    Heeds (fun p => p ≠ [] ∧ p.Bounded) fun d => d.Mirrored ∧ d.Roomy schema where
  opened h := by
    refine ⟨h.1.openChanges, ?_⟩
    rw [openChanges_eq]
    exact ⟨h.2.around, h.2.absent, h.2.schema⟩
  reported h := ⟨h.1.reported, h.2.around, h.2.absent, h.2.schema⟩
  stored {d p f v opts effects} hp hf h := by
    obtain ⟨hp, hb⟩ := hp
    refine ⟨heeds_mirrored.stored hp hf h.1, ?_⟩
    have hout := outside_of_not_nested hw h.2.schema hp (by simp [hf])
    have hwritten : ∀ {d : Document}, d.Roomy schema → (d.write p v).2.Roomy schema := fun hd =>
      hd.write hw hb fun e he ha => absurd ha (hout e he)
    refine storeField_rec h.2 h.2.markValid (fun _ => h.2.detached h.1.scopes.nested) (fun _ => h.2)
      (fun hd _ => hwritten hd) fun {d₁ _} hd hok => (hwritten hd).settled ?_ hout
    rw [write_eq] at hok ⊢
    have : (d₁.value.set p v).2.get? p = some v := get?_setFrom_self hok
    simp [Document.get?, this]
  taken hp hr h := ⟨h.1.write hp.1, h.2.write hw hp.2 fun e he ha =>
    absurd ha (outside_of_not_nested hw h.2.schema hp.1 (by rcases hr with hr | hr <;> simp [hr]) e he)⟩
  emptied {d p v} hp _ _ h := by
    refine ⟨h.1.detached.write hp.1, (h.2.detached h.1.scopes.nested).write hw hp.2 fun e _ ha r hc => ?_⟩
    rw [keyAt?_detached h.1.scopes.nested, if_pos (covers_trans (covers_of_isAbove ha) hc)]
  marked _ _ _ h := ⟨h.1.markModified, h.2.markModified⟩
  inner hp _ _ := ⟨by simp, bounded_append.mpr ⟨hp.2, bounded_of_keys (by simp [Seg.index?])⟩⟩

theorem Roomy.filled (h : d.Mirrored ∧ d.Roomy schema) (hw : schema.Meets .wellFormed) (hf : (p, f) ∈ schema.fields)
    (hnone : d.get? p = none) (hok : (d.value.set p v).1 = .ok ()) :
    (Document.filled { d with value := (d.value.set p v).2 } p f).Mirrored ∧
      (Document.filled { d with value := (d.value.set p v).2 } p f).Roomy schema := by
  obtain ⟨hm, hr⟩ := h
  obtain ⟨hp, -, hkeys⟩ := hw.declared hf
  have hinner : d.scopes.innermost? p = none := Scopes.innermost?_eq_none (hr.around _ hf)
  have hout : ∀ e ∈ schema.fields, ¬ p.isAbove e.1 := fun e he ha =>
    (Schema.apart_of_mem hw hf he (ne_of_isAbove ha)).1 (covers_of_isAbove ha)
  have hget : ((d.value.set p v).2.get? p) = some v := get?_setFrom_self hok
  constructor
  · refine ⟨(hm.sound.set hp).filled, hm.schema, ?_, hm.backup⟩
    have htrack := hm.scopes.transition (p := p) (by simp : PathState.default ≠ .modify) (hr.around _ hf)
    rw [Document.filled]
    dsimp only
    rw [← hinner]
    exact htrack.attachField (hw.field hf) hp (hr.absent _ hf hnone)
  · refine hr.of_keyAt? (p := p) rfl (fun e he r k _ _ _ hs => ?_) fun r k hk => ?_
    · exact isSome_set_declared hw he (bounded_of_keys hkeys) (hout e he) hs
    · refine (Scopes.keyAt?_attachField hk).elim (fun hc => .inr ⟨hc, ?_, hout⟩) .inl
      exact Option.isSome_iff_exists.mpr ⟨v, hget⟩

theorem Mirrored.seedRequired (h : d.Mirrored) : d.seedRequired.Mirrored := by
  refine seedRequired_rec h fun hstate h => ?_
  refine ⟨h.sound.withTracker h.sound.tracker.transition, h.schema, ?_, h.backup⟩
  refine ⟨h.scopes.nested, h.scopes.consistent, fun hr hs hstored rel hrel => ?_⟩
  rw [Tracker.marks_transition_ne (by simp), h.scopes.reflects hr hs hstored rel hrel, and_iff_right_of_imp]
  intro hmark he
  rw [← he, Tracker.Marks, ← Document.stateOf?, hstate] at hmark
  cases hmark

theorem Roomy.seedRequired (h : d.Roomy schema) : d.seedRequired.Roomy schema :=
  seedRequired_rec h fun _ hd => ⟨hd.around, hd.absent, hd.schema⟩

theorem mirrored_of_create {fields : List (String × Value)} {effects : Effects} (hw : schema.Meets .wellFormed)
    (hr : Rounds (fun p _ => p.Bounded) {} maxRounds (given schema fields effects))
    (h : (create schema (.obj fields) effects).1 = .ok d) : d.Mirrored := by
  have hkey : ∀ k, Bounded [.key k] := fun k => bounded_of_keys (by simp [Seg.index?])
  have hopens : ∀ (p : Path) v, p.Bounded → p.Opens (fun p => p ≠ [] ∧ p.Bounded) v := by
    intro p v hp
    cases p with
    | cons => exact ⟨by simp, hp⟩
    | nil =>
      cases v with
      | obj fs => exact fun e _ => ⟨by simp, hkey e.1⟩
      | null | bool | num | str | arr => trivial
  refine (create_of_rounds (heeds_roomy hw) (fun e _ => ⟨by simp, hkey e.1⟩) (hr.mono hopens)
    (fun hm hl hok hd => Roomy.filled hd hw hm hl.absent hok) (fun hd => ⟨hd.1.seedRequired, hd.2.seedRequired⟩)
    ⟨⟨sound_blank, hw, ?_, by simp⟩, by rintro _ _ _ _ ⟨⟩, fun _ _ _ _ _ => rfl, rfl⟩ h).1
  exact ⟨⟨Scopes.sound_empty, rfl, by rintro _ _ _ ⟨⟩⟩, by rintro _ _ ⟨⟩, by rintro _ _ _ ⟨⟩⟩

end Document

-- Loaded documents

namespace Scopes

variable {s : Scopes} {fields : List (Path × Field)} {p q r : Path} {k : ScopeKey} {scope : Scope}

-- A path is declared at a root: by the document at its own, or by a scope.
def Declares (s : Scopes) (fields : List (Path × Field)) (r p : Path) : Prop :=
  (r = [] ∧ p ∈ fields.map (·.1)) ∨ ∃ k scope, s.keyAt? r = some k ∧ s.get? k = some scope ∧
    p ∈ scope.schema.fields.map (·.1)

-- Scopes as they are laid out for a value, those in `es` among them.
structure Laid (fields : List (Path × Field)) (es : List (ScopeKey × Scope)) (v : Value) (s : Scopes) : Prop where
  nested  : s.Nested
  each    : s.All fun scope => scope.schema.Meets .wellFormed ∧ scope.tracker.Consistent ∧
    (¬ scope.isNew → ∀ q, ¬ scope.tracker.Marks q)
  -- No scope is between the root of a schema and a path that is declared there.
  between : ∀ {r p c k}, s.Declares fields r p → s.keyAt? c = some k → r.isAbove c → ¬ c.isAbove (r ++ p)
  present : ∀ {r k}, s.keyAt? r = some k → (v.get? r).isSome
  held    : ∀ e ∈ es, s.keyAt? e.2.root = some e.1 ∧
    ∃ scope, s.get? e.1 = some scope ∧ scope.schema = e.2.schema

-- A place for a scope that is not between a root and a path declared there.
structure Spot (fields : List (Path × Field)) (s : Scopes) (q : Path) (o : Option ScopeKey) : Prop
    extends Site s q o where
  outside : ∀ {r p}, s.Declares fields r p → r.isAbove q → ¬ q.isAbove (r ++ p)

theorem not_isAbove_declared {schema : Schema} (h : schema.Meets .wellFormed) (hp : p ∈ schema.fields.map (·.1))
    (hq : q ∈ schema.fields.map (·.1)) : ¬ p.isAbove q := by
  intro ha
  obtain ⟨e, he, rfl⟩ := mem_map.mp hp
  obtain ⟨e', he', rfl⟩ := mem_map.mp hq
  exact (Schema.apart_of_mem h he he' (ne_of_isAbove ha)).1 (covers_of_isAbove ha)

theorem declares_insert (ht : s.Nested) (h : (s.insert scope).2.Declares fields r p) :
    s.Declares fields r p ∨ r = scope.root ∧ p ∈ scope.schema.fields.map (·.1) := by
  rcases h with h | ⟨k, scope', hr, hs, hp⟩
  · exact .inl (.inl h)
  · rw [keyAt?_insert] at hr
    split at hr
    · case isTrue he =>
      cases hr
      rw [get?_insert ht.sound.tidy, if_pos rfl] at hs
      cases hs
      exact .inr ⟨he.symm, hp⟩
    · rw [ht.get?_insert_of_keyAt? hr] at hs
      exact .inl (.inr ⟨k, scope', hr, hs, hp⟩)

theorem Site.not_covers_declares (h : s.Site q o) (hd : s.Declares fields r p) : ¬ q.covers r := by
  intro hc
  rcases hd with ⟨rfl, -⟩ | ⟨k, scope, hr, -⟩
  · exact h.proper (covers_nil.mp hc)
  · rw [h.vacant r hc] at hr
    cases hr

theorem Spot.item {i : Nat} (h : Spot fields s r o) : Spot fields s (r.index i) o := by
  refine ⟨h.toSite.below, fun {r' p} hd ha ha' => ?_⟩
  have habove : r.isAbove (r.index i) := isAbove_append_iff.mpr (covers_refl r)
  rcases eq_or_isAbove_of_covers (isAbove_append_iff.mp ha) with rfl | ha
  · exact h.not_covers_declares hd (covers_refl _)
  · exact h.outside hd ha (isAbove_trans habove ha')

theorem Laid.insert (h : s.Laid fields es v) (hspot : s.Spot fields scope.root scope.parent)
    (hw : scope.schema.Meets .wellFormed) (hc : scope.tracker.Consistent)
    (hm : ¬ scope.isNew → ∀ q, ¬ scope.tracker.Marks q) (hv : (v.get? scope.root).isSome) :
    (s.insert scope).2.Laid fields es v := by
  have hlive : ∀ {c k}, (s.insert scope).2.keyAt? c = some k → c = scope.root ∨ s.keyAt? c = some k := by
    intro c k hc
    rw [keyAt?_insert] at hc
    split at hc
    · case isTrue he => exact .inl he.symm
    · exact .inr hc
  refine ⟨h.nested.insert hspot.toSite, h.each.insert h.nested.sound.tidy ⟨hw, hc, hm⟩,
    fun {r p c k} hd hk ha ha' => ?_, fun {r k} hr => ?_, fun e he => ?_⟩
  · rcases declares_insert h.nested hd with hd | ⟨rfl, -⟩
    · rcases hlive hk with rfl | hk
      · exact hspot.outside hd ha ha'
      · exact h.between hd hk ha ha'
    · rcases hlive hk with rfl | hk
      · exact isAbove_irrefl ha
      · rw [hspot.vacant c (covers_of_isAbove ha)] at hk
        cases hk
  · rcases hlive hr with rfl | hr
    · exact hv
    · exact h.present hr
  · obtain ⟨hkey, scope', hs, hschema⟩ := h.held e he
    refine ⟨?_, scope', by rw [h.nested.get?_insert_of_keyAt? hkey, hs], hschema⟩
    rw [keyAt?_insert, if_neg, hkey]
    intro hroot
    rw [← hroot, hspot.vacant _ (covers_refl _)] at hkey
    cases hkey

theorem Spot.insert_below (h : s.Spot fields scope.root o) (hn : s.Nested) (hw : scope.schema.Meets .wellFormed)
    (hp : p ∈ scope.schema.fields.map (·.1)) :
    (s.insert scope).2.Spot fields (scope.root ++ p) (some (s.insert scope).1) := by
  have hne := (hw.paths.1 p hp).1
  have hbelow : scope.root.isAbove (scope.root ++ p) := isAbove_iff.mpr ⟨p, hne, rfl⟩
  refine ⟨h.toSite.insert_below hne, fun {r p'} hd ha ha' => ?_⟩
  rcases declares_insert hn hd with hd | ⟨rfl, hp'⟩
  · -- The root is around the new scope, and no declared path leads beyond it.
    have hcov := (covers_total (covers_of_isAbove ha) (covers_of_isAbove hbelow)).resolve_right
      (h.not_covers_declares hd)
    rcases eq_or_isAbove_of_covers hcov with rfl | habove
    · exact h.not_covers_declares hd (covers_refl _)
    · exact h.outside hd habove (isAbove_trans hbelow ha')
  · exact not_isAbove_declared hw hp hp' (append_isAbove_append.mp ha')

theorem Spot.insert_apart (h : s.Spot fields r o) (hn : s.Nested) (ha : q.Apart r) (hq : q.covers scope.root) :
    (s.insert scope).2.Spot fields r o := by
  refine ⟨h.toSite.insert_apart ha hq, fun {r' p} hd habove => ?_⟩
  rcases declares_insert hn hd with hd | ⟨rfl, -⟩
  · exact h.outside hd habove
  · exact absurd (covers_trans hq (covers_of_isAbove habove)) ha.1

theorem not_marks_seedTracker {schema : Schema} {w : Value} : ¬ (schema.seedTracker w .init).Marks q := by
  refine List.foldlRecOn (motive := fun t : Tracker => ¬ t.Marks q) _ _ (by simp [Tracker.Marks]) fun t h e _ => ?_
  dsimp only
  split
  · exact fun hm => h ((Tracker.marks_transition_ne (by simp)).mp hm).2
  · split
    · exact fun hm => h ((Tracker.marks_transition_ne (by simp)).mp hm).2
    · exact h

theorem graftable_laid (origin : Origin) :
    Graftable origin (Laid fields es v) (Spot fields) fun q w => v.get? q = w where
  field h := by rw [get?_append, h, Option.bind_some]
  item h := h.item
  insert {s r o w schema} hj ho hf hw := by
    refine ⟨hj.insert ho hw seedTracker_consistent ?_ (by rw [hf]; rfl), fun e he =>
      ho.insert_below hj.nested hw (mem_map_of_mem he)⟩
    cases origin with
    | loaded => exact fun _ _ => not_marks_seedTracker
    | created => exact fun h => absurd rfl h
  frame hj ho ha hq := ho.insert_apart hj.nested ha hq

theorem Laid.attachField {f : Field} {origin : Origin} (h : s.Laid fields es v) (hf : f.Meets .wellFormed)
    (hspot : s.Spot fields p o) : (s.attachField f p (v.get? p) o origin).Laid fields es v :=
  (graftable_laid origin).attachField hf rfl h hspot

theorem Laid.set {x : Value} (h : s.Laid fields es v) (hq : v.get? q = none) : s.Laid fields es (v.set q x).2 :=
  ⟨h.nested, h.each, h.between, fun hr => isSome_setFrom (.inl hq) (h.present hr), h.held⟩

theorem Laid.vacant (h : s.Laid fields es v) (hq : v.get? q = none) : s.Vacant q := by
  intro r hc
  cases hr : s.keyAt? r with
  | none => rfl
  | some k =>
    have := get?_isSome_of_covers (h.present hr) hc
    rw [hq] at this
    cases this

theorem Laid.not_isAbove (h : s.Laid fields es v) (hp : p ∈ fields.map (·.1)) (hr : s.keyAt? r = some k) :
    ¬ r.isAbove p := by
  refine h.between (.inl ⟨rfl, hp⟩) hr (isAbove_iff.mpr ⟨r, ?_, rfl⟩)
  rintro rfl
  rw [h.nested.proper] at hr
  cases hr

theorem Laid.spot {schema : Schema} (h : s.Laid schema.fields es v) (hw : schema.Meets .wellFormed)
    (hp : p ∈ schema.fields.map (·.1)) (hnone : v.get? p = none) : s.Spot schema.fields p none := by
  have hne := (hw.paths.1 p hp).1
  have hout : ∀ r k, s.keyAt? r = some k → ¬ r.isAbove p := fun _ _ hr => h.not_isAbove hp hr
  refine ⟨⟨hne, h.vacant hnone, ?_⟩, fun {r p'} hd ha ha' => ?_⟩
  · exact innermost?_eq_none hout
  · rcases hd with ⟨rfl, hp'⟩ | ⟨k, scope, hr, -⟩
    · exact not_isAbove_declared hw hp hp' ha'
    · exact hout r k hr ha

theorem Laid.spot_in (h : s.Laid fields es v) (hr : s.keyAt? r = some k) (hs : s.get? k = some scope)
    (hp : p ∈ scope.schema.fields.map (·.1)) (hnone : v.get? (r ++ p) = none) : s.Spot fields (r ++ p) (some k) := by
  obtain ⟨hw, -⟩ := h.each k scope hs
  have hne := (hw.paths.1 p hp).1
  have hdecl : s.Declares fields r p := .inr ⟨k, scope, hr, hs, hp⟩
  have hroot : r ≠ [] := by
    rintro rfl
    rw [h.nested.proper] at hr
    cases hr
  have hbelow : Path.isAbove r (r ++ p) := isAbove_iff.mpr ⟨p, hne, rfl⟩
  refine ⟨⟨by simp [hroot], h.vacant hnone, ?_⟩, fun {r' p'} hd ha ha' => ?_⟩
  · rw [innermost?_below hroot hne fun x hx hxp => ?_, hr, Option.some_or]
    cases hk : s.keyAt? (r ++ x) with
    | none => rfl
    | some k' =>
      exact absurd (append_isAbove_append.mpr hxp) (h.between hdecl hk (isAbove_iff.mpr ⟨x, hx, rfl⟩))
  · rcases eq_or_isAbove_or (covers_of_isAbove ha) (covers_of_isAbove hbelow) with rfl | hc | hc
    · -- Both paths are declared by the scope.
      obtain ⟨hnil, -⟩ | ⟨k', scope', hr', hs', hp'⟩ := hd
      · exact hroot hnil
      · rw [hr] at hr'
        cases hr'
        rw [hs] at hs'
        cases hs'
        exact not_isAbove_declared hw hp hp' (append_isAbove_append.mp ha')
    · exact h.between hd hr hc (isAbove_trans hbelow ha')
    · obtain ⟨rfl, -⟩ | ⟨k', scope', hr', -⟩ := hd
      · exact not_isAbove_nil hc
      · exact h.between hdecl hr' hc ha

theorem Laid.noted (h : s.Laid fields es v) : (s.modify k fun scope =>
    { scope with tracker := scope.tracker.transition p .default }).Laid fields es v := by
  have hback : ∀ {k' scope'}, (s.modify k fun scope =>
      { scope with tracker := scope.tracker.transition p .default }).get? k' = some scope' →
      ∃ scope, s.get? k' = some scope ∧ scope'.schema = scope.schema ∧ scope'.parent = scope.parent := by
    intro k' scope' hs'
    rw [get?_modify] at hs'
    split at hs'
    · case isTrue he =>
      obtain ⟨scope, hs, rfl⟩ := Option.map_eq_some_iff.mp hs'
      exact ⟨scope, he ▸ hs, rfl, rfl⟩
    · exact ⟨scope', hs', rfl, rfl⟩
  refine ⟨h.nested.of_get? h.nested.sound.modify (fun _ => keyAt?_modify) fun k' scope' hs' => ?_,
    fun k' scope' hs' => ?_, fun {r p' c k'} hd hk => ?_, fun {r k'} hr => ?_, fun e he => ?_⟩
  · obtain ⟨scope, hs, -, hparent⟩ := hback hs'
    exact ⟨scope, hs, hparent⟩
  · rw [get?_modify] at hs'
    split at hs'
    · obtain ⟨scope, hs, rfl⟩ := Option.map_eq_some_iff.mp hs'
      obtain ⟨hw, hc, hm⟩ := h.each _ scope hs
      exact ⟨hw, hc.transition, fun hn q hq => hm hn q ((Tracker.marks_transition_ne (by simp)).mp hq).2⟩
    · exact h.each k' scope' hs'
  · rw [keyAt?_modify] at hk
    refine h.between (hd.imp_right ?_) hk
    rintro ⟨k'', scope', hr, hs', hp'⟩
    obtain ⟨scope, hs, hschema, -⟩ := hback hs'
    exact ⟨k'', scope, by rwa [keyAt?_modify] at hr, hs, hschema ▸ hp'⟩
  · rw [keyAt?_modify] at hr
    exact h.present hr
  · obtain ⟨hkey, scope, hs, hschema⟩ := h.held e he
    refine ⟨by rw [keyAt?_modify, hkey], ?_⟩
    rw [get?_modify]
    split
    · case isTrue he =>
      rw [← he, hs]
      exact ⟨_, rfl, hschema⟩
    · exact ⟨scope, hs, hschema⟩

end Scopes

namespace Document

open Edit

variable {schema : Schema} {d : Document} {p rel : Path}

-- The scopes of a document are laid out for its value.
def Laid (schema : Schema) (es : List (ScopeKey × Scope)) (d : Document) : Prop :=
  d.scopes.Laid schema.fields es d.value

theorem Laid.filled (h : d.Laid schema es) (hw : schema.Meets .wellFormed) (hf : (p, f) ∈ schema.fields)
    (hnone : d.get? p = none) : (Document.filled { d with value := (d.value.set p v).2 } p f).Laid schema es :=
  (Scopes.Laid.set h hnone).attachField (hw.field hf)
    (Scopes.Laid.spot h hw (mem_map_of_mem hf) hnone)

theorem Laid.filledIn (h : d.Laid schema es) (he : e ∈ es) (hf : (rel, f) ∈ e.2.schema.fields)
    (hnone : d.get? (e.2.root ++ rel) = none) :
    (Document.filledIn { d with value := (d.value.set (e.2.root ++ rel) v).2 } e.1 rel (e.2.root ++ rel) f).Laid
      schema es := by
  have hnoted : Scopes.Laid schema.fields es d.value (d.scopes.modify e.1 fun scope =>
      { scope with tracker := scope.tracker.transition rel .default }) := Scopes.Laid.noted h
  obtain ⟨hkey, scope, hs, hschema⟩ := hnoted.held e he
  rw [← hschema] at hf
  exact (hnoted.set hnone).attachField ((hnoted.each _ scope hs).1.field hf)
    (hnoted.spot_in hkey hs (mem_map_of_mem hf) hnone)

end Document

namespace Edit

theorem keeps_loadEdit_absent (hissues : ∀ d issues, I d → I { d with issues })
    (hfilled : ∀ d p f v, (p, f) ∈ schema.fields → d.Lacks [] p f → I d →
      I (Document.filled { d with value := (d.value.set p v).2 } p f)) (hscopes : ∀ d, I d → d.scopes.All R)
    (hfilledIn : ∀ d key (scope : Scope) rel f v, R scope → (rel, f) ∈ scope.schema.fields →
      d.Lacks scope.root rel f → I d →
      I (Document.filledIn { d with value := (d.value.set (scope.root ++ rel) v).2 } key rel (scope.root ++ rel) f))
    (hseed : ∀ d, I d → I d.seedRequired) : Keeps I (Document.loadEdit schema) := by
  refine keeps_loadEdit (J := fun es d => I d ∧ ∀ e ∈ es, R e.2) hissues (fun d p f v hm hl _ => hfilled d p f v hm hl)
    (fun d hd => ⟨hd, fun e he => ?_⟩) (fun _ d issues hd => ⟨hissues d issues hd.1, hd.2⟩)
    (fun _ e d rel f v he hm hl _ hd => ⟨hfilledIn d e.1 e.2 rel f v (hd.2 e he) hm hl hd.1, hd.2⟩) (fun _ _ hd => hd.1)
    hseed
  exact hscopes d hd e.1 e.2 (Scopes.get?_of_mem_toList (mem_filter.mp he).1)

end Edit

namespace Document

open Edit

variable {schema : Schema} {d : Document}

theorem foldl_attachField (fields : List (Path × Field)) (s : Scopes) :
    fields.foldl (fun s e => s.attachField e.2 e.1 (v.get? e.1) none .loaded) s =
      Schema.attachFields none .loaded [] v s fields := by
  induction fields generalizing s with
  | nil => rw [Schema.attachFields, foldl_nil]
  | cons e fields ih =>
    rw [foldl_cons, ih, Schema.attachFields, nil_append, Scopes.attachField]

theorem laid_attachLoaded (hw : schema.Meets .wellFormed) (hd : d.schema = schema) (hs : d.scopes = {}) :
    d.attachLoaded.Laid schema [] := by
  have hempty : Scopes.Laid schema.fields [] d.value {} := {
    nested := ⟨Scopes.sound_empty, rfl, by rintro _ _ _ ⟨⟩⟩
    each := by rintro _ _ ⟨⟩
    between := by rintro _ _ _ _ _ ⟨⟩
    present := by rintro _ _ ⟨⟩
    held := by simp }
  have hspot : ∀ e ∈ schema.fields, Scopes.Spot schema.fields {} ([] ++ e.1) none := by
    intro e he
    have hp := mem_map_of_mem (f := (·.1)) he
    refine ⟨⟨(hw.paths.1 _ hp).1, fun _ _ => rfl, ?_⟩, fun hd _ => ?_⟩
    · exact Scopes.innermost?_eq_none (by rintro _ _ ⟨⟩)
    · obtain ⟨rfl, hp'⟩ | ⟨_, _, hr, -⟩ := hd
      · exact Scopes.not_isAbove_declared hw hp hp'
      · cases hr
  have hlaid := (Scopes.graftable_laid .loaded).attachFields hw (get?_nil _) hempty hspot
  rw [← foldl_attachField, ← hd, ← hs] at hlaid
  exact hd ▸ hlaid

theorem Laid.seedRequired (h : d.Laid schema es) : d.seedRequired.Laid schema es := by
  rw [Laid, scopes_seedRequired.1, scopes_seedRequired.2]
  exact h

theorem Laid.hold (h : d.Laid schema []) (hes : ∀ e ∈ es, e ∈ d.scopes.toList) : d.Laid schema es := by
  refine ⟨h.nested, h.each, h.between, h.present, fun e he => ?_⟩
  exact ⟨h.nested.sound.rooted.keyAt?_of_mem_toList (hes e he), e.2, Scopes.get?_of_mem_toList (hes e he), rfl⟩

theorem laid_of_load {projection : Option Projection} (hw : schema.Meets .wellFormed)
    (h : (load schema record projection effects).1 = .ok d) : d.Laid schema [] :=
  load_of_keeps h (keeps_loadEdit (J := Laid schema) (fun _ _ hd => hd)
    (fun _ _ _ _ hm hl _ hd => hd.filled hw hm hl.absent)
    (fun _ hd => hd.hold fun _ he => (mem_filter.mp he).1) (fun _ _ _ hd => hd)
    (fun _ _ _ _ _ _ he hm hl _ hd => hd.filledIn he hm hl.absent)
    (fun _ _ hd => ⟨hd.nested, hd.each, hd.between, hd.present, by simp⟩) fun _ hd => hd.seedRequired)
    fun _ _ => laid_attachLoaded hw rfl rfl

theorem mirrored_of_load {projection : Option Projection} (hw : schema.Meets .wellFormed)
    (h : (load schema record projection effects).1 = .ok d) : d.Mirrored := by
  have hloaded := load_loaded h
  have hlaid := laid_of_load hw h
  refine ⟨hloaded.sound, hloaded.schema ▸ hw, ⟨hlaid.nested, fun k scope hs => (hlaid.each k scope hs).2.1, ?_⟩, ?_⟩
  · -- Nothing is marked in what was loaded.
    intro r k scope hr hs hstored rel _
    have hnew := hstored r k scope (covers_refl r) hr hs
    exact iff_of_false ((hlaid.each k scope hs).2.2 hnew rel) (hloaded.unmodified _)
  · rw [hloaded.backup]
    simp

-- What scopes have marked

theorem stored_of_owners {key : ScopeKey} (h : d.scopes.Nested) (hkey : d.scopes.keyAt? r = some key)
    (hscope : d.scopes.get? key = some scope) (hnew : scope.isNew = false)
    (howners : ∀ k ∈ d.scopes.owners r, ∀ owner, d.scopes.get? k = some owner → owner.isNew = false) :
    d.scopes.Stored r := by
  intro a k owner hcov hk hs
  rcases eq_or_isAbove_of_covers hcov with rfl | habove
  · rw [hkey, Option.some_inj] at hk
    rw [← hk, hscope, Option.some_inj] at hs
    simp [← hs, hnew]
  · simp [howners k ((h.mem_owners_iff hk).mpr habove) owner hs]

-- Whatever was called since a document was made, a scope that is not new and has no new owner has marked
-- below its root what the document has marked there, as long as nothing was appended or removed where the
-- scope of an earlier document was left in the way. Setters of a new document ask for indexes within bounds.
theorem scopes_mirror_document {start : Document} (calls : List Call) (effects : Effects)
    (hw : schema.Meets .wellFormed)
    (hstart : (∃ record projection effects, (load schema record projection effects).1 = .ok start) ∨
      ∃ fields effects, Rounds (fun p _ => p.Bounded) {} maxRounds (given schema fields effects) ∧
        (create schema (.obj fields) effects).1 = .ok start)
    (hcalls : Call.Throughout Call.Unobstructed calls ⟨start, effects⟩) :
    let d := (Call.runAll calls ⟨start, effects⟩).doc
    ∀ root key scope, d.scopes.keyAt? root = some key → d.scopes.get? key = some scope → scope.isNew = false →
      (∀ k ∈ d.scopes.owners root, ∀ owner, d.scopes.get? k = some owner → owner.isNew = false) →
      ∀ rel, rel ≠ [] →
        (scope.tracker.isIn rel .modify = true ↔ d.tracker.isIn (root ++ rel) .modify = true) := by
  intro d root key scope hkey hscope hnew howners rel hrel
  have hmade : start.Mirrored := by
    rcases hstart with ⟨record, projection, effects, h⟩ | ⟨fields, effects, hr, h⟩
    · exact mirrored_of_load hw h
    · exact mirrored_of_create hw hr h
  have hmirrored : d.Mirrored := Mirrored.runAll hmade hcalls
  have hstored := stored_of_owners hmirrored.scopes.nested hkey hscope hnew howners
  rw [← Tracker.marks_iff_isIn, ← Tracker.marks_iff_isIn]
  exact hmirrored.scopes.reflects hkey hscope hstored rel hrel

-- Lines of an order, each with the maker of what is ordered.
def orders : Schema :=
  let maker : SubSchema := ⟨⟨{ id := false }, [([.key "name"], .plain .string)], []⟩, []⟩
  let line : SubSchema := ⟨⟨{ id := false },
    [([.key "sku"], .plain .string), ([.key "maker"], .ofSub maker)], []⟩, []⟩
  ⟨{ id := false }, [([.key "lines"], .plain (.documentArray line))], []⟩

def orderLine (sku maker : String) : Value :=
  .obj [("maker", .obj [("name", .str maker)]), ("sku", .str sku)]

-- A maker is renamed, and the line moves up. And a line is added to a new order, which is stored, and then the line is
-- changed.
theorem scopes_mirror_document_orders : (∃ start key scope,
    (load orders (.obj [("lines", .arr [orderLine "a" "m", orderLine "b" "n"])]) none).1 = .ok start ∧
    let d := (Call.runAll [.set [.key "lines", .index 1, .key "maker", .key "name"] (.str "x") {},
      .pull [.key "lines"] (orderLine "a" "m")] ⟨start, {}⟩).doc
    d.get? [.key "lines"] = some (.arr [orderLine "b" "x"]) ∧
    d.scopes.keyAt? [.key "lines", .index 0, .key "maker"] = some key ∧ d.scopes.get? key = some scope ∧
    scope.tracker.isIn [.key "name"] .modify = true ∧
    d.tracker.isIn [.key "lines", .index 0, .key "maker", .key "name"] .modify = true) ∧
    ∃ start key scope, (create orders (.obj []) {}).1 = .ok start ∧
    let d := (Call.runAll [.push [.key "lines"] [.obj []], .commit,
      .set [.key "lines", .index 0, .key "sku"] (.str "c") {}] ⟨start, {}⟩).doc
    d.scopes.keyAt? [.key "lines", .index 0] = some key ∧ d.scopes.get? key = some scope ∧
    scope.tracker.isIn [.key "sku"] .modify = true ∧
      d.tracker.isIn [.key "lines", .index 0, .key "sku"] .modify = true := by
  have hformed : orders.Meets .wellFormed := by decide +kernel
  constructor
  · have hload : (load orders (.obj [("lines", .arr [orderLine "a" "m", orderLine "b" "n"])]) none).1 = .ok _ := rfl
    have hmirror := scopes_mirror_document [.set [.key "lines", .index 1, .key "maker", .key "name"] (.str "x") {},
        .pull [.key "lines"] (orderLine "a" "m")] {} hformed (.inl ⟨_, _, _, hload⟩) ⟨trivial, rfl, trivial⟩
      [.key "lines", .index 0, .key "maker"] _ _ rfl rfl rfl (by decide +kernel) [.key "name"] (by simp)
    refine ⟨_, _, _, hload, by decide +kernel, rfl, rfl, hmirror.mpr ?_, ?_⟩
    all_goals decide +kernel
  · have hcreate : (create orders (.obj []) {}).1 = .ok _ := rfl
    have hmirror := scopes_mirror_document [.push [.key "lines"] [.obj []], .commit,
        .set [.key "lines", .index 0, .key "sku"] (.str "c") {}] {} hformed
      (.inr ⟨[], {}, rounds_of_quiet rfl, hcreate⟩)
      ⟨fun _ _ _ _ _ _ => ⟨rfl, fun _ _ _ _ => rfl⟩, trivial, trivial, trivial⟩
      [.key "lines", .index 0] _ _ rfl rfl rfl (by decide +kernel) [.key "sku"] (by simp)
    refine ⟨_, _, _, hcreate, rfl, rfl, hmirror.mpr ?_, ?_⟩
    all_goals decide +kernel

-- The scope at a root and all around it are stored, and it and the document differ in whether a path is marked.
def Differs (d : Document) (root rel : Path) : Prop :=
  ∃ key scope, d.scopes.keyAt? root = some key ∧ d.scopes.get? key = some scope ∧ scope.isNew = false ∧
    (∀ k ∈ d.scopes.owners root, ∀ owner, d.scopes.get? k = some owner → owner.isNew = false) ∧
    scope.tracker.isIn rel .modify ≠ d.tracker.isIn (root ++ rel) .modify

def idless (fields : List (Path × Field)) : Schema :=
  ⟨{ id := false }, fields, []⟩

-- An embedded document whose content is a document in one variant and a list of maps in the other.
def shifting : Schema :=
  let base : SubSchema := ⟨⟨{ id := false, strict := .keep }, [], []⟩, []⟩
  let document := Field.ofSub ⟨idless [([.key "y"], .plain .string)], []⟩
  let maps := Field.plain (.array (.plain (.map ⟨.string, { validators := [.oneOf [.str "ok"]] }⟩)))
  ⟨{ id := false, strict := .keep }, [([.key "x"], .ofSub
    ((base.addVariant "A" (idless [([.key "c"], document)])).addVariant "B" (idless [([.key "c"], maps)])))], []⟩

def noted (y : String) : Value :=
  .obj [("y", .str y)]

-- Rows that hold a document each in one variant, and can be anything in the other.
def renewed : Schema :=
  let row : SubSchema := ⟨idless [([.key "x"], .ofSub ⟨idless [], []⟩)], []⟩
  let variants := ((⟨idless [], []⟩ : SubSchema).addVariant "A"
    (idless [([.key "rows"], .plain (.documentArray row))])).addVariant "B" (idless [([.key "rows"], .plain .mixed)])
  idless [([.key "e"], .ofSub variants)]

-- A variant declares a document inside of a document that its base declares.
def overlaid : Schema :=
  let rows := Field.plain (.documentArray ⟨idless [([.key "y"], .plain .string)], []⟩)
  let base : SubSchema := ⟨idless [([.key "x"], .ofSub ⟨idless [([.key "z", .key "rows"], rows)], []⟩)], []⟩
  idless [([.key "e"], .ofSub
    (base.addVariant "A" (idless [([.key "x", .key "z"], .ofSub ⟨idless [], []⟩)])))]

-- The content is overwritten while the base declares none, and becomes a list. Its scope is still there when the list
-- is shortened, and keeps what was marked where the list has moved; and no scope marks its own root. A row is put where
-- another one was overwritten, and the scope inside of the old one takes the marks that are for the new one. And of two
-- declared documents one inside of the other, the outer one is not told when an item inside of both is removed.
theorem scope_left_unmirrored :
    (shifting.Meets .wellFormed ∧ ∃ start,
      (load shifting (.obj [("x", .obj [("c", noted "ok"), ("kind", .str "A")])]) none).1 = .ok start ∧
      let d := (Call.runAll [.set [.key "x", .key "kind"] .null {},
        .set [.key "x", .key "c"] (.arr [noted "first", noted "ok", noted "bad"]) {},
        .set [.key "x", .key "kind"] (.str "B") {}, .mark [.key "x", .key "c", .index 1, .key "y"],
        .pull [.key "x", .key "c"] (noted "first"), .mark [.key "x", .key "c"]] ⟨start, {}⟩).doc
      d.Differs [.key "x", .key "c"] [.index 1, .key "y"] ∧ d.Differs [.key "x", .key "c"] []) ∧
    (renewed.Meets .wellFormed ∧ ∃ start,
      (load renewed (.obj [("e", .obj [("kind", .str "A"), ("rows", .arr [.obj [("x", .obj [])]])])]) none).1 =
        .ok start ∧
      let d := (Call.runAll [.set [.key "e", .key "kind"] (.str "B") {}, .set [.key "e", .key "rows"] (.arr []) {},
        .set [.key "e", .key "kind"] (.str "A") {}, .push [.key "e", .key "rows"] [.obj []], .commit,
        .mark [.key "e", .key "rows", .index 0, .key "x", .key "y"]] ⟨start, {}⟩).doc
      d.Differs [.key "e", .key "rows", .index 0] [.key "x", .key "y"]) ∧
    ¬ overlaid.Meets .wellFormed ∧ ∃ start,
      (load overlaid (.obj [("e", .obj [("kind", .str "A"), ("x", .obj [("z", .obj [("rows", .arr [noted "a"])])])])])
        none).1 = .ok start ∧
      let rows : Path := [.key "e", .key "x", .key "z", .key "rows"]
      let calls := [.set (rows ++ [.index 0, .key "y"]) (.str "b") {}, .pull rows (noted "b")]
      Call.Throughout Call.Unobstructed calls ⟨start, {}⟩ ∧
      (Call.runAll calls ⟨start, {}⟩).doc.Differs [.key "e", .key "x"] [.key "z", .key "rows", .index 0, .key "y"] := by
  refine ⟨⟨by decide +kernel, _, rfl, ⟨_, _, rfl, rfl, rfl, ?_, ?_⟩, _, _, rfl, rfl, rfl, ?_, ?_⟩,
    ⟨by decide +kernel, _, rfl, _, _, rfl, rfl, rfl, ?_, ?_⟩,
    by decide +kernel, _, rfl, ⟨trivial, rfl, trivial⟩, _, _, rfl, rfl, rfl, ?_, ?_⟩
  all_goals decide +kernel

end Document

end Dossier

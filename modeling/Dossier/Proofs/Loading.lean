import Dossier.Proofs.Embedding
import Dossier.Proofs.Placement

-- A record that is loaded keeps all that it has, and the defaults of fields that were selected come in addition.

namespace Dossier

open Path Value

-- A field of a record: one of its schema, or of the schema of an embedded document in it.
def Schema.HasField (schema : Schema) (record : Value) (q : Path) (f : Field) : Prop :=
  (q, f) ∈ schema.fields ∨ ∃ r s w rel, schema.Embeds record r s w ∧ (rel, f) ∈ s.fields ∧ q = r ++ rel

-- A scope is new, or that of an embedded document of a record.
def Scope.StemsFrom (schema : Schema) (record : Value) (scope : Scope) : Prop :=
  scope.isNew ∨ ∃ w, schema.Embeds record scope.root scope.schema w

namespace Document

open Edit

variable {start d : Document} {root p q : Path} {f : Field}

-- A default was filled in at a path: there is a field of the record with a default, and it was selected.
def DefaultAt (start d : Document) (q : Path) : Prop :=
  (∃ f, start.schema.HasField start.value q f ∧ f.rules.hasDefault) ∧ start.isSelected q ∧
    d.stateOf? q = some .default

-- A document is a record and defaults that were filled in.
structure Completes (start d : Document) : Prop where
  schema     : d.schema = start.schema
  projection : d.projection = start.projection
  grows      : start.value.Grows d.value
  -- What is new is at or below a default, or an object around one.
  added      : ∀ p, d.value.Has p → ¬ start.value.Has p → ∃ q, DefaultAt start d q ∧
    (q.covers p ∨ p.isAbove q ∧ ∃ fs, d.get? p = some (.obj fs))
  default    : ∀ q, d.stateOf? q = some .default → DefaultAt start d q ∧ d.value.Has q
  tidy       : d.scopes.Tidy
  scopes     : d.scopes.All (Scope.StemsFrom start.schema start.value)

theorem Lacks.room (h : d.Lacks root rel f) (hk : ∀ seg ∈ rel, seg.index? = none) (hroot : d.value.Has root)
    (hobj : ∃ fs, d.get? root = some (.obj fs)) : d.value.Room (root ++ rel) := by
  obtain ⟨fs, hfs⟩ := hobj
  obtain ⟨value, hvalue, hb⟩ := h.within
  rw [hfs] at hvalue
  cases hvalue
  have hnone := h.absent
  rw [Document.get?, get?_append, ← Document.get?, hfs] at hnone
  exact Value.Room.append hroot hfs (room_of_keys hk hnone hb)

theorem Completes.fill (h : Completes start d) (hf : start.schema.HasField start.value (root ++ rel) f)
    (hk : ∀ seg ∈ rel, seg.index? = none) (hroot : d.value.Has root) (hobj : ∃ fs, d.get? root = some (.obj fs))
    (hl : d.Lacks root rel f) {scopes : Scopes} (ht : scopes.Tidy)
    (hs : scopes.All (Scope.StemsFrom start.schema start.value)) : Completes start { d with
      value := (d.value.set (root ++ rel) v).2
      tracker := d.tracker.transition (root ++ rel) .default
      scopes } := by
  have hroom := hl.room hk hroot hobj
  have hgrows : d.value.Grows (d.value.set (root ++ rel) v).2 := hroom.grows
  have hselected : start.isSelected (root ++ rel) := by
    rw [isSelected, ← h.projection]
    exact hl.selected
  -- Whatever was a default still is.
  have hkept : ∀ {q}, DefaultAt start d q → DefaultAt start { d with
      value := (d.value.set (root ++ rel) v).2
      tracker := d.tracker.transition (root ++ rel) .default
      scopes } q := by
    rintro q ⟨hfield, hsel, hstate⟩
    refine ⟨hfield, hsel, ?_⟩
    rw [stateOf?, Tracker.stateOf?_transition]
    split
    · rfl
    · exact hstate
  have hnew : DefaultAt start { d with
      value := (d.value.set (root ++ rel) v).2
      tracker := d.tracker.transition (root ++ rel) .default
      scopes } (root ++ rel) :=
    ⟨⟨f, hf, hl.hasDefault⟩, hselected, by rw [stateOf?, Tracker.stateOf?_transition, if_pos rfl]⟩
  refine ⟨h.schema, h.projection, h.grows.trans hgrows, fun p hp hn => ?_, fun q hq => ?_, ht, hs⟩
  · by_cases hold : d.value.Has p
    · obtain ⟨q, hq, hcases⟩ := h.added p hold hn
      obtain hcovers | ⟨ha, fs, hfs⟩ := hcases
      · exact ⟨q, hkept hq, .inl hcovers⟩
      · obtain ⟨y, hy, hkin⟩ := hgrows p _ hfs
        cases hkin with
        | same => exact ⟨q, hkept hq, .inr ⟨ha, fs, hy⟩⟩
        | obj => exact ⟨q, hkept hq, .inr ⟨ha, _, hy⟩⟩
    · exact ⟨_, hnew, hroom.has_setFrom hp hold⟩
  · rw [stateOf?, Tracker.stateOf?_transition] at hq
    split at hq
    · case isTrue he => exact he ▸ ⟨hnew, hroom.has_self⟩
    · exact ⟨hkept (h.default q hq).1, hgrows.has (h.default q hq).2⟩

theorem stemsFrom_attachField {schema : Schema} {record : Value} {s : Scopes} (ht : s.Tidy)
    (hs : s.All (Scope.StemsFrom schema record)) {x : Option Value} :
    (s.attachField f p x o .created).Tidy ∧ (s.attachField f p x o .created).All (Scope.StemsFrom schema record) := by
  have hadds : Scopes.Adds (·.isNew) s (s.attachField f p x o .created) :=
    (Scopes.attachField_gains (P := fun scope => scope.isNew = true) (fun _ => rfl) ht).adds
  exact ⟨hadds.tidy ht, hadds.all ht hs fun _ hn => .inl hn⟩

section

variable (h : Completes start d)

include h

theorem Completes.objectAt (hr : start.value.Has root) (hobj : ∃ fs, start.value.get? root = some (.obj fs)) :
    d.value.Has root ∧ ∃ fs, d.get? root = some (.obj fs) := by
  obtain ⟨fs, hfs⟩ := hobj
  obtain ⟨y, hy, hkin⟩ := h.grows root _ hfs
  refine ⟨h.grows.has hr, ?_⟩
  cases hkin with
  | same => exact ⟨fs, hy⟩
  | obj => exact ⟨_, hy⟩

theorem Completes.filled (hs : start.schema.Meets .keyed) (hobj : ∃ fs, start.value = .obj fs)
    (hf : (p, f) ∈ start.schema.fields) (hl : d.Lacks [] p f) :
    Completes start (Document.filled { d with value := (d.value.set p v).2 } p f) := by
  obtain ⟨fs, hfs⟩ := hobj
  have hget : start.value.get? [] = some (.obj fs) := by rw [get?_nil, hfs]
  obtain ⟨hroot, hobj⟩ := h.objectAt .here ⟨fs, hget⟩
  obtain ⟨ht, hscopes⟩ := stemsFrom_attachField h.tidy h.scopes
  have hfield : start.schema.HasField start.value ([] ++ p) f := .inl hf
  exact h.fill hfield (hs.keyed hf).2 hroot hobj hl ht hscopes

theorem Completes.filledIn (hs : start.schema.Meets .keyed) {schema : Schema} {w : Value} {key : ScopeKey}
    (hroot : start.schema.Embeds start.value root schema w) (hf : (rel, f) ∈ schema.fields) (hl : d.Lacks root rel f) :
    Completes start (Document.filledIn { d with value := (d.value.set (root ++ rel) v).2 } key rel (root ++ rel) f) := by
  obtain ⟨hhas, hget, fs, rfl⟩ := hroot.objectAt hs
  obtain ⟨hhas, hobj⟩ := h.objectAt hhas ⟨fs, hget⟩
  have hstatic : Scopes.Static (Scope.StemsFrom start.schema start.value) := fun _ _ hscope => hscope
  obtain ⟨ht, hscopes⟩ := stemsFrom_attachField h.tidy.modify (h.scopes.modify hstatic)
  exact h.fill (.inr ⟨root, schema, _, rel, hroot, hf, rfl⟩) ((hroot.meets hs).keyed hf).2 hhas hobj hl ht hscopes

theorem Completes.reported {issues : Option Issues} : Completes start { d with issues } :=
  ⟨h.schema, h.projection, h.grows, h.added, h.default, h.tidy, h.scopes⟩

theorem Completes.seedRequired : Completes start d.seedRequired := by
  refine seedRequired_rec h fun {d r} hnone h => ?_
  have hstate : ∀ q, ({ d with tracker := d.tracker.transition r .require } : Document).stateOf? q = some .default ↔
      d.stateOf? q = some .default := by
    intro q
    rw [stateOf?, Tracker.stateOf?_transition]
    split
    · case isTrue he =>
      have : d.stateOf? q = none := he ▸ hnone
      simp [this]
    · rfl
  refine ⟨h.schema, h.projection, h.grows, fun p hp hn => ?_, fun q hq => ?_, h.tidy, h.scopes⟩
  · obtain ⟨q, ⟨hf, hsel, hq⟩, hcases⟩ := h.added p hp hn
    exact ⟨q, ⟨hf, hsel, (hstate q).mpr hq⟩, hcases⟩
  · obtain ⟨⟨hf, hsel, hdefault⟩, hhas⟩ := h.default q ((hstate q).mp hq)
    exact ⟨⟨hf, hsel, (hstate q).mpr hdefault⟩, hhas⟩

-- Loading

theorem Completes.embeds {e : ScopeKey × Scope} (he : e ∈ d.scopes.toList.filter fun e => ¬ e.2.isNew) :
    ∃ w, start.schema.Embeds start.value e.2.root e.2.schema w := by
  obtain ⟨hmem, hnew⟩ := List.mem_filter.mp he
  exact (h.scopes _ _ (Scopes.get?_of_mem_toList hmem)).resolve_left (by simpa using hnew)

end

theorem keeps_loadEdit_completes (hs : start.schema.Meets .keyed) (hobj : ∃ fs, start.value = .obj fs) :
    Keeps (Completes start) (loadEdit start.schema) := by
  refine keeps_loadEdit (J := fun es d => Completes start d ∧
      ∀ e ∈ es, ∃ w, start.schema.Embeds start.value e.2.root e.2.schema w)
    (fun _ _ hd => hd.reported) (fun _ _ _ _ hf hl _ hd => hd.filled hs hobj hf hl)
    (fun _ hd => ⟨hd, fun _ => hd.embeds⟩) (fun _ _ _ hd => ⟨hd.1.reported, hd.2⟩)
    (fun _ e _ _ _ _ he hf hl _ hd => ⟨?_, hd.2⟩) (fun _ _ hd => hd.1) fun _ hd => hd.seedRequired
  obtain ⟨w, hw⟩ := hd.2 e he
  exact hd.1.filledIn hs hw hf hl

theorem attachLoaded_gains {P : Scope → Prop} (hscopes : start.scopes = {})
    (hP : ∀ {r schema w parent}, start.schema.Embeds start.value r schema w → P (.made .loaded parent r schema w)) :
    Scopes.Gains P (fun r => ∃ schema w, start.schema.Embeds start.value r schema w) {}
      start.trackLoaded.attachLoaded.scopes := by
  have hempty : Scopes.Tidy {} := (Scopes.sound_empty : Scopes.Sound false {}).tidy
  have hattached : start.trackLoaded.attachLoaded.scopes =
      Schema.attachFields none .loaded [] start.value {} start.schema.fields := by
    rw [← foldl_attachField, ← hscopes]
    rfl
  rw [hattached]
  refine Scopes.Gains.mono (Schema.attachFields_gains (R := fun e r => ∃ t w,
    e.2.type.Embeds ([] ++ e.1) (start.value.get? e.1) r t w) (fun e he s ht => ?_) hempty) fun r => ?_
  · rw [Field.attach_eq]
    exact e.2.type.attach_gains (fun h => hP ⟨e.1, e.2, he, h⟩) ht
  · rintro ⟨t, w, p, f, hf, he⟩
    exact ⟨(p, f), hf, t, w, he⟩

theorem completes_attachLoaded (ht : start.tracker = .empty) (hscopes : start.scopes = {}) :
    Completes start start.trackLoaded.attachLoaded := by
  have hstates := (trackLoaded_tracker (d := start) (by simp : PathState.default ≠ .init)
    (ht ▸ Tracker.consistent_empty) (by simp [stateOf?, ht])).2
  have hempty : Scopes.Tidy {} := (Scopes.sound_empty : Scopes.Sound false {}).tidy
  have hgains := attachLoaded_gains (P := Scope.StemsFrom start.schema start.value) hscopes fun h => .inr ⟨_, h⟩
  exact {
    schema := rfl
    projection := rfl
    grows := .refl _
    added := fun p hp hn => absurd hp hn
    default := fun q hq => absurd hq (hstates q)
    tidy := hgains.adds.tidy hempty
    scopes := hgains.adds.all hempty (by rintro _ _ ⟨⟩) fun _ h => h }

theorem load_completes {schema : Schema} {record : Value} {projection : Option Projection} (hs : schema.Meets .keyed)
    (h : (load schema record projection effects).1 = .ok d) :
    Completes { schema, value := record, isNew := false, projection } d := by
  obtain ⟨fields, -, hrecord, -⟩ := ok_of_load h
  let start : Document := { schema, value := record, isNew := false, projection }
  have hkeeps : Keeps (Completes start) (loadEdit schema) := keeps_loadEdit_completes hs ⟨fields, hrecord⟩
  exact load_of_keeps h hkeeps fun _ _ => completes_attachLoaded rfl rfl

-- Storing what was added

theorem Loaded.isDirty {schema : Schema} (h : d.Loaded schema) : d.isDirty = false := by
  rw [Document.isDirty, Bool.eq_false_iff]
  intro hany
  obtain ⟨p, hp⟩ := (Tracker.Consistent.anyIn_iff h.sound.tracker).mp hany
  exact h.unmodified p hp

theorem Loaded.changeAt {schema : Schema} (h : d.Loaded schema) (hv : d.get? p = some v) :
    (d.changeAt dirty p).op = .set v := by
  have hnone : d.incremental? dirty p = none := by
    rw [incremental?, h.arrayOps]
    rfl
  have hsame : d.depopulated p v = v := by
    rw [depopulated, h.populated]
    rfl
  rw [Document.changeAt]
  simp only [hnone, hv, hsame]

theorem mem_dirtyPaths_of_default {schema : Schema} (h : d.Loaded schema)
    (hnull : ∀ q, d.stateOf? q = some .default → d.get? q ≠ some .null) (hc : Completes start d) :
    p ∈ d.dirtyPaths ↔ d.stateOf? p = some .default := by
  rw [mem_dirtyPaths h.sound.tracker]
  constructor
  · rintro (hm | ⟨hd, -⟩)
    · exact absurd hm (h.unmodified p)
    · exact hd
  · intro hd
    refine .inr ⟨hd, fun hn => ?_⟩
    obtain ⟨x, hx⟩ := Option.isSome_iff_exists.mp (hc.default p hd).2.isSome
    have hnot := hnull p hd
    rw [Document.get?, hx] at hn hnot
    cases x with
    | null => exact hnot rfl
    | bool | num | str | arr | obj => cases hn

theorem Completes.applyAll (h : Completes start d) (hdirty : ∀ q, d.stateOf? q = some .default → q ∈ dirty)
    (hcs : ∀ c ∈ cs, c.path ∈ Path.uppermost dirty ∧ d.stateOf? c.path = some .default ∧
      ∃ y, d.get? c.path = some y ∧ c.op = .set y) (hr : start.value.Grows r) (hw : r.Grows d.value) :
    ∃ r', Changeset.applyAll cs r = .ok r' ∧ r.Grows r' ∧ r'.Grows d.value ∧
      (∀ c ∈ cs, ∀ p, c.path.covers p → d.value.Has p → r'.Has p) ∧
      (r.Canonical → d.value.Canonical → r'.Canonical) := by
  induction cs generalizing r with
  | nil => exact ⟨r, rfl, .refl r, hw, by simp, fun hr _ => hr⟩
  | cons c cs ih =>
    obtain ⟨⟨hup, hdefault, y, hy, hop⟩, hcs⟩ := List.forall_mem_cons.mp hcs
    have hhas := (h.default _ hdefault).2
    -- What the record lacks above the path is no default, so it is an object.
    have hobj : ∀ a : Path, a.isAbove c.path → ¬ r.Has a → ∃ gs, d.value.get? a = some (.obj gs) := by
      intro a ha hn
      obtain ⟨q, hq, hcov | ⟨-, hgs⟩⟩ := h.added a (hhas.of_covers (covers_of_isAbove ha)) fun ha => hn (hr.has ha)
      · exact absurd (isAbove_of_covers_isAbove hcov ha) ((mem_uppermost.mp hup).2 q (hdirty q hq.2.2))
      · exact hgs
    obtain ⟨hok, hself, hgrows, hwithin⟩ : (r.set c.path y).1 = .ok () ∧ (r.set c.path y).2.Has c.path ∧
        r.Grows (r.set c.path y).2 ∧ (r.set c.path y).2.Grows d.value := hw.setFrom hhas hy hobj
    obtain ⟨r', hr', hgrows', hw', hbelow, hcanon⟩ := ih hcs (hr.trans hgrows) hwithin
    refine ⟨r', ?_, hgrows.trans hgrows', hw', List.forall_mem_cons.mpr ⟨fun p hp hpos => hgrows'.has ?_, hbelow⟩,
      fun hr hd => hcanon (hereditary_canonical.setFrom hr (hereditary_canonical.get? hd hy)) hd⟩
    · rw [Changeset.applyAll, Change.apply, hop]
      dsimp only
      rw [← Prod.eta (r.set c.path y), hok]
      exact hr'
    · -- The value at the path is that of the document, with all that is below it.
      obtain ⟨t, rfl⟩ := covers_iff.mp hp
      obtain ⟨-, x, hx, hxt⟩ := has_append.mp hpos
      rw [Document.get?, hx] at hy
      cases hy
      exact has_append.mpr ⟨hself, y, get?_setFrom_self hok, hxt⟩

theorem Completes.has_of_uppermost (h : Completes start d) (hdirty : ∀ q, d.stateOf? q = some .default → q ∈ dirty)
    (hr : start.value.Grows r) (hbelow : ∀ c ∈ Path.uppermost dirty, ∀ p, c.covers p → d.value.Has p → r.Has p)
    (hp : d.value.Has p) : r.Has p := by
  by_cases hold : start.value.Has p
  · exact hr.has hold
  obtain ⟨q, hq, hcases⟩ := h.added p hp hold
  obtain ⟨c, hc, hcq⟩ := exists_uppermost (hdirty q hq.2.2)
  rcases hcases with hqp | ⟨hpq, -⟩
  · exact hbelow c hc p (covers_trans hcq hqp) hp
  · rcases covers_total hcq (covers_of_isAbove hpq) with hcp | hpc
    · exact hbelow c hc p hcp hp
    · have hpos := (h.default q hq.2.2).2.of_covers hcq
      exact (hbelow c hc c (covers_refl c) hpos).of_covers hpc

-- Loading keeps what is in a record and adds only defaults of fields that were selected. Storing them makes the
-- record the same as the document.
theorem load_adds_defaults {schema : Schema} (hschema : schema.Meets .keyed) (record : Value)
    (projection : Option Projection) (effects : Effects) (h : (load schema record projection effects).1 = .ok d) :
    record.Grows d.value ∧ d.isDirty = false ∧
    (∀ p, d.value.Has p → ¬ record.Has p → ∃ q f, schema.HasField record q f ∧ f.rules.hasDefault ∧
      Projection.selectsOpt projection q ∧ d.stateOf? q = some .default ∧
      (q.covers p ∨ p.isAbove q ∧ ∃ fs, d.get? p = some (.obj fs))) ∧
    ((∀ q, d.stateOf? q = some .default → d.get? q ≠ some .null) →
      ∃ stored, d.changeset.apply record = .ok stored ∧ stored.Grows d.value ∧ d.value.Grows stored ∧
        (record.Canonical → d.value.Canonical → stored = d.value)) := by
  have hc := load_completes hschema h
  have hl := load_loaded h
  refine ⟨hc.grows, hl.isDirty, fun p hp hn => ?_, fun hnull => ?_⟩
  · obtain ⟨q, ⟨⟨f, hf, hdefault⟩, hsel, hstate⟩, hcases⟩ := hc.added p hp hn
    exact ⟨q, f, hf, hdefault, hsel, hstate, hcases⟩
  · have hdirty : ∀ {p}, p ∈ d.dirtyPaths ↔ d.stateOf? p = some .default := mem_dirtyPaths_of_default hl hnull hc
    have hchanges : ∀ c ∈ d.changeset.changes, c.path ∈ Path.uppermost d.dirtyPaths ∧
        d.stateOf? c.path = some .default ∧ ∃ y, d.get? c.path = some y ∧ c.op = .set y := by
      intro c hmem
      obtain ⟨he, hp, hup⟩ := mem_changeset.mp hmem
      obtain ⟨y, hy⟩ := Option.isSome_iff_exists.mp (hc.default _ (hdirty.mp hp)).2.isSome
      exact ⟨Path.mem_uppermost.mpr ⟨hp, hup⟩, hdirty.mp hp, y, hy, he ▸ hl.changeAt hy⟩
    obtain ⟨stored, happly, hgrows, hwithin, hbelow, hcanon⟩ :=
      hc.applyAll (fun q => hdirty.mpr) hchanges (.refl _) hc.grows
    have hback : d.value.Grows stored := hwithin.symm fun p =>
      hc.has_of_uppermost (fun q => hdirty.mpr) hgrows fun c hup => by
        rw [← changeset_paths] at hup
        obtain ⟨change, hmem, rfl⟩ := List.mem_map.mp hup
        exact hbelow change hmem
    exact ⟨stored, happly, hwithin, hback, fun hr hd => hwithin.antisymm hback (hcanon hr hd) hd⟩

-- An account whose settings are an embedded document, read without its note.
def settings : Schema :=
  ⟨{ id := false }, [([.key "theme"], ⟨.string, { default := some (.literal (.str "dark")) }⟩),
    ([.key "mail", .key "weekly"], ⟨.boolean, { default := some (.literal (.bool true)) }⟩)], []⟩

def accounts : Schema :=
  ⟨{ id := false }, [([.key "settings"], .ofSub ⟨settings, []⟩),
    ([.key "visits", .key "count"], ⟨.number, { default := some (.literal (.int 0)) }⟩),
    ([.key "note"], ⟨.string, { default := some (.literal (.str "none")) }⟩)], []⟩

def account : Value :=
  .obj [("name", .str "ann"), ("settings", .obj [("theme", .str "light")])]

def withoutNote : Option Projection :=
  some (.excluding (OrdSet.ofKeys [[.key "note"]]))

-- The settings and the count are completed, the note is not.
theorem load_adds_defaults_account : accounts.Meets .keyed ∧
    ∃ d, (load accounts account withoutNote {}).1 = .ok d ∧ d.get? [.key "settings", .key "theme"] = some (.str "light") ∧
      d.get? [.key "settings", .key "mail", .key "weekly"] = some (.bool true) ∧ d.get? [.key "note"] = none ∧
      d.isDirty = false ∧ d.changeset.apply account = .ok d.value := by
  have hkeyed : accounts.Meets .keyed := by
    unfold Schema.Meets
    decide +kernel
  have hload : (load accounts account withoutNote {}).1 = .ok _ := rfl
  obtain ⟨-, hclean, -, hstore⟩ := load_adds_defaults hkeyed account withoutNote {} hload
  obtain ⟨stored, happly, -, -, heq⟩ := hstore fun q hq => by
    have hmem := ((load_loaded hload).sound.tracker q .default).mpr hq
    clear hq
    revert q
    decide +kernel
  refine ⟨hkeyed, _, hload, by decide +kernel, by decide +kernel, by decide +kernel, hclean, ?_⟩
  rw [happly, heq]
  all_goals exact Value.Exact.canonical (by decide +kernel)

end Document
end Dossier

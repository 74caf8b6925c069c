import Dossier.Proofs.Completion
import Dossier.Proofs.Refusal

-- A new document has all that a document loaded from the same object has.

namespace Dossier

open Path Entries List

-- Growing by positions

namespace Value

variable {v x y : Value} {p q : Path}

theorem Room.keys_below (h : v.Room (p ++ r)) (hp : ¬ v.Has p) : ∀ seg ∈ r, seg.index? = none := by
  induction p generalizing v with
  | nil => exact absurd .here hp
  | cons seg p ih =>
    obtain ⟨hf, ⟨-, hkeys⟩ | ⟨c, hc, h⟩⟩ := room_cons.mp h
    · exact fun seg hseg => hkeys seg (mem_append_right _ hseg)
    · exact ih h fun hp' => hp (has_cons.mpr ⟨hf, c, hc, hp'⟩)

theorem object_of_key {t : Path} (h : (v.get? (.key k :: t)).isSome) : ∃ fs, v = .obj fs := by
  cases v with
  | obj fs => exact ⟨fs, rfl⟩
  | null | bool | num | str | arr => cases h

end Value

-- The fields of a record

-- A field of the schema of a record, or of a document embedded in it.
def Site.Belongs (schema : Schema) (raw : Value) (e : Site) : Prop :=
  e.root = [] ∧ (e.rel, e.field) ∈ schema.fields ∨
    ∃ s, schema.DocumentAt raw e.root s ∧ (e.rel, e.field) ∈ s.fields

namespace Site.Belongs

open Value

variable {schema : Schema} {raw x : Value} {e e' : Site} {q b : Path} {f : Field}

theorem hasField (h : e.Belongs schema raw) : schema.HasField raw e.path e.field := by
  rcases h with ⟨hroot, hf⟩ | ⟨s, ⟨w, he⟩, hf⟩
  · rw [path, hroot]
    exact .inl hf
  · exact .inr ⟨_, s, w, _, he, hf, rfl⟩

theorem of_hasField (h : schema.HasField raw q f) : ∃ e : Site, e.Belongs schema raw ∧ e.path = q ∧ e.field = f := by
  rcases h with hf | ⟨r, s, w, rel, he, hf, rfl⟩
  · exact ⟨⟨[], q, f⟩, .inl ⟨rfl, hf⟩, rfl, rfl⟩
  · exact ⟨⟨r, rel, f⟩, .inr ⟨s, ⟨w, he⟩, hf⟩, rfl, rfl⟩

variable (h : e.Belongs schema raw)

include h

theorem stands (hw : schema.Meets .wellFormed) (hobj : ∃ fs, raw = .obj fs) : e.Stands raw := by
  obtain ⟨fs, rfl⟩ := hobj
  rcases h with ⟨hroot, hf⟩ | ⟨s, ⟨w, he⟩, hf⟩
  · refine ⟨?_, ⟨fs, ?_⟩, (hw.declared hf).2.2⟩
    all_goals rw [hroot]
    · exact .here
    · exact get?_nil _
  · obtain ⟨hhas, hget, gs, rfl⟩ := he.objectAt hw.keyed_of_wellFormed
    exact ⟨hhas, ⟨gs, hget⟩, ((he.meets hw).declared hf).2.2⟩

theorem resolve_between (hw : schema.Meets .wellFormed) (hb : b ≠ []) (ha : b.isAbove e.rel) :
    schema.resolve raw (e.root ++ b) = .nested := by
  rcases h with ⟨hroot, hf⟩ | ⟨s, hdoc, hf⟩
  · rw [hroot]
    exact Schema.resolve_of_isAbove hw.apart hf ha hb
  · obtain ⟨g, sub, fs, hg, ht, hv, rfl⟩ := Schema.documentAt_iff.mp hdoc
    exact hg.resolve_between hw ht hv hf hb ha

theorem covers_root (hw : schema.Meets .wellFormed) (hq : schema.Leads raw q f) (ha : q.isAbove e.path) :
    q.covers e.root := by
  rcases eq_or_isAbove_or (covers_of_isAbove ha) (covers_append e.root e.rel) with rfl | habove | hbelow
  · exact covers_refl _
  · exact covers_of_isAbove habove
  · obtain ⟨b, hb, rfl⟩ := isAbove_iff.mp hbelow
    have hn := h.resolve_between hw hb (append_isAbove_append.mp ha)
    rw [hq.resolve hw] at hn
    cases hn

theorem eq_of_covers (h' : e'.Belongs schema raw) (hw : schema.Meets .wellFormed) (hobj : ∃ fs, raw = .obj fs)
    (hroom : raw.Room e.path) (hc : e.path.covers e'.path) : e.path = e'.path := by
  refine (eq_or_isAbove_of_covers hc).resolve_right fun ha => ?_
  have hroot := h'.covers_root hw (Schema.leads_of_hasField h.hasField) ha
  exact hroom.not_has ((h'.stands hw hobj).has.of_covers hroot)

theorem not_covers_of_collection (hw : schema.Meets .wellFormed) (hq : schema.Leads raw q f)
    (ht : f.type.isCollection) : ¬ q.isAbove e.path := by
  intro ha
  have hroot := h.covers_root hw hq ha
  rcases h with ⟨hnil, -⟩ | ⟨s, hdoc, -⟩
  · rw [hnil] at hroot
    exact hq.ne_nil hw (covers_nil.mp hroot)
  · obtain ⟨g, sub, fs, hg, hsub, hv, -⟩ := Schema.documentAt_iff.mp hdoc
    rcases eq_or_isAbove_of_covers hroot with rfl | habove
    · obtain rfl := hq.unique hg hw
      rw [hsub] at ht
      cases ht
    · rcases hg.above hw (hq.ne_nil hw) habove with ⟨g', hg', -, hembeds⟩ | hn
      · obtain rfl := hq.unique hg' hw
        have hdocument : f.type.Embeds q (raw.get? q) e.root (sub.selectOrBase (some (.obj fs))) (.obj fs) :=
          hembeds _ _ _ (by rw [hv, hsub]; exact .here .embedded)
        cases hf : f.type with
        | array | map =>
          rw [hf] at hdocument
          rcases hdocument.cases with hh | ⟨_, _, _, hh, -⟩ <;> cases hh
        | string | number | boolean | date | id | mixed | embedded | documentArray => rw [hf] at ht; cases ht
      · rw [hq.resolve hw] at hn
        cases hn

end Site.Belongs

-- A record was filled up with the defaults of its fields.
structure Schema.Fills (schema : Schema) (raw loaded : Value) : Prop where
  grows  : raw.Grows loaded
  filled : ∀ q f y, schema.HasField raw q f → raw.Room q → f.initial? = some y → loaded.get? q = some y
  added  : ∀ p, loaded.Has p → ¬ raw.Has p → ∃ q f y, schema.HasField raw q f ∧ raw.Room q ∧ f.initial? = some y ∧
    (q.covers p ∨ p.isAbove q ∧ ∃ fs, loaded.get? p = some (.obj fs))
  kept   : ∀ q f, schema.HasField raw q f → f.type.isCollection → raw.Has q → loaded.get? q = raw.get? q

theorem Schema.fills_of_sites {sites : List Site} (hw : schema.Meets .wellFormed) (hobj : ∃ fs, raw = .obj fs)
    (hsites : ∀ e ∈ sites, e.Belongs schema raw)
    (hall : ∀ q f, schema.HasField raw q f → ∃ e ∈ sites, e.path = q ∧ e.field = f) :
    schema.Fills raw (raw.fillAll sites) := by
  have hspread : Site.Spread sites raw := by
    intro e he e' he' hroom hroom'
    have hb := hsites e he
    have hb' := hsites e' he'
    by_cases hp : e.path = e'.path
    · have hf := leads_of_hasField hb.hasField
      rw [hp] at hf
      exact .inl ⟨hp, hf.unique (leads_of_hasField hb'.hasField) hw⟩
    · exact .inr ⟨fun hc => hp (hb.eq_of_covers hb' hw hobj hroom hc),
        fun hc => hp (hb'.eq_of_covers hb hw hobj hroom' hc).symm⟩
  have hfilled := Site.filled_fillAll (fun e he => (hsites e he).stands hw hobj) hspread
  refine ⟨hfilled.grows, fun q f y hf hroom hy => ?_, fun p hp hn => ?_, fun q f hf ht hq => ?_⟩
  · obtain ⟨e, he, rfl, rfl⟩ := hall q f hf
    exact hfilled.filled e he y hroom hy
  · obtain ⟨e, he, y, hroom, hy, hcases⟩ := hfilled.added p hp hn
    exact ⟨e.path, e.field, y, (hsites e he).hasField, hroom, hy, hcases⟩
  · refine hfilled.kept q hq fun e he hroom hc => ?_
    rcases eq_or_isAbove_of_covers hc with rfl | ha
    · exact hroom.not_has hq
    · exact (hsites e he).not_covers_of_collection hw (leads_of_hasField hf) ht ha

-- The values of declared fields can be cast, and nothing of them is lost.
def Schema.Preserves (schema : Schema) (raw : Value) : Prop :=
  ∀ p f x, (p, f) ∈ schema.fields → raw.get? p = some x → ∃ y, f.cast? x = some y ∧ x.Grows y

-- Loading

namespace Document

open Edit

variable {schema : Schema} {p : Path} {f : Field}

def Scoped (start d : Document) : Prop :=
  ∀ r s, start.schema.DocumentAt start.value r s →
    d.scopes.At (fun scope => scope.isNew = false ∧ scope.schema = s) r

theorem scoped_attachLoaded (hw : start.schema.Meets .wellFormed) (hscopes : start.scopes = {}) :
    Scoped start start.trackLoaded.attachLoaded := by
  have hgains := attachLoaded_gains (P := fun scope => scope.isNew = false ∧
    start.schema.DocumentAt start.value scope.root scope.schema) hscopes fun h => ⟨rfl, _, h⟩
  intro r s hdoc
  obtain ⟨k, scope, hk, hscope, rfl, hnew, hdoc'⟩ := hgains.has r ⟨s, hdoc⟩
  exact ⟨k, scope, hk, hscope, rfl, hnew, hdoc'.unique hdoc hw⟩

-- The scopes that come with a default are below its path, where the record has nothing.
theorem Scoped.filled (h : Scoped start d) (hc : Completes start d) (hw : start.schema.Meets .wellFormed)
    (hf : (p, f) ∈ start.schema.fields) (hl : d.Lacks [] p f) :
    Scoped start (Document.filled { d with value := (d.value.set p v).2 } p f) := by
  intro r s hdoc
  have hadds : Scopes.Adds (fun scope => p.covers scope.root) d.scopes
      (d.scopes.attachField f p (Document.get? { d with value := (d.value.set p v).2 } p) none .created) :=
    (Scopes.attachField_gains (fun h => h.covers (hw.field hf).type) hc.tidy).adds
  refine (h r s hdoc).adds_ne hc.tidy hadds ?_
  rintro scope hcov rfl
  obtain ⟨w, he⟩ := hdoc
  have hhas := hc.grows.has (he.objectAt hw.keyed_of_wellFormed).1
  have hsome := (hhas.of_covers hcov).isSome
  have hnone : d.value.get? p = none := hl.absent
  rw [hnone] at hsome
  cases hsome

theorem Scoped.mem (h : Scoped start d) (hdoc : start.schema.DocumentAt start.value r s) :
    ∃ e ∈ d.scopes.toList.filter fun e => ¬ e.2.isNew, e.2.root = r ∧ e.2.schema = s := by
  obtain ⟨k, scope, hk, hscope, hroot, hnew, hschema⟩ := h r s hdoc
  exact ⟨(k, scope), mem_filter.mpr ⟨Scopes.mem_toList hk hscope, by simp [hnew]⟩, hroot, hschema⟩

theorem keeps_fillDefaults_scoped (hw : start.schema.Meets .wellFormed) (hobj : ∃ fs, start.value = .obj fs) :
    Keeps (fun d => Completes start d ∧ Scoped start d) (fillDefaults start.schema.fields) :=
  keeps_fillDefaults (fun _ _ hd => ⟨hd.1.reported, hd.2⟩) fun _ _ _ _ hf hl _ hd =>
    ⟨hd.1.filled hw.keyed_of_wellFormed hobj hf hl, hd.2.filled hd.1 hw hf hl⟩

theorem load_eq_fillAll (hw : schema.Meets .wellFormed) (hp : schema.Meets .passive)
    (h : (load schema raw none effects).1 = .ok d) : ∃ sites, d.value = raw.fillAll sites ∧
      (∀ e ∈ sites, e.Belongs schema raw) ∧ ∀ q f, schema.HasField raw q f → ∃ e ∈ sites, e.path = q ∧ e.field = f := by
  obtain ⟨fields, s, rfl, hok, rfl⟩ := ok_of_load h
  let start : Document := { schema, value := .obj fields, isNew := false, projection := none }
  rw [loadEdit] at hok
  obtain ⟨_, s₁, hfill, hok⟩ := ok_of_bind_ok hok
  obtain ⟨hcompletes, hscoped⟩ : Completes start s₁.doc ∧ Scoped start s₁.doc := by
    have hkeeps : Keeps (fun d => Completes start d ∧ Scoped start d) (fillDefaults schema.fields) :=
      keeps_fillDefaults_scoped hw ⟨fields, rfl⟩
    have := hkeeps ⟨start.trackLoaded.attachLoaded, effects⟩
      ⟨completes_attachLoaded rfl rfl, scoped_attachLoaded hw rfl⟩
    rwa [hfill] at this
  rw [outcome_bind, outcome_doc] at hok
  obtain ⟨_, s₂, hscopes, hok⟩ := ok_of_bind_ok hok
  obtain ⟨hvalue, hprojection⟩ := fillDefaults_ok (fun e he => hp.field (p := e.1) (f := e.2) he) rfl hfill
  have hembeds : ∀ e ∈ s₁.doc.scopes.toList.filter fun e => ¬ e.2.isNew,
      schema.DocumentAt (.obj fields) e.2.root e.2.schema := fun e he => hcompletes.embeds he
  have hvalue' := fillLoadedScopes_ok (fun e he => (hembeds e he).elim fun w hw => hw.meets hp) hprojection hscopes
  have hlast : s.doc.value = s₂.doc.value := by
    cases hok
    exact scopes_seedRequired.2
  refine ⟨_, by rw [hlast, hvalue', hvalue, ← Value.fillAll_append]; rfl, forall_mem_append.mpr ⟨?_, ?_⟩, ?_⟩
  · exact forall_mem_map.mpr fun e he => .inl ⟨rfl, he⟩
  · intro e he
    obtain ⟨a, ha, he⟩ := mem_flatMap.mp he
    obtain ⟨b, hb, rfl⟩ := mem_map.mp he
    exact .inr ⟨a.2.schema, hembeds a ha, hb⟩
  · rintro q f (hf | ⟨r, t, w, rel, he, hf, rfl⟩)
    · exact ⟨⟨[], q, f⟩, mem_append_left _ (mem_map_of_mem hf), rfl, rfl⟩
    · obtain ⟨a, ha, rfl, rfl⟩ := hscoped.mem ⟨w, he⟩
      exact ⟨⟨a.2.root, rel, f⟩, mem_append_right _ (mem_flatMap.mpr ⟨a, ha, mem_map_of_mem hf⟩), rfl, rfl⟩

theorem fills_of_load (hw : schema.Meets .wellFormed) (hp : schema.Meets .passive) (hraw : raw.Canonical)
    (h : (load schema raw none effects).1 = .ok d) : schema.Fills raw d.value ∧ d.value.Canonical := by
  obtain ⟨sites, hvalue, hsites, hall⟩ := load_eq_fillAll hw hp h
  obtain ⟨fields, -, hobj, -⟩ := ok_of_load h
  rw [hvalue]
  refine ⟨Schema.fills_of_sites hw ⟨fields, hobj⟩ hsites hall, Value.canonical_fillAll (fun e he => ?_) hraw⟩
  exact (Schema.leads_of_hasField (hsites e he).hasField).meets hp Field.passive_plain

-- Creating

theorem lasting_unprojected : Lasting (· ≠ []) fun d => d.projection = none :=
  .of_core (fun he => (congrArg Document.projection he).trans) (fun h => by rwa [openChanges_eq]) fun _ h => by rwa [write_eq]

theorem queue_given (hp : schema.Meets .noSetters) : (given schema fields effects).effects.queue = [] := by
  have hruns := guided_calm.course.setKeys (s := ⟨{ schema, value := .obj [], isNew := true }, { effects with queue := [] }⟩)
    fields (fun _ he => he) (.inl rfl) {} (guided_calm.course.refl (v := .obj fields))
    (fun _ => trivial) (fun _ => trivial) ⟨hp, by simp⟩
  exact eq_nil_iff_forall_not_mem.mpr hruns.2

theorem takes_given (hw : schema.Meets .wellFormed) (hp : schema.Meets .passive) (hraw : (Value.obj fields).Canonical)
    (hs : schema.Suits (.obj fields)) (hcast : schema.Preserves (.obj fields))
    (hok : (setKeys fields Path.root {}).outcome
      ⟨{ schema, value := .obj [], isNew := true }, { effects with queue := [] }⟩ = (.ok (), given schema fields effects)) :
    schema.Takes (.obj fields) (given schema fields effects).doc.value ∧
      (Value.obj fields).Grows (given schema fields effects).doc.value ∧
      (given schema fields effects).doc.value.Canonical := by
  have hat : ∀ e ∈ fields, Entries.get? e.1 fields = some e.2 := fun e he =>
    Entries.get?_of_mem (Value.hereditary_canonical.obj.mp hraw).1 he
  have hget : ∀ e ∈ fields, (Value.obj fields).get? (Path.root.key e.1) = some e.2 := fun e he => by
    rw [Path.root, Path.key, nil_append, Value.get?_field (hat e he), Value.get?_nil]
  have henters : Enters schema (.obj fields) fields Path.root { schema, value := .obj [], isNew := true } :=
    ⟨hraw, .inl rfl, fun e he => ⟨.field (hat e he) .here, hget e he⟩, housed_blank, fun _ _ => rfl⟩
  obtain ⟨ws, hws, hsets⟩ := setKeys_writes hw hp hs (fun e he x hx => by
    obtain ⟨y, hy, -⟩ := hcast e.1 e.2 x he hx
    rw [hy]
    rfl) fields Path.root {} rfl henters hok
  have htakes := Schema.takes_of_writes hw hws hraw hsets
  refine ⟨htakes, ?_, ?_⟩
  · have hgrows := hws.grows hsets hraw hget fun e he x y hx hy => by
      obtain ⟨y', hy', hxy⟩ := hcast e.1 e.2 x he hx
      rw [hy] at hy'
      cases hy'
      exact hxy
    obtain ⟨gs, hgs⟩ := htakes.object
    rw [hgs] at hgrows ⊢
    refine Value.grows_obj fun k x hx => ?_
    obtain ⟨y, hy, hxy⟩ := hgrows k x hx
    rw [Path.root, Path.key, nil_append, Value.get?_cons_of_openFields rfl] at hy
    obtain ⟨y', hy', ⟨⟩⟩ := Option.bind_eq_some_iff.mp hy
    exact ⟨_, hy', hxy⟩
  · have hempty : (Value.obj []).Canonical := Value.hereditary_canonical.obj.mpr ⟨.nil, by simp⟩
    have hcanonical := hws.canonical hp hraw
    refine hsets.rec_on_writes (I := Value.Canonical) hempty fun u u' q y hm hset hu => ?_
    rw [show u' = (u.set q y).2 by rw [hset]]
    exact Value.hereditary_canonical.setFrom hu (hcanonical _ hm)

theorem makes_of_create (hw : schema.Meets .wellFormed) (hp : schema.Meets .passive) (hraw : raw.Canonical)
    (hs : schema.Suits raw) (hcast : schema.Preserves raw) (h : (create schema raw effects).1 = .ok d) :
    schema.Makes raw d.value ∧ d.value.Canonical := by
  obtain ⟨fields, -, rfl, -⟩ := ok_of_create h
  obtain ⟨s, s', hkeys, hsettle, hfill, rfl⟩ := given_of_create h
  have hquiet : (given schema fields effects).effects.queue = [] := queue_given fun part hpart => (hp part hpart).1
  rw [outcome_settle hquiet] at hsettle
  cases hsettle
  obtain ⟨htakes, hgrows, hcanonical⟩ := takes_given hw hp hraw hs hcast hkeys
  have hprojection : (given schema fields effects).doc.projection = none := by
    have := (lasting_unprojected.heeds (by simp)).keeps_setKeys fields Path.root (by simp) {}
      ⟨{ schema, value := .obj [], isNew := true }, { effects with queue := [] }⟩ rfl
    rwa [hkeys] at this
  have hfields : ∀ e ∈ schema.fields, e.2.Meets .passive := fun e he => hp.field (p := e.1) he
  obtain ⟨hvalue, -⟩ := fillDefaults_ok hfields hprojection hfill
  rw [scopes_seedRequired.2, hvalue]
  exact ⟨⟨hw, hp, hraw, Schema.completed_of_takes htakes hw, hgrows.trans (htakes.filled hw).grows⟩,
    Value.canonical_fillAll (forall_mem_map.mpr hfields) hcanonical⟩

end Document

-- The same values

namespace Schema

open Value

variable {schema : Schema} {raw loaded x : Value} {p q : Path} {f : Field}

theorem HasField.has (h : schema.HasField raw q f) (hw : schema.Meets .wellFormed) (hobj : ∃ fs, raw = .obj fs)
    (hg : raw.Grows x) (hsome : (x.get? q).isSome) : x.Has q := by
  obtain ⟨e, he, rfl, rfl⟩ := Site.Belongs.of_hasField h
  obtain ⟨hhas, ⟨fs, hfs⟩, hkeys⟩ := (he.stands hw hobj).grows hg
  rw [Site.path, get?_append, hfs, Option.bind_some] at hsome
  exact has_append.mpr ⟨hhas, _, hfs, has_of_keys hkeys hsome⟩

theorem Makes.grows_of_fills (hm : schema.Makes raw made) (hf : schema.Fills raw loaded) : loaded.Grows made := by
  refine grows_of_has fun p x hp hx => ?_
  by_cases hold : raw.Has p
  · obtain ⟨u, hu⟩ := Option.isSome_iff_exists.mp hold.isSome
    obtain ⟨x', hx', hux⟩ := hf.grows p u hu
    rw [hx] at hx'
    cases hx'
    obtain ⟨y, hy, huy⟩ := hm.grows p u hu
    exact ⟨y, hy, hux.symm.trans huy⟩
  · obtain ⟨q, f, y, hfield, hroom, hy, hcov | ⟨ha, fs, hfs⟩⟩ := hf.added p hp hold
    all_goals have hmade := hm.filled hfield hroom hy
    · obtain ⟨t, rfl⟩ := covers_iff.mp hcov
      rw [get?_append, hf.filled q f y hfield hroom hy] at hx
      rw [get?_append, hmade]
      exact ⟨x, hx, .same⟩
    · -- Objects lead to the default in either document.
      obtain ⟨r, hr, rfl⟩ := isAbove_iff.mp ha
      rw [get?_append] at hmade
      obtain ⟨z, hz, hzr⟩ := Option.bind_eq_some_iff.mp hmade
      rw [hfs] at hx
      cases hx
      cases r with
      | nil => exact absurd rfl hr
      | cons seg r =>
        have hseg := (forall_mem_cons.mp (hroom.keys_below hold)).1
        cases seg with
        | index => cases hseg
        | key k =>
          obtain ⟨gs, rfl⟩ := object_of_key (v := z) (k := k) (t := r) (by rw [hzr]; rfl)
          exact ⟨_, hz, .obj⟩

theorem Makes.within_of_fills (hm : schema.Makes raw made) (hf : schema.Fills raw loaded) (hobj : ∃ fs, raw = .obj fs)
    (hfixed : ∀ q f x, schema.HasField raw q f → f.type.isCollection → raw.get? q = some x → x.string? = none →
      f.cast? x = some x) : made.Grows loaded := by
  refine (hm.grows_of_fills hf).symm fun p hp => ?_
  by_cases hold : raw.Has p
  · exact hf.grows.has hold
  rcases hm.extra hp hold with ⟨q, f, y, hfield, hroom, hy, hcases⟩ | ⟨q, f, x, y, hfield, ht, hx, hy, hcast, hcov⟩
  · have hloaded := hf.filled q f y hfield hroom hy
    have hhas : loaded.Has q := hfield.has hm.wellFormed hobj hf.grows (by rw [hloaded]; rfl)
    rcases hcases with hcov | ⟨ha, -⟩
    · obtain ⟨t, rfl⟩ := covers_iff.mp hcov
      obtain ⟨-, y', hy', ht⟩ := has_append.mp hp
      rw [hm.filled hfield hroom hy] at hy'
      cases hy'
      exact has_append.mpr ⟨hhas, y, hloaded, ht⟩
    · exact hhas.of_covers (covers_of_isAbove ha)
  · -- The collection is what it was.
    have hsame : y = x := by
      cases hstr : x.string? with
      | none =>
        rw [hfixed q f x hfield ht hx hstr] at hcast
        cases hcast
        rfl
      | some name =>
        obtain ⟨y', hy', hkin⟩ := hm.grows q x hx
        rw [hy] at hy'
        cases hy'
        cases hkin with
        | same => rfl
        | obj | arr => cases hstr
    subst hsame
    obtain ⟨t, rfl⟩ := covers_iff.mp hcov
    obtain ⟨-, z, hz, ht⟩ := has_append.mp hp
    rw [hy] at hz
    cases hz
    have hhas : raw.Has q := hfield.has hm.wellFormed hobj (.refl raw) (by rw [hx]; rfl)
    exact absurd (has_append.mpr ⟨hhas, _, hx, ht⟩) hold

theorem Makes.cast?_eq_self (hm : schema.Makes raw made)
    (hfixed : ∀ p f x, (p, f) ∈ schema.fields → raw.get? p = some x → f.cast? x = some x) (hf : schema.HasField raw q f)
    (hx : raw.get? q = some x) (hstr : x.string? = none) : f.cast? x = some x := by
  obtain ⟨y, hy, hcast⟩ := hm.given (leads_of_hasField hf) hx
  obtain ⟨p, g, hg, hcov, hsome⟩ : ∃ p g, (p, g) ∈ schema.fields ∧ p.covers q ∧ (raw.get? p).isSome := by
    rcases hf with hf | ⟨r, s, w, rel, ⟨p, g, hg, he⟩, -, rfl⟩
    · exact ⟨q, f, hf, covers_refl q, by rw [hx]; rfl⟩
    · exact ⟨p, g, hg, covers_trans (he.covers (hm.wellFormed.field hg).type) (covers_append r rel), he.isSome⟩
  obtain ⟨u, hu⟩ := Option.isSome_iff_exists.mp hsome
  have hkept : made.get? p = some u := by
    obtain ⟨z, hz, hcast | ⟨-, -, rfl⟩⟩ := hm.completed.given p g u hg hu
    · rw [hfixed p g u hg hu] at hcast
      cases hcast
      exact hz
    · exact hz
  obtain ⟨t, rfl⟩ := covers_iff.mp hcov
  rw [get?_append, hu] at hx
  rw [get?_append, hkept, hx] at hy
  cases hy
  rcases hcast with hcast | ⟨name, rfl, -⟩
  · exact hcast
  · cases hstr

end Schema

namespace Document

-- A new document has all that one loaded from the same object has. They are the same if and only if casting
-- changes no array and no map in the object other than arrays of documents.
theorem created_eq_loaded_iff {schema : Schema} (raw : CanonicalValue) {effects effects' : Effects}
    {created loaded : Document} (hw : schema.Meets .wellFormed) (hp : schema.Meets .passive) (hs : schema.Suits raw)
    (hcast : schema.Preserves raw) (hc : (create schema raw effects).1 = .ok created)
    (hl : (load schema raw none effects').1 = .ok loaded) :
    loaded.value.Grows created.value ∧
    (created.value = loaded.value ↔ ∀ q f x, schema.HasField raw q f → f.type.isCollection → raw.1.get? q = some x →
      x.string? = none → f.cast? x = some x) ∧
    ((∀ p f x, (p, f) ∈ schema.fields → raw.1.get? p = some x → f.cast? x = some x) → created.value = loaded.value) := by
  obtain ⟨raw, hraw⟩ := raw
  obtain ⟨hmakes, hcreated⟩ := makes_of_create hw hp hraw hs hcast hc
  obtain ⟨hfills, hloaded⟩ := fills_of_load hw hp hraw hl
  obtain ⟨fields, -, hobj, -⟩ := ok_of_load hl
  have hgrows := hmakes.grows_of_fills hfills
  have heq := fun hfixed => (hmakes.within_of_fills hfills ⟨fields, hobj⟩ hfixed).antisymm hgrows hcreated hloaded
  refine ⟨hgrows, ⟨fun hsame q f x hf ht hx hstr => ?_, heq⟩, fun hfixed => heq fun q f x hf _ hx hstr =>
    hmakes.cast?_eq_self hfixed hf hx hstr⟩
  obtain ⟨y, hy, hyx⟩ := hmakes.given (Schema.leads_of_hasField hf) hx
  have hhas : raw.Has q := hf.has hw ⟨fields, hobj⟩ (.refl raw) (by rw [hx]; rfl)
  rw [hsame, hfills.kept q f hf ht hhas, hx] at hy
  cases hy
  rcases hyx with hyx | ⟨name, rfl, -⟩
  · exact hyx
  · cases hstr

-- A delivery whose address and whose parcels are documents of their own.
def address : Schema :=
  ⟨{ id := false }, [([.key "city"], .plain .string),
    ([.key "entry", .key "lift"], ⟨.boolean, { default := some (.literal (.bool false)) }⟩)], []⟩

def parcels : Schema :=
  ⟨{ id := false }, [([.key "code"], .plain .string),
    ([.key "weight"], ⟨.number, { default := some (.literal (.int 1)) }⟩)], []⟩

def deliveries : Schema :=
  ⟨{ id := false }, [([.key "desk", .key "clerk"], .plain .string),
    ([.key "desk", .key "open"], ⟨.boolean, { default := some (.literal (.bool true)) }⟩),
    ([.key "parcels"], .plain (.documentArray ⟨parcels, []⟩)), ([.key "tags"], .plain (.array (.plain .string))),
    ([.key "to"], .ofSub ⟨address, []⟩)], []⟩

def delivery : Value :=
  .obj [("desk", .obj [("clerk", .str "ann")]), ("parcels", .arr [.obj [("code", .str "a")], .null]),
    ("tags", .arr [.str "new"]), ("to", .obj [("city", .str "rome")])]

-- The desk is open unless it is said otherwise, the address has no lift, and a parcel weighs 1.
def delivered : Value :=
  .obj [("desk", .obj [("clerk", .str "ann"), ("open", .bool true)]),
    ("parcels", .arr [.obj [("code", .str "a"), ("weight", .int 1)], .null]), ("tags", .arr [.str "new"]),
    ("to", .obj [("city", .str "rome"), ("entry", .obj [("lift", .bool false)])])]

theorem suits_delivery : deliveries.Suits delivery := by
  intro p x hne hhas hx
  rw [delivery] at hhas hx
  cases hhas with
  | here => exact absurd rfl hne
  | @field _ k c p hk hp =>
    rw [Value.get?_field hk] at hx
    have hmem := mem_of_get? hk
    simp only [mem_cons, Prod.mk.injEq, not_mem_nil, or_false] at hmem
    rcases hmem with ⟨rfl, rfl⟩ | ⟨rfl, rfl⟩ | ⟨rfl, rfl⟩ | ⟨rfl, rfl⟩
    · cases hp with
      | here =>
        cases hx
        exact .inr ⟨by decide +kernel, .inr ⟨_, rfl⟩⟩
      | @field _ k c p hk hp =>
        have hmem := mem_of_get? hk
        simp only [mem_cons, Prod.mk.injEq, not_mem_nil, or_false] at hmem
        obtain ⟨rfl, rfl⟩ := hmem
        exact .inl ⟨([.key "desk", .key "clerk"], .plain .string), by simp [deliveries], covers_append _ p⟩
    · exact .inl ⟨([.key "parcels"], .plain (.documentArray ⟨parcels, []⟩)), by simp [deliveries], covers_append _ p⟩
    · exact .inl ⟨([.key "tags"], .plain (.array (.plain .string))), by simp [deliveries], covers_append _ p⟩
    · exact .inl ⟨([.key "to"], .ofSub ⟨address, []⟩), by simp [deliveries], covers_append _ p⟩

theorem preserves_delivery : deliveries.Preserves delivery := by
  intro p f x hf hx
  simp only [deliveries, mem_cons, Prod.mk.injEq, not_mem_nil, or_false] at hf
  rcases hf with ⟨rfl, rfl⟩ | ⟨rfl, rfl⟩ | ⟨rfl, rfl⟩ | ⟨rfl, rfl⟩ | ⟨rfl, rfl⟩
  · cases hx
    exact ⟨_, rfl, .refl _⟩
  · cases hx
  · cases hx
    have hroom : Value.Room (.arr [.obj [("code", .str "a")], .null]) [.index 0, .key "weight"] :=
      .item rfl (.here rfl (by simp))
    have hgrows : Value.Grows _ (Value.setFrom [] (.int 1) _ _).2 := hroom.grows
    exact ⟨.arr [.obj [("code", .str "a"), ("weight", .int 1)], .null], by decide +kernel, hgrows⟩
  · cases hx
    exact ⟨_, rfl, .refl _⟩
  · cases hx
    have hroom : Value.Room (.obj [("city", .str "rome")]) [.key "entry", .key "lift"] := .here rfl (by simp [Seg.index?])
    have hgrows : Value.Grows _ (Value.setFrom [] (.bool false) _ _).2 := hroom.grows
    exact ⟨.obj [("city", .str "rome"), ("entry", .obj [("lift", .bool false)])], by decide +kernel, hgrows⟩

theorem created_eq_loaded_iff_delivery : deliveries.Meets .wellFormed ∧ deliveries.Meets .passive ∧
    ∃ created loaded, (create deliveries delivery {}).1 = .ok created ∧ (load deliveries delivery none {}).1 = .ok loaded ∧
      created.value = delivered ∧ loaded.value = delivered ∧
      (∀ q f x, deliveries.HasField delivery q f → f.type.isCollection → delivery.get? q = some x → x.string? = none →
        f.cast? x = some x) := by
  have hw : deliveries.Meets .wellFormed := by
    unfold Schema.Meets
    decide +kernel
  have hp : deliveries.Meets .passive := by
    unfold Schema.Meets
    decide +kernel
  have hcreate : (create deliveries delivery {}).1.toOption.map (·.value) = some delivered := by decide +kernel
  have hload : (load deliveries delivery none {}).1.toOption.map (·.value) = some delivered := by decide +kernel
  obtain ⟨created, hc, hcreated⟩ := ok_of_map hcreate
  obtain ⟨loaded, hl, hloaded⟩ := ok_of_map hload
  obtain ⟨-, hiff, -⟩ := created_eq_loaded_iff ⟨delivery, by decide +kernel⟩ hw hp suits_delivery preserves_delivery hc hl
  exact ⟨hw, hp, created, loaded, hc, hl, hcreated, hloaded, hiff.mp (hcreated.trans hloaded.symm)⟩

-- Prices are in euro unless it is said otherwise.
def price : Schema :=
  ⟨{ id := false }, [([.key "currency"], ⟨.string, { default := some (.literal (.str "EUR")) }⟩)], []⟩

def priceLists : Schema :=
  ⟨{ id := false }, [([.key "prices"], .plain (.map (.ofSub ⟨price, []⟩)))], []⟩

def priceList (book : Value) : Value :=
  .obj [("prices", .obj [("book", book)])]

theorem suits_priceList : priceLists.Suits (priceList v) := by
  intro p x hne hhas hx
  rw [priceList] at hhas
  cases hhas with
  | here => exact absurd rfl hne
  | @field _ k c p hk hp =>
    obtain ⟨rfl, -⟩ : k = "prices" ∧ c = .obj [("book", v)] := by simpa using mem_of_get? hk
    exact .inl ⟨_, mem_singleton_self _, covers_append [.key "prices"] p⟩

theorem preserves_priceList : priceLists.Preserves (priceList (.obj [])) := by
  intro p f x hf hx
  cases mem_singleton.mp hf
  cases hx
  have hroom : Value.Room (.obj [("book", .obj [])]) [.key "book", .key "currency"] :=
    .field rfl (.here rfl (by simp))
  have hgrows : Value.Grows _ (Value.setFrom [] (.str "EUR") _ _).2 := hroom.grows
  exact ⟨.obj [("book", .obj [("currency", .str "EUR")])], by decide +kernel, hgrows⟩

-- A price in a map is completed in a new document, but not in a loaded one.
theorem created_differs_from_loaded : priceLists.Meets .wellFormed ∧ priceLists.Meets .passive ∧
    (priceList (.obj [])).Canonical ∧ priceLists.Suits (priceList (.obj [])) ∧
    priceLists.Preserves (priceList (.obj [])) ∧
    (create priceLists (priceList (.obj [])) {}).1.toOption.map (·.value) =
      some (priceList (.obj [("currency", .str "EUR")])) ∧
    (load priceLists (priceList (.obj [])) none {}).1.toOption.map (·.value) = some (priceList (.obj [])) := by
  refine ⟨?_, ?_, by decide +kernel, suits_priceList, preserves_priceList, by decide +kernel⟩
  all_goals unfold Schema.Meets
  all_goals decide +kernel

end Document

end Dossier

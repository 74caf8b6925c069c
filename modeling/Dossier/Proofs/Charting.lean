import Dossier.Proofs.Outset
import Dossier.Proofs.Tiles

-- The scopes of a document are those of the documents in its value, whatever is done with it along apt paths.

namespace Dossier

open Value

-- Values were appended to an array, and setters are not heard yet.
def Edit.Appends (p : Path) (vs : List Value) (s s' : Desk) : Prop :=
  ∃ f el items pushed s₁ d, s.doc.arrayField? p = some f ∧ f.element? = some el ∧
    Value.items? (s.doc.get? p) = some items ∧
    (castItems p (s.doc.openChanges.rootAt p) el items.length vs).outcome
      ⟨s.doc.openChanges, { s.effects with queue := [] }⟩ = (.ok (some pushed), s₁) ∧ pushed ≠ [] ∧
    s₁.doc.write p (.arr (items ++ pushed)) = (.ok (), d) ∧
    s' = { s₁ with doc := d.appended p f items.length pushed }

theorem Edit.Appending.appends
    (h : Appending p vs s f el items pushed s') (hw : (s.doc.openChanges.write p (.arr (items ++ pushed))).1 = .ok ()) :
    Appends p vs s { s' with
      doc := (s.doc.openChanges.write p (.arr (items ++ pushed))).2.appended p f items.length pushed } :=
  ⟨f, el, items, pushed, s', _, h.field, h.element, h.stored, h.cast, h.filled, by rw [h.doc, ← hw], rfl⟩

-- Open changes

namespace Document

open Edit

variable {schema : Schema} {d start : Document}

-- A charted document, with changes that are open since it was another one.
structure Plots (schema : Schema) (start d : Document) : Prop where
  charted : d.Charted schema
  opened  : OpenSince Seg.Bounded start d
  before  : start.Charted schema
  idle    : start.Idle

-- A charted document. It was charted when its changes were opened.
def Plotted (schema : Schema) (d : Document) : Prop :=
  d.Charted schema ∧ d.Idle ∨ ∃ start, Plots schema start d

theorem Apt.begins (h : d.Apt p) (hp : p ≠ []) : p.Begins Seg.Bounded := by
  cases p with
  | nil => exact absurd rfl hp
  | cons seg rest => exact ⟨seg, rest, rfl, h.bounded seg List.mem_cons_self⟩

theorem Apt.opens (h : d.Apt p) (v : Value) : p.Opens (Path.Begins Seg.Bounded) v := by
  cases p with
  | cons => exact h.begins (by simp)
  | nil => cases v <;> simp [Path.Opens, Path.Begins, Seg.Bounded, Seg.index?]

theorem Charted.write_of_error (h : d.Charted schema) (hp : p ≠ []) (he : (d.value.set p v).1 = .error e) :
    (d.write p v).2.Charted schema := by
  refine h.of_alike (h.sound.write hp) ?_ ?_ ?_ <;> rw [write_eq]
  · exact (setFrom_of_error he).1
  · exact .refl

namespace Plots

theorem plotted (h : Plots schema start d) : Plotted schema d :=
  .inr ⟨start, h⟩

theorem next (h : Plots schema start d) (hc : d'.Charted schema) (ho : OpenSince Seg.Bounded start d') :
    Plots schema start d' :=
  ⟨hc, ho, h.before, h.idle⟩

theorem keptAlong (hw : schema.Meets .wellFormed) : KeptAlong opts (Plots schema start) := by
  intro p v s ha hs
  refine hs.next ((course_onward hw).setPath v p opts s hs.charted ha).charted ?_
  refine (OpenSince.lasting.heeds fun q k => ?_).keeps_setPath v p (ha.opens v) opts s hs.opened
  rintro ⟨seg, rest, rfl, hseg⟩
  exact ⟨seg, rest ++ [.key k], rfl, hseg⟩

end Plots

namespace Plotted

theorem charted (h : Plotted schema d) : d.Charted schema := by
  obtain ⟨hc, -⟩ | ⟨start, h⟩ := h
  · exact hc
  · exact h.charted

theorem opened (h : Plotted schema d) : ∃ start, Plots schema start d.openChanges := by
  obtain ⟨hc, hidle⟩ | ⟨start, h⟩ := h
  · obtain ⟨hb, hk, fs, hv, hs⟩ := hidle
    exact ⟨d, hc.openChanges, .opened hb hk hv hs, hc, hb, hk, fs, hv, hs⟩
  · refine ⟨start, ?_⟩
    rwa [h.opened.openChanges_eq]

section

variable {s : Desk} (h : Plotted schema s.doc) (hw : schema.Meets .wellFormed) (ha : s.doc.Apt p)

include h hw ha

theorem set (hr : ∀ s', (setPath v p opts).outcome ⟨s.doc.openChanges, { s.effects with queue := [] }⟩ = (.ok (), s') →
    AptRounds opts maxRounds s') : Plotted schema ((Edit.set p v opts).outcome s).2.doc := by
  obtain ⟨start, hplots⟩ := h.opened
  have ha' : s.doc.openChanges.Apt p := ha.of_steady (.of_value (by rw [openChanges_eq]) (by rw [openChanges_eq]))
  have hkept : KeptAlong opts (Plots schema start) := Plots.keptAlong hw
  have hI := hkept p v ⟨s.doc.openChanges, { s.effects with queue := [] }⟩ ha' hplots
  rw [outcome_set]
  generalize (setPath v p opts).outcome _ = r at hI hr
  rcases r with ⟨_ | _, s'⟩
  · exact hI.plotted
  · exact (hkept.settle (hr s' rfl) hI).plotted

theorem push (hr : ∀ s', Appends p vs s s' → AptRounds {} maxRounds s') :
    Plotted schema ((Edit.push p vs).outcome s).2.doc := by
  obtain ⟨start, hplots⟩ := h.opened
  have hopened (x : Value) (hp : p ≠ []) : OpenSince Seg.Bounded start (s.doc.openChanges.write p x).2 :=
    OpenSince.lasting.written (ha.begins hp) hplots.opened
  refine push_rec h (fun _ => (hplots.next hplots.charted.reported (OpenSince.lasting.reported hplots.opened)).plotted)
    (fun hpush hset => ?_) fun hpush hset => ?_
  · rw [write_eq] at hset
    exact (hplots.next (hplots.charted.write_of_error hpush.ne_nil hset) (hopened _ hpush.ne_nil)).plotted
  · have hrounds := hr _ (hpush.appends hset)
    have hat : s.doc.openChanges.ArrayAt p _ _ := .of_value
      ⟨ha, hpush.resolve, (arrayField?_eq_some_iff.mp hpush.field).2, hpush.stored⟩ (by rw [openChanges_eq])
      (by rw [openChanges_eq])
    rw [write_eq] at hset
    exact ((Plots.keptAlong hw).settle hrounds (hplots.next (hplots.charted.appended hw hat hset)
      (OpenSince.lasting.toStable.appended (ha.begins hpush.ne_nil) (hopened _ hpush.ne_nil)))).plotted

theorem pull : Plotted schema ((Edit.pull p v).outcome s).2.doc := by
  cases hf : s.doc.arrayField? p with
  | none =>
    have hsame : ((Edit.pull p v).outcome s).2 = s := by
      rw [Edit.pull, outcome_bind, outcome_doc]
      dsimp only
      rw [hf]
      rfl
    rwa [hsame]
  | some f =>
    obtain ⟨hresolve, harray⟩ := arrayField?_eq_some_iff.mp hf
    rcases pull_cases p v s with he | ⟨items, hget, -, hne, he⟩
    · rwa [he]
    · obtain ⟨start, hplots⟩ := h.opened
      have hget' : s.doc.openChanges.get? p = some (.arr items) := by rw [get?_openChanges, hget]
      have hat : s.doc.ArrayAt p f items := ⟨ha, hresolve, harray, by rw [hget]; rfl⟩
      have hat' : s.doc.openChanges.ArrayAt p f items := hat.of_value (by rw [openChanges_eq]) (by rw [openChanges_eq])
      rw [he]
      refine (hplots.next (hplots.charted.withdrawn hw hat' (setFrom_ok_of_get? hget')) ?_).plotted
      have hl : Lasting (Path.Begins Seg.Bounded) (OpenSince Seg.Bounded start) := OpenSince.lasting
      refine hl.touched (hl.noted (ha.begins hne) (hl.reported ?_))
      exact reindex_rec (fun _ _ => hl.dropped) (fun _ _ _ => hl.moved) (hl.written (ha.begins hne) hplots.opened)

end

theorem ordered (h : Plotted schema d) : d.value.Ordered := by
  obtain ⟨-, -, -, hv⟩ | ⟨start, h⟩ := h
  · exact hv
  · obtain ⟨gs, fs, -, -, hv, hr⟩ := h.opened.value
    exact ⟨fs, hv, hr.sorted⟩

theorem commit (h : Plotted schema d) : Plotted schema d.commit :=
  .inl ⟨h.charted.of_alike h.charted.sound.commit rfl rfl (.mapAll fun _ => ⟨rfl, rfl⟩), rfl, rfl, h.ordered⟩

theorem mark (h : Plotted schema s.doc) : Plotted schema ((Edit.markModified p).outcome s).2.doc := by
  obtain ⟨start, hplots⟩ := h.opened
  exact (hplots.next hplots.charted.markModified (OpenSince.lasting.touched hplots.opened)).plotted

theorem unmark (h : Plotted schema d) : Plotted schema (d.unmarkModified p) := by
  have hc : (d.unmarkModified p).Charted schema :=
    h.charted.of_alike h.charted.sound.unmarkModified rfl rfl alike_eachTracker
  obtain ⟨-, hidle⟩ | ⟨start, h⟩ := h
  · exact .inl ⟨hc, hidle⟩
  · exact (h.next hc (OpenSince.lasting.unmarked h.opened)).plotted

end Plotted

theorem OpenSince.get?_rollback (h : OpenSince Seg.Bounded start d) {rest : Path} (hs : seg.Spelled)
    (hi : seg.index? = none) : d.rollback.value.get? (seg :: rest) = start.value.get? (seg :: rest) := by
  obtain ⟨gs, fs, hstart, -, hd, hr⟩ := h.value
  obtain ⟨fs', hfold, -, -, hkeys⟩ := hr.foldl_spec
  have hvalue : d.rollback.value = .obj fs' := by
    rw [rollback, h.backup, ← hfold, ← hd]
  have hkey : Entries.get? seg.toKey fs' = Entries.get? seg.toKey gs := by
    refine hkeys _ fun i hk => Option.not_isSome_iff_eq_none.mp fun hsome => ?_
    have hspell : (Seg.index i).Spelled := h.tops _ hsome rfl
    rw [Seg.Spelled, hk, hs] at hspell
    rw [hspell] at hi
    cases hi
  have htop : ∀ v : Value, v.get? (seg :: rest) = (v.get? [seg]).bind (·.get? rest) := fun v => by
    rw [← get?_append]
    rfl
  rw [htop, htop, hvalue, hstart, get?_top, get?_top, hkey]

theorem OpenSince.documentAt_rollback (h : OpenSince Seg.Bounded start d) (hw : schema.Meets .wellFormed) :
    schema.DocumentAt d.rollback.value r t ↔ schema.DocumentAt start.value r t := by
  have hget : ∀ {p f}, (p, f) ∈ schema.fields → d.rollback.value.get? p = start.value.get? p := by
    intro p f hf
    obtain ⟨hne, hspelled, hindex⟩ := hw.declared hf
    cases p with
    | nil => exact absurd rfl hne
    | cons seg rest => exact h.get?_rollback (hspelled seg List.mem_cons_self) (hindex seg List.mem_cons_self)
  constructor
  · rintro ⟨w, p, f, hf, he⟩
    exact ⟨w, p, f, hf, hget hf ▸ he⟩
  · rintro ⟨w, p, f, hf, he⟩
    exact ⟨w, p, f, hf, (hget hf).symm ▸ he⟩

theorem Plotted.rollback (h : Plotted schema d) (hw : schema.Meets .wellFormed) : Plotted schema d.rollback := by
  have hs := h.charted.sound.rollback
  obtain ⟨hc, hidle⟩ | ⟨start, h⟩ := h
  · rw [rollback_of_backup_none hidle.1]
    exact .inl ⟨hc, hidle⟩
  · obtain ⟨hb, hk, -⟩ := h.idle
    have he := h.opened.rollback_eq_with hb hk
    obtain ⟨gs, fs, -, -, hd, hr⟩ := h.opened.value
    obtain ⟨fs', hfold, hsorted, -⟩ := hr.foldl_spec
    refine .inl ⟨⟨hs, ?_, fun _ => False.elim, fun r t _ => ?_, ?_⟩, ?_, ?_, fs', ?_, hsorted⟩
    · rw [he]
      exact h.before.filed
    · rw [h.opened.documentAt_rollback hw, he]
      exact h.before.scopes r t id
    · rw [he]
      exact h.before.schema
    · rw [he]
      exact hb
    · rw [he]
      exact hk
    · rw [Document.rollback, h.opened.backup, ← hfold, ← hd]

theorem Plotted.report {issues : Option Issues} {validating : Bool} (h : Plotted schema d) :
    Plotted schema { d with issues, validating } := by
  have hreport : ∀ {d : Document} issues, d.Charted schema → Charted schema { d with issues, validating } := fun _ hc =>
    hc.of_alike { hc.sound with } rfl rfl .refl
  obtain ⟨hc, hidle⟩ | ⟨start, h⟩ := h
  · exact .inl ⟨hreport _ hc, hidle⟩
  · refine .inr ⟨{ start with validating }, hreport _ h.charted, ?_, hreport _ h.before, h.idle⟩
    exact { h.opened with validating := rfl }

end Document

-- Runs

namespace Call

open Edit Document

-- A call writes along apt paths, and so do the setters that it calls.
def Apt (s : Desk) : Call → Prop
  | set p v opts => s.doc.Apt p ∧
      ∀ s', (setPath v p opts).outcome ⟨s.doc.openChanges, { s.effects with queue := [] }⟩ = (.ok (), s') →
        AptRounds opts maxRounds s'
  | push p vs => s.doc.Apt p ∧ ∀ s', Appends p vs s s' → AptRounds {} maxRounds s'
  | pull p _ => s.doc.Apt p
  | populate .. | depopulate .. => False
  | mark _ | unmark _ | report .. | commit | rollback => True

def AptAll : List Call → Desk → Prop
  | [], _ => True
  | c :: calls, s => c.Apt s ∧ AptAll calls (c.run s)

variable {schema : Schema}

theorem plotted_run {c : Call} (h : s.doc.Plotted schema) (hw : schema.Meets .wellFormed) (hc : c.Apt s) :
    (c.run s).doc.Plotted schema := by
  cases c with
  | set p v opts => exact h.set hw hc.1 hc.2
  | push p vs => exact h.push hw hc.1 hc.2
  | pull p v => exact h.pull hw hc
  | mark p => exact h.mark
  | unmark p => exact h.unmark
  | report issues validating => exact h.report
  | commit => exact h.commit
  | rollback => exact h.rollback hw
  | populate | depopulate => exact hc.elim

theorem plotted_runAll (h : s.doc.Plotted schema) (hw : schema.Meets .wellFormed) (hc : AptAll calls s) :
    (runAll calls s).doc.Plotted schema := by
  induction calls generalizing s with
  | nil => exact h
  | cons c calls ih => exact ih (plotted_run h hw hc.1) hc.2

end Call

namespace Document

-- Whatever is done along apt paths, there is a scope at a root exactly if an object is there, as the value of a
-- field of documents or as an item of an array of them, and its schema is the one that the object selects.
theorem scopes_chart_documents {schema : Schema} {start : Document} (hw : schema.Meets .wellFormed)
    (hstart : AptStart schema start) (effects : Effects) (calls : List Call)
    (hcalls : Call.AptAll calls ⟨start, effects⟩) :
    let d := (Call.runAll calls ⟨start, effects⟩).doc
    (∀ r t, (∃ k scope, d.scopes.get? k = some scope ∧ scope.root = r ∧ scope.schema = t) ↔
      ∃ w, d.schema.Embeds d.value r t w) ∧
    ∀ k k' scope scope', d.scopes.get? k = some scope → d.scopes.get? k' = some scope' → scope.root = scope'.root →
      k = k' := by
  intro d
  have h : d.Charted schema := (Call.plotted_runAll (.inl (hstart.charted hw)) hw hcalls).charted
  refine ⟨fun r t => ?_, fun k k' scope scope' hk hk' hroot => ?_⟩
  · rw [← h.filed.schemaAt?_eq_some_iff h.sound.scopes.rooted, h.schema]
    exact h.scopes r t id
  · have := (h.filed k scope hk).symm.trans (hroot ▸ h.filed k' scope' hk')
    cases this
    rfl

theorem apt_of_noVariants {d : Document} (h : d.schema.Leads d.value p f) (hw : d.schema.Meets .wellFormed)
    (hv : d.schema.Meets .noVariants) (hb : p.Bounded) : d.Apt p := by
  refine apt_of_leads h hw hb ?_
  rintro g ⟨x, fld, sub, -, hr, ht, hne, -⟩
  have hf : fld.Meets .noVariants := resolve_meets hv trivial hr
  have hsub : sub.Meets .noVariants := FieldType.Meets.sub (.inl (ht ▸ hf.type))
  exact absurd hsub.variants hne

def towns : Schema :=
  ⟨{ id := false }, [([.key "name"], .plain .string)], []⟩

-- A way to a town, with stops in others.
def journeys : Schema :=
  ⟨{ id := false }, [([.key "goal"], .ofSub ⟨towns, []⟩), ([.key "stops"], .plain (.documentArray ⟨towns, []⟩))], []⟩

def town (name : String) : Value :=
  .obj [("name", .str name)]

def journey (goal : String) (stops : List String) : Value :=
  .obj [("goal", town goal), ("stops", .arr (stops.map town))]

theorem journeys_meets : journeys.Meets .wellFormed ∧ journeys.Meets .noVariants ∧
    journeys.Meets fun part => ∀ rules, part = .rules rules → rules = {} := by
  refine ⟨by decide +kernel, ?_, ?_⟩ <;>
  simp [Schema.Meets, journeys, towns, Schema.parts, Schema.partsOfFields, Field.parts, FieldType.parts,
    SubSchema.parts, Schema.partsOfVariants, Field.plain, Field.ofSub, SchemaLaw.noVariants]

theorem scopes_chart_documents_journey : ∃ start, (load journeys (journey "a" ["b", "c"]) none).1 = .ok start ∧
    let d := (Call.runAll [.set [.key "goal", .key "name"] (.str "d") {}, .commit, .pull [.key "stops"] (town "b"),
      .set [.key "stops", .index 0, .key "name"] (.str "e") {}] ⟨start, {}⟩).doc
    d.value = journey "d" ["e"] ∧
    (∃ k scope, d.scopes.get? k = some scope ∧ scope.root = [.key "stops", .index 0] ∧ scope.schema = towns) ∧
    ¬ ∃ k scope, d.scopes.get? k = some scope ∧ scope.root = [.key "stops", .index 1] := by
  obtain ⟨hw, hv, hrules⟩ := journeys_meets
  have hload : (load journeys (journey "a" ["b", "c"]) none).1 = .ok _ := rfl
  have hstart : AptStart journeys _ := .loaded ⟨_, rfl, by simp [Entries.Sorted]; decide⟩ (fun r t e hdoc he hd => by
    obtain ⟨w, hdoc⟩ := hdoc
    rw [((hdoc.meets hrules).field he).rules _ rfl] at hd
    cases hd) hload
  have hstop : ([.key "stops"], .plain (.documentArray ⟨towns, []⟩)) ∈ journeys.fields := by simp [journeys]
  have hgoal : ([.key "goal"], .ofSub ⟨towns, []⟩) ∈ journeys.fields := by simp [journeys]
  have hname : ([.key "name"], .plain .string) ∈ towns.fields := by simp [towns]
  obtain ⟨hiff, -⟩ := scopes_chart_documents hw hstart {} [.set [.key "goal", .key "name"] (.str "d") {}, .commit,
      .pull [.key "stops"] (town "b"), .set [.key "stops", .index 0, .key "name"] (.str "e") {}]
    ⟨⟨apt_of_noVariants (.inner (.declared hgoal) rfl rfl hname) hw hv (by decide),
      fun s' hs => Edit.aptRounds_of_quiet (congrArg (·.2.effects.queue) hs).symm⟩, trivial,
      apt_of_declared hstop hw,
      ⟨apt_of_noVariants (.inner (.item (.declared hstop) rfl rfl (by decide)) rfl rfl hname) hw hv (by decide),
      fun s' hs => Edit.aptRounds_of_quiet (congrArg (·.2.effects.queue) hs).symm⟩, trivial⟩
  refine ⟨_, hload, rfl, (hiff _ _).mpr ⟨_, _, _, hstop, .here (.item rfl)⟩, ?_⟩
  rintro ⟨k, scope, hk, hroot⟩
  obtain ⟨w, he⟩ := (hiff _ _).mp ⟨k, scope, hk, hroot, rfl⟩
  cases (he.objectAt hw.keyed_of_wellFormed).2.1

-- An address with a city, and a code that is required.
def residences : Schema :=
  ⟨{ id := false }, [([.key "addr"], .ofSub ⟨⟨{ id := false }, [([.key "city"], .plain .string),
    ([.key "zip"], ⟨.string, { required := .always }⟩)], []⟩, []⟩)], []⟩

def shape (fields : List (Path × Field)) : Schema :=
  ⟨{ id := false }, ([.key "kind"], .plain .string) :: fields, []⟩

def circles : Schema :=
  shape [([.key "radius"], .plain .number)]

-- A shape, which may be a circle.
def shapes : Schema :=
  ⟨{ id := false }, [([.key "shape"], .ofSub ⟨shape [], [("circle", circles)]⟩)], []⟩

-- A write to a field of a document that is not there makes the document, but no scope for it. A write that makes
-- a document another variant leaves its scope with the schema that it had.
theorem scope_left_out :
    (∃ start, (load residences (.obj []) none).1 = .ok start ∧
      let d := (Call.runAll [.set [.key "addr", .key "city"] (.str "x") {}] ⟨start, {}⟩).doc
      d.value = .obj [("addr", .obj [("city", .str "x")])] ∧
      (∃ t w, d.schema.Embeds d.value [.key "addr"] t w) ∧
      (∀ k, d.scopes.get? k = none) ∧ (d.validateSync {}).result = .ok ()) ∧
    ∃ start, (load shapes (.obj [("shape", .obj [])]) none).1 = .ok start ∧
      let d := (Call.runAll [.set [.key "shape", .key "kind"] (.str "circle") {}] ⟨start, {}⟩).doc
      (∃ w, d.schema.Embeds d.value [.key "shape"] circles w) ∧
      ∃ k scope, d.scopes.get? k = some scope ∧ scope.root = [.key "shape"] ∧ scope.schema = shape [] := by
  refine ⟨⟨_, rfl, rfl, ?_, fun k => rfl, rfl⟩, _, rfl, ?_, ?_⟩
  · exact ⟨_, _, _, _, List.mem_singleton_self _, .here .embedded⟩
  · exact ⟨_, _, _, List.mem_singleton_self _, .here .embedded⟩
  · exact ⟨_, _, (rfl : Scopes.get? _ ⟨0, 0⟩ = _), rfl, rfl⟩

end Document
end Dossier

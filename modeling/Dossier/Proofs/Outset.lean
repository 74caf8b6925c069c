import Dossier.Proofs.Attended
import Dossier.Proofs.Charts
import Dossier.Proofs.Rollback

-- New and loaded documents are charted, if their setters and defaults write along apt paths only.

namespace Dossier

open Path Value

-- Writes that setters ask for

namespace Edit

-- Each of the writes is along a path that is apt when it is its turn.
def AptEach (opts : SetOptions) : List (Path × Value) → Desk → Prop
  | [], _ => True
  | (p, v) :: queue, s =>
    s.doc.Apt p ∧ ∀ s', (setPath v p opts).outcome s = (.ok (), s') → AptEach opts queue s'

-- The writes that setters ask for are along apt paths, round after round.
def AptRounds (opts : SetOptions) : Nat → Desk → Prop
  | 0, _ => True
  | n + 1, s => AptEach opts s.effects.queue { s with effects.queue := [] } ∧
      ∀ s', (setEach opts s.effects.queue).outcome { s with effects.queue := [] } = (.ok (), s') → AptRounds opts n s'

theorem aptRounds_of_quiet (h : s.effects.queue = []) : AptRounds opts n s := by
  induction n with
  | zero => trivial
  | succ n ih =>
    rw [AptRounds, h]
    refine ⟨trivial, fun s' hs' => ?_⟩
    rw [setEach, outcome_pure] at hs'
    cases hs'
    have hs : { s with effects.queue := [] } = s := by rw [← h]
    rwa [hs]

-- Writes along apt paths keep a property of documents.
def KeptAlong (opts : SetOptions) (I : Document → Prop) : Prop :=
  ∀ p v s, s.doc.Apt p → I s.doc → I ((setPath v p opts).outcome s).2.doc

namespace KeptAlong

theorem setEach (h : KeptAlong opts I) {queue : List (Path × Value)} (hq : AptEach opts queue s) (hs : I s.doc) :
    I ((Edit.setEach opts queue).outcome s).2.doc := by
  induction queue generalizing s with
  | nil => exact hs
  | cons a queue ih =>
    obtain ⟨p, v⟩ := a
    obtain ⟨ha, hq⟩ := hq
    have hI := h p v s ha hs
    rw [Edit.setEach, outcome_bind]
    generalize (setPath v p opts).outcome s = r at hI hq
    rcases r with ⟨_ | _, s'⟩
    · exact hI
    · exact ih (hq s' rfl) hI

theorem settle (h : KeptAlong opts I) (hr : AptRounds opts n s) (hs : I s.doc) :
    I ((Edit.settle opts n).outcome s).2.doc := by
  induction n generalizing s with
  | zero => exact hs
  | succ n ih =>
    obtain ⟨hq, hr⟩ := hr
    rw [Edit.settle, outcome_bind, outcome_takeQueue]
    dsimp only
    split
    · exact hs
    · have hI := h.setEach hq hs
      rw [outcome_bind]
      generalize (Edit.setEach opts s.effects.queue).outcome { s with effects.queue := [] } = r at hI hr
      rcases r with ⟨_ | _, s'⟩
      · exact hI
      · exact ih (hr s' rfl) hI

end KeptAlong
end Edit

-- Documents without open changes

def Value.Ordered (v : Value) : Prop :=
  ∃ fs, v = .obj fs ∧ Entries.Sorted fs

theorem Value.Ordered.set {v x : Value} {p : Path} (h : v.Ordered) (hp : p ≠ []) : (v.set p x).2.Ordered := by
  obtain ⟨fs, rfl, hs⟩ := h
  cases p with
  | nil => exact absurd rfl hp
  | cons seg rest =>
    rw [Value.set, setFrom_cons_of_openFields rfl]
    exact ⟨_, rfl, Entries.insert_sorted hs⟩

namespace Document

open Edit

variable {schema : Schema} {d : Document}

def Idle (d : Document) : Prop :=
  d.backup = none ∧ d.snapshot = ∅ ∧ d.value.Ordered

-- Defaults

section

theorem Charted.fill {scopes : Scopes} {tracker : Tracker} (h : d.Charted schema)
    (hw : schema.Meets .wellFormed) (ha : d.Apt p) (hf : d.resolve p = .field f) (hnone : d.get? p = none)
    (hok : (d.value.set p x).1 = .ok ()) (halike : d.scopes.Alike scopes) (hscopes : scopes.Sound false)
    (hs : Sound { d with
      value := (d.value.set p x).2
      tracker
      scopes := scopes.attachField f p ((d.value.set p x).2.get? p) parent .created }) :
    Charted schema { d with
      value := (d.value.set p x).2
      tracker
      scopes := scopes.attachField f p ((d.value.set p x).2.get? p) parent .created } := by
  have hp := ne_nil_of_resolve hf
  have hcleared : d.ChartedBut schema (p.covers ·) := h.cleared fun _ _ hc => Schema.not_documentAt_of_none hnone hc
  have hbut : ChartedBut schema (p.covers ·) { d with scopes } :=
    hcleared.of_alike (h.sound.withScopes hscopes) rfl rfl halike
  have ha' : Apt { d with scopes } p := ha.of_steady (.of_value rfl rfl)
  have hsteady : Steady p { d with scopes } { d with value := (d.value.set p x).2, scopes } := ha'.steady_set rfl rfl
  have hwritten := hbut.set hw ha' hp hok
  have hattached := hwritten.attachField hw (ha'.of_steady hsteady)
    ((hsteady.resolve p (covers_refl p)).trans hf) hs.scopes
  exact hattached.of_alike hs rfl rfl .refl

theorem Charted.filled (h : d.Charted schema) (hw : schema.Meets .wellFormed) (hf : (p, f) ∈ schema.fields)
    (hnone : d.get? p = none) (hok : (d.value.set p x).1 = .ok ()) :
    Charted schema (Document.filled { d with value := (d.value.set p x).2 } p f) := by
  obtain rfl := h.schema
  have hresolve : d.resolve p = .field f := Schema.resolve_declared hw.apart hf
  exact h.fill hw (apt_of_declared hf hw) hresolve hnone hok .refl h.sound.scopes
    (h.sound.set (ne_nil_of_resolve hresolve)).filled

theorem Charted.seedRequired (h : d.Charted schema) : d.seedRequired.Charted schema :=
  seedRequired_rec h fun _ h => h.of_alike (h.sound.withTracker h.sound.tracker.transition) rfl rfl .refl

end

-- New documents

theorem stable_ordered : Stable (· ≠ []) fun d => d.value.Ordered where
  opened h := by rwa [openChanges_eq]
  written hp h := by
    rw [write_eq]
    exact h.set hp
  detached _ h := h
  attached _ h := h
  extended _ h := h
  noted _ h := h
  marked _ h := h
  reported h := h

theorem charted_blank (hw : schema.Meets .wellFormed) : Charted schema { schema, value := .obj [], isNew := true } := by
  refine ⟨sound_blank, (fun k scope hs => by cases hs), fun _ => False.elim, fun r t _ => ?_, rfl⟩
  refine iff_of_false (fun ht => by cases ht) fun hdoc => ?_
  obtain ⟨f, sub, fs, hl, -, hv, -⟩ := Schema.documentAt_iff.mp hdoc
  cases r with
  | nil => exact hl.ne_nil hw rfl
  | cons seg rest =>
    rw [get?_cons_of_openFields rfl] at hv
    cases hv

theorem charted_of_create {fields : List (String × Value)} (hw : schema.Meets .wellFormed)
    (hr : AptRounds {} maxRounds (given schema fields effects)) (h : (create schema (.obj fields) effects).1 = .ok d) :
    d.Charted schema ∧ d.Idle := by
  let I := fun d : Document => d.Charted schema ∧ d.backup = none
  have hkept : KeptAlong {} I := fun p v s ha hs =>
    have := (course_onward hw).setPath v p {} s hs.1 ha
    ⟨this.charted, this.backup.trans hs.2⟩
  have hfills : Keeps I (fillDefaults schema.fields) := keeps_fillDefaults
    (fun _ _ hd => ⟨hd.1.reported, hd.2⟩) fun _ _ _ _ hf hl hok hd => ⟨hd.1.filled hw hf hl.absent hok, hd.2⟩
  obtain ⟨s, s', -, hsettle, hfill, rfl⟩ := given_of_create h
  have hgiven : I (given schema fields effects).doc := by
    have := (course_onward hw).setKeys (s := ⟨{ schema, value := .obj [], isNew := true }, { effects with queue := [] }⟩)
      fields (fun _ he => he) (.inl rfl) {} ((course_onward hw).refl (v := .obj fields)) (charted_blank hw) .nil
    exact ⟨this.charted, this.backup⟩
  have hsettled := hkept.settle hr hgiven
  rw [hsettle] at hsettled
  have hfilled := hfills s hsettled
  rw [hfill] at hfilled
  have hbackup : s'.doc.seedRequired.backup = none :=
    seedRequired_rec (I := fun d => d.backup = none) hfilled.2 fun _ h => h
  refine ⟨hfilled.1.seedRequired, hbackup, (Reached.created h).unkept hbackup, ?_⟩
  refine create_of_keeps stable_ordered (fun _ _ _ _ hp hd => hd.set hp) (fun d hd => ?_)
    ⟨[], rfl, .nil⟩ h
  rwa [scopes_seedRequired.2]

-- Loaded documents

section

variable {raw : Document}

-- A record that is filled up. Its documents stay, and what it has is at the fields that it was at.
structure Supplied (raw d : Document) : Prop where
  charted   : d.Charted raw.schema
  completes : Completes raw d
  ordered   : d.value.Ordered
  leads     : ∀ q f, (raw.get? q).isSome → raw.schema.Leads d.value q f → raw.schema.Leads raw.value q f
  documents : ∀ r t, raw.schema.DocumentAt raw.value r t → raw.schema.DocumentAt d.value r t

namespace Supplied

variable (h : Supplied raw d)

include h

theorem reported {issues : Option Issues} : Supplied raw { d with issues } :=
  ⟨h.charted.reported, h.completes.reported, h.ordered, h.leads, h.documents⟩

section

variable (hw : raw.schema.Meets .wellFormed)

include hw

theorem fill (ha : d.Apt p) (hnone : d.get? p = none) (hok : (d.value.set p x).1 = .ok ())
    (hv : d'.value = (d.value.set p x).2) (hcharted : d'.Charted raw.schema) (hcompletes : Completes raw d') :
    Supplied raw d' := by
  have hschema := h.completes.schema
  have hp : p ≠ [] := by
    rintro rfl
    cases hnone
  refine ⟨hcharted, hcompletes, hv ▸ h.ordered.set hp, fun q f hq hl => ?_, fun r t hdoc => ?_⟩
  · refine h.leads q f hq ?_
    rw [hv, ← hschema] at hl
    rw [← hschema] at hw ⊢
    refine ha.leads_of_set hw hok hl fun hc => ?_
    -- What the record has is still there.
    obtain ⟨y, hy⟩ := Option.isSome_iff_exists.mp hq
    obtain ⟨z, hz, -⟩ := h.completes.grows q y hy
    rw [get?_of_covers hnone hc] at hz
    cases hz
  · have hold := h.documents r t hdoc
    rw [hv, ← hschema]
    rw [← hschema] at hw hold
    exact (ha.documentAt_set hw hok fun hc => Schema.not_documentAt_of_none hnone hc hold).mpr hold

theorem filled (hobj : ∃ fs, raw.value = .obj fs) (hf : (p, f) ∈ raw.schema.fields) (hl : d.Lacks [] p f)
    (hok : (d.value.set p x).1 = .ok ()) :
    Supplied raw (Document.filled { d with value := (d.value.set p x).2 } p f) := by
  have ha : d.Apt p := by
    rw [← h.completes.schema] at hw hf
    exact apt_of_declared hf hw
  exact h.fill hw ha hl.absent hok rfl (h.charted.filled hw hf hl.absent hok)
    (h.completes.filled hw.keyed_of_wellFormed hobj hf hl)

theorem apt (hdoc : raw.schema.DocumentAt raw.value r t) (hf : (rel, f) ∈ t.fields) (ha : raw.Apt (r ++ rel)) :
    d.Apt (r ++ rel) ∧ d.resolve (r ++ rel) = .field f := by
  obtain ⟨g₀, sub₀, fs₀, -, -, hraw, -⟩ := Schema.documentAt_iff.mp hdoc
  have hnow := h.documents r t hdoc
  have hleads := h.leads
  rw [← h.completes.schema] at hw hnow hleads
  obtain ⟨g, sub, fs, hl, ht, hv, rfl⟩ := Schema.documentAt_iff.mp hnow
  have hin := hl.inner ht hv hf
  refine ⟨apt_of_leads hin hw ha.bounded ?_, hin.resolve hw⟩
  rintro _ ⟨q, fld, sub', hq, hres, ht', hvariants, rfl⟩
  have hlq := (passable_of_leads hin hw hq hres).1
  have hsome : (raw.get? q).isSome := by
    rcases eq_or_isAbove_or (covers_of_isAbove hq) (covers_append r rel) with rfl | habove | hbelow
    · rw [Document.get?, hraw]
      rfl
    · exact get?_isSome_of_covers (by rw [hraw]; rfl) (covers_of_isAbove habove)
    · obtain ⟨y, hy, rfl⟩ := isAbove_iff.mp hbelow
      have hn := hl.resolve_between hw ht hv hf hy (append_isAbove_append.mp hq)
      rw [← Document.resolve, hres] at hn
      cases hn
  have hold := hleads q fld hsome hlq
  refine ha.selected _ ⟨q, fld, sub', hq, ?_, ht', hvariants, rfl⟩
  rw [h.completes.schema] at hw hold
  exact hold.resolve hw

theorem filledIn (hl : d.Loaded raw.schema ∧ d.Awaits es) (he : e ∈ es)
    (hdoc : raw.schema.DocumentAt raw.value e.2.root e.2.schema) (hf : (rel, f) ∈ e.2.schema.fields)
    (ha : raw.Apt (e.2.root ++ rel)) (hlacks : d.Lacks e.2.root rel f)
    (hok : (d.value.set (e.2.root ++ rel) x).1 = .ok ()) : Supplied raw
      (Document.filledIn { d with value := (d.value.set (e.2.root ++ rel) x).2 } e.1 rel (e.2.root ++ rel) f) := by
  obtain ⟨ha, hresolve⟩ := h.apt hw hdoc hf ha
  obtain ⟨w, hembeds⟩ := hdoc
  refine h.fill hw ha hlacks.absent hok rfl ?_ (h.completes.filledIn hw.keyed_of_wellFormed hembeds hf hlacks)
  refine h.charted.fill hw ha hresolve hlacks.absent hok .modify h.charted.sound.scopes.modify ?_
  exact (Loaded.filledIn ⟨hl.1.set (ne_nil_of_resolve hresolve), hl.2⟩ ⟨e.2, he, rfl⟩).1.sound

end

theorem seedRequired : Supplied raw d.seedRequired := by
  have hvalue : d.seedRequired.value = d.value := scopes_seedRequired.2
  refine ⟨h.charted.seedRequired, h.completes.seedRequired, ?_, ?_, ?_⟩
  all_goals rw [hvalue]
  · exact h.ordered
  · exact h.leads
  · exact h.documents

end Supplied

-- The defaults of the fields of embedded documents are filled in along apt paths.
def AptDefaults (raw : Document) : Prop :=
  ∀ r t e, raw.schema.DocumentAt raw.value r t → e ∈ t.fields → e.2.rules.hasDefault → raw.Apt (r ++ e.1)

theorem keeps_loadEdit_supplied (hw : raw.schema.Meets .wellFormed) (ha : raw.AptDefaults)
    (hobj : ∃ fs, raw.value = .obj fs) :
    Keeps (fun d => d.Loaded raw.schema ∧ Supplied raw d) (loadEdit raw.schema) := by
  refine keeps_loadEdit (J := fun es d => (d.Loaded raw.schema ∧ d.Awaits es) ∧ Supplied raw d ∧
      ∀ e ∈ es, raw.schema.DocumentAt raw.value e.2.root e.2.schema) (fun _ _ hd => ⟨hd.1.reported, hd.2.reported⟩)
    (fun _ _ _ _ hf hl hok hd => ⟨(hd.1.set hl.ne_nil).filled, hd.2.filled hw hobj hf hl hok⟩)
    (fun _ hd => ⟨⟨hd.1, hd.1.awaits⟩, hd.2, fun _ => hd.2.completes.embeds⟩)
    (fun _ _ _ hd => ⟨⟨hd.1.1.reported, hd.1.2⟩, hd.2.1.reported, hd.2.2⟩)
    (fun _ e _ _ _ _ he hf hl hok hd => ⟨Loaded.filledIn ⟨hd.1.1.set hl.ne_nil, hd.1.2⟩ ⟨e.2, he, rfl⟩, ?_, hd.2.2⟩)
    (fun _ _ hd => ⟨hd.1.1, hd.2.1⟩) fun _ hd => ⟨hd.1.seedRequired, hd.2.seedRequired⟩
  have hdoc := hd.2.2 e he
  exact hd.2.1.filledIn hw hd.1 he hdoc hf (ha _ _ _ hdoc hf hl.hasDefault) hl hok

theorem charted_attachLoaded (hw : raw.schema.Meets .wellFormed) (hscopes : raw.scopes = {})
    (hs : raw.trackLoaded.attachLoaded.Sound) : raw.trackLoaded.attachLoaded.Charted raw.schema := by
  have hempty : Scopes.Sound false {} := Scopes.sound_empty
  have hattached : raw.trackLoaded.attachLoaded.scopes =
      Schema.attachFields none .loaded [] raw.value {} raw.schema.fields := by
    rw [← foldl_attachField, ← hscopes]
    rfl
  have hgains : Scopes.Gains (fun scope => raw.schema.DocumentAt raw.value scope.root scope.schema)
      (fun r => ∃ t, raw.schema.DocumentAt raw.value r t) {} raw.trackLoaded.attachLoaded.scopes :=
    attachLoaded_gains hscopes fun h => ⟨_, h⟩
  have hfiled : raw.trackLoaded.attachLoaded.scopes.Filed := by
    have hnone : Scopes.Tidy {} ∧ Scopes.Filed {} := ⟨hempty.tidy, fun k scope hs => by cases hs⟩
    rw [hattached]
    exact (Scopes.graftable_filed.attachFields hw trivial hnone fun _ _ _ _ => rfl).2
  refine ⟨hs, hfiled, fun _ => False.elim, fun r t _ => ?_, rfl⟩
  have hiff := hgains.schemaAt?_iff (r := r) (t := t) hempty.tidy hempty.rooted (fun _ h => h)
    (fun _ _ _ h h' => h.unique h' hw) fun _ _ _ => rfl
  exact hiff.trans ⟨fun h => h.resolve_left (fun he => by cases he), .inr⟩

theorem charted_of_load {projection : Option Projection} (hw : schema.Meets .wellFormed) (hordered : record.Ordered)
    (ha : AptDefaults { schema, value := record, isNew := false, projection })
    (h : (load schema record projection effects).1 = .ok d) : d.Charted schema ∧ d.Idle := by
  obtain ⟨fields, -, hrecord, -⟩ := ok_of_load h
  let raw : Document := { schema, value := record, isNew := false, projection }
  have : d.Loaded schema ∧ Supplied raw d := load_of_keeps h (keeps_loadEdit_supplied hw ha ⟨fields, hrecord⟩) fun _ hfs =>
    have hstart : raw.trackLoaded.attachLoaded.Loaded schema := loaded_attachLoaded hfs
    ⟨hstart, {
      charted := charted_attachLoaded hw rfl hstart.sound
      completes := completes_attachLoaded rfl rfl
      ordered := hordered
      leads := fun _ _ _ h => h
      documents := fun _ _ h => h }⟩
  exact ⟨this.2.charted, this.1.backup, this.1.snapshot, this.2.ordered⟩

end

-- A document that was made without writes through missing documents, and without writes to keys that tell variants
-- apart.
inductive AptStart (schema : Schema) : Document → Prop
  | created {fields effects d} : AptRounds {} maxRounds (given schema fields effects) →
    (create schema (.obj fields) effects).1 = .ok d → AptStart schema d
  | loaded {record projection effects d} : record.Ordered →
    AptDefaults { schema, value := record, isNew := false, projection } →
    (load schema record projection effects).1 = .ok d → AptStart schema d

theorem AptStart.charted (h : AptStart schema d) (hw : schema.Meets .wellFormed) : d.Charted schema ∧ d.Idle := by
  cases h with
  | created hr h => exact charted_of_create hw hr h
  | loaded ho ha h => exact charted_of_load hw ho ha h


end Document
end Dossier

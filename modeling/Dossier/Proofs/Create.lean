import Dossier.Proofs.Sound

-- New and loaded documents are sound, and nothing is modified in a loaded one.

namespace Dossier

open List

namespace Edit

variable {s : Desk} {p : Path} {M : Desk → Prop}

theorem outcome_storeDefault {made : Except CastFailure (Option Value)} : (storeDefault p made stored).outcome s =
    match made with
    | .ok none => (.ok (), s)
    | .ok (some v) =>
      match s.doc.value.set p v with
      | (.ok (), value) => (.ok (), { s with doc := stored { s.doc with value } })
      | (.error e, value) => (.error (.path e), { s with doc := { s.doc with value } })
    | .error (.cast e) => (.ok (), { s with doc := (s.doc.invalidate p (.cast e)).2 })
    | .error (.strict e) => (.error (.strict e), s) := by
  match made with
  | .ok none | .error (.cast e) | .error (.strict e) => rfl
  | .ok (some v) =>
    simp only [storeDefault, outcome_bind, outcome_doc, outcome_change]
    rcases s.doc.value.set p v with ⟨_ | _, _⟩ <;> rfl

theorem storeDefault_rec {made : Except CastFailure (Option Value)} (hs : M s)
    (hissues : ∀ issues, M { s with doc := { s.doc with issues } })
    (hset : ∀ v, made = .ok (some v) → (s.doc.value.set p v).1 = .ok () →
      M { s with doc := stored { s.doc with value := (s.doc.value.set p v).2 } }) :
    M ((storeDefault p made stored).outcome s).2 := by
  rw [outcome_storeDefault]
  split
  · exact hs
  · case _ v =>
    have hok := hset v rfl
    split
    · case _ value he =>
      rw [he] at hok
      exact hok rfl
    · case _ e value he =>
      obtain rfl : value = s.doc.value := by
        rw [← (Value.setFrom_of_error (congrArg Prod.fst he)).1]
        exact (congrArg Prod.snd he).symm
      exact hs
  · exact hissues _
  · exact hs

end Edit

namespace Document

open Edit

def filled (d : Document) (p : Path) (f : Field) : Document :=
  { d with
    tracker := d.tracker.transition p .default
    scopes := d.scopes.attachField f p (d.get? p) none .created }

def filledIn (d : Document) (key : ScopeKey) (rel p : Path) (f : Field) : Document :=
  let scopes := d.scopes.modify key fun scope =>
    { scope with tracker := scope.tracker.transition rel .default }
  { d with
    tracker := d.tracker.transition p .default
    scopes := scopes.attachField f p (d.get? p) (some key) .created }

-- The default of a field that is declared at a root is wanted: nothing is there, though it was selected, and
-- nothing is in the way to it.
structure Lacks (d : Document) (root rel : Path) (f : Field) : Prop where
  hasDefault : f.rules.hasDefault
  absent     : d.get? (root ++ rel) = none
  selected   : d.isSelected (root ++ rel)
  within     : ∃ value, d.get? root = some value ∧ ¬ value.blocks rel

theorem Lacks.ne_nil {d : Document} {f : Field} (h : d.Lacks root rel f) : root ++ rel ≠ [] := by
  intro hnil
  have hnone := h.absent
  rw [hnil] at hnone
  cases hnone

end Document

namespace Edit

variable {s : Desk} {I : Document → Prop} {M : Desk → Prop}

theorem fill_rec {c : Cast (Option Value)} {rest : Edit Unit}
    (hissues : ∀ d effects issues, M ⟨d, effects⟩ → M ⟨{ d with issues }, effects⟩)
    (hmade : M { s with effects := (c.outcome s.effects).2 })
    (hset : ∀ v, (c.outcome s.effects).1 = .ok (some v) → (s.doc.value.set p v).1 = .ok () →
      M ⟨stored { s.doc with value := (s.doc.value.set p v).2 }, (c.outcome s.effects).2⟩)
    (hrest : ∀ s, M s → M (rest.outcome s).2) :
    M ((do let made ← cast c; storeDefault p made stored; rest : Edit Unit).outcome s).2 := by
  rw [outcome_bind, outcome_cast]
  have hstore := storeDefault_rec hmade (fun issues => hissues _ _ issues hmade) hset
  dsimp only
  rw [outcome_bind]
  generalize (storeDefault p _ stored).outcome _ = r at hstore
  rcases r with ⟨_ | _, s'⟩
  · exact hstore
  · exact hrest s' hstore

theorem fillDefaults_rec {fields : List (Path × Field)}
    (hissues : ∀ d effects issues, M ⟨d, effects⟩ → M ⟨{ d with issues }, effects⟩)
    (hmade : ∀ s p f view ctx, (p, f) ∈ fields → M s → M { s with effects := ((f.default? view ctx).outcome s.effects).2 })
    (hfilled : ∀ s p f view ctx v, (p, f) ∈ fields → s.doc.Lacks [] p f →
      ((f.default? view ctx).outcome s.effects).1 = .ok (some v) → (s.doc.value.set p v).1 = .ok () → M s →
      M ⟨Document.filled { s.doc with value := (s.doc.value.set p v).2 } p f,
        ((f.default? view ctx).outcome s.effects).2⟩)
    (s : Desk) (hs : M s) : M ((fillDefaults fields).outcome s).2 := by
  induction fields generalizing s with
  | nil => exact hs
  | cons e fields ih =>
    obtain ⟨p, f⟩ := e
    have ih := ih (fun s q g view ctx hm => hmade s q g view ctx (mem_cons_of_mem _ hm))
      fun s q g view ctx v hm => hfilled s q g view ctx v (mem_cons_of_mem _ hm)
    rw [fillDefaults, outcome_bind, outcome_doc]
    dsimp only
    split
    · case isTrue hc =>
      have hlacks : s.doc.Lacks [] p f :=
        ⟨hc.1, by simpa using hc.2.1, hc.2.2.1, s.doc.value, Value.get?_nil _, hc.2.2.2⟩
      exact fill_rec hissues (hmade s p f _ _ mem_cons_self hs)
        (fun v hv hok => hfilled s p f _ _ v mem_cons_self hlacks hv hok hs) ih
    · exact ih s hs

variable (hissues : ∀ d issues, I d → I { d with issues })

include hissues

theorem keeps_fillDefaults {fields : List (Path × Field)}
    (hfilled : ∀ d p f v, (p, f) ∈ fields → d.Lacks [] p f → (d.value.set p v).1 = .ok () → I d →
      I (Document.filled { d with value := (d.value.set p v).2 } p f)) : Keeps I (fillDefaults fields) :=
  fillDefaults_rec (M := fun s => I s.doc) (fun d _ => hissues d) (fun _ _ _ _ _ _ hs => hs)
    fun s p f _ _ v hm hl _ => hfilled s.doc p f v hm hl

theorem keeps_fillScopeDefaults {key : ScopeKey}
    (hfilled : ∀ d rel f v, (rel, f) ∈ fields → d.Lacks root rel f → (d.value.set (root ++ rel) v).1 = .ok () → I d →
      I (Document.filledIn { d with value := (d.value.set (root ++ rel) v).2 } key rel (root ++ rel) f)) :
    Keeps I (fillScopeDefaults key root fields) := by
  induction fields with
  | nil => exact keeps_pure
  | cons e fields ih =>
    obtain ⟨rel, f⟩ := e
    have ih := ih fun d q g v hm => hfilled d q g v (mem_cons_of_mem _ hm)
    intro s hs
    rw [fillScopeDefaults, outcome_bind, outcome_doc]
    dsimp only
    split
    · case isTrue hc =>
      split
      · exact hs
      · case _ value hvalue =>
        split
        · case isTrue hblocks =>
          have hlacks : s.doc.Lacks root rel f := ⟨hc.1, by simpa using hc.2.1, hc.2.2, value, hvalue, hblocks⟩
          exact fill_rec (M := fun s => I s.doc) (fun d _ => hissues d) hs
            (fun v _ hok => hfilled s.doc rel f v mem_cons_self hlacks hok hs) ih
        · exact ih s hs
    · exact ih s hs

-- A record is completed by defaults where nothing is: first its own, then those of the documents in it. `J` holds while
-- the defaults of these documents are filled in.
theorem keeps_loadEdit {J : List (ScopeKey × Scope) → Document → Prop}
    (hfilled : ∀ d p f v, (p, f) ∈ schema.fields → d.Lacks [] p f → (d.value.set p v).1 = .ok () → I d →
      I (Document.filled { d with value := (d.value.set p v).2 } p f))
    (hawaits : ∀ d, I d → J (d.scopes.toList.filter fun e => ¬ e.2.isNew) d)
    (hissued : ∀ es d issues, J es d → J es { d with issues })
    (hfilledIn : ∀ es e d rel f v, e ∈ es → (rel, f) ∈ e.2.schema.fields → d.Lacks e.2.root rel f →
      (d.value.set (e.2.root ++ rel) v).1 = .ok () → J es d →
      J es (Document.filledIn { d with value := (d.value.set (e.2.root ++ rel) v).2 } e.1 rel (e.2.root ++ rel) f))
    (hJ : ∀ es d, J es d → I d) (hseed : ∀ d, I d → I d.seedRequired) : Keeps I (Document.loadEdit schema) := by
  have hinner : ∀ es rest : List (ScopeKey × Scope), (∀ e ∈ rest, e ∈ es) → Keeps (J es) (fillLoadedScopes rest) := by
    intro es rest hrest
    induction rest with
    | nil => exact keeps_pure
    | cons e rest ih =>
      obtain ⟨he, hrest⟩ := forall_mem_cons.mp hrest
      exact (keeps_fillScopeDefaults (hissued es) fun d rel f v => hfilledIn es e d rel f v he).bind fun _ => ih hrest
  refine (keeps_fillDefaults hissues hfilled).bind fun _ s hs => ?_
  have hfill := hinner _ _ (fun _ he => he) s (hawaits _ hs)
  rw [outcome_bind, outcome_doc]
  dsimp only
  rw [outcome_bind]
  generalize (fillLoadedScopes _).outcome s = r at hfill
  rcases r with ⟨_ | _, s'⟩
  · exact hJ _ _ hfill
  · exact (keeps_clearQueue.bind fun _ => keeps_change hseed) s' (hJ _ _ hfill)

end Edit

namespace Document

open Edit

variable {d : Document} {p : Path} {I : Document → Prop} {schema : Schema} {initial record : Value}
  {projection : Option Projection} {effects : Effects}

-- Soundness

theorem Sound.withTracker {t : Tracker} (h : d.Sound) (ht : t.Consistent) : Sound { d with tracker := t } :=
  ⟨ht, h.scopes, h.object, h.populated, h.snapshot, h.backup⟩

theorem Sound.set {v : Value} (h : d.Sound) (hp : p ≠ []) : Sound { d with value := (d.value.set p v).2 } := by
  obtain ⟨fields, hf⟩ := h.object
  exact h.withValue (hf ▸ Value.set_object hp)

theorem Sound.filled (h : d.Sound) : (d.filled p f).Sound :=
  (h.withTracker h.tracker.transition).withScopes (h.scopes.attachField Scopes.around_none)

theorem seedRequired_rec (h : I d)
    (hrequired : ∀ {d p}, d.stateOf? p = none → I d → I { d with tracker := d.tracker.transition p .require }) :
    I d.seedRequired := by
  refine List.foldlRecOn (motive := I) _ _ h fun d h e _ => ?_
  dsimp only
  split
  · case isTrue hc => exact hrequired (Option.isNone_iff_eq_none.mp hc.2.2.1) h
  · exact h

theorem scopes_seedRequired : d.seedRequired.scopes = d.scopes ∧ d.seedRequired.value = d.value :=
  seedRequired_rec (I := fun d' => d'.scopes = d.scopes ∧ d'.value = d.value) ⟨rfl, rfl⟩ fun _ h => h

theorem Sound.seedRequired (h : d.Sound) : d.seedRequired.Sound :=
  seedRequired_rec h fun _ hd => hd.withTracker hd.tracker.transition

theorem ok_of_create (h : (create schema initial effects).1 = .ok d) : ∃ fields s, initial = .obj fields ∧
      (createEdit schema fields).outcome ⟨{ schema, value := .obj [], isNew := true }, effects⟩ = (.ok (), s) ∧
      d = s.doc := by
  unfold create at h
  split at h
  · case _ fields =>
    dsimp only at h
    split at h
    · case _ s hs =>
      cases h
      exact ⟨fields, s, rfl, hs, rfl⟩
    · cases h
  · cases h

theorem ok_of_map {r : Except DocumentError Document} (h : r.toOption.map g = some b) : ∃ d, r = .ok d ∧ g d = b := by
  cases r with
  | error => cases h
  | ok d => exact ⟨d, rfl, Option.some.inj h⟩

-- What there is when all that was given is set, before setters are heard.
def given (schema : Schema) (fields : List (String × Value)) (effects : Effects) : Desk :=
  ((setKeys fields Path.root {}).outcome
    ⟨{ schema, value := .obj [], isNew := true }, { effects with queue := [] }⟩).2

theorem given_of_create {fields : List (String × Value)} (h : (create schema (.obj fields) effects).1 = .ok d) : ∃ s s',
    (setKeys fields Path.root {}).outcome ⟨{ schema, value := .obj [], isNew := true }, { effects with queue := [] }⟩ =
      (.ok (), given schema fields effects) ∧
    (settle {} maxRounds).outcome (given schema fields effects) = (.ok (), s) ∧
    (fillDefaults schema.fields).outcome s = (.ok (), s') ∧ d = s'.doc.seedRequired := by
  obtain ⟨fields, desk, ⟨⟩, hok, rfl⟩ := ok_of_create h
  rw [createEdit] at hok
  obtain ⟨_, _, hq, hok⟩ := ok_of_bind_ok hok
  cases hq
  obtain ⟨_, s₁, hkeys, hok⟩ := ok_of_bind_ok hok
  obtain ⟨_, s₂, hsettle, hok⟩ := ok_of_bind_ok hok
  obtain ⟨_, s₃, hfill, hok⟩ := ok_of_bind_ok hok
  obtain ⟨_, _, hq, hok⟩ := ok_of_bind_ok hok
  cases hq
  cases hok
  have hgiven : given schema fields effects = s₁ := congrArg (·.2) hkeys
  exact ⟨s₂, s₃, hgiven ▸ hkeys, hgiven ▸ hsettle, hfill, rfl⟩

-- Writes to paths of the kind `P` keep a property, and setters ask for no others.
theorem create_of_rounds {fields : List (String × Value)} (hI : Heeds P I) (hkeys : ∀ e ∈ fields, P [.key e.1])
    (hr : Rounds (Path.Opens P) {} maxRounds (given schema fields effects))
    (hfilled : ∀ {d p f v}, (p, f) ∈ schema.fields → d.Lacks [] p f → (d.value.set p v).1 = .ok () → I d →
      I (Document.filled { d with value := (d.value.set p v).2 } p f)) (hseed : ∀ {d}, I d → I d.seedRequired)
    (hblank : I { schema, value := .obj [], isNew := true }) (h : (create schema (.obj fields) effects).1 = .ok d) :
    I d := by
  obtain ⟨s, s', hset, hsettle, hfill, rfl⟩ := given_of_create h
  have hgiven := hI.keeps_setKeys fields Path.root hkeys {} ⟨_, { effects with queue := [] }⟩ hblank
  rw [hset] at hgiven
  have hsettled := hI.settle hr hgiven
  rw [hsettle] at hsettled
  have hfills := keeps_fillDefaults (fun _ _ hd => hI.reported hd) (fun _ _ _ _ => hfilled) s hsettled
  rw [hfill] at hfills
  exact hseed hfills

theorem create_of_heeds (hI : Heeds (· ≠ []) I)
    (hfilled : ∀ {d p f v}, (p, f) ∈ schema.fields → d.Lacks [] p f → (d.value.set p v).1 = .ok () → I d →
      I (Document.filled { d with value := (d.value.set p v).2 } p f)) (hseed : ∀ {d}, I d → I d.seedRequired)
    (hblank : I { schema, value := .obj [], isNew := true }) (h : (create schema initial effects).1 = .ok d) : I d := by
  obtain ⟨fields, -, rfl, -, -⟩ := ok_of_create h
  exact create_of_rounds hI (by simp) (rounds_of_forall Path.opens_ne_nil) hfilled hseed hblank h

theorem create_of_keeps (hs : Stable (· ≠ []) I)
    (hfilled : ∀ d p f v, p ≠ [] → I d → I (Document.filled { d with value := (d.value.set p v).2 } p f))
    (hseed : ∀ d, I d → I d.seedRequired) (hblank : I { schema, value := .obj [], isNew := true })
    (h : (create schema initial effects).1 = .ok d) : I d :=
  create_of_heeds (hs.heeds (by simp)) (fun _ hl _ => hfilled _ _ _ _ hl.ne_nil) (hseed _) hblank h

theorem sound_blank : Sound { schema, value := .obj [], isNew := true } :=
  ⟨Tracker.consistent_empty, Scopes.sound_empty, ⟨[], rfl⟩, by simp, by simp, by simp⟩

theorem create_sound (h : (create schema initial effects).1 = .ok d) : d.Sound :=
  create_of_keeps stable_sound (fun _ _ _ _ hp hd => (hd.set hp).filled) (fun _ hd => hd.seedRequired) sound_blank h

-- Loaded documents

structure Loaded (schema : Schema) (d : Document) : Prop where
  sound      : d.Sound
  schema     : d.schema = schema
  isNew      : d.isNew = false
  populated  : d.populated = ∅
  arrayOps   : d.arrayOps = ∅
  snapshot   : d.snapshot = ∅
  backup     : d.backup = none
  unmodified : ∀ p, d.stateOf? p ≠ some .modify
  linked     : d.scopes.Sound true
  scopes     : d.scopes.All (¬ ·.isNew) ∨ ∃ p, d.stateOf? p = some .default


theorem Loaded.set (h : d.Loaded schema) (hp : p ≠ []) : Loaded schema { d with value := (d.value.set p v).2 } :=
  { h with sound := h.sound.set hp }

theorem Loaded.reported {issues : Option Issues} (h : d.Loaded schema) : Loaded schema { d with issues } :=
  { h with sound := stable_sound.reported h.sound }

theorem Loaded.fill {scopes : Scopes} (h : d.Loaded schema) (hs : scopes.Sound true)
    (ht : t = d.tracker.transition p .default) : Loaded schema { d with tracker := t, scopes } := by
  subst ht
  refine { h with
    sound := (h.sound.withTracker h.sound.tracker.transition).withScopes hs.weaken
    unmodified := fun q => ?_
    linked := hs
    scopes := .inr ⟨p, ?_⟩ }
  · simp only [stateOf?, Tracker.stateOf?_transition]
    split
    · simp
    · exact h.unmodified q
  · simp [stateOf?, Tracker.stateOf?_transition]

theorem Loaded.filled (h : d.Loaded schema) : (d.filled p f).Loaded schema :=
  h.fill (h.linked.attachField Scopes.around_none) rfl

-- The scopes whose defaults are yet to be filled in have their ways out.
def Awaits (es : List (ScopeKey × Scope)) (d : Document) : Prop :=
  ∀ e ∈ es, d.scopes.Around true e.2.root (some e.1)

theorem Loaded.filledIn (h : d.Loaded schema ∧ d.Awaits es) (hk : ∃ scope, (key, scope) ∈ es ∧ scope.root = root) :
    (d.filledIn key rel (root ++ rel) f).Loaded schema ∧ (d.filledIn key rel (root ++ rel) f).Awaits es := by
  obtain ⟨scope, hm, rfl⟩ := hk
  have hs := h.1.linked.modify (k := key)
    (f := fun scope => scope.tracker.transition rel .default)
  have hkeep := f.attach_keeps (Scopes.attachable_sound .created) (some key) (scope.root ++ rel)
    (d.get? (scope.root ++ rel)) _ trivial hs (h.2 _ hm).modify.below
  exact ⟨h.1.fill hkeep.1 rfl, fun e he => hkeep.2 _ _ (h.2 e he).modify⟩

theorem Loaded.seedRequired (h : d.Loaded schema) : d.seedRequired.Loaded schema := by
  refine seedRequired_rec h fun {_ p} hnone h => { h with
    sound := h.sound.withTracker h.sound.tracker.transition
    unmodified := fun q => ?_
    scopes := h.scopes.imp_right fun ⟨q, hq⟩ => ⟨q, ?_⟩ }
  · simp only [stateOf?, Tracker.stateOf?_transition]
    split
    · simp
    · exact h.unmodified q
  · have hne : p ≠ q := by
      rintro rfl
      rw [hnone] at hq
      cases hq
    simp only [stateOf?, Tracker.stateOf?_transition, if_neg hne]
    exact hq

theorem trackLoaded_tracker (hs : state ≠ .init) (ht : d.tracker.Consistent) (hu : ∀ p, d.stateOf? p ≠ some state) :
    d.trackLoaded.tracker.Consistent ∧ ∀ p, d.trackLoaded.stateOf? p ≠ some state := by
  have step : ∀ (t : Tracker) (q : Path), (t.Consistent ∧ ∀ p, t.stateOf? p ≠ some state) →
      (t.transition q .init).Consistent ∧ ∀ p, (t.transition q .init).stateOf? p ≠ some state := by
    refine fun t q h => ⟨h.1.transition, fun p => ?_⟩
    rw [Tracker.stateOf?_transition]
    split
    · simpa using hs.symm
    · exact h.2 p
  let Q := fun t : Tracker => t.Consistent ∧ ∀ p, t.stateOf? p ≠ some state
  refine List.foldlRecOn (motive := Q) _ _
    (List.foldlRecOn (motive := Q) _ _ ⟨ht, hu⟩ fun t h e _ => ?_) fun t h k _ => ?_
  · obtain ⟨q, f⟩ := e
    dsimp only
    split
    · exact step t q h
    · exact h
  · dsimp only
    split
    · exact step t _ h
    · exact h

theorem attachLoaded_scopes (hs : d.scopes.Sound true) (hn : d.scopes.All (¬ ·.isNew)) :
    d.attachLoaded.scopes.Sound true ∧ d.attachLoaded.scopes.All (¬ ·.isNew) := by
  refine List.foldlRecOn (motive := fun s : Scopes => s.Sound true ∧ s.All (¬ ·.isNew)) _ _ ⟨hs, hn⟩
    fun s h e _ => ?_
  exact ⟨h.1.attachField Scopes.around_none,
    (Scopes.all_attachField h.1.tidy h.2 fun scope hnew _ => by simp [hnew, Origin.isNew]).2⟩

theorem Loaded.awaits (h : d.Loaded schema) : d.Awaits (d.scopes.toList.filter fun e => ¬ e.2.isNew) := by
  intro e he
  exact h.linked.linked _ _ (h.linked.rooted.keyAt?_of_mem_toList (mem_filter.mp he).1)

theorem keeps_loadEdit_loaded : Keeps (Loaded schema) (loadEdit schema) :=
  keeps_loadEdit (J := fun es d => d.Loaded schema ∧ d.Awaits es) (fun _ _ hd => hd.reported)
    (fun _ _ _ _ _ hl _ hd => (hd.set hl.ne_nil).filled) (fun _ hd => ⟨hd, hd.awaits⟩)
    (fun _ _ _ hd => ⟨hd.1.reported, hd.2⟩)
    (fun _ e _ _ _ _ he _ hl _ hd => Loaded.filledIn ⟨hd.1.set hl.ne_nil, hd.2⟩ ⟨e.2, he, rfl⟩) (fun _ _ hd => hd.1)
    fun _ hd => hd.seedRequired

theorem ok_of_load (h : (load schema record projection effects).1 = .ok d) : ∃ fields s, record = .obj fields ∧
      (loadEdit schema).outcome
        ⟨(trackLoaded { schema, value := record, isNew := false, projection }).attachLoaded, effects⟩ = (.ok (), s) ∧
      d = s.doc := by
  unfold load at h
  split at h
  · case _ fields =>
    dsimp only at h
    split at h
    · case _ s hs =>
      cases h
      exact ⟨fields, s, rfl, hs, rfl⟩
    · cases h
  · cases h

theorem load_of_keeps (h : (load schema record projection effects).1 = .ok d) (hk : Keeps I (loadEdit schema))
    (hstart : ∀ fields, record = .obj fields →
      I (trackLoaded { schema, value := record, isNew := false, projection }).attachLoaded) : I d := by
  obtain ⟨fields, s, hrecord, hok, rfl⟩ := ok_of_load h
  have hd := hk ⟨(trackLoaded { schema, value := record, isNew := false, projection }).attachLoaded, effects⟩
    (hstart fields hrecord)
  rwa [hok] at hd

theorem loaded_attachLoaded (hrecord : record = .obj fields) :
    (trackLoaded { schema, value := record, isNew := false, projection }).attachLoaded.Loaded schema := by
  subst hrecord
  generalize hstart : trackLoaded _ = tracked
  obtain ⟨ht, hu⟩ := trackLoaded_tracker
    (d := { schema, value := .obj fields, isNew := false, projection }) (by simp : PathState.modify ≠ .init)
    Tracker.consistent_empty (by simp [stateOf?])
  rw [hstart] at ht hu
  obtain ⟨hs, hn⟩ := attachLoaded_scopes (d := tracked) (by rw [← hstart]; exact Scopes.sound_empty)
    (by rw [← hstart]; intro k scope hs; cases hs)
  subst hstart
  exact {
    sound := ⟨ht, hs.weaken, ⟨fields, rfl⟩, by simp [attachLoaded, trackLoaded],
      by simp [attachLoaded, trackLoaded], by simp [attachLoaded, trackLoaded]⟩
    schema := rfl
    isNew := rfl
    populated := rfl
    arrayOps := rfl
    snapshot := rfl
    backup := rfl
    unmodified := hu
    linked := hs
    scopes := .inl hn }

theorem load_loaded (h : (load schema record projection effects).1 = .ok d) : d.Loaded schema :=
  load_of_keeps h keeps_loadEdit_loaded fun _ => loaded_attachLoaded

end Document
end Dossier

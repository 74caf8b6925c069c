import Dossier.Proofs.Groups
import Dossier.Proofs.Loading

-- A new document tracks every field that was given a value, or the group that the field is in.

namespace Dossier

open Path Value List

-- Writes around a value

namespace Path

variable {p q : Path}

-- What is written at the path replaces the value at another one as a whole, or leaves it alone.
def Spares (p q : Path) : Prop :=
  p ≠ [] ∧ (p.covers q ∨ p.Distinct q)

theorem Spares.not_isAbove (h : p.Spares q) : ¬ q.isAbove p := by
  intro ha
  rcases h.2 with hc | hd
  · exact not_covers_of_isAbove ha hc
  · exact hd.symm.not_covers (covers_of_isAbove ha)

theorem spares_key (h : p.isAbove q) (hq : ∀ seg ∈ q, seg.index? = none) (k : String) : Spares (p ++ [.key k]) q := by
  obtain ⟨r, hr, rfl⟩ := isAbove_iff.mp h
  refine ⟨by simp, ?_⟩
  cases r with
  | nil => exact absurd rfl hr
  | cons seg r =>
    cases seg with
    | index i => cases hq (.index i) (by simp)
    | key k' =>
      by_cases hk : k = k'
      · exact .inl (covers_iff.mpr ⟨r, by simp [hk]⟩)
      · exact .inr ⟨by simp [Seg.toKey, hk], by simp [Seg.toKey, Ne.symm hk]⟩

end Path

-- Scopes of embedded documents

theorem Schema.Meets.keyed_of_wellFormed {s : Schema} (h : s.Meets .wellFormed) : s.Meets .keyed := by
  intro part hpart
  cases part with
  | paths ps => exact fun p hp => ⟨((h _ hpart).1 p hp).1, ((h _ hpart).1 p hp).2.2⟩
  | rules | variants => trivial

theorem foldl_of_mem {α : Type} {P : β → Prop} {g : β → α → β} {l : List α} {a : α} (ha : a ∈ l) (b : β)
    (hmade : ∀ b, P (g b a)) (hkept : ∀ b, ∀ a' ∈ l, P b → P (g b a')) : P (l.foldl g b) := by
  obtain ⟨l₁, l₂, rfl⟩ := append_of_mem ha
  rw [foldl_append, foldl_cons]
  exact List.foldlRecOn _ _ (hmade _) fun b hb a' ha' => hkept b a' (by simp [ha']) hb

theorem Schema.follows_seedTracker {s : Schema} {p : Path} {f : Field} {state : PathState}
    (hs : state ∈ [PathState.init, .modify, .default]) (hf : (p, f) ∈ s.fields) (hp : (w.get? p).isSome) :
    (s.seedTracker w state).Follows p := by
  rw [seedTracker]
  refine foldl_of_mem (P := fun t : Tracker => t.Follows p) hf _ (fun t => ?_) fun t e _ h => ?_
  · dsimp only
    rw [if_pos hp]
    exact Tracker.follows_transition_self hs
  · dsimp only
    split
    · exact h.transition hs
    split
    · case _ hnone _ => exact h.transition_ne fun he => hnone (he ▸ hp)
    · exact h

-- A scope tracks the fields that an embedded document has values for.
structure Scope.Tracks (s : Schema) (w : Value) (scope : Scope) : Prop where
  consistent : scope.tracker.Consistent
  follows    : ∀ p f, (p, f) ∈ s.fields → (w.get? p).isSome → scope.tracker.Follows p

theorem Scope.tracks_made {parent : Option ScopeKey} : (Scope.made .created parent r s w).Tracks s w :=
  ⟨Scopes.seedTracker_consistent, fun _ _ hf hp => Schema.follows_seedTracker (by simp [Origin.state]) hf hp⟩

namespace Scopes

variable {P : Scope → Prop} {s s' : Scopes} {p r : Path} {f : Field} {v : Option Value} {o : Option ScopeKey} {full : Bool}

theorem At.removeBelow (h : At P s r) (ht : s.Tidy) (hr : s.Rooted) (hp : ¬ p.covers r) : At P (s.removeBelow p) r := by
  obtain ⟨k, scope, hk, hs, rfl, hscope⟩ := h
  exact ⟨k, scope, by rw [(removeBelow_spec ht hr).2.2.2, if_neg hp, hk], get?_removeBelow ht hr hs fun _ => hp, rfl,
    hscope⟩

theorem not_mem_owners {k : ScopeKey} (h : s.Sound full) (hk : s.keyAt? scope.root = some k)
    (hs : s.get? k = some scope) (hp : ¬ scope.root.covers p) : k ∉ s.owners p := by
  intro hmem
  obtain ⟨scope', hs', hc⟩ := h.innermost _ k hmem
  rw [hs] at hs'
  cases hs'
  exact hp (hc (.inl hk))

theorem At.attachField (h : At P s r) (ht : s.Tidy) (hf : f.type.Meets .wellFormed) (hp : ¬ p.covers r) :
    At P (s.attachField f p v o .created) r := by
  have hadds : Adds (fun scope => p.covers scope.root) s (s.attachField f p v o .created) :=
    (attachField_gains (fun he => he.covers hf) ht).adds
  exact h.adds_ne ht hadds fun scope hc hroot => hp (hroot ▸ hc)

theorem at_attachField (ht : s.Tidy) (hf : f.type.Meets .wellFormed) {s' : Schema} (he : f.type.Embeds p v r s' w) :
    At (Scope.Tracks s' w) (s.attachField f p v o .created) r := by
  let Q : Scope → Prop := fun scope => ∀ s' w, f.type.Embeds p v scope.root s' w → scope.Tracks s' w
  have hmade : ∀ {r s' w parent}, f.type.Embeds p v r s' w → Q (.made .created parent r s' w) := by
    intro r s' w parent h s'' w' h'
    obtain ⟨rfl, rfl⟩ := h.unique h' hf
    exact Scope.tracks_made
  have hgains : Gains Q _ s (s.attachField f p v o .created) := attachField_gains hmade ht
  obtain ⟨k, scope, hk, hs, rfl, hscope⟩ := hgains.has r ⟨s', w, he⟩
  exact ⟨k, scope, hk, hs, rfl, hscope _ _ he⟩

theorem attachField_of_not_structural (hf : ¬ f.type.isStructural) : s.attachField f p v o origin = s := by
  rw [attachField, Field.attach_eq]
  cases ht : f.type with
  | embedded | documentArray | array | map => simp [ht, FieldType.isStructural] at hf
  | string | number | boolean | date | id | mixed => simp only [FieldType.attach]

end Scopes

namespace Document

open Edit

variable {schema : Schema} {d d' : Document} {p q r : Path} {f : Field} {e : Path × Field} {v : Value} {P : Scope → Prop}

-- A field of the document, or of an embedded document in the value of that field.
def HasFieldIn (d : Document) (e : Path × Field) (p : Path) (f : Field) : Prop :=
  (p, f) = e ∨ ∃ r s w rel, e.2.type.Embeds e.1 (d.get? e.1) r s w ∧ (rel, f) ∈ s.fields ∧ p = r ++ rel

theorem hasFieldIn_of_hasField (h : schema.HasField d.value p f) : ∃ e ∈ schema.fields, d.HasFieldIn e p f := by
  rcases h with hf | ⟨r, s, w, rel, ⟨q, g, hg, hem⟩, hrel, rfl⟩
  · exact ⟨_, hf, .inl rfl⟩
  · exact ⟨_, hg, .inr ⟨r, s, w, rel, hem, hrel, rfl⟩⟩

theorem HasFieldIn.covers (h : d.HasFieldIn e p f) (hw : e.2.type.Meets .wellFormed) : e.1.covers p := by
  rcases h with rfl | ⟨r, s, w, rel, hem, -, rfl⟩
  · exact covers_refl p
  · exact covers_trans (hem.covers hw) (covers_append r rel)

-- The embedded documents in the value of a field have scopes that track them.
structure Attended (schema : Schema) (e : Path × Field) (d : Document) : Prop where
  housed  : d.Housed schema
  tracked : ∀ r s w, e.2.type.Embeds e.1 (d.get? e.1) r s w → Scopes.At (Scope.Tracks s w) d.scopes r

namespace Housed

variable (h : d.Housed schema)

include h

theorem attended_of_absent (hn : d.get? e.1 = none) : d.Attended schema e := by
  refine ⟨h, fun r s w hem => ?_⟩
  have := hem.isSome
  rw [hn] at this
  cases this

theorem resolve_covers (hw : schema.Meets .wellFormed) (he : e ∈ schema.fields) (hp : p ≠ []) (hc : p.covers e.1) :
    p = e.1 ∧ d.resolve p = .field e.2 ∨ p.isAbove e.1 ∧ d.resolve p = .nested := by
  rw [Document.resolve, h.schema]
  rcases eq_or_isAbove_of_covers hc with rfl | ha
  · exact .inl ⟨rfl, Schema.resolve_declared hw.apart he⟩
  · exact .inr ⟨ha, Schema.resolve_of_isAbove hw.apart he ha hp⟩

theorem not_mem_owners (he : e ∈ schema.fields) (hp : ¬ e.1.isAbove p) (hk : d.scopes.keyAt? scope.root = some k)
    (hs : d.scopes.get? k = some scope) (hr : e.1.covers scope.root) : k ∉ d.scopes.owners p := by
  by_cases hc : p.covers e.1
  · rw [Scopes.owners_of_innermost? (h.scopes.innermost? he hc)]
    exact not_mem_nil
  · refine Scopes.not_mem_owners h.sound.scopes hk hs fun hroot => ?_
    rcases eq_or_isAbove_of_covers (covers_trans hr hroot) with rfl | ha
    · exact hc (covers_refl _)
    · exact hp ha

theorem at_markModified (he : e ∈ schema.fields) (hp : ¬ e.1.isAbove p) (hr : e.1.covers r)
    (hat : Scopes.At P d.scopes r) : Scopes.At P (d.markModified p).scopes r := by
  obtain ⟨k, scope, hk, hs, rfl, hscope⟩ := hat
  rw [markModified_eq]
  refine ⟨k, scope, Scopes.keyAt?_passed.trans hk, ?_, rfl, hscope⟩
  rw [← hs]
  exact Scopes.foldl_passMark_get? (h.not_mem_owners he hp hk hs hr)

theorem at_detached (he : e ∈ schema.fields) (hp : ¬ e.1.isAbove p) (hr : e.1.covers r) (hpr : ¬ p.covers r)
    (hat : Scopes.At P d.scopes r) : Scopes.At P (d.detached p).scopes r := by
  obtain ⟨k, scope, hk, hs, rfl, hscope⟩ := hat
  have hout := h.not_mem_owners he hp hk hs hr
  have hsound := eachTracker_scopes (p := p) (f := atPath p fun rel t => t.clearDescendants rel) h.sound.scopes
  have hget : (d.eachTracker p (atPath p fun rel t => t.clearDescendants rel)).scopes.get? k = some scope :=
    List.foldlRecOn (motive := fun s : Scopes => s.get? k = some scope) _ _ hs fun s hs k' hk' => by
      rw [Scopes.get?_modify, if_neg, hs]
      rintro rfl
      exact hout hk'
  have hcleared : Scopes.At P (d.eachTracker p (atPath p fun rel t => t.clearDescendants rel)).scopes scope.root :=
    ⟨k, scope, keyAt?_eachTracker.trans hk, hget, rfl, hscope⟩
  exact hcleared.removeBelow hsound.tidy hsound.rooted hpr

end Housed

namespace Attended

theorem of_kept (h : d.Attended schema e) (hw : schema.Meets .wellFormed) (he : e ∈ schema.fields)
    (hd : d'.Housed schema) (hv : d'.get? e.1 = d.get? e.1)
    (hs : ∀ {P r}, e.1.covers r → Scopes.At P d.scopes r → Scopes.At P d'.scopes r) : d'.Attended schema e :=
  ⟨hd, fun r s w hem => hs (hem.covers (hw.field he).type) (h.tracked r s w (hv ▸ hem))⟩

variable (hw : schema.Meets .wellFormed) (he : e ∈ schema.fields)
include hw he

theorem markValid (h : d.Attended schema e) : (d.markValid p).Attended schema e := by
  obtain ⟨issues, heq⟩ := markValid_eq d p
  rw [heq]
  exact h.of_kept hw he h.housed.reported rfl fun _ => id

theorem markModified (h : d.Attended schema e) (hp : ¬ e.1.isAbove p) : (d.markModified p).Attended schema e :=
  h.of_kept hw he (h.housed.markModified hw) rfl fun hr => h.housed.at_markModified he hp hr

theorem write (h : d.Attended schema e) (hp : p ≠ []) (hd : p.Distinct e.1) : (d.write p v).2.Attended schema e := by
  refine h.of_kept hw he (h.housed.write hp) ?_ fun _ hat => ?_
  · rw [write_eq]
    exact get?_set_distinct hd
  · rwa [write_eq]

omit hw he in
theorem not_covers_of_distinct (hd : p.Distinct q) (hr : q.covers r) : ¬ p.covers r := fun hc =>
  (covers_total hc hr).elim hd.not_covers hd.symm.not_covers

theorem detached (h : d.Attended schema e) (hd : p.Distinct e.1) : (d.detached p).Attended schema e :=
  h.of_kept hw he (h.housed.detached hw) rfl fun hr =>
    h.housed.at_detached he (fun ha => hd.symm.not_covers (covers_of_isAbove ha)) hr (not_covers_of_distinct hd hr)

theorem attached (h : d.Attended schema e) (hf : f.Meets .wellFormed) (hout : ∀ e ∈ schema.fields, ¬ p.isAbove e.1)
    (hd : p.Distinct e.1) : (d.attached p f).Attended schema e :=
  h.of_kept hw he (h.housed.attached hw hout) rfl fun hr hat =>
    hat.attachField h.housed.sound.scopes.tidy hf.type (not_covers_of_distinct hd hr)

theorem settled {modifies : Bool} (hattached : f.type.isStructural → (d.attached p f).Attended schema e)
    (hplain : ¬ f.type.isStructural → d.Attended schema e) (hp : ¬ e.1.isAbove p) :
    (d.settled p f modifies).Attended schema e :=
  settled_rec hattached hplain (fun h => h.of_kept hw he h.housed.noted rfl fun _ => id)
    (fun h => h.markModified hw he hp) (markValid hw he)

end Attended

theorem Housed.attended_settled (h : d.Housed schema) (hw : schema.Meets .wellFormed) (he : e ∈ schema.fields)
    {modifies : Bool} : (d.settled e.1 e.2 modifies).Attended schema e := by
  have hmade : ∀ {r s w}, e.2.type.Embeds e.1 (d.get? e.1) r s w →
      Scopes.At (Scope.Tracks s w) (d.attached e.1 e.2).scopes r := fun hem =>
    Scopes.at_attachField h.sound.scopes.tidy (hw.field he).type hem
  refine Attended.settled hw he (fun _ => ?_) (fun hs => ⟨h, fun r s w hem => ?_⟩) isAbove_irrefl
  · exact ⟨h.attached hw fun e' he' => Scopes.not_isAbove_declared hw (mem_map_of_mem he) (mem_map_of_mem he'),
      fun _ _ _ => hmade⟩
  · have := hmade hem
    rwa [Document.attached, Scopes.attachField_of_not_structural hs] at this

theorem get?_write_of_error {e : PathError} (h : (d.write p v).1 = .error e) : (d.write p v).2.get? p = none := by
  rw [write_eq] at h ⊢
  obtain ⟨hsame, hnone⟩ := setFrom_of_error h
  rw [Document.get?]
  dsimp only
  rw [Value.set, hsame, hnone]

theorem get?_write_emptied (hv : v = .null ∨ v = .obj []) (hpq : p.isAbove q) : (d.write p v).2.get? q = none := by
  obtain ⟨r, hr, rfl⟩ := isAbove_iff.mp hpq
  cases hok : (d.write p v).1 with
  | error => exact get?_of_covers (get?_write_of_error hok) (covers_append p r)
  | ok =>
    rw [write_eq] at hok ⊢
    rw [Document.get?, get?_append]
    dsimp only
    rw [Value.set, get?_setFrom_self hok, Option.bind_some]
    cases r with
    | nil => exact absurd rfl hr
    | cons seg r => rcases hv with rfl | rfl <;> rfl

theorem heeds_attended (hw : schema.Meets .wellFormed) (he : e ∈ schema.fields) :
    Heeds (·.Spares e.1) (Attended schema e) where
  opened h := h.of_kept hw he h.housed.openChanges get?_openChanges fun _ hat => by rwa [openChanges_eq]
  reported h := h.of_kept hw he h.housed.reported rfl fun _ => id
  stored {d p f v opts effects} hp hf h := by
    have hout := outside_of_not_nested hw h.housed.schema hp.1 (by simp [hf])
    rcases hp.2 with hc | hdist
    · rcases h.housed.resolve_covers hw he hp.1 hc with ⟨rfl, hfield⟩ | ⟨ha, -⟩
      · rw [hfield] at hf
        cases hf
        exact storeField_rec h (h.markValid hw he) (fun _ => h.housed.detached hw) (fun _ => h.housed)
          (fun hd herr => (hd.write hp.1).attended_of_absent (get?_write_of_error herr))
          fun hd _ => (hd.write hp.1).attended_settled hw he
      · exact absurd ha (hout e he)
    · have hmeets : f.Meets .wellFormed := resolve_meets (h.housed.schema ▸ hw) trivial hf
      have hwritten : ∀ {d : Document}, d.Attended schema e → (d.write p v).2.Attended schema e := fun hd =>
        hd.write hw he hp.1 hdist
      exact storeField_rec h (h.markValid hw he) (fun _ => h.detached hw he hdist) (fun _ => h)
        (fun hd _ => hwritten hd) fun hd _ => Attended.settled hw he
          (fun _ => (hwritten hd).attached hw he hmeets hout hdist) (fun _ => hwritten hd) hp.not_isAbove
  taken {d p v} hp hr h := by
    rcases hp.2 with hc | hdist
    · rcases h.housed.resolve_covers hw he hp.1 hc with ⟨-, hr'⟩ | ⟨-, hr'⟩ <;> simp [hr'] at hr
    · exact h.write hw he hp.1 hdist
  emptied {d p v} hp hr hv h := by
    rcases hp.2 with hc | hdist
    · rcases h.housed.resolve_covers hw he hp.1 hc with ⟨-, hr'⟩ | ⟨ha, -⟩
      · simp [hr'] at hr
      · exact ((h.housed.detached hw).write hp.1).attended_of_absent (get?_write_emptied hv ha)
    · exact (h.detached hw he hdist).write hw he hp.1 hdist
  marked hp _ _ h := h.markModified hw he hp.not_isAbove
  inner {d p k} hp hr h := by
    rcases hp.2 with hc | hdist
    · rcases h.housed.resolve_covers hw he hp.1 hc with ⟨-, hr'⟩ | ⟨ha, -⟩
      · simp [hr'] at hr
      · exact spares_key ha (hw.declared he).2.2 k
    · exact ⟨by simp, .inr (hdist.inside _)⟩

-- Fields of the document

-- If a field has a value it is tracked, by itself or in a group.
def Held (e : Path × Field) (d : Document) : Prop :=
  (d.get? e.1).isSome → d.Follows e.1

theorem heeds_get? : Heeds (·.Distinct q) fun d => d.get? q = x where
  opened h := get?_openChanges.trans h
  reported h := h
  stored {d p f v opts effects} hp hf h := by
    have hwritten : ∀ {d : Document}, d.get? q = x → (d.write p v).2.get? q = x := by
      intro d h
      rw [write_eq]
      exact (get?_set_distinct hp).trans h
    refine storeField_rec (I := fun d => d.get? q = x) (J := fun d => d.get? q = x) h ?_ (fun _ => h) (fun _ => h)
      (fun hd _ => hwritten hd) fun hd _ => ?_
    · rw [Document.get?, value_markValid]
      exact h
    · rw [Document.get?, value_settled]
      exact hwritten hd
  taken hp _ h := by
    rw [write_eq]
    exact (get?_set_distinct hp).trans h
  emptied hp _ _ h := by
    rw [write_eq]
    exact (get?_set_distinct hp).trans h
  marked _ _ _ h := h
  inner hp _ _ := hp.inside _

theorem carries_held (hw : schema.Meets .wellFormed) (he : e ∈ schema.fields) :
    Carries (·.Spares e.1) {} fun d => d.Housed schema ∧ d.isNew = true ∧ d.Held e := by
  rintro p v s s' hp hne ⟨h, hnew, hheld⟩ hok
  refine ⟨h.setPath hw hok, (isNew_setPath hok).trans hnew, fun hsome => ?_⟩
  rcases hp.2 with hc | hd
  · rcases h.follows_of_setPath hw hnew he hne hc hok with hf | ⟨issues, hd⟩
    · exact ⟨p, hne, hc, hf⟩
    · rw [hd] at hsome ⊢
      exact hheld hsome
  · have hget := heeds_get?.keeps_setPath v p ((opens_of_ne_nil hne).mpr hd) {} s rfl
    rw [hok] at hget
    obtain ⟨a, ha, hae, hf⟩ := hheld (hget ▸ hsome)
    have hout : ¬ p.isAbove e.1 := fun ha => hd.not_covers (covers_of_isAbove ha)
    have := (heeds_follows hae).keeps_setPath v p ((opens_of_ne_nil hne).mpr ⟨hne, hout⟩) {} s hf
    rw [hok] at this
    exact ⟨a, ha, hae, this⟩

-- New documents

theorem eq_or_distinct (hw : schema.Meets .wellFormed) (hf : (p, f) ∈ schema.fields) (he : e ∈ schema.fields) :
    e = (p, f) ∨ p.Distinct e.1 := by
  by_cases hp : p = e.1
  · subst hp
    have hfe : f = e.2 := Option.some.inj ((Schema.field?_of_mem hw.apart hf).symm.trans (Schema.field?_of_mem hw.apart he))
    exact .inl (hfe ▸ rfl)
  · exact .inr ((Schema.apart_of_mem hw hf he hp).distinct (hw.declared hf).2.1
      (hw.declared he).2.1)

theorem Attended.filled (h : d.Attended schema e) (hw : schema.Meets .wellFormed) (he : e ∈ schema.fields)
    (hf : (p, f) ∈ schema.fields) :
    (Document.filled { d with value := (d.value.set p v).2 } p f).Attended schema e := by
  have ht := h.housed.sound.scopes.tidy
  rcases eq_or_distinct hw hf he with rfl | hd
  · exact ⟨h.housed.filled hw hf, fun r s w hem => Scopes.at_attachField ht (hw.field hf).type hem⟩
  · exact h.of_kept hw he (h.housed.filled hw hf) (get?_set_distinct hd) fun hr hat =>
      hat.attachField ht (hw.field hf).type (not_covers_of_distinct hd hr)

theorem Held.filled (h : d.Held e) (hw : schema.Meets .wellFormed) (he : e ∈ schema.fields)
    (hf : (p, f) ∈ schema.fields) : (Document.filled { d with value := (d.value.set p v).2 } p f).Held e := by
  intro hsome
  rcases eq_or_distinct hw hf he with rfl | hd
  · exact ⟨p, (hw.declared hf).1, covers_refl p, Tracker.follows_transition_self (by simp)⟩
  · have hget : (Document.filled { d with value := (d.value.set p v).2 } p f).get? e.1 = d.get? e.1 :=
      get?_set_distinct hd
    obtain ⟨a, ha, hae, hfollows⟩ := h (hget ▸ hsome)
    exact ⟨a, ha, hae, hfollows.transition (by simp)⟩

theorem Held.seedRequired (h : d.Held e) : d.seedRequired.Held e := by
  refine seedRequired_rec h fun hnone h hsome => ?_
  obtain ⟨a, ha, hae, hf⟩ := h hsome
  refine ⟨a, ha, hae, hf.transition_ne ?_⟩
  rintro rfl
  obtain ⟨state, -, hstate⟩ := hf
  rw [stateOf?, hstate] at hnone
  cases hnone

variable {fields : List (String × Value)} {effects : Effects}

theorem attended_of_create (hw : schema.Meets .wellFormed) (he : e ∈ schema.fields)
    (hr : Rounds (Path.Opens (·.Spares e.1)) {} maxRounds (given schema fields effects))
    (h : (create schema (.obj fields) effects).1 = .ok d) : d.Attended schema e ∧ d.Held e := by
  obtain ⟨s, s', hkeys, hsettle, hfill, rfl⟩ := given_of_create h
  obtain ⟨hne, -, hindex⟩ := hw.declared he
  have hspares : ∀ a ∈ fields, Path.Spares (Path.root ++ [.key a.1]) e.1 := fun a _ =>
    spares_key (isAbove_iff.mpr ⟨e.1, hne, rfl⟩) hindex a.1
  have hblank : get? { schema, value := .obj [], isNew := true } e.1 = none := by
    cases hp : e.1 with
    | nil => exact absurd hp hne
    | cons => rfl
  have hattended : Attended schema e s'.doc.seedRequired := by
    refine create_of_rounds (heeds_attended hw he) hspares hr (fun hm _ _ hd => hd.filled hw he hm) (fun {d} hd => ?_)
      (housed_blank.attended_of_absent hblank) h
    obtain ⟨hscopes, hvalue⟩ := scopes_seedRequired (d := d)
    refine hd.of_kept hw he hd.housed.seedRequired ?_ fun _ hat => ?_
    · rw [Document.get?, hvalue]
      rfl
    · rwa [hscopes]
  have hheld : s.doc.Held e := by
    have hstart : Held e { schema, value := .obj [], isNew := true } := fun hsome => by
      rw [hblank] at hsome
      cases hsome
    exact ((carries_held hw he).settle hr ((carries_held hw he).setKeys hspares ⟨housed_blank, rfl, hstart⟩ hkeys)
      hsettle).2.2
  have hkeeps : Keeps (·.Held e) (fillDefaults schema.fields) :=
    keeps_fillDefaults (fun _ _ hd => hd) fun _ _ _ _ hm _ _ hd => hd.filled hw he hm
  have hfilled := hkeeps s hheld
  rw [hfill] at hfilled
  exact ⟨hattended, hfilled.seedRequired⟩

theorem Attended.reached (h : d.Attended schema e) (hheld : d.Held e) (hw : schema.Meets .wellFormed)
    (he : e ∈ schema.fields) (hf : d.HasFieldIn e p f) (hp : (d.get? p).isSome) :
    ∃ c ∈ d.candidates {}, d.Reaches c p f := by
  have hs := h.housed.schema
  rcases hf with rfl | ⟨r, s, w, rel, hem, hrel, rfl⟩
  · obtain ⟨a, ha, hap, hfollows⟩ := hheld hp
    exact ⟨a, mem_candidates h.housed.sound.tracker hfollows, reaches_of_covers (hs ▸ hw) (hs ▸ he) ha hap⟩
  · obtain ⟨k, scope, hk, hscope, rfl, htracks⟩ := h.tracked r s w hem
    have hembeds : schema.Embeds d.value scope.root s w := ⟨e.1, e.2, he, hem⟩
    have hsome : (w.get? rel).isSome := by
      rw [Document.get?, get?_append, (hembeds.objectAt hw.keyed_of_wellFormed).2.1] at hp
      exact hp
    refine ⟨_, mem_candidates_of_scope hk hscope htracks.consistent (htracks.follows rel f hrel hsome), reaches_self ?_⟩
    rw [Document.resolve, hs]
    exact hembeds.resolve hw hrel

-- If a validation of a new document reports nothing, no fault was found with the values of its fields and of those
-- of embedded documents, nor with the items and entries of arrays and maps among them.
theorem create_validates_parts (hw : schema.Meets .wellFormed) (h : (create schema (.obj fields) effects).1 = .ok d)
    (hooks : Hooks) (hv : (d.validateSync hooks).result = .ok ()) (hf : schema.HasField d.value p f)
    (hp : (d.get? p).isSome) (hr : ∀ e ∈ schema.fields, e.1.covers p →
      Rounds (Path.Opens (·.Spares e.1)) {} maxRounds (given schema fields effects)) :
    d.Passes p f ∧ ∀ el, f.HasPart el → ∀ q ∈ partPaths p (d.get? p), d.Passes q el := by
  obtain ⟨e, he, hf⟩ := hasFieldIn_of_hasField hf
  obtain ⟨hattended, hheld⟩ := attended_of_create hw he (hr e he (hf.covers (hw.field he).type)) h
  obtain ⟨c, hc, hreaches⟩ := hattended.reached hheld hw he hf hp
  exact ⟨hreaches.passes hv hc, fun el hel q hq => hreaches.passes_part hv hc hel hq⟩

-- Cells and labels may be left empty or marked.
def cell : Field :=
  ⟨.string, { validators := [.oneOf [.str "o"]] }⟩

def forms : Schema :=
  ⟨{ id := false }, [([.key "cells"], .plain (.array cell)), ([.key "labels"], .plain (.map cell))], []⟩

def form : List (String × Value) :=
  [("cells", .arr [.null, .str "o"]), ("labels", .obj [("a", .str "o")])]

theorem create_validates_parts_form : ∃ d, (create forms (.obj form) {}).1 = .ok d ∧
    (d.validateSync {}).result = .ok () ∧ d.Passes [.key "cells", .index 1] cell ∧
    d.Passes [.key "labels", .key "a"] cell := by
  have hcreate : (create forms (.obj form) {}).1 = .ok _ := rfl
  have hw : forms.Meets .wellFormed := by decide +kernel
  have hcells := create_validates_parts hw hcreate {} rfl (.inl List.mem_cons_self) rfl
    fun _ _ _ => rounds_of_quiet rfl
  have hlabels := create_validates_parts hw hcreate {} rfl (.inl (List.mem_cons_of_mem _ List.mem_cons_self)) rfl
    fun _ _ _ => rounds_of_quiet rfl
  exact ⟨_, hcreate, rfl, hcells.2 cell (.inl rfl) _ (by decide +kernel), hlabels.2 cell (.inr rfl) _ (by decide +kernel)⟩

-- The cells of a board are items of items.
def boards : Schema :=
  ⟨{ id := false }, [([.key "rows"], .plain (.array (.plain (.array cell))))], []⟩

def label : Field :=
  ⟨.mixed, { validators := [.oneOf [.str "o"]] }⟩

-- Whoever is given a name is given a label that is not one of those allowed.
def labelled : Schema :=
  ⟨{ id := false }, [
    ([.key "name"], ⟨.string, { setters := [fun _ v => ⟨v, [([.key "labels", .key "a", .key "x"], .bool true)], []⟩] }⟩),
    ([.key "labels"], .plain (.map label))], []⟩

-- A validation does not come to the items of an item, nor to an entry into which a setter has written.
theorem part_left_unvalidated :
    (∃ d, (create boards (.obj [("rows", .arr [.arr [.str "x"]])]) {}).1 = .ok d ∧
      (d.validateSync {}).result = .ok () ∧ ¬ d.Passes [.key "rows", .index 0, .index 0] cell) ∧
    ∃ d, (create labelled (.obj [("name", .str "n")]) {}).1 = .ok d ∧
      (d.validateSync {}).result = .ok () ∧ ¬ d.Passes [.key "labels", .key "a"] label := by
  refine ⟨⟨_, rfl, rfl, fun h => ?_⟩, _, rfl, rfl, fun h => ?_⟩
  · have := h.accepted (.str "x") rfl (by simp) _ (List.mem_singleton_self _) _ rfl
    revert this
    decide +kernel
  · have := h.accepted (.obj [("x", .bool true)]) rfl (by simp) _ (List.mem_singleton_self _) _ rfl
    revert this
    decide +kernel

end Document
end Dossier

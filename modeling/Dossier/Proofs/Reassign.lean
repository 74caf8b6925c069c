import Dossier.Proofs.Changeset
import Dossier.Proofs.Regroup
import Dossier.Proofs.Replay

-- A write of the value that a path has already is no change of the document, but what is known of its parts is
-- forgotten.

namespace Dossier

open Path Value List

namespace Document

-- A document whose value is the same as before, and whose pending changes differ around a path: those strictly
-- below it may be forgotten, and one at or above it may have been added.
structure Reassigned (p : Path) (d d' : Document) : Prop where
  schema    : d'.schema = d.schema
  value     : d'.value = d.value
  isNew     : d'.isNew = d.isNew
  populated : d'.populated = d.populated
  arrayOps  : ∀ q, ¬ p.covers q → d'.arrayOps.get? q = d.arrayOps.get? q
  kept      : ∀ q ∈ d.dirtyPaths, q ∈ d'.dirtyPaths ∨ p.isAbove q
  added     : ∀ q ∈ d'.dirtyPaths, q ∈ d.dirtyPaths ∨ q.covers p
  around    : (∃ q ∈ d'.dirtyPaths, q.covers p) ∨ ∀ q ∈ d'.dirtyPaths, ¬ p.isAbove q

namespace Reassigned

variable {d : Document} {p : Path} {c : Change}

variable (h : Reassigned p d d')

include h

theorem mem_apart (hq : q.Apart p) : q ∈ d'.dirtyPaths ↔ q ∈ d.dirtyPaths :=
  ⟨fun hm => (h.added q hm).resolve_right hq.1,
    fun hm => (h.kept q hm).resolve_right fun ha => hq.2 (covers_of_isAbove ha)⟩

theorem changeAt_apart (hq : q.Apart p) : d'.changeAt d'.dirtyPaths q = d.changeAt d.dirtyPaths q := by
  -- What is below a path apart from another is apart from it too.
  have hany : d'.dirtyPaths.any q.isAbove = d.dirtyPaths.any q.isAbove := by
    rw [Bool.eq_iff_iff, any_eq_true, any_eq_true]
    refine exists_congr fun m => and_congr_left fun ha => h.mem_apart ⟨fun hc => ?_, fun hc => ?_⟩
    · exact hq.1 (covers_trans (covers_of_isAbove ha) hc)
    · rcases covers_total (covers_of_isAbove ha) hc with h | h
      · exact hq.1 h
      · exact hq.2 h
  simp only [changeAt, incremental?, h.arrayOps q hq.2, h.isNew, hany, get?, h.value, depopulated,
    h.populated, resolve, h.schema]

theorem near (hc : c ∈ d'.changeset.changes) : c.path.covers p ∨ c ∈ d.changeset.changes ∧ c.path.Apart p := by
  have ⟨heq, hm, htop⟩ := mem_changeset.mp hc
  by_cases hcp : c.path.covers p
  · exact .inl hcp
  · have hpc : ¬ p.covers c.path := fun hpc => by
      have habove : p.isAbove c.path := (eq_or_isAbove_of_covers hpc).resolve_left
        fun he => hcp (he ▸ covers_refl _)
      rcases h.around with ⟨q, hq, hqp⟩ | hnone
      · exact htop q hq (isAbove_of_covers_isAbove hqp habove)
      · exact hnone _ hm habove
    have hapart : c.path.Apart p := ⟨hcp, hpc⟩
    refine .inr ⟨mem_changeset.mpr ⟨?_, (h.mem_apart hapart).mp hm, fun a ha hac => ?_⟩, hapart⟩
    · rw [← h.changeAt_apart hapart]
      exact heq
    · rcases h.kept a ha with ha | hpa
      · exact htop a ha hac
      · exact hpc (covers_of_isAbove (isAbove_trans hpa hac))

theorem far (hc : c ∈ d.changeset.changes) : c ∈ d'.changeset.changes ∨
      (∃ b ∈ d'.changeset.changes, b.path.covers p ∧ b.path.covers c.path) ∨
      (∀ b ∈ d'.changeset.changes, b.path.Apart p) ∧ p.covers c.path := by
  have ⟨heq, hm, htop⟩ := mem_changeset.mp hc
  -- Apart from the path, it is there unless something around the path came above it.
  have still : c.path.Apart p → (∀ a ∈ d'.dirtyPaths, a.covers p → ¬ a.isAbove c.path) →
      c ∈ d'.changeset.changes := fun hapart hout =>
    mem_changeset.mpr ⟨heq.trans (h.changeAt_apart hapart).symm, (h.mem_apart hapart).mpr hm,
      fun a ha hac => (h.added a ha).elim (fun hd => htop a hd hac) fun hap => hout a ha hap hac⟩
  have hkept : c.path.covers p → c.path ∈ d'.dirtyPaths := fun hcp =>
    (h.kept _ hm).resolve_right fun hpc => not_covers_of_isAbove hpc hcp
  by_cases hb : ∃ b ∈ d'.changeset.changes, b.path.covers p
  · obtain ⟨b, hb, hbp⟩ := hb
    have hbtop := (mem_changeset.mp hb).2.2
    by_cases hbc : b.path.covers c.path
    · exact .inr (.inl ⟨b, hb, hbp, hbc⟩)
    · refine .inl (still ⟨fun hcp => ?_, fun hpc => hbc (covers_trans hbp hpc)⟩
        fun a ha hap hac => ?_)
      · have hcb := (covers_total hcp hbp).resolve_right hbc
        exact hbtop _ (hkept hcp) (isAbove_iff_covers.mpr
          ⟨hcb, fun he => hbc (he ▸ covers_refl _)⟩)
      · rcases covers_total hbp hap with hba | hab
        · exact hbc (covers_trans hba (covers_of_isAbove hac))
        · rcases eq_or_isAbove_of_covers hab with rfl | hab
          · exact hbc (covers_of_isAbove hac)
          · exact hbtop a ha hab
  · have hnone : ∀ a ∈ d'.dirtyPaths, ¬ a.covers p := fun a ha hap => by
      obtain ⟨b, hb', hba⟩ := exists_change ha
      exact hb ⟨b, hb', covers_trans hba hap⟩
    by_cases hpc : p.covers c.path
    · exact .inr (.inr ⟨fun b hb' =>
        ((h.near hb').resolve_left fun hbp => hb ⟨b, hb', hbp⟩).2, hpc⟩)
    · exact .inl (still ⟨fun hcp => hnone _ (hkept hcp) hcp, hpc⟩
        fun a ha hap => absurd hap (hnone a ha))

theorem replay_iff (hp : p.Spelled) (hheld : (d.get? p).isSome) (hspelled : ∀ m ∈ d.dirtyPaths, m.Spelled)
    (hop : ∀ c ∈ d.changeset.changes, c.op ≠ .unset) (hbase : base.Canonical)
    (hr : d.changeset.apply base = .ok record) :
    d'.changeset.apply base = .ok record ↔ Accounts d'.changeset.changes p base record := by
  refine replay_iff_accounts hop (fun c hc => hspelled _ (mem_changeset.mp hc).2.1)
    (pairwise_map.mp changeset_apart) (fun c hc => ?_) (fun c hc => ?_)
    (pairwise_map.mp changeset_apart) (pairwise_map.mp changeset_sorted) hp hbase hr
    (fun c hc => h.near hc) (fun c hc => h.far hc)
  · rcases h.near hc with hcp | ⟨hc, -⟩
    · refine op_ne_unset hc ?_
      rw [get?, h.value]
      exact get?_isSome_of_covers hheld hcp
    · exact hop c hc
  · rcases h.near hc with hcp | ⟨hc, -⟩
    · obtain ⟨r, rfl⟩ := covers_iff.mp hcp
      exact (spelled_append.mp hp).1
    · exact hspelled _ (mem_changeset.mp hc).2.1

end Reassigned
-- Marks around a path

variable {d : Document} {p : Path}

-- A document that is as it was but for states strictly below a path, of which some are forgotten.
structure Loosened (p : Path) (d d₁ : Document) : Prop where
  linked    : d₁.Linked
  schema    : d₁.schema = d.schema
  value     : d₁.value = d.value
  populated : d₁.populated = d.populated
  kept      : ∀ q, ¬ p.isAbove q → d₁.stateOf? q = d.stateOf? q
  lost      : ∀ q, d₁.stateOf? q = d.stateOf? q ∨ d₁.stateOf? q = none
  arrayOps  : ∀ q, ¬ p.covers q → d₁.arrayOps.get? q = d.arrayOps.get? q

theorem Hushed.loosened (h : Hushed p d d₁) (hv : d₁.value = d.value) : Loosened p d d₁ where
  linked := h.linked
  schema := h.schema
  value := hv
  populated := h.populated
  kept q hq := by rw [h.states, if_neg hq]
  lost q := by
    rw [h.states]
    split
    · exact .inr rfl
    · exact .inl rfl
  arrayOps q hq := by rw [h.arrayOps, if_neg fun ha => hq (covers_of_isAbove ha)]

theorem Hushed.not_isAbove (h : Hushed p d d₁) (hq : q ∈ d₁.dirtyPaths) :
    ¬ p.isAbove q := fun ha => by
  rw [mem_dirtyPaths h.linked.sound.tracker, h.states, if_pos ha] at hq
  simp at hq

namespace Loosened

theorem refl (h : d.Linked) : Loosened p d d :=
  ⟨h, rfl, rfl, rfl, fun _ _ => rfl, fun _ => .inl rfl, fun _ _ => rfl⟩

variable (h : Loosened p d d₁)

include h

theorem write_self (hp : p ≠ []) (hv : d₁.get? p = some v) : Loosened p d (d₁.write p v).2 := by
  have hl := stable_linked.written (v := v) hp h.linked
  rw [write_eq] at hl ⊢
  refine ⟨hl, h.schema, ?_, h.populated, h.kept, h.lost, h.arrayOps⟩
  rw [Value.set, setFrom_of_get? hv]
  exact h.value

theorem attached : Loosened p d (d₁.attached p f) :=
  ⟨h.linked.attached, h.schema, h.value, h.populated, h.kept, h.lost, h.arrayOps⟩

theorem noted : Loosened p d (d₁.noteArrayOp p g) := by
  refine ⟨h.linked.noted, h.schema, h.value, h.populated, h.kept, h.lost, fun q hq => ?_⟩
  have hne : p ≠ q := fun he => hq (he ▸ covers_refl p)
  exact (OrdMap.get?_insert_ne hne).trans (h.arrayOps q hq)

theorem mem_of_mem (hd : d.Linked) (hq : q ∈ d₁.dirtyPaths) : q ∈ d.dirtyPaths := by
  rw [mem_dirtyPaths h.linked.sound.tracker] at hq
  rw [mem_dirtyPaths hd.sound.tracker]
  rcases h.lost q with hs | hs
  · simpa [hs, get?, h.value] using hq
  · simp [hs] at hq

theorem mem_of_kept (hd : d.Linked) (hq : q ∈ d.dirtyPaths) (ha : ¬ p.isAbove q) : q ∈ d₁.dirtyPaths := by
  rw [mem_dirtyPaths hd.sound.tracker] at hq
  rw [mem_dirtyPaths h.linked.sound.tracker, h.kept q ha, get?, h.value]
  exact hq

theorem unmarked (hd : d.Linked) (hbelow : ∀ q ∈ d₁.dirtyPaths, ¬ p.isAbove q) : Reassigned p d d₁ where
  schema := h.schema
  value := h.value
  isNew := h.linked.isNew.trans hd.isNew.symm
  populated := h.populated
  arrayOps := h.arrayOps
  kept _ hq := (Decidable.em _).symm.imp_left (h.mem_of_kept hd hq)
  added _ hq := .inl (h.mem_of_mem hd hq)
  around := .inr hbelow

theorem marked (hd : d.Linked) : Reassigned p d (d₁.markModified p) ∧
    ∃ q ∈ (d₁.markModified p).dirtyPaths, q.covers p := by
  have hl := h.linked.markModified (p := p)
  obtain ⟨c, hc, htracker, -⟩ := exists_mark h.linked.scopes p
  have hmem : ∀ q, q ∈ (d₁.markModified p).dirtyPaths ↔ q = c ∨ q ∈ d₁.dirtyPaths := fun q => by
    rw [mem_dirtyPaths hl.sound.tracker, mem_dirtyPaths h.linked.sound.tracker, stateOf?, htracker,
      Tracker.stateOf?_transition]
    by_cases he : c = q
    · simp [he]
    · rw [if_neg he]
      simp only [Ne.symm he, false_or]
      rfl
  have hmark : ∃ q ∈ (d₁.markModified p).dirtyPaths, q.covers p := ⟨c, (hmem c).mpr (.inl rfl), hc⟩
  refine ⟨?_, hmark⟩
  exact {
    schema := h.schema
    value := h.value
    isNew := hl.isNew.trans hd.isNew.symm
    populated := h.populated
    arrayOps := h.arrayOps
    kept := fun q hq => (Decidable.em _).symm.imp_left fun ha =>
      (hmem q).mpr (.inr (h.mem_of_kept hd hq ha))
    added := fun q hq => ((hmem q).mp hq).elim (fun he => .inr (he ▸ hc))
      fun hq => .inl (h.mem_of_mem hd hq)
    around := .inl hmark }

end Loosened

-- The write

-- A document after a value was written again: its value is the same, and its pending changes are so or differ
-- around the path.
structure Again (p : Path) (d d' : Document) : Prop where
  value   : d'.value = d.value
  changes : d'.changeset = d.changeset ∨ Reassigned p d d' ∧
    (d.resolve p = .nested ∨ ∃ c ∈ d'.changeset.changes, c.path.covers p)

theorem Again.reported (h : Again p d d₁) {issues : Option Issues} : Again p d { d₁ with issues } :=
  ⟨h.value, h.changes.imp id fun ⟨h, hm⟩ => ⟨⟨h.schema, h.value, h.isNew, h.populated, h.arrayOps,
    h.kept, h.added, h.around⟩, hm⟩⟩

theorem Again.markValid (h : Again p d d₁) : Again p d (d₁.markValid p) := by
  obtain ⟨issues, he⟩ := markValid_eq d₁ p
  rw [he]
  exact h.reported

theorem Again.of_openChanges (h : Again p d.openChanges d₁) : Again p d d₁ := by
  rw [openChanges_eq] at h
  exact ⟨h.value, h.changes.imp id fun ⟨h, hm⟩ => ⟨⟨h.schema, h.value, h.isNew, h.populated, h.arrayOps,
    h.kept, h.added, h.around⟩, hm⟩⟩

theorem Loosened.again (h : Loosened p d d₁) (hd : d.Linked) : Again p d (d₁.markModified p) := by
  obtain ⟨hr, q, hq, hqp⟩ := h.marked hd
  obtain ⟨c, hc, hcq⟩ := exists_change hq
  exact ⟨h.value, .inr ⟨hr, .inr ⟨c, hc, covers_trans hcq hqp⟩⟩⟩

theorem Loosened.settled (h : Loosened p d d₁) (hd : d.Linked) {f : Field} : Again p d (d₁.settled p f true) := by
  simp only [Document.settled, and_true, if_true]
  split <;> split
  · exact (h.attached.noted.again hd).markValid
  · exact (h.noted.again hd).markValid
  · exact (h.attached.again hd).markValid
  · exact (h.again hd).markValid

theorem Hushed.again (h : Hushed p d d₁) (hd : d.Linked) (hv : d₁.value = d.value) (hp : d.resolve p = .nested) :
    Again p d d₁ :=
  ⟨hv, .inr ⟨(h.loosened hv).unmarked hd fun _ => h.not_isAbove, .inl hp⟩⟩

-- The value at a field, or at a group of fields, is given back by the casts of its parts.
def FixesAt (d : Document) (p : Path) (v : Value) : Prop :=
  (∃ f, d.resolve p = .field f ∧ f.Fixes v) ∨ ∃ s q, q ≠ [] ∧ d.Groups p s q ∧ s.Fixes q v

end Document

namespace Edit

open Document

variable {s : Desk} {p : Path} {v : Value}

theorem again_storeField (hl : s.doc.Linked) (hp : p ≠ []) (hget : s.doc.get? p = some v) (hv : v.Canonical)
    (hok : (storeField p f (some v) v {}).outcome s = (.ok (), s')) :
    Again p s.doc s'.doc ∧ s'.effects = s.effects := by
  have heq : Value.equalOpt (some v) (some v) := v.equal_refl hv
  rw [outcome_storeField] at hok
  simp only [heq, not_true_eq_false, and_false, false_and, if_false, true_and] at hok
  split at hok
  · cases hok
    exact ⟨Again.markValid ⟨rfl, .inl rfl⟩, rfl⟩
  · case isFalse hm =>
    rw [Decidable.not_not.mp hm] at hok
    have hloose : Loosened p s.doc (if f.type.isStructural then s.doc.detached p else s.doc) ∧
        (if f.type.isStructural then s.doc.detached p else s.doc).get? p = some v := by
      split
      · exact ⟨(Hushed.start hl).loosened rfl, hget⟩
      · exact ⟨.refl hl, hget⟩
    split at hok
    · case _ d' hd' =>
      cases hok
      obtain rfl : ((if f.type.isStructural then s.doc.detached p else s.doc).write p v).2 = d' := by
        rw [hd']
      exact ⟨(hloose.1.write_self hp hloose.2).settled hl, rfl⟩
    · cases hok

theorem again_setGroup (hl : s.doc.Linked) (hsetters : s.doc.schema.Meets .noSetters)
    (hformed : s.doc.schema.Meets .wellFormed) (hp : p.Spelled) (hne : p ≠ []) (hq : s.effects.queue = [])
    (hget : s.doc.get? p = some v) (hv : v.Canonical) {q : Path} (hroot : q ≠ []) (hg : s.doc.Groups p S q)
    (hfix : S.Fixes q v) (hok : (setGroup p (some v) {} v).outcome s = (.ok (), s')) :
    Again p s.doc s'.doc ∧ s'.effects.queue = [] := by
  have hself : ∀ {x}, s.doc.get? p = some x → (s.doc.value.set p x).2 = s.doc.value := fun hx => by
    rw [Value.set, setFrom_of_get? hx]
  have hstart : Hushed p s.doc (s.doc.detached p) := .start hl
  cases v with
  | obj fields =>
    obtain ⟨hset, s₁, hkeys, rfl⟩ := setGroup_ok hok
    have hval : ((s.doc.detached p).write p (.obj [])).2.value = (s.doc.value.set p (.obj [])).2 := by
      rw [write_eq]
      rfl
    have hfilling : Filling s.doc p p S q []
        { s with doc := ((s.doc.detached p).write p (.obj [])).2 } := {
      hushed := hstart.write hne
      queue := hq
      covered := covers_refl p
      spelled := hp
      group := hg.exchange hformed hp hget (hstart.write hne).schema hval
      held := by
        rw [Document.get?, hval]
        exact get?_setFrom_self hset }
    obtain ⟨hsorted, hcanon⟩ := hv.openFields rfl
    obtain ⟨hlast, hval'⟩ := fill_keys hsetters hformed fields hcanon hfilling hsorted hfix hkeys
    have hsame : s₁.doc.value = s.doc.value := by
      rw [hval', hval, Value.set, Value.set, setFrom_setFrom hset]
      exact hself hget
    refine ⟨Again.markValid ?_, hlast.queue⟩
    split
    · exact (hlast.hushed.loosened hsame).again hl
    · exact hlast.hushed.again hl hsame (hg.resolve hroot)
  | null =>
    rw [setGroup, outcome_setNestedNull] at hok
    split at hok
    · case _ d' hd' =>
      cases hok
      obtain rfl : ((s.doc.detached p).write p .null).2 = d' := by rw [hd']
      have hsame : ((s.doc.detached p).write p .null).2.value = s.doc.value := by
        rw [write_eq]
        exact hself hget
      have hh := hstart.write (v := .null) hne
      refine ⟨Again.markValid ?_, hq⟩
      split
      · exact (hh.loosened hsame).again hl
      · exact hh.again hl hsame (hg.resolve hroot)
    · cases hok
  | bool | num | str | arr =>
    cases hok
    exact ⟨Again.reported ⟨rfl, .inl rfl⟩, hq⟩

theorem again_setPath (hl : s.doc.Linked) (hsetters : s.doc.schema.Meets .noSetters)
    (hformed : s.doc.schema.Meets .wellFormed) (hp : p.Spelled) (hne : p ≠ []) (hq : s.effects.queue = [])
    (hget : s.doc.get? p = some v) (hv : v.Canonical) (hfix : s.doc.FixesAt p v)
    (hok : (setPath v p {}).outcome s = (.ok (), s')) : Again p s.doc s'.doc ∧ s'.effects.queue = [] := by
  rw [outcome_setPath hne] at hok
  split at hok
  · cases hok
  rcases hfix with ⟨f, hf, hfix⟩ | ⟨S, q, hq', hg, hfix⟩
  · obtain ⟨e, he, heq⟩ := hfix.accept (resolve_meets hsetters rfl hf)
      (castContext s.doc p {}) rfl s.effects
    rw [hf] at hok
    dsimp only at hok
    rw [outcome_setField, he, hget] at hok
    obtain ⟨hagain, heff⟩ := again_storeField (s := { s with effects := e }) hl hne hget hv hok
    exact ⟨hagain, by rw [heff]; exact heq.trans hq⟩
  · rw [hg.resolve hq', hget] at hok
    exact again_setGroup hl hsetters hformed hp hne hq hget hv hq' hg hfix hok

theorem again_set (hl : d.Linked) (hsetters : d.schema.Meets .noSetters) (hformed : d.schema.Meets .wellFormed)
    (hp : p.Spelled) (hget : d.get? p = some v) (hv : v.Canonical) (hfix : d.FixesAt p v)
    (hok : (Edit.set p v).outcome ⟨d, effects⟩ = (.ok (), s)) : Again p d s.doc := by
  have hne : p ≠ [] := by
    rintro rfl
    rcases hfix with ⟨f, hf, -⟩ | ⟨S, q, hq, ⟨_, hg⟩, -⟩
    · cases hf
    · cases hg
      exact hq rfl
  obtain ⟨_, _, hopen, hok⟩ := ok_of_bind_ok hok
  cases hopen
  obtain ⟨_, _, hclear, hok⟩ := ok_of_bind_ok hok
  cases hclear
  obtain ⟨_, s₁, hpath, hok⟩ := ok_of_bind_ok hok
  have hpath : (setPath v p {}).outcome ⟨d.openChanges, { effects with queue := [] }⟩ = (.ok (), s₁) :=
    hpath
  suffices Again p d.openChanges s₁.doc ∧ s₁.effects.queue = [] by
    rw [outcome_settle this.2] at hok
    cases hok
    exact this.1.of_openChanges
  refine again_setPath (s := ⟨d.openChanges, _⟩) (stable_linked.opened hl) ?_ ?_ hp hne rfl ?_ hv ?_
    hpath
  all_goals rw [openChanges_eq]
  · exact hsetters
  · exact hformed
  · exact hget
  · exact hfix

end Edit

namespace Document

-- A value that is written again where it is stored leaves the value of the document and all pending changes that
-- have nothing to do with its path. Replaying what is pending leads to the same record as before exactly if
-- nothing was forgotten or what is left accounts for the path.
theorem reassigned_replays_iff {d : Document} (hd : d.Persisted)
    (hsetters : d.schema.Meets .noSetters) (hformed : d.schema.Meets .wellFormed)
    {p : Path} (hp : p.Spelled) {v : CanonicalValue} (hheld : d.get? p = some v.1)
    (hfix : d.FixesAt p v) (effects : Effects) {s : Desk}
    (hset : (Edit.set p v).outcome ⟨d, effects⟩ = (.ok (), s))
    (hspelled : ∀ m ∈ d.dirtyPaths, m.Spelled) (hkeep : ∀ c ∈ d.changeset.changes, c.op ≠ .unset)
    (base : CanonicalValue) (record : Value) (hrecord : d.changeset.apply base = .ok record) :
    let cs := d.changeset.changes
    let cs' := s.doc.changeset.changes
    s.doc.value = d.value ∧
    (∀ c ∈ cs', c ∈ cs ∨ c.path.covers p) ∧
    (∀ c ∈ cs, c ∈ cs' ∨ p.covers c.path ∨ ∃ b ∈ cs', b.path.covers p ∧ b.path.covers c.path) ∧
    (d.resolve p = .nested ∨ cs' = cs ∨ ∃ c ∈ cs', c.path.covers p) ∧
    (s.doc.changeset.apply base = d.changeset.apply base ↔ cs' = cs ∨ Accounts cs' p base record) := by
  have hagain := Edit.again_set hd.linked hsetters hformed hp hheld v.2 hfix hset
  refine ⟨hagain.value, ?_⟩
  rcases hagain.changes with he | ⟨h, hmark⟩
  · rw [he]
    exact ⟨fun c hc => .inl hc, fun c hc => .inl hc, .inr (.inl rfl), fun _ => .inl rfl, fun _ => rfl⟩
  · refine ⟨fun c hc => ?_, fun c hc => ?_, hmark.imp_right .inr, ?_⟩
    · exact (h.near hc).symm.imp_left And.left
    · exact (h.far hc).imp_right fun hc => hc.symm.imp_left And.right
    · rw [hrecord]
      have hiff := h.replay_iff hp (by rw [hheld]; rfl) hspelled hkeep base.2 hrecord
      refine ⟨fun h => .inr (hiff.mp h), fun h => ?_⟩
      rcases h with he | h
      · rwa [Changeset.apply, he]
      · exact hiff.mpr h

-- Addresses

def addressed : Schema :=
  ⟨{ id := false }, [([.key "address", .key "city"], .plain .string)], []⟩

def addressIn (city : String) : Value :=
  .obj [("city", .str city)]

def ownerIn (city : String) : Value :=
  .obj [("address", addressIn city)]

theorem addressed_meets : addressed.Meets .noSetters ∧ addressed.Meets .wellFormed := by
  constructor
  all_goals
    simp only [Schema.Meets, addressed, Schema.parts, Schema.partsOfFields, Field.plain, Field.parts,
      FieldType.parts, map_cons, map_nil, append_nil, forall_mem_cons]
  · simp [SchemaLaw.noSetters]
  · simp only [SchemaLaw.wellFormed, not_mem_nil, false_implies, implies_true, and_true]
    decide +kernel

-- A city that has come back to the stored one can be forgotten.
theorem reassigned_replays_iff_back : ∃ d s, d.Persisted ∧
    d.get? [.key "address"] = some (addressIn "x") ∧
    (Edit.set [.key "address"] (addressIn "x")).outcome ⟨d, {}⟩ = (.ok (), s) ∧
    s.doc.changeset.changes ≠ d.changeset.changes ∧
    s.doc.changeset.apply (ownerIn "x") = d.changeset.apply (ownerIn "x") := by
  have hload : (load addressed (ownerIn "x") none).1 = .ok _ := rfl
  have hd := (Persisted.loaded hload).set [.key "address", .key "city"] (.str "y") {} {}
  have hd := hd.set [.key "address", .key "city"] (.str "x") {} {}
  have hiff := reassigned_replays_iff hd addressed_meets.1 addressed_meets.2
    (p := [.key "address"]) (by decide +kernel) (v := ⟨_, (by decide +kernel : (addressIn "x").Exact).canonical⟩) rfl
    (.inr ⟨addressed, [.key "address"], by simp, ⟨_, rfl⟩, ⟨fun _ _ _ => rfl, trivial⟩⟩) {} rfl
    (by decide +kernel) (by decide +kernel) ⟨_, (by decide +kernel : (ownerIn "x").Exact).canonical⟩ (ownerIn "x")
    (by decide +kernel)
  refine ⟨_, _, hd, rfl, rfl, by decide +kernel, hiff.2.2.2.2.mpr (.inr (.inr ⟨?_, rfl⟩))⟩
  decide +kernel

-- What is pending for the city is forgotten when the address is written again.
theorem group_forgets_field : ∃ d s, d.Persisted ∧ d.schema.Meets .noSetters ∧
    d.get? [.key "address"] = some (addressIn "y") ∧ d.FixesAt [.key "address"] (addressIn "y") ∧
    (Edit.set [.key "address"] (addressIn "y")).outcome ⟨d, {}⟩ = (.ok (), s) ∧
    d.changeset.apply (ownerIn "x") = .ok (ownerIn "y") ∧
    s.doc.changeset.apply (ownerIn "x") = .ok (ownerIn "x") := by
  have hload : (load addressed (ownerIn "x") none).1 = .ok _ := rfl
  refine ⟨_, _, .set [.key "address", .key "city"] (.str "y") {} {} (.loaded hload), ?_, rfl,
    .inr ⟨addressed, [.key "address"], by simp, ⟨_, rfl⟩, ⟨fun _ _ _ => rfl, trivial⟩⟩, rfl, ?_, ?_⟩
  · exact addressed_meets.1
  · decide +kernel
  · decide +kernel

end Document
end Dossier

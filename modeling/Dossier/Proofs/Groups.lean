import Dossier.Proofs.Housed
import Dossier.Proofs.Passing

-- An object that is given to a group is stored field by field without marks, and the group is marked for them all.

namespace Dossier

open Path

namespace Tracker

variable {t : Tracker} {p : Path}

theorem follows_transition_self (hs : state ∈ [PathState.init, .modify, .default]) : (t.transition p state).Follows p :=
  ⟨state, hs, by rw [stateOf?_transition, if_pos rfl]⟩

theorem Follows.transition_ne (h : t.Follows p) (hq : q ≠ p) : (t.transition q state).Follows p := by
  obtain ⟨state', hs, hp⟩ := h
  exact ⟨state', hs, by rw [stateOf?_transition, if_neg hq, hp]⟩

theorem Follows.transition (h : t.Follows p) (hs : state ∈ [PathState.init, .modify, .default]) :
    (t.transition q state).Follows p := by
  by_cases hq : q = p
  · exact hq ▸ follows_transition_self hs
  · exact h.transition_ne hq

theorem Follows.clearDescendants (h : t.Follows p) (hq : ¬ q.isAbove p) : (t.clearDescendants q).Follows p := by
  obtain ⟨state, hs, hp⟩ := h
  exact ⟨state, hs, by rw [stateOf?_clearDescendants, if_neg hq, hp]⟩

end Tracker

namespace Document

open Edit

variable {schema : Schema} {d : Document} {p a : Path} {s s' : Desk}

-- The path or a group above it is tracked.
def Follows (d : Document) (p : Path) : Prop :=
  ∃ a : Path, a ≠ [] ∧ a.covers p ∧ d.tracker.Follows a

-- What stays tracked

theorem follows_settled (h : d.tracker.Follows a) {modifies : Bool} : (d.settled p f modifies).tracker.Follows a :=
  settled_rec (I := fun d => d.tracker.Follows a) (fun _ => h) (fun _ => h) id (·.transition (by simp))
    fun h => by rwa [tracker_markValid]

theorem heeds_follows (haq : a.covers q) : Heeds (fun p => p ≠ [] ∧ ¬ p.isAbove q) fun d => d.tracker.Follows a where
  opened h := by rwa [openChanges_eq]
  reported h := h
  stored {d p f v opts effects} hp _ h := by
    refine storeField_rec (I := fun d => d.tracker.Follows a) (J := fun d => d.tracker.Follows a) h
      (by rwa [tracker_markValid]) (fun _ => ?_) (fun _ => h) (fun hd _ => ?_) fun hd _ => follows_settled ?_
    · rw [detached_tracker]
      exact h.clearDescendants fun ha => hp.2 (isAbove_of_isAbove_covers ha haq)
    all_goals rwa [write_eq]
  taken _ _ h := by rwa [write_eq]
  emptied hp _ _ h := by
    rw [write_eq]
    dsimp only
    rw [detached_tracker]
    exact h.clearDescendants fun ha => hp.2 (isAbove_of_isAbove_covers ha haq)
  marked _ _ _ h := h.transition (by simp)
  inner hp _ _ := ⟨by simp, fun ha => hp.2 (isAbove_of_covers_isAbove (covers_append _ _) ha)⟩

-- What is marked

theorem isNewAt_of_isNew (h : d.isNew = true) : d.isNewAt p = true := by
  rw [isNewAt, h, Bool.true_or]

theorem modifies_of_isNew {prior : Option Value} (h : d.isNew = true) : d.modifies p prior v {} = true := by
  rw [modifies, if_neg (by simp), if_pos (isNewAt_of_isNew h)]

theorem Housed.follows_markModified (h : d.Housed schema) (he : e ∈ schema.fields) (hp : p.covers e.1) :
    (d.markModified p).tracker.Follows p := by
  have howners : d.scopes.owners p = [] := Scopes.owners_of_innermost? (h.scopes.innermost? he hp)
  have hmark : (passed d.scopes p).1 = p := by rw [passed, howners]; rfl
  rw [markModified_eq]
  dsimp only
  rw [hmark]
  exact Tracker.follows_transition_self (by simp)

theorem Housed.follows_settled (h : d.Housed schema) (hw : schema.Meets .wellFormed) (hf : (p, f) ∈ schema.fields)
    (hout : ∀ e ∈ schema.fields, ¬ p.isAbove e.1) : (d.settled p f true).tracker.Follows p := by
  have hattached : Housed schema (if f.type.isStructural then d.attached p f else d) := by
    split
    · exact h.attached hw hout
    · exact h
  have hnoted : Housed schema (if f.type.isArray ∧ true = true then
      Document.noteArrayOp (if f.type.isStructural then d.attached p f else d) p fun ops => { ops with replaced := true }
      else if f.type.isStructural then d.attached p f else d) := by
    split
    · exact hattached.noted
    · exact hattached
  rw [Document.settled, tracker_markValid]
  exact hnoted.follows_markModified hf (covers_refl p)

variable {fields : List (String × Value)} {e : Path × Field}

section

variable (h : s.doc.Housed schema) (hw : schema.Meets .wellFormed)

include h hw

theorem Housed.follows_of_setGroup (he : e ∈ schema.fields) (hp : p ≠ []) (hpe : p.isAbove e.1)
    (hok : (setPath (.obj fields) p {}).outcome s = (.ok (), s'))
    (hc : s.doc.isNew = true ∨ ¬ Value.equalOpt (s.doc.get? p) (s'.doc.get? p)) : s'.doc.tracker.Follows p := by
  have hnested : s.doc.resolve p = .nested := by
    rw [Document.resolve, h.schema]
    exact Schema.resolve_of_isAbove hw.apart he hpe hp
  rw [outcome_setPath hp, hnested] at hok
  split at hok
  · cases hok
  obtain ⟨-, s₁, hkeys, rfl⟩ := setGroup_ok hok
  -- The keys are set in a document that is housed and as new as before.
  let s₀ : Desk := { s with doc := ((s.doc.detached p).write p (.obj [])).2 }
  have h₁ : s₁.doc.Housed schema := by
    have := (heeds_housed hw).keeps_setKeys fields p (by simp) { silent := true } s₀ ((h.detached hw).write hp)
    rwa [hkeys] at this
  have hnew : s₁.doc.isNew = s.doc.isNew := by
    have := (lasting_isNew.heeds (by simp)).keeps_setKeys fields p (by simp) { silent := true } s₀
      (lasting_isNew.written hp (lasting_isNew.detached hp rfl))
    rwa [hkeys] at this
  have hget : ∀ d : Document, (d.markValid p).get? p = d.get? p := by
    intro d
    obtain ⟨issues, hd⟩ := markValid_eq d p
    rw [hd]
    rfl
  rw [tracker_markValid, if_pos]
  · exact h₁.follows_markModified he (covers_of_isAbove hpe)
  · refine ⟨by simp, hc.symm.imp (fun hne => ?_) fun hn => isNewAt_of_isNew (hnew.trans hn)⟩
    dsimp only at hne
    rw [hget] at hne
    split at hne <;> exact hne

theorem Housed.follows_of_storeField (hnew : s.doc.isNew = true) (hf : (p, f) ∈ schema.fields)
    (hok : (storeField p f (s.doc.get? p) v {}).outcome s = (.ok (), s')) : s'.doc.tracker.Follows p := by
  have hp := (hw.declared hf).1
  have hd : Housed schema (if f.type.isStructural then s.doc.detached p else s.doc) := by
    split
    · exact h.detached hw
    · exact h
  rw [outcome_storeField] at hok
  dsimp only at hok
  rw [if_neg (fun hc => hc.2.2.2 (isNewAt_of_isNew hnew)), modifies_of_isNew hnew, if_neg (fun hc => hc.2 rfl)] at hok
  have hwritten := hd.write (v := v) hp
  generalize (if f.type.isStructural then s.doc.detached p else s.doc).write p v = w at hok hwritten
  rcases w with ⟨_ | _, d⟩
  · cases hok
  · cases hok
    exact hwritten.follows_settled hw hf fun e he => Scopes.not_isAbove_declared hw (List.mem_map_of_mem hf)
      (List.mem_map_of_mem he)

theorem Housed.follows_of_setPath (hnew : s.doc.isNew = true) (he : e ∈ schema.fields) (hp : p ≠ [])
    (hpe : p.covers e.1) (hok : (setPath v p {}).outcome s = (.ok (), s')) :
    s'.doc.tracker.Follows p ∨ ∃ issues, s'.doc = { s.doc with issues } := by
  have hset := hok
  rw [outcome_setPath hp] at hok
  split at hok
  · cases hok
  rcases eq_or_isAbove_of_covers hpe with rfl | ha
  · have hresolve : s.doc.resolve e.1 = .field e.2 := resolve_declared (h.schema ▸ hw) (h.schema ▸ he)
    rw [hresolve] at hok
    dsimp only at hok
    rw [outcome_setField] at hok
    split at hok
    · cases hok
      exact .inr ⟨_, rfl⟩
    · cases hok
    · case _ effects _ => exact .inl (Housed.follows_of_storeField (s := { s with effects }) h hw hnew he hok)
  · have hnested : s.doc.resolve p = .nested := by
      rw [Document.resolve, h.schema]
      exact Schema.resolve_of_isAbove hw.apart he ha hp
    rw [hnested] at hok
    dsimp only at hok
    cases v with
    | obj fields => exact .inl (h.follows_of_setGroup hw he hp ha hset (.inl hnew))
    | null =>
      rw [setGroup, outcome_setNestedNull, modifies_of_isNew (d := s.doc.detached p) hnew] at hok
      have hwritten := (h.detached hw (p := p)).write (v := .null) hp
      generalize (s.doc.detached p).write p .null = w at hok hwritten
      rcases w with ⟨_ | _, d⟩
      · cases hok
      · cases hok
        left
        rw [tracker_markValid]
        exact hwritten.follows_markModified he hpe
    | bool | num | str | arr =>
      cases hok
      exact .inr ⟨_, rfl⟩

-- Groups that stay tracked

theorem Housed.setPath (hok : (setPath v p opts).outcome s = (.ok (), s')) : s'.doc.Housed schema := by
  have := (heeds_housed hw).keeps_setPath v p (p.opens_ne_nil v) opts s h
  rwa [hok] at this

end

theorem isNew_setPath (hok : (setPath v p opts).outcome s = (.ok (), s')) : s'.doc.isNew = s.doc.isNew := by
  have := (lasting_isNew.heeds (by simp)).keeps_setPath v p (p.opens_ne_nil v) opts s rfl
  rwa [hok] at this

-- What is tracked in a new document stays tracked when something is written: a group that is replaced is marked
-- for all that was tracked in it.
theorem carries_follows (hw : schema.Meets .wellFormed) (he : e ∈ schema.fields) (hq : q.covers e.1) :
    Carries (· ≠ []) {} fun d => d.Housed schema ∧ d.isNew = true ∧ d.Follows q := by
  rintro p v s s' - hp ⟨h, hnew, a, ha, haq, hf⟩ hok
  refine ⟨h.setPath hw hok, (isNew_setPath hok).trans hnew, ?_⟩
  by_cases hpa : p.isAbove a
  · have hpq : p.covers q := covers_of_isAbove (isAbove_of_isAbove_covers hpa haq)
    rcases h.follows_of_setPath hw hnew he hp (covers_trans hpq hq) hok with hf' | ⟨issues, hd⟩
    · exact ⟨p, hp, hpq, hf'⟩
    · exact ⟨a, ha, haq, by rwa [hd]⟩
  · have := (heeds_follows (covers_refl a)).keeps_setPath v p ((opens_of_ne_nil hp).mpr ⟨hp, hpa⟩) {} s hf
    rw [hok] at this
    exact ⟨a, ha, haq, this⟩

-- An object that is given to a group is noticed if the document is new. Otherwise the group or one above it was
-- tracked, or the object differs from the one that was there, and no setter goes on to write above the group.
def Notices (d : Document) (p : Path) (fields : List (String × Value)) (effects : Effects) : Prop :=
  d.isNew = true ∨
    (d.Follows p ∨ ¬ Value.equalOpt (d.get? p) ((begun p (.obj fields) {} ⟨d, effects⟩).doc.get? p)) ∧
    Rounds (Path.Opens fun q => q ≠ [] ∧ ¬ q.isAbove p) {} maxRounds (begun p (.obj fields) {} ⟨d, effects⟩)

theorem Housed.follows_of_set (h : d.Housed schema) (hw : schema.Meets .wellFormed) (he : e ∈ schema.fields)
    (hp : p ≠ []) (hpe : p.isAbove e.1) (hc : d.Notices p fields effects)
    (hok : (Edit.set p (.obj fields)).outcome ⟨d, effects⟩ = (.ok (), s')) : s'.doc.Follows p := by
  rw [outcome_set] at hok
  rw [Notices, begun] at hc
  rcases hr : (Edit.setPath (.obj fields) p {}).outcome ⟨d.openChanges, { effects with queue := [] }⟩ with ⟨_ | _, s₁⟩
  all_goals
    rw [hr] at hok hc
    dsimp only at hok hc
  · cases hok
  · have hsame : d.openChanges.isNew = d.isNew := by rw [openChanges_eq]
    rcases hc with hnew | ⟨hseen, hrounds⟩
    · have hnew : d.openChanges.isNew = true := hsame.trans hnew
      have hf := h.openChanges.follows_of_setGroup hw he hp hpe hr (.inl hnew)
      exact ((carries_follows hw he (covers_of_isAbove hpe)).settle (rounds_of_forall opens_ne_nil)
        ⟨h.openChanges.setPath hw hr, (isNew_setPath hr).trans hnew, p, hp, covers_refl p, hf⟩ hok).2.2
    · -- The group, or the one above it that was tracked, is.
      obtain ⟨a, ha, hap, hf⟩ : s₁.doc.Follows p := by
        rcases hseen with ⟨a, ha, hap, hf⟩ | hne
        · have hopens : p.Opens (fun q => q ≠ [] ∧ ¬ q.isAbove p) (.obj fields) :=
            (opens_of_ne_nil hp).mpr ⟨hp, isAbove_irrefl⟩
          have := (heeds_follows hap).keeps_setPath _ p hopens {} ⟨d.openChanges, { effects with queue := [] }⟩
            ((heeds_follows hap).opened hf)
          rw [hr] at this
          exact ⟨a, ha, hap, this⟩
        · rw [← get?_openChanges] at hne
          exact ⟨p, hp, covers_refl p, h.openChanges.follows_of_setGroup hw he hp hpe hr (.inr hne)⟩
      have := (heeds_follows hap).settle hrounds hf
      rw [hok] at this
      exact ⟨a, ha, hap, this⟩

-- The fields of a group

-- A validation that reports nothing, after an object was given to a group of fields of the document and was
-- noticed, has found no fault with any field of the group.
theorem set_group_validates (hd : d.Reached) (hw : d.schema.Meets .wellFormed) (hp : p ≠ []) {effects : Effects}
    (hc : d.Notices p fields effects) (hok : (Edit.set p (.obj fields)).outcome ⟨d, effects⟩ = (.ok (), s'))
    (hooks : Hooks) (hv : (s'.doc.validateSync hooks).result = .ok ()) :
    ∀ e ∈ d.schema.fields, p.isAbove e.1 → s'.doc.Passes e.1 e.2 := by
  intro e he hpe
  obtain ⟨a, ha, hap, hf⟩ := (hd.housed hw).follows_of_set hw he hp hpe hc hok
  have hrun : ((Call.set p (.obj fields) {}).run ⟨d, effects⟩).doc = s'.doc := by
    rw [Call.run, Call.edit, hok]
  have hsound : s'.doc.Sound := hrun ▸ (Reached.called (.set p (.obj fields) {}) effects hd).sound
  have hschema : s'.doc.schema = d.schema := hrun ▸ hd.sound.schema_run _ effects
  rw [← hschema] at hw he
  have hcovers : a.covers e.1 := Path.covers_trans hap (Path.covers_of_isAbove hpe)
  exact (reaches_of_covers hw he ha hcovers).passes hv (mem_candidates hsound.tracker hf)

-- The side of the equator that a position is on.
def side : Field :=
  ⟨.string, { required := .always, validators := [.oneOf [.str "n", .str "s"]] }⟩

def positions : Schema :=
  ⟨{ id := false }, [([.key "geo", .key "side"], side)], []⟩

def onSide (s : String) : List (String × Value) :=
  [("side", .str s)]

theorem set_group_validates_position : ∃ d s',
    (load positions (.obj [("geo", .obj (onSide "x"))]) none).1 = .ok d ∧
    (Edit.set [.key "geo"] (.obj (onSide "s"))).outcome ⟨d, {}⟩ = (.ok (), s') ∧
    (s'.doc.validateSync {}).result = .ok () ∧ s'.doc.Passes [.key "geo", .key "side"] side := by
  have hload : (load positions (.obj [("geo", .obj (onSide "x"))]) none).1 = .ok _ := rfl
  refine ⟨_, _, hload, rfl, rfl, ?_⟩
  have hvalid := set_group_validates (p := [.key "geo"]) (.loaded hload) (by decide +kernel) (by simp)
    (.inr ⟨.inr (by decide +kernel), rounds_of_quiet rfl⟩)
    (show (Edit.set _ (.obj (onSide "s"))).outcome ⟨_, {}⟩ = (.ok (), _) from rfl) {} rfl
  exact hvalid _ (List.mem_singleton_self _) rfl

-- An address has a position.
def addresses : Schema :=
  ⟨{ id := false }, [([.key "addr"], .ofSub ⟨positions, []⟩)], []⟩

-- A validation does not come to the fields of a group in an embedded document, nor to those of a group that was
-- given the object that it had.
theorem group_left_unvalidated :
    (∃ d s', (load addresses (.obj [("addr", .obj [("geo", .obj (onSide "n"))])]) none).1 = .ok d ∧
      (Edit.set [.key "addr", .key "geo"] (.obj (onSide "x"))).outcome ⟨d, {}⟩ = (.ok (), s') ∧
      (s'.doc.validateSync {}).result = .ok () ∧
      ¬ s'.doc.Passes [.key "addr", .key "geo", .key "side"] side) ∧
    ∃ d s', (load positions (.obj [("geo", .obj (onSide "x"))]) none).1 = .ok d ∧
      (Edit.set [.key "geo"] (.obj (onSide "x"))).outcome ⟨d, {}⟩ = (.ok (), s') ∧
      (s'.doc.validateSync {}).result = .ok () ∧ ¬ s'.doc.Passes [.key "geo", .key "side"] side := by
  refine ⟨⟨_, _, rfl, rfl, rfl, fun h => ?_⟩, _, _, rfl, rfl, rfl, fun h => ?_⟩
  all_goals
    have := h.accepted (.str "x") rfl (by simp) _ (List.mem_singleton_self _) _ rfl
    revert this
    decide +kernel

end Document
end Dossier

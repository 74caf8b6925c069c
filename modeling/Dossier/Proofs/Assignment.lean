import Dossier.Proofs.Mark
import Dossier.Proofs.Rollback

-- A value given to a field is stored as the cast makes it, or nothing but a failure is recorded.

namespace Dossier

namespace Document

variable {d d' : Document} {p q : Path} {f : Field} {v w : Value} {opts : SetOptions} {effects : Effects}

theorem issues_markValid : (d.markValid p).issues.bind (·.get? p) = none := by
  rw [markValid]
  split
  · case _ h => rw [h, Option.bind_none]
  · case _ issues _ =>
    dsimp only
    split
    · rfl
    · exact OrdMap.get?_erase_self

-- The path holds the value, or still one that is equal to it; no failure is recorded for it; and nothing that lies
-- apart from it has changed.
structure Gives (d : Document) (p : Path) (w : Value) (d' : Document) : Prop where
  held  : ∃ x, d'.get? p = some x ∧ (w.Canonical → x.equal w) ∧ (x = w ∨ d.get? p = some x)
  valid : d'.issues.bind (·.get? p) = none
  apart : ∀ q : Path, q.Spelled → q.Apart p → d'.get? q = d.get? q

theorem gives_markValid (h : Value.equalOpt (d.get? p) (some w)) : d.Gives p w (d.markValid p) := by
  have hget : ∀ q, (d.markValid p).get? q = d.get? q := fun q => congrArg (Value.get? · q) value_markValid
  refine ⟨?_, issues_markValid, fun q _ _ => hget q⟩
  rw [hget]
  cases hx : d.get? p with
  | none => rw [hx] at h; cases h
  | some x =>
    rw [hx] at h
    exact ⟨x, rfl, fun _ => h, .inr rfl⟩

theorem gives_settled (modifies : Bool) (hp : p.Spelled) (hval : d'.value = d.value) (hok : (d'.write p w).1 = .ok ()) :
    d.Gives p w ((d'.write p w).2.settled p f modifies) := by
  have hvalue : ((d'.write p w).2.settled p f modifies).value = (d.value.set p w).2 := by
    rw [value_settled, write_eq, hval]
  have hset : (d.value.set p w).1 = .ok () := by rwa [write_eq, hval] at hok
  have hget : ∀ q, ((d'.write p w).2.settled p f modifies).get? q = (d.value.set p w).2.get? q :=
    fun q => congrArg (Value.get? · q) hvalue
  refine ⟨⟨w, (hget p).trans (Value.get?_setFrom_self hset), w.equal_refl, .inl rfl⟩, issues_markValid, fun q hq ha => ?_⟩
  exact (hget q).trans (Value.get?_setFrom_apart ha hq hp)

end Document

namespace Edit

open Document

variable {d : Document} {s s' : Desk} {p : Path} {f : Field} {v w : Value} {opts : SetOptions} {effects : Effects}

theorem storeField_gives (hp : p.Spelled) (himm : f.rules.immutable = false)
    (hok : (storeField p f (s.doc.get? p) w opts).outcome s = (.ok (), s')) : s.doc.Gives p w s'.doc := by
  rw [outcome_storeField] at hok
  simp only [himm, Bool.false_eq_true, false_and, if_false] at hok
  by_cases hsame : Value.equalOpt (s.doc.get? p) (some w) ∧ ¬ s.doc.modifies p (s.doc.get? p) w opts
  · rw [if_pos hsame] at hok
    cases hok
    exact gives_markValid hsame.1
  rw [if_neg hsame] at hok
  have hval : (if f.type.isStructural then s.doc.detached p else s.doc).value = s.doc.value := by
    split <;> rfl
  generalize (if f.type.isStructural then s.doc.detached p else s.doc) = d' at hval hok
  have hgives := gives_settled (f := f) (w := w) (s.doc.modifies p (s.doc.get? p) w opts) hp hval
  rcases hw : d'.write p w with ⟨_ | _, d''⟩
  · rw [hw] at hok; cases hok
  · rw [hw] at hok hgives
    cases hok
    exact hgives rfl

theorem setField_cases (hp : p.Spelled) (hset : f.rules.setters = []) (himm : f.rules.immutable = false)
    (hok : (setField p f v opts).outcome s = (.ok (), s')) :
    (∃ e, ((f.cast (castContext s.doc p opts) v).outcome s.effects).1 = .error (.cast e) ∧
      s'.doc = s.doc.recordCast p e) ∨
    ∃ w, ((f.cast (castContext s.doc p opts) v).outcome s.effects).1 = .ok w ∧ s.doc.Gives p w s'.doc := by
  rw [outcome_setField, Field.accept_eq_cast hset] at hok
  rcases hc : (f.cast (castContext s.doc p opts) v).outcome s.effects with ⟨(e | e) | w, left⟩
  · rw [hc] at hok
    cases hok
    exact .inl ⟨e, rfl, rfl⟩
  · rw [hc] at hok; cases hok
  · rw [hc] at hok
    exact .inr ⟨w, rfl, storeField_gives (s := { s with effects := left }) hp himm hok⟩

theorem setField_quiet (hf : f.Meets .noSetters) :
    ((setField p f v opts).outcome s).2.effects.queue = s.effects.queue := by
  have hq : ((f.accept (castContext s.doc p opts) v).outcome s.effects).2.queue = s.effects.queue :=
    Field.accept_quiet hf s.effects
  rw [outcome_setField]
  revert hq
  rcases (f.accept (castContext s.doc p opts) v).outcome s.effects with ⟨(e | e) | w, left⟩
  · exact id
  · exact id
  · intro hq
    exact (congrArg Effects.queue effects_storeField).trans hq

theorem setPath_field_ok_iff (hr : s.doc.resolve p = .field f) : (setPath v p opts).outcome s = (.ok (), s') ↔
    s.doc.missingArray? p = none ∧ (setField p f v opts).outcome s = (.ok (), s') := by
  rw [outcome_setPath (ne_nil_of_resolve hr), hr]
  cases s.doc.missingArray? p <;> simp

theorem begun_of_set_ok (hok : (Edit.set p v opts).outcome s = (.ok (), s')) :
    (setPath v p opts).outcome ⟨s.doc.openChanges, { s.effects with queue := [] }⟩ = (.ok (), begun p v opts s) ∧
    (settle opts maxRounds).outcome (begun p v opts s) = (.ok (), s') := by
  rw [outcome_set] at hok
  rw [begun]
  rcases hb : (setPath v p opts).outcome ⟨s.doc.openChanges, { s.effects with queue := [] }⟩ with ⟨_ | _, b⟩
  · rw [hb] at hok; cases hok
  · rw [hb] at hok
    exact ⟨rfl, hok⟩

end Edit

namespace Document

open Edit

variable {d : Document} {p : Path} {f : Field} {v : Value} {opts : SetOptions} {effects : Effects} {s' : Desk}

-- A value given to a field without setters is cast and stored and nothing else is changed, or it cannot be cast
-- and nothing but the failure is recorded. Setters inside the value are heard after `begun`.
theorem field_given (hp : p.Spelled) (hr : d.resolve p = .field f) (hset : f.rules.setters = [])
    (himm : f.rules.immutable = false) (hok : (Edit.set p v opts).outcome ⟨d, effects⟩ = (.ok (), s')) :
    let b := begun p v opts ⟨d, effects⟩
    let given := (f.cast (castContext d p opts) v).outcome { effects with queue := [] }
    (settle opts maxRounds).outcome b = (.ok (), s') ∧ (b.effects.queue = [] → s' = b) ∧
    (f.Meets .noSetters → b.effects.queue = []) ∧
    ((∃ e, given.1 = .error (.cast e) ∧ b.doc = { d with
        backup := b.doc.backup
        issues := some ((d.issues.getD ∅).insert p (.cast e)) }) ∨
      ∃ w, given.1 = .ok w ∧ d.Gives p w b.doc) := by
  intro b given
  obtain ⟨hpath, hsettle⟩ := begun_of_set_ok hok
  obtain ⟨-, hfield⟩ := (setPath_field_ok_iff (by rwa [resolve_openChanges])).mp hpath
  refine ⟨hsettle, fun hq => ?_, fun hf => ?_, ?_⟩
  · exact congrArg Prod.snd (hsettle.symm.trans (outcome_settle hq))
  · have hq : ((setField p f v opts).outcome ⟨d.openChanges, { effects with queue := [] }⟩).2.effects.queue = [] :=
      setField_quiet hf
    rwa [hfield] at hq
  · have hcases := setField_cases hp hset himm hfield
    simp only [castContext_openChanges] at hcases
    rcases hcases with ⟨e, he, hdoc⟩ | ⟨w, hw, hgives⟩
    · refine .inl ⟨e, he, ?_⟩
      rw [hdoc, openChanges_eq]
      rfl
    · refine .inr ⟨w, hw, ?_, hgives.valid, fun q hq ha => ?_⟩
      · simpa only [get?_openChanges] using hgives.held
      · rw [hgives.apart q hq ha, get?_openChanges]

-- The label of a box is its title as well.
def boxLabel : Field :=
  ⟨.string, { default := some (.literal (.str "x")), setters := [fun _ v => ⟨v, [([.key "title"], v)], []⟩] }⟩

def box : Field :=
  .plain (.embedded ⟨⟨{ id := false }, [([.key "label"], boxLabel), ([.key "title"], .plain .string)], []⟩, []⟩)

def shelf : Schema :=
  ⟨{ id := false }, [([.key "box"], box), ([.key "count"], .plain .number)], []⟩

theorem count_given : ∃ d, (load shelf (.obj [("count", .int 1)]) none {}).1 = .ok d ∧
    ∃ s', (Edit.set [.key "count"] (.int 2) {}).outcome ⟨d, {}⟩ = (.ok (), s') ∧
      d.Gives [.key "count"] (.int 2) s'.doc := by
  have hgives {d : Document} {s' : Desk} (hr : d.resolve [.key "count"] = .field (.plain .number))
      (hok : (Edit.set [.key "count"] (.int 2) {}).outcome ⟨d, {}⟩ = (.ok (), s')) :
      d.Gives [.key "count"] (.int 2) s'.doc := by
    obtain ⟨-, hsame, hquiet, ⟨e, he, -⟩ | ⟨w, hw, hgives⟩⟩ := field_given (by decide) hr rfl rfl hok
    · cases he
    · rw [hsame (hquiet (by simp [Field.Meets, Field.plain, Field.parts, FieldType.parts, SchemaLaw.noSetters]))]
      cases hw
      exact hgives
  exact ⟨_, rfl, _, rfl, hgives rfl rfl⟩

theorem ok_of_toOption {r : Except ε α} (h : r.toOption = some a) : r = .ok a := by
  cases r with
  | error => cases h
  | ok => exact congrArg _ (Option.some.inj h)

theorem eq_of_toOption {r : Except ε α × σ} (h : r.1.toOption = some a) : r = (.ok a, r.2) :=
  Prod.ext (ok_of_toOption h) rfl

-- A box that is given no label has the default one, and with it a title that the value does not have.
theorem box_titled : ∃ d, (load shelf (.obj []) none {}).1 = .ok d ∧ d.resolve [.key "box"] = .field box ∧
    box.rules.setters = [] ∧ box.rules.immutable = false ∧
    ∃ s', (Edit.set [.key "box"] (.obj []) {}).outcome ⟨d, {}⟩ = (.ok (), s') ∧
      ∃ w x, ((box.cast (castContext d [.key "box"] {}) (.obj [])).outcome {}).1 = .ok w ∧
        s'.doc.get? [.key "box"] = some x ∧ ¬ x.equal w := by
  refine ⟨_, rfl, rfl, rfl, rfl, _, eq_of_toOption ?_, .obj [("label", .str "x")],
    .obj [("label", .str "x"), ("title", .str "x")], ok_of_toOption ?_, ?_, ?_⟩
  all_goals decide +kernel

end Document
end Dossier

import Dossier.Proofs.Placement
import Dossier.Proofs.Verdicts

-- A pass that reports nothing has found no fault with the values that it planned.

namespace Dossier

open List

-- A path is tracked as one that something is known of, be it that it is as it was loaded.
def Tracker.Follows (t : Tracker) (p : Path) : Prop :=
  ∃ state ∈ [PathState.init, .modify, .default], t.stateOf? p = some state

namespace Document

variable {d : Document} {hooks : Hooks} {opts : ValidateOptions} {p q c : Path} {f el : Field}

-- The value of a field is there if it is required, and if there is one other than null no validator finds fault
-- with it. Validators whose verdicts have to be waited for are left out.
structure Passes (d : Document) (p : Path) (f : Field) : Prop where
  required : f.rules.isRequired (d.viewAt p) → f.satisfiesRequired (d.get? p)
  accepted : ∀ v, d.get? p = some v → v ≠ .null → ∀ validator ∈ f.rules.validators, ∀ check,
    validator.check = .sync check → validator.failure? p v (check v (d.viewAt p)) = none

theorem passes_of_outcomes (moment : Nat) (h : (d.outcomes moment false p f).findSome? id = none) : d.Passes p f := by
  rw [findSome?_eq_none_iff, outcomes, forall_mem_cons] at h
  obtain ⟨hmissing, hjudged⟩ := h
  have hmissing : d.missing? p f = none := hmissing
  constructor
  · intro hr
    by_contra hs
    rw [missing?, if_pos ⟨hr, hs⟩] at hmissing
    cases hmissing
  · intro v hv hnull validator hmem check hcheck
    have hnull : (!v.isNull) = true := by
      cases v with
      | null => exact absurd rfl hnull
      | bool | num | str | arr | obj => rfl
    have hj : d.judged? p f = some v := by
      rw [judged?, hmissing, hv]
      simp [hnull]
    rw [hj] at hjudged
    have := hjudged _ (mem_map_of_mem hmem)
    rwa [id, Validator.outcome?, Validator.isAsked, Validator.isAsync, Validator.verdict, hcheck] at this

theorem passes_of_sure (h : ¬ f.canFail) : d.Passes p f := by
  obtain ⟨type, rules⟩ := f
  simp only [Field.canFail, Bool.or_eq_true, not_or, Bool.not_eq_true, Bool.not_eq_false'] at h
  obtain ⟨⟨hr, hv⟩, -⟩ := h
  constructor
  · intro hreq
    rw [Rules.hasRequired] at hr
    rw [Rules.isRequired] at hreq
    cases hrules : rules.required <;> rw [hrules] at hr hreq
    · cases hreq
    · cases hr
    · cases hr
  · intro v _ _ validator hmem
    rw [isEmpty_iff.mp hv] at hmem
    cases hmem

theorem passes_of_mem_plan (h : (d.validateSync hooks opts).result = .ok ()) (hf : (p, f) ∈ d.plan opts) :
    d.Passes p f := by
  have hadmits : d.Admits hooks := admits_of_result h nofun nofun
  rw [validateSync, completePass_of_admits hadmits] at h
  simp only [ended, finishPass] at h
  have hscope : { d with validating := true }.inScope (d.check opts false).1.settle.1.options p := by
    rw [Pass.options_settle, options_check, inScope_validating]
    exact (mem_plan.mp hf).2
  generalize hpass : (d.check opts false).1.settle.1 = pass at h hscope
  -- The report is that of the failures at paths that the pass was about.
  have hreport : (({ d with validating := true }.mergeIssues pass).filter fun p _ =>
      { d with validating := true }.inScope pass.options p).get? p = none := by
    split at h
    · cases h
    · case _ hnone =>
      split at hnone
      · case isTrue hempty =>
        rw [OrdMap.get?, isEmpty_iff.mp hempty]
        rfl
      · cases hnone
  rw [OrdMap.get?_filter, Option.filter_eq_none_iff] at hreport
  have hissue : ({ d with validating := true }.mergeIssues pass).get? p = none := by
    cases hi : ({ d with validating := true }.mergeIssues pass).get? p with
    | none => rfl
    | some e => exact absurd hscope (hreport e hi)
  rw [get?_mergeIssues_of_inScope hscope, Option.or_eq_none_iff, Option.map_eq_none_iff] at hissue
  refine passes_of_outcomes opts.moment ?_
  rw [← failure_of_mem_plan hf tells_settle, hpass, hissue.2]
  rfl

-- What is planned

theorem mem_trackedPaths (ht : t.Consistent) (h : t.Follows p) : root ++ p ∈ d.trackedPaths t root top := by
  obtain ⟨state, hstate, hp⟩ := h
  refine mem_append_right _ (mem_map_of_mem (mem_flatMap.mpr ⟨state, hstate, ?_⟩))
  exact (ht p state).mpr hp

theorem mem_candidates (ht : d.tracker.Consistent) (h : d.tracker.Follows p) : p ∈ d.candidates opts := by
  rw [candidates, OrdSet.mem_ofKeys]
  exact mem_append_left _ (mem_append_left _ (mem_trackedPaths ht h))

theorem mem_candidates_of_scope (hk : d.scopes.keyAt? scope.root = some k) (hs : d.scopes.get? k = some scope)
    (ht : scope.tracker.Consistent) (h : scope.tracker.Follows p) : scope.root ++ p ∈ d.candidates opts := by
  rw [candidates, OrdSet.mem_ofKeys]
  refine mem_append_left _ (mem_append_right _ (mem_flatMap.mpr ⟨_, Scopes.mem_toList hk hs, ?_⟩))
  exact mem_cons_of_mem _ (mem_trackedPaths ht h)

theorem Reaches.passes (hr : d.Reaches c p f) (h : (d.validateSync hooks).result = .ok ()) (hc : c ∈ d.candidates {}) :
    d.Passes p f := by
  by_cases hf : f.canFail
  · exact passes_of_mem_plan h (mem_plan.mpr ⟨⟨c, hc, hf, .inl hr⟩, rfl⟩)
  · exact passes_of_sure hf

theorem Reaches.passes_part (hr : d.Reaches c p f) (h : (d.validateSync hooks).result = .ok ())
    (hc : c ∈ d.candidates {}) (hel : f.HasPart el) (hq : q ∈ partPaths p (d.get? p)) : d.Passes q el := by
  by_cases hf : el.canFail
  · exact passes_of_mem_plan h (mem_plan.mpr ⟨⟨c, hc, hf, .inr ⟨p, f, hr, hel, hq⟩⟩, rfl⟩)
  · exact passes_of_sure hf

theorem reaches_self (h : d.resolve p = .field f) : d.Reaches p p f :=
  ⟨by rw [leaves, h]; exact mem_singleton_self p, h⟩

theorem resolve_declared (hs : d.schema.Meets .wellFormed) (hf : (p, f) ∈ d.schema.fields) : d.resolve p = .field f :=
  Schema.resolve_declared hs.apart hf

theorem reaches_of_covers (hs : d.schema.Meets .wellFormed) (hf : (p, f) ∈ d.schema.fields) (hc : c ≠ [])
    (hcp : c.covers p) : d.Reaches c p f := by
  rcases Path.eq_or_isAbove_of_covers hcp with rfl | ha
  · exact reaches_self (resolve_declared hs hf)
  · refine ⟨?_, resolve_declared hs hf⟩
    have hnested : d.resolve c = .nested := Schema.resolve_of_isAbove hs.apart hf ha hc
    rw [leaves, hnested]
    exact mem_map_of_mem (mem_filter.mpr ⟨hf, ha⟩)

end Document
end Dossier

import Dossier.Proofs.Interleaving
import Dossier.Proofs.Passing

-- A validation that does not wait reports what is wrong with the paths that it is about, no more and no less.

namespace Dossier

open List

def Hooks.Quiet (hooks : Hooks) : Prop :=
  ∀ hook ∈ hooks.preValidate, ∀ d, (hook d).1 = .ok ()

namespace Document

variable {d : Document} {hooks : Hooks} {opts : ValidateOptions} {p : Path}

-- What is wrong with a path that a pass is about: its value could not be cast, or else the first of its checks
-- that fails.
inductive Fault (d : Document) (opts : ValidateOptions) (p : Path) : FieldError → Prop
  | cast {e : CastError} : d.inScope opts p → (d.issues.getD ∅).get? p = some (.cast e) →
      Fault d opts p (.cast e)
  | check {g : Field} {e : ValidatorError} : (∀ c, (d.issues.getD ∅).get? p ≠ some (.cast c)) →
      (p, g) ∈ d.plan opts → (d.outcomes opts.moment false p g).findSome? id = some e → Fault d opts p (.validator e)

theorem runPreValidate_of_quiet (h : ∀ hook ∈ hs, ∀ d, (hook d).1 = .ok ()) : (d.runPreValidate hs).1 = .ok () := by
  induction hs with
  | nil => rfl
  | cons hook hs ih =>
    rw [forall_mem_cons] at h
    rw [runPreValidate]
    rcases hrun : hook d with ⟨r, notes⟩
    have hok := h.1 d
    rw [hrun] at hok
    cases hok
    exact ih h.2

theorem admits_of_quiet (hv : d.validating = false) (h : hooks.Quiet) : d.Admits hooks :=
  ⟨hv, runPreValidate_of_quiet h⟩

-- Checks and verdicts

theorem outcomes_of_passes (h : d.Passes p f) : (d.outcomes moment false p f).findSome? id = none := by
  have hmissing : d.missing? p f = none := by
    rw [missing?]
    split
    · case isTrue hr => exact absurd (h.required hr.1) hr.2
    · rfl
  rw [findSome?_eq_none_iff, outcomes, forall_mem_cons]
  refine ⟨hmissing, fun o ho => ?_⟩
  rw [judged?, hmissing] at ho
  cases hv : d.get? p with
  | none =>
    rw [hv] at ho
    cases ho
  | some v =>
    cases hnull : v.isNull with
    | true =>
      simp only [hv, Option.filter_some, hnull, Bool.not_true] at ho
      cases ho
    | false =>
      simp only [hv, if_true, Option.filter_some, hnull, Bool.not_false] at ho
      obtain ⟨validator, hmem, rfl⟩ := mem_map.mp ho
      rw [id, Validator.outcome?, Validator.isAsked, Validator.isAsync, Validator.verdict]
      have hne : v ≠ .null := by
        rintro rfl
        cases hnull
      cases hcheck : validator.check with
      | sync check => exact h.accepted v hv hne validator hmem check hcheck
      | async check => rfl

theorem passes_iff_outcomes (moment : Nat) : d.Passes p f ↔ (d.outcomes moment false p f).findSome? id = none :=
  ⟨outcomes_of_passes, passes_of_outcomes moment⟩

-- The failures of a pass

def syncPass (d : Document) (opts : ValidateOptions) : Pass :=
  (d.check opts false).1.settle.1

theorem options_syncPass : (d.syncPass opts).options = opts := by
  rw [syncPass, Pass.options_settle, options_check]

theorem tells_syncPass : (d.syncPass opts).failures.Tells (d.FailsIn opts.moment false (d.plan opts)) := by
  rw [syncPass]
  exact tells_settle

theorem failures_syncPass : ((d.syncPass opts).failures.get? p).map (·.2) = some v ↔
    ∃ f, (p, f) ∈ d.plan opts ∧ (d.outcomes opts.moment false p f).findSome? id = some v := by
  constructor
  · intro h
    obtain ⟨⟨i, v'⟩, hget, rfl⟩ := Option.map_eq_some_iff.mp h
    obtain ⟨f, hf, -⟩ := (tells_syncPass.least hget).1
    rw [failure_of_mem_plan hf tells_syncPass] at h
    exact ⟨f, hf, h⟩
  · rintro ⟨f, hf, hv⟩
    rw [failure_of_mem_plan hf tells_syncPass, hv]

theorem get?_report : ((d.mergeIssues (d.syncPass opts)).filter fun p _ => d.inScope opts p).get? p = some issue ↔
    d.Fault opts p issue := by
  rw [OrdMap.get?_filter, Option.filter_eq_some_iff]
  constructor
  · rintro ⟨hget, hscope⟩
    rw [get?_mergeIssues_of_inScope (by rwa [options_syncPass]), Option.or_eq_some_iff] at hget
    rcases hget with hkept | ⟨hkept, hfresh⟩
    · rw [Option.filter_eq_some_iff] at hkept
      cases issue with
      | cast c => exact .cast hscope hkept.1
      | validator v => exact absurd hkept.2 Bool.false_ne_true
    · obtain ⟨⟨i, v⟩, hfail, rfl⟩ := Option.map_eq_some_iff.mp hfresh
      obtain ⟨f, hf, hv⟩ := failures_syncPass.mp (Option.map_eq_some_iff.mpr ⟨_, hfail, rfl⟩)
      refine .check (fun c hc => ?_) hf hv
      rw [hc] at hkept
      cases hkept
  · intro h
    have hscope : d.inScope opts p := by
      cases h with
      | cast hscope _ => exact hscope
      | check _ hf _ => exact (mem_plan.mp hf).2
    refine ⟨?_, hscope⟩
    rw [get?_mergeIssues_of_inScope (by rwa [options_syncPass]), Option.or_eq_some_iff]
    cases h with
    | cast _ hc => exact .inl (Option.filter_eq_some_iff.mpr ⟨hc, rfl⟩)
    | check hc hf hv =>
      obtain ⟨least, hleast, rfl⟩ := Option.map_eq_some_iff.mp (failures_syncPass.mpr ⟨_, hf, hv⟩)
      refine .inr ⟨Option.filter_eq_none_iff.mpr fun issue hissue hcast => ?_,
        Option.map_eq_some_iff.mpr ⟨_, hleast, rfl⟩⟩
      cases issue with
      | cast c => exact hc c hissue
      | validator v => cases hcast

theorem report?_syncPass (d : Document) (opts : ValidateOptions) :
    (d.report? (d.syncPass opts) = none ∧ ∀ p e, ¬ d.Fault opts p e) ∨
    ∃ report, d.report? (d.syncPass opts) = some report ∧ (∀ p e, report.get? p = some e ↔ d.Fault opts p e) ∧
      ∃ p e, d.Fault opts p e := by
  rw [report?, options_syncPass]
  have hreport : ∀ p e, _ ↔ d.Fault opts p e := fun p e => get?_report
  generalize (d.mergeIssues (d.syncPass opts)).filter (fun p _ => d.inScope opts p) = report at hreport
  by_cases hempty : report.isEmpty
  · refine .inl ⟨if_pos hempty, fun p e he => ?_⟩
    rw [← hreport, OrdMap.get?, isEmpty_iff.mp hempty] at he
    cases he
  · refine .inr ⟨report, if_neg hempty, hreport, ?_⟩
    obtain ⟨⟨p, e⟩, hmem⟩ := exists_mem_of_ne_nil _ (mt isEmpty_iff.mpr hempty)
    exact ⟨p, e, (hreport p e).mp (OrdMap.mem_entries_iff.mp hmem)⟩

theorem exists_fault_iff : (∃ p e, d.Fault opts p e) ↔
    (∃ p e, d.inScope opts p ∧ (d.issues.getD ∅).get? p = some (.cast e)) ∨ ∃ e ∈ d.plan opts, ¬ d.Passes e.1 e.2 := by
  constructor
  · rintro ⟨p, e, hfault⟩
    cases hfault with
    | cast hscope hc => exact .inl ⟨p, _, hscope, hc⟩
    | check _ hf hv =>
      refine .inr ⟨_, hf, fun hpass => ?_⟩
      rw [outcomes_of_passes hpass] at hv
      cases hv
  · rintro (⟨p, e, hscope, hc⟩ | ⟨⟨p, f⟩, hf, hfails⟩)
    · exact ⟨p, _, .cast hscope hc⟩
    · rw [passes_iff_outcomes opts.moment, ← ne_eq, Option.ne_none_iff_exists'] at hfails
      obtain ⟨v, hv⟩ := hfails
      by_cases hc : ∃ c, (d.issues.getD ∅).get? p = some (.cast c)
      · obtain ⟨c, hc⟩ := hc
        exact ⟨p, _, .cast (mem_plan.mp hf).2 hc⟩
      · exact ⟨p, _, .check (fun c hp => hc ⟨c, hp⟩) hf hv⟩

-- What a validation leaves

theorem result_validateSync (h : d.Admits hooks) :
    (d.validateSync hooks opts).result = answer (d.report? (d.syncPass opts)) := by
  rw [validateSync, completePass_of_admits h, ended, finishPass_eq, syncPass]
  generalize (d.check opts false).1.settle.1 = pass
  rfl

theorem doc_validateSync (h : d.Admits hooks) : (d.validateSync hooks opts).doc = d.recorded (d.syncPass opts) := by
  rw [validateSync, completePass_of_admits h, ended, finishPass_eq, syncPass]
  generalize (d.check opts false).1.settle.1 = pass
  have hv := h.1
  obtain ⟨⟩ := d
  cases hv
  rfl

variable {pass : Pass}

theorem recorded_eq : d.recorded pass = { d with issues := (d.recorded pass).issues } := rfl

theorem syncPass_recorded : (d.recorded pass).syncPass opts = d.syncPass opts := rfl

theorem admits_recorded (hv : d.validating = false) (h : hooks.Quiet) : (d.recorded pass).Admits hooks :=
  admits_of_quiet hv h

theorem issues_recorded : (d.recorded pass).issues.getD ∅ = d.mergeIssues pass := by
  rw [recorded]
  dsimp only
  split
  · case isTrue h => exact OrdMap.ext (isEmpty_iff.mp h).symm
  · rfl

theorem mergeIssues_recorded : (d.recorded pass).mergeIssues pass = d.mergeIssues pass := by
  refine OrdMap.ext_get? fun p => ?_
  rw [get?_mergeIssues, issues_recorded, get?_mergeIssues]
  generalize (pass.failures.get? p).map (fun f => FieldError.validator f.2) = fresh
  cases hkept : ((d.issues.getD ∅).get? p).filter (retains pass.options p) with
  | some e =>
    rw [Option.some_or, Option.filter_some, if_pos (Option.filter_eq_some_iff.mp hkept).2, Option.some_or]
  | none =>
    rw [Option.none_or]
    cases fresh with
    | none => rfl
    | some e =>
      rw [Option.filter_some]
      split <;> rfl

theorem report?_recorded : (d.recorded pass).report? pass = d.report? pass := by
  rw [report?, mergeIssues_recorded]
  rfl

theorem recorded_recorded : (d.recorded pass).recorded pass = d.recorded pass := by
  rw [recorded, mergeIssues_recorded]
  rfl

-- A validation that does not wait reports just the paths whose values could not be cast or do not pass, each with
-- its cast or else its first check that fails. It changes nothing but the failures that are known, and another one
-- has the same result.
theorem validateSync_reports (d : Document) (hooks : Hooks) (opts : ValidateOptions) (hquiet : hooks.Quiet) :
    let ran := d.validateSync hooks opts
    (d.validating = true → ran.result = .error .parallel ∧ ran.doc = d) ∧
    (d.validating = false →
      (ran.result ≠ .ok () ↔
        (∃ p e, d.inScope opts p ∧ (d.issues.getD ∅).get? p = some (.cast e)) ∨
          ∃ e ∈ d.plan opts, ¬ d.Passes e.1 e.2) ∧
      (ran.result ≠ .ok () →
        ∃ report, ran.result = .error (.validation report) ∧
          ∀ p e, report.get? p = some e ↔ d.Fault opts p e) ∧
      ran.doc = { d with issues := ran.doc.issues } ∧
      (ran.doc.validateSync hooks opts).result = ran.result ∧
      (ran.doc.validateSync hooks opts).doc = ran.doc) := by
  refine ⟨fun hv => ?_, fun hv => ?_⟩
  · have hrefused : d.validated hooks opts false = _ := validated_of_validating hv
    rw [validated, if_neg Bool.false_ne_true] at hrefused
    rw [hrefused]
    exact ⟨rfl, rfl⟩
  · have h : d.Admits hooks := admits_of_quiet hv hquiet
    have h' : (d.recorded (d.syncPass opts)).Admits hooks := admits_recorded hv hquiet
    simp only [doc_validateSync h, result_validateSync h, doc_validateSync h', result_validateSync h',
      syncPass_recorded, report?_recorded, recorded_recorded]
    refine ⟨?_, ?_, recorded_eq, trivial, trivial⟩
    · rw [← exists_fault_iff]
      rcases report?_syncPass d opts with ⟨hnone, hfault⟩ | ⟨report, hsome, -, hex⟩
      · simp [hnone, answer, hfault]
      · simp [hsome, answer, hex]
    · intro hne
      rcases report?_syncPass d opts with ⟨hnone, -⟩ | ⟨report, hsome, hfault, -⟩
      · rw [hnone] at hne
        exact absurd rfl hne
      · exact ⟨report, by rw [hsome, answer], hfault⟩

-- An order without a name, of a number that could not be read and of a size that there is not.
def misfit : Document where
  schema := ⟨{ id := false }, [
    ([.key "count"], { type := .number, rules := {} }),
    ([.key "name"], { type := .string, rules := { required := .always } }),
    ([.key "size"], { type := .string, rules := { validators := [.oneOf [.str "s"], .oneOf [.str "m"]] } })], []⟩
  value := .obj [("size", .str "m")]
  isNew := true
  tracker := (((Tracker.empty.transition [.key "count"] .init).transition [.key "name"] .require).transition
    [.key "size"] .modify)
  issues := some (OrdMap.insert ∅ [.key "count"]
    (.cast { path := [.key "count"], target := .type .number, value := .str "few" }))

theorem validateSync_reports_misfit :
    ∃ report, (misfit.validateSync {}).result = .error (.validation report) ∧
      report.get? [.key "count"] =
        some (.cast { path := [.key "count"], target := .type .number, value := .str "few" }) ∧
      report.get? [.key "name"] =
        some (.validator (.render [.key "name"] "Path `\x7bPATH\x7d` is required." none .required)) ∧
      report.get? [.key "size"] = some (.validator (.render [.key "size"]
        "`\x7bVALUE\x7d` is not a valid enum value for path `\x7bPATH\x7d`." (some (.str "m")) .enum)) ∧
      ((misfit.validateSync {}).doc.validateSync {}).result = (misfit.validateSync {}).result := by
  have hquiet : Hooks.Quiet {} := fun hook h => absurd h List.not_mem_nil
  obtain ⟨hfails, hreports, -, hagain, -⟩ := (validateSync_reports misfit {} {} hquiet).2 rfl
  obtain ⟨report, hreport, hfault⟩ := hreports (hfails.mpr (.inl ⟨[.key "count"], _, rfl, rfl⟩))
  refine ⟨report, hreport, ?_, ?_, ?_, hagain⟩
  · exact (hfault _ _).mpr (.cast rfl rfl)
  · exact (hfault _ _).mpr (.check (by rintro _ ⟨⟩) List.mem_cons_self rfl)
  · exact (hfault _ _).mpr (.check (by rintro _ ⟨⟩) (List.mem_cons_of_mem _ List.mem_cons_self) rfl)

-- Validations of what is modified

-- What a validation that does not wait reports, if it is not refused.
def Reports (d : Document) (hooks : Hooks) (opts : ValidateOptions) (p : Path) (e : FieldError) : Prop :=
  ∃ report, (d.validateSync hooks opts).result = .error (.validation report) ∧ report.get? p = some e

theorem reports_iff : d.Reports hooks opts p issue ↔ d.Admits hooks ∧ d.Fault opts p issue := by
  constructor
  · rintro ⟨report, hresult, hget⟩
    have hadmits : d.Admits hooks := admits_of_result hresult nofun nofun
    refine ⟨hadmits, ?_⟩
    rw [result_validateSync hadmits] at hresult
    rcases report?_syncPass d opts with ⟨hnone, -⟩ | ⟨report', hsome, hfault, -⟩
    · rw [hnone] at hresult
      cases hresult
    · rw [hsome] at hresult
      cases hresult
      exact (hfault p issue).mp hget
  · rintro ⟨hadmits, hfault⟩
    rcases report?_syncPass d opts with ⟨-, hnone⟩ | ⟨report, hsome, hreport, -⟩
    · exact absurd hfault (hnone p issue)
    · exact ⟨report, by rw [result_validateSync hadmits, hsome, answer], (hreport p issue).mpr hfault⟩

theorem inScope_modifiedOnly : d.inScope { modifiedOnly := true } p ↔
    d.isModified p ∨ ∃ a : Path, a ≠ [] ∧ a.isAbove p ∧ d.isDirectlyModified a := by
  simp [inScope, Path.mem_ancestors_iff, and_assoc]

-- The plan is narrowed before anything is checked, and so are the failures of casts.
theorem fault_modifiedOnly : d.Fault { modifiedOnly := true } p issue ↔
    d.Fault {} p issue ∧ d.inScope { modifiedOnly := true } p := by
  have hall : d.inScope {} p := rfl
  have hplan {f : Field} : (p, f) ∈ d.plan { modifiedOnly := true } ↔
      (p, f) ∈ d.plan {} ∧ d.inScope { modifiedOnly := true } p := by
    rw [mem_plan, mem_plan, and_iff_left hall]
    rfl
  constructor
  · intro h
    cases h with
    | cast hscope hc => exact ⟨.cast hall hc, hscope⟩
    | check hc hf hv => exact ⟨.check hc (hplan.mp hf).1 hv, (hplan.mp hf).2⟩
  · rintro ⟨h, hscope⟩
    cases h with
    | cast _ hc => exact .cast hscope hc
    | check hc hf hv => exact .check hc (hplan.mpr ⟨hf, hscope⟩) hv

-- A validation of what is modified reports what a whole one does of the paths that are modified, have a modified
-- path below them, or are below a modified path other than the root.
theorem modifiedOnly_filters (d : Document) (hooks : Hooks) (p : Path) (e : FieldError) :
    d.Reports hooks { modifiedOnly := true } p e ↔ d.Reports hooks {} p e ∧
      (d.isModified p ∨ ∃ a : Path, a ≠ [] ∧ a.isAbove p ∧ d.isDirectlyModified a) := by
  rw [reports_iff, reports_iff, fault_modifiedOnly, inScope_modifiedOnly, and_assoc]

-- With the root marked everything is below a modified path, and a missing name is not reported.
theorem modifiedOnly_misses_root : ∃ start, (load ⟨{ id := false }, [([.key "name"],
      { type := .string, rules := { required := .always } })], []⟩ (.obj []) none).1 = .ok start ∧
    let d := (Call.runAll [.mark []] ⟨start, {}⟩).doc
    d.isDirectlyModified [] ∧ Path.isAbove [] [.key "name"] ∧
    d.Reports {} {} [.key "name"]
      (.validator (.render [.key "name"] "Path `\x7bPATH\x7d` is required." none .required)) ∧
    (d.validateSync {} { modifiedOnly := true }).result = .ok () := by
  refine ⟨_, rfl, by decide +kernel, by decide, ⟨_, rfl, rfl⟩, rfl⟩

end Document
end Dossier

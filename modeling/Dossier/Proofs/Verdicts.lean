import Dossier.Proofs.Planning
import Mathlib.Data.List.Basic

-- The failures that a pass ends with depend only on which checks fail: for each path the one with the lowest index
-- counts.

namespace Dossier

open List

def SchemaLaw.immediate : SchemaLaw
  | .rules r => ∀ v ∈ r.validators, v.isAsync = false
  | _ => True

abbrev Failing := Path → Nat → ValidatorError → Prop

def Failing.add (R : Failing) (p : Path) (i : Nat) (failure : Option ValidatorError) : Failing :=
  fun q j e => R q j e ∨ q = p ∧ j = i ∧ failure = some e

-- The failure that counts

namespace Failures

variable {fs : Failures} {p : Path} {e : ValidatorError}

-- The failures are, on each path, those of the lowest index among the checks that fail.
structure Tells (fs : Failures) (R : Failing) : Prop where
  least   : ∀ {p i e}, fs.get? p = some (i, e) → R p i e ∧ ∀ j e', R p j e' → i ≤ j
  nothing : ∀ {p}, fs.get? p = none → ∀ j e, ¬ R p j e

theorem tells_empty : Tells ∅ fun _ _ _ => False where
  least h := by simp at h
  nothing _ _ _ := id

theorem Tells.congr {R' : Failing} (h : fs.Tells R) (hR : ∀ p i e, R p i e ↔ R' p i e) : fs.Tells R' where
  least hp := ⟨(hR _ _ _).mp (h.least hp).1, fun j e' he => (h.least hp).2 j e' ((hR _ _ _).mpr he)⟩
  nothing hp j e he := h.nothing hp j e ((hR _ _ _).mpr he)

theorem get?_record_ne (h : p ≠ q) : (fs.record p i e).get? q = fs.get? q := by
  rw [record]
  split
  · split
    · rfl
    · exact OrdMap.get?_insert_ne h
  · exact OrdMap.get?_insert_ne h

theorem get?_record_self (h : fs.Tells R) : ∃ j e', (fs.record p i e).get? p = some (j, e') ∧
    R.add p i (some e) p j e' ∧ ∀ k e'', R.add p i (some e) p k e'' → j ≤ k := by
  have hnew : R.add p i (some e) p i e := .inr ⟨rfl, rfl, rfl⟩
  rw [record]
  cases hp : fs.get? p with
  | none =>
    refine ⟨i, e, OrdMap.get?_insert_self, hnew, ?_⟩
    rintro k e'' (hk | ⟨-, rfl, -⟩)
    · exact absurd hk (h.nothing hp k e'')
    · exact Nat.le_refl _
  | some old =>
    obtain ⟨k, e'⟩ := old
    obtain ⟨hk, hleast⟩ := h.least hp
    by_cases hle : k ≤ i
    · refine ⟨k, e', by simp only [if_pos hle, hp], .inl hk, ?_⟩
      rintro j e'' (hj | ⟨-, rfl, -⟩)
      · exact hleast j e'' hj
      · exact hle
    · refine ⟨i, e, by simp only [if_neg hle, OrdMap.get?_insert_self], hnew, ?_⟩
      rintro j e'' (hj | ⟨-, rfl, -⟩)
      · exact Nat.le_of_lt (Nat.lt_of_lt_of_le (Nat.lt_of_not_le hle) (hleast j e'' hj))
      · exact Nat.le_refl _

theorem Tells.record (h : fs.Tells R) : (fs.record p i e).Tells (R.add p i (some e)) := by
  have hother : ∀ {q j e'}, p ≠ q → (R.add p i (some e) q j e' ↔ R q j e') := fun hq =>
    or_iff_left fun hp => hq hp.1.symm
  constructor
  · intro q j e' hq
    by_cases hpq : p = q
    · subst hpq
      obtain ⟨k, e'', hk, hR⟩ := get?_record_self (p := p) (i := i) (e := e) h
      rw [hk] at hq
      cases hq
      exact hR
    · rw [get?_record_ne hpq] at hq
      exact ⟨(hother hpq).mpr (h.least hq).1, fun k e'' hk => (h.least hq).2 k e'' ((hother hpq).mp hk)⟩
  · intro q hq
    by_cases hpq : p = q
    · subst hpq
      obtain ⟨k, e'', hk, -⟩ := get?_record_self (p := p) (i := i) (e := e) h
      rw [hk] at hq
      cases hq
    · rw [get?_record_ne hpq] at hq
      exact fun j e' hj => h.nothing hq j e' ((hother hpq).mp hj)

def note (fs : Failures) (p : Path) (i : Nat) : Option ValidatorError → Failures
  | some e => fs.record p i e
  | none => fs

theorem Tells.note {failure : Option ValidatorError} (h : fs.Tells R) :
    (fs.note p i failure).Tells (R.add p i failure) := by
  cases failure with
  | some e => exact h.record
  | none => exact h.congr fun _ _ _ => by simp [Failing.add]

-- Where each check fails in one way at most, it does not matter how the failures came to be known.
theorem Tells.unique (hR : ∀ p i e e', R p i e → R p i e' → e = e') (h : fs.Tells R) (h' : fs'.Tells R) : fs = fs' := by
  refine OrdMap.ext_get? fun p => ?_
  cases hp : fs.get? p with
  | none =>
    cases hp' : fs'.get? p with
    | none => rfl
    | some f => exact absurd (h'.least hp').1 (h.nothing hp _ _)
  | some f =>
    obtain ⟨i, e⟩ := f
    obtain ⟨hi, hleast⟩ := h.least hp
    cases hp' : fs'.get? p with
    | none => exact absurd hi (h'.nothing hp' _ _)
    | some f' =>
      obtain ⟨j, e'⟩ := f'
      obtain ⟨hj, hleast'⟩ := h'.least hp'
      obtain rfl := Nat.le_antisymm (hleast j e' hj) (hleast' i e hi)
      rw [hR p i e e' hi hj]

end Failures

-- Asking until all verdicts are there

namespace PendingCheck

def failure? (c : PendingCheck) : Option ValidatorError :=
  c.validator.failure? c.path c.value c.deferred.verdict

def Fails (c : PendingCheck) : Failing :=
  fun p i e => p = c.path ∧ i = c.index ∧ c.failure? = some e

def notes (c : PendingCheck) : List Note :=
  c.deferred.verdict.notes

def later (c : PendingCheck) (n : Nat) : PendingCheck :=
  { c with deferred := { c.deferred with delay := n } }

def record (fs : Failures) (c : PendingCheck) : Failures :=
  fs.note c.path c.index c.failure?

end PendingCheck

namespace Pass

variable {pass : Pass} {notes : List Note}

-- The checks that fail are those of the recorded failures and those of outstanding checks.
def Expects (fs : Failures) (cs : List PendingCheck) (R : Failing) : Prop :=
  ∃ S, fs.Tells S ∧ ∀ p i e, R p i e ↔ S p i e ∨ ∃ c ∈ cs, c.Fails p i e

theorem Expects.congr {R' : Failing} (h : Expects fs cs R) (hR : ∀ p i e, R p i e ↔ R' p i e) : Expects fs cs R' := by
  obtain ⟨S, hS, hcs⟩ := h
  exact ⟨S, hS, fun p i e => (hR p i e).symm.trans (hcs p i e)⟩

theorem Expects.tells (h : Expects fs [] R) : fs.Tells R := by
  obtain ⟨S, hS, hcs⟩ := h
  exact hS.congr fun p i e => by simp [hcs]

theorem Expects.perm (h : Expects fs cs R) (hcs : cs.Perm cs') : Expects fs cs' R := by
  obtain ⟨S, hS, hR⟩ := h
  exact ⟨S, hS, fun p i e => by simp only [hR, hcs.mem_iff]⟩

theorem Expects.note {p : Path} {i : Nat} {failure : Option ValidatorError} (h : Expects fs cs R) :
    Expects (fs.note p i failure) cs (R.add p i failure) := by
  obtain ⟨S, hS, hR⟩ := h
  refine ⟨_, hS.note, fun q j e => ?_⟩
  simp only [Failing.add, hR]
  exact or_right_comm

theorem Expects.defer {c : PendingCheck} (h : Expects fs cs R) :
    Expects fs (cs ++ [c]) (R.add c.path c.index c.failure?) := by
  obtain ⟨S, hS, hR⟩ := h
  refine ⟨S, hS, fun q j e => ?_⟩
  simp [Failing.add, PendingCheck.Fails, hR, or_assoc, or_and_right, exists_or]

theorem Expects.record {c : PendingCheck} (h : Expects fs (c :: cs) R) : Expects (c.record fs) cs R := by
  obtain ⟨S, hS, hR⟩ := h
  refine ⟨_, hS.note, fun q j e => ?_⟩
  simp [Failing.add, PendingCheck.Fails, hR, or_assoc]

theorem Expects.record_all (h : Expects fs cs R) : (cs.foldl PendingCheck.record fs).Tells R := by
  induction cs generalizing fs with
  | nil => exact h.tells
  | cons c cs ih => exact ih h.record

def ask (acc : Pass × List Note) (c : PendingCheck) : Pass × List Note :=
  match c.deferred.delay with
  | n + 1 => ({ acc.1 with pending := acc.1.pending ++ [c.later n] }, acc.2)
  | 0 => ({ acc.1 with failures := c.record acc.1.failures }, acc.2 ++ c.notes)

variable {c : PendingCheck}

theorem poll_eq : pass.poll = pass.pending.foldl ask ({ pass with pending := [] }, []) := by
  rw [poll]
  congr 1
  funext acc c
  obtain ⟨pass, notes⟩ := acc
  rw [ask]
  cases c.deferred.delay with
  | succ n => rfl
  | zero =>
    simp only [PendingCheck.record, PendingCheck.failure?, PendingCheck.notes]
    cases c.validator.failure? c.path c.value c.deferred.verdict <;> rfl

theorem ask_of_delay (h : c.deferred.delay = n + 1) :
    ask acc c = ({ acc.1 with pending := acc.1.pending ++ [c.later n] }, acc.2) := by
  rw [ask, h]

theorem ask_of_ready (h : c.deferred.delay = 0) :
    ask acc c = ({ acc.1 with failures := c.record acc.1.failures }, acc.2 ++ c.notes) := by
  rw [ask, h]

theorem options_ask : (ask acc c).1.options = acc.1.options := by
  rw [ask]
  split <;> rfl

theorem Expects.ask (h : Expects acc.1.failures (acc.1.pending ++ c :: cs) R) :
    Expects (ask acc c).1.failures ((ask acc c).1.pending ++ cs) R := by
  cases hd : c.deferred.delay with
  | zero =>
    rw [ask_of_ready hd]
    exact (h.perm perm_middle).record
  | succ n =>
    rw [ask_of_delay hd]
    obtain ⟨S, hS, hR⟩ := h
    refine ⟨S, hS, fun p i e => (hR p i e).trans ?_⟩
    have hc : (c.later n).Fails p i e ↔ c.Fails p i e := .rfl
    simp [or_and_right, exists_or, hc]

theorem notes_ask : ((ask acc c).2 ++ (ask acc c).1.pending.flatMap PendingCheck.notes).Perm
    (acc.2 ++ acc.1.pending.flatMap PendingCheck.notes ++ c.notes) := by
  cases hd : c.deferred.delay with
  | zero =>
    rw [ask_of_ready hd, append_assoc, append_assoc]
    exact perm_append_comm.append_left _
  | succ n =>
    rw [ask_of_delay hd]
    simp [PendingCheck.later, PendingCheck.notes]

theorem delay_ask (h : ∀ c ∈ acc.1.pending, c.deferred.delay < n) (hc : c.deferred.delay < n + 1) :
    ∀ c' ∈ (ask acc c).1.pending, c'.deferred.delay < n := by
  cases hd : c.deferred.delay with
  | zero =>
    rw [ask_of_ready hd]
    exact h
  | succ m =>
    rw [ask_of_delay hd]
    refine forall_mem_append.mpr ⟨h, forall_mem_singleton.mpr ?_⟩
    simp only [PendingCheck.later]
    omega

theorem options_poll : pass.poll.1.options = pass.options := by
  rw [poll_eq]
  exact List.foldlRecOn (motive := fun acc : Pass × List Note => acc.1.options = pass.options) _ _ rfl
    fun _ h _ _ => options_ask.trans h

theorem Expects.poll (h : Expects pass.failures pass.pending R) :
    Expects pass.poll.1.failures pass.poll.1.pending R := by
  suffices ∀ cs acc, Expects acc.1.failures (acc.1.pending ++ cs) R →
      Expects (cs.foldl Pass.ask acc).1.failures (cs.foldl Pass.ask acc).1.pending R by
    rw [poll_eq]
    exact this _ _ h
  intro cs
  induction cs with
  | nil => intro acc h; rwa [append_nil] at h
  | cons c cs ih => exact fun acc h => ih _ h.ask

theorem notes_poll : (pass.poll.2 ++ pass.poll.1.pending.flatMap PendingCheck.notes).Perm
    (pass.pending.flatMap PendingCheck.notes) := by
  suffices ∀ (cs : List PendingCheck) acc,
      ((cs.foldl ask acc).2 ++ (cs.foldl ask acc).1.pending.flatMap PendingCheck.notes).Perm
        (acc.2 ++ acc.1.pending.flatMap PendingCheck.notes ++ cs.flatMap PendingCheck.notes) by
    rw [poll_eq]
    exact this _ _
  intro cs
  induction cs with
  | nil => intro acc; rw [flatMap_nil, append_nil]; rfl
  | cons c cs ih =>
    intro acc
    refine (ih _).trans ((notes_ask.append_right _).trans (.of_eq ?_))
    rw [flatMap_cons, append_assoc _ c.notes]

theorem delay_poll (h : ∀ c ∈ pass.pending, c.deferred.delay < n + 1) :
    ∀ c ∈ pass.poll.1.pending, c.deferred.delay < n := by
  rw [poll_eq]
  exact List.foldlRecOn (motive := fun acc : Pass × List Note => ∀ c ∈ acc.1.pending, c.deferred.delay < n)
    _ _ (by simp) fun _ hacc c hc => delay_ask hacc (h c hc)

-- What a pass comes to

theorem options_pollTimes : (pollTimes n pass).1.options = pass.options := by
  induction n generalizing pass with
  | zero => rfl
  | succ n ih => exact ih.trans options_poll

theorem pending_pollTimes (h : ∀ c ∈ pass.pending, c.deferred.delay < n) : (pollTimes n pass).1.pending = [] := by
  induction n generalizing pass with
  | zero => exact eq_nil_iff_forall_not_mem.mpr fun c hc => Nat.not_lt_zero _ (h c hc)
  | succ n ih => exact ih (delay_poll h)

theorem Expects.pollTimes (h : Expects pass.failures pass.pending R) :
    Expects (pollTimes n pass).1.failures (pollTimes n pass).1.pending R := by
  induction n generalizing pass with
  | zero => exact h
  | succ n ih => exact ih h.poll

theorem notes_pollTimes : ((pollTimes n pass).2 ++ (pollTimes n pass).1.pending.flatMap PendingCheck.notes).Perm
    (pass.pending.flatMap PendingCheck.notes) := by
  induction n generalizing pass with
  | zero => rfl
  | succ n ih =>
    rw [Pass.pollTimes, append_assoc]
    exact (ih.append_left _).trans notes_poll

theorem delay_lt_rounds (hc : c ∈ pass.pending) : c.deferred.delay < pass.rounds := by
  have hmax : ∀ (ns : List Nat) (m : Nat), m ≤ ns.foldl max m ∧ ∀ n ∈ ns, n ≤ ns.foldl max m := by
    intro ns
    induction ns with
    | nil => simp
    | cons n ns ih =>
      intro m
      obtain ⟨hm, hns⟩ := ih (max m n)
      rw [foldl_cons]
      exact ⟨by omega, forall_mem_cons.mpr ⟨by omega, hns⟩⟩
  exact (hmax _ 0).2 _ (mem_map_of_mem hc)

theorem options_settle : pass.settle.1.options = pass.options :=
  options_pollTimes

theorem pending_settle : pass.settle.1.pending = [] :=
  pending_pollTimes fun _ => delay_lt_rounds

theorem Expects.settle (h : Expects pass.failures pass.pending R) : pass.settle.1.failures.Tells R := by
  have := h.pollTimes (n := pass.rounds)
  rw [← Pass.settle, pending_settle] at this
  exact this.tells

theorem notes_settle : pass.settle.2.Perm (pass.pending.flatMap PendingCheck.notes) := by
  have := @notes_pollTimes pass pass.rounds
  rwa [← Pass.settle, pending_settle, flatMap_nil, append_nil] at this

end Pass

-- Checking a path

namespace Validator

def verdict (v : Validator) (o : Occasion) (value : Value) (view : View) : Verdict :=
  match v.check with
  | .sync f => f value view
  | .async f => (f o value).verdict

-- Whether the check is asked by a pass that waits for verdicts or not.
def isAsked (v : Validator) (wait : Bool) : Bool :=
  wait || !v.isAsync

def outcome? (v : Validator) (wait : Bool) (o : Occasion) (value : Value) (view : View) : Option ValidatorError :=
  if v.isAsked wait then v.failure? o.path value (v.verdict o value view) else none

def heard (v : Validator) (wait : Bool) (o : Occasion) (value : Value) (view : View) : List Note :=
  if v.isAsked wait then (v.verdict o value view).notes else []

end Validator

-- Checks of a path, of which the first one has the given index.
def Failing.addAll (R : Failing) (p : Path) (i : Nat) (failures : List (Option ValidatorError)) : Failing :=
  fun q j e => R q j e ∨ q = p ∧ ∃ k, j = i + k ∧ failures[k]? = some (some e)

theorem Failing.addAll_nil {R : Failing} {p q : Path} : R.addAll p i [] q j e ↔ R q j e := by
  simp [addAll]

theorem Failing.addAll_cons {R : Failing} {p : Path} {failure : Option ValidatorError} :
    R.addAll p i (failure :: failures) q j e ↔ (R.add p i failure).addAll p (i + 1) failures q j e := by
  have hk : (∃ k, j = i + k ∧ (failure :: failures)[k]? = some (some e)) ↔
      j = i ∧ failure = some e ∨ ∃ k, j = i + 1 + k ∧ failures[k]? = some (some e) := by
    constructor
    · rintro ⟨k, hj, hk⟩
      cases k with
      | zero => exact .inl ⟨hj, by simpa using hk⟩
      | succ k => exact .inr ⟨k, by omega, by simpa using hk⟩
    · rintro (⟨rfl, rfl⟩ | ⟨k, hj, hk⟩)
      · exact ⟨0, rfl, rfl⟩
      · exact ⟨k + 1, by omega, by simpa using hk⟩
  simp only [addAll, add, hk, or_assoc, and_or_left]

namespace Document

variable {d : Document} {opts : ValidateOptions} {p : Path} {value : Value}

open Pass (Expects)

-- What is heard so far, when the outstanding verdicts are counted in.
def allNotes (acc : Pass × List Note) : List Note :=
  acc.2 ++ acc.1.pending.flatMap PendingCheck.notes

def judge (o : Occasion) (value : Value) (view : View) (wait : Bool) (acc : Pass × List Note) (i : Nat)
    (v : Validator) : Pass × List Note :=
  match v.check with
  | .sync g =>
    ({ acc.1 with failures := acc.1.failures.note o.path i (v.failure? o.path value (g value view)) },
      acc.2 ++ (g value view).notes)
  | .async g =>
    (if wait then { acc.1 with pending := acc.1.pending ++ [⟨o.path, i, v, value, g o value⟩] } else acc.1, acc.2)

theorem runValidators_cons : runValidators o value view wait i (v :: vs) acc =
    runValidators o value view wait (i + 1) vs (judge o value view wait acc i v) := by
  obtain ⟨pass, notes⟩ := acc
  rw [runValidators, judge]
  cases v.check with
  | async g => rfl
  | sync g =>
    dsimp only
    cases v.failure? o.path value (g value view) <;> rfl

theorem options_judge : (judge o value view wait acc i v).1.options = acc.1.options := by
  rw [judge]
  split
  · rfl
  · split <;> rfl

theorem expects_judge (h : Expects acc.1.failures acc.1.pending R) :
    Expects (judge o value view wait acc i v).1.failures (judge o value view wait acc i v).1.pending
      (R.add o.path i (v.outcome? wait o value view)) := by
  rw [judge, Validator.outcome?, Validator.isAsked, Validator.isAsync, Validator.verdict]
  cases v.check with
  | sync g =>
    simp only [Bool.not_false, Bool.or_true, if_true]
    exact h.note
  | async g =>
    cases wait with
    | true => exact h.defer
    | false => exact h.congr fun _ _ _ => by simp [Failing.add]

theorem notes_judge : (allNotes (judge o value view wait acc i v)).Perm (allNotes acc ++ v.heard wait o value view) := by
  rw [judge, Validator.heard, Validator.isAsked, Validator.isAsync, Validator.verdict]
  cases v.check with
  | sync g =>
    simp only [Bool.not_false, Bool.or_true, if_true, allNotes, append_assoc]
    exact perm_append_comm.append_left _
  | async g => cases wait <;> simp [allNotes, PendingCheck.notes]

theorem options_runValidators : (runValidators o value view wait i vs acc).1.options = acc.1.options := by
  induction vs generalizing i acc with
  | nil => rfl
  | cons v vs ih => rw [runValidators_cons, ih, options_judge]

theorem expects_runValidators (h : Expects acc.1.failures acc.1.pending R) :
    Expects (runValidators o value view wait i vs acc).1.failures (runValidators o value view wait i vs acc).1.pending
      (R.addAll o.path i (vs.map (·.outcome? wait o value view))) := by
  induction vs generalizing i acc R with
  | nil => exact h.congr fun _ _ _ => Failing.addAll_nil.symm
  | cons v vs ih =>
    rw [runValidators_cons]
    exact (ih (expects_judge h)).congr fun _ _ _ => Failing.addAll_cons.symm

theorem notes_runValidators : (allNotes (runValidators o value view wait i vs acc)).Perm
    (allNotes acc ++ vs.flatMap (·.heard wait o value view)) := by
  induction vs generalizing i acc with
  | nil => rw [flatMap_nil, append_nil]; rfl
  | cons v vs ih =>
    rw [runValidators_cons]
    refine ih.trans ((notes_judge.append_right _).trans (.of_eq ?_))
    rw [flatMap_cons, append_assoc]

def missing? (d : Document) (p : Path) (f : Field) : Option ValidatorError :=
  if f.rules.isRequired (d.viewAt p) ∧ ¬ f.satisfiesRequired (d.get? p) then
    some (.render p f.rules.requiredMessage (d.get? p) .required)
  else none

-- The value that the validators of a field are asked about, if they are.
def judged? (d : Document) (p : Path) (f : Field) : Option Value :=
  if (d.missing? p f).isSome then none else (d.get? p).filter (!·.isNull)

-- The failures of the checks of a path by their indices. The check of a required value comes first.
def outcomes (d : Document) (moment : Nat) (wait : Bool) (p : Path) (f : Field) : List (Option ValidatorError) :=
  d.missing? p f ::
    (d.judged? p f).elim [] fun value => f.rules.validators.map (·.outcome? wait ⟨moment, p⟩ value (d.viewAt p))

def heardAt (d : Document) (moment : Nat) (wait : Bool) (p : Path) (f : Field) : List Note :=
  (d.judged? p f).elim [] fun value => f.rules.validators.flatMap (·.heard wait ⟨moment, p⟩ value (d.viewAt p))

theorem checkPath_eq : d.checkPath moment wait acc p f =
    let acc := ({ acc.1 with failures := acc.1.failures.note p 0 (d.missing? p f) }, acc.2)
    (d.judged? p f).elim acc fun value =>
      runValidators ⟨moment, p⟩ value (d.viewAt p) wait 1 f.rules.validators acc := by
  obtain ⟨pass, notes⟩ := acc
  rw [checkPath, judged?, missing?]
  by_cases hr : f.rules.isRequired (d.viewAt p) ∧ ¬ f.satisfiesRequired (d.get? p)
  · rw [if_pos hr, if_pos hr]
    rfl
  · rw [if_neg hr, if_neg hr]
    cases hv : d.get? p with
    | none => rfl
    | some value => cases value <;> rfl

theorem options_checkPath : (d.checkPath moment wait acc p f).1.options = acc.1.options := by
  rw [checkPath_eq]
  cases d.judged? p f with
  | none => rfl
  | some value => exact options_runValidators

theorem expects_checkPath (h : Expects acc.1.failures acc.1.pending R) :
    Expects (d.checkPath moment wait acc p f).1.failures (d.checkPath moment wait acc p f).1.pending
      (R.addAll p 0 (d.outcomes moment wait p f)) := by
  rw [checkPath_eq, outcomes]
  have hmissing : Expects (acc.1.failures.note p 0 (d.missing? p f)) acc.1.pending (R.add p 0 (d.missing? p f)) := h.note
  cases d.judged? p f with
  | none => exact hmissing.congr fun _ _ _ => (Failing.addAll_cons.trans Failing.addAll_nil).symm
  | some value => exact (expects_runValidators hmissing).congr fun _ _ _ => Failing.addAll_cons.symm

theorem notes_checkPath : (allNotes (d.checkPath moment wait acc p f)).Perm (allNotes acc ++ d.heardAt moment wait p f) := by
  rw [checkPath_eq, heardAt]
  cases d.judged? p f with
  | none => rw [Option.elim_none, Option.elim_none, append_nil]; rfl
  | some value => exact notes_runValidators

-- Checking a plan

def FailsIn (d : Document) (moment : Nat) (wait : Bool) (es : List (Path × Field)) : Failing :=
  fun p i e => ∃ f, (p, f) ∈ es ∧ (d.outcomes moment wait p f)[i]? = some (some e)

theorem check_eq : d.check opts wait =
    (d.plan opts).foldl (fun acc e => d.checkPath opts.moment wait acc e.1 e.2) ({ options := opts }, []) :=
  rfl

theorem options_check : (d.check opts wait).1.options = opts := by
  rw [check_eq]
  exact List.foldlRecOn (motive := fun acc : Pass × List Note => acc.1.options = opts) _ _ rfl
    fun _ h _ _ => options_checkPath.trans h

theorem expects_check : Expects (d.check opts wait).1.failures (d.check opts wait).1.pending
    (d.FailsIn opts.moment wait (d.plan opts)) := by
  suffices ∀ (es : List (Path × Field)) acc R, Expects acc.1.failures acc.1.pending R →
      let acc := es.foldl (fun acc e => d.checkPath opts.moment wait acc e.1 e.2) acc
      Expects acc.1.failures acc.1.pending fun p i e => R p i e ∨ d.FailsIn opts.moment wait es p i e by
    have hstart : Expects ∅ [] fun _ _ _ => False := ⟨_, Failures.tells_empty, fun p i e => by simp⟩
    rw [check_eq]
    exact (this (d.plan opts) ({ options := opts }, []) _ hstart).congr fun p i e => or_iff_right id
  intro es
  induction es with
  | nil => exact fun acc R h => h.congr fun p i e => by simp [FailsIn]
  | cons entry es ih =>
    intro acc R h
    obtain ⟨q, f⟩ := entry
    refine (ih _ _ (expects_checkPath h)).congr fun p i e => ?_
    simp only [Failing.addAll, FailsIn, mem_cons, Prod.mk.injEq, or_and_right, exists_or, or_assoc,
      Nat.zero_add, exists_eq_left']
    refine or_congr_right (or_congr_left ⟨?_, ?_⟩)
    · rintro ⟨rfl, hi⟩
      exact ⟨f, ⟨rfl, rfl⟩, hi⟩
    · rintro ⟨_, ⟨rfl, rfl⟩, hi⟩
      exact ⟨rfl, hi⟩

theorem notes_check : (allNotes (d.check opts wait)).Perm ((d.plan opts).flatMap fun e => d.heardAt opts.moment wait e.1 e.2) := by
  suffices ∀ (es : List (Path × Field)) acc,
      (allNotes (es.foldl (fun acc e => d.checkPath opts.moment wait acc e.1 e.2) acc)).Perm
        (allNotes acc ++ es.flatMap fun e => d.heardAt opts.moment wait e.1 e.2) by
    rw [check_eq]
    exact (this _ _).trans (.of_eq (nil_append _))
  intro es
  induction es with
  | nil => intro acc; rw [flatMap_nil, append_nil]; rfl
  | cons e es ih =>
    intro acc
    refine (ih _).trans ((notes_checkPath.append_right _).trans (.of_eq ?_))
    rw [flatMap_cons, append_assoc]

-- Passes

variable {hooks : Hooks}

theorem Issues.get?_record {is : Issues} {e : FieldError} :
    (Issues.record is p e).2.get? q = if p = q then some ((is.get? p).getD e) else is.get? q := by
  rw [← OrdMap.get?_insertIfNew, Issues.record, OrdMap.insertIfNew]
  split <;> rfl

-- Whether a failure that was recorded before a pass is still there after it.
def retains (opts : ValidateOptions) (p : Path) (e : FieldError) : Bool :=
  e.isCast || match opts.paths with
    | none => false
    | some requested => ¬ requested.any (·.covers p)

theorem get?_mergeIssues {pass : Pass} :
    (d.mergeIssues pass).get? p = (((d.issues.getD ∅).get? p).filter (retains pass.options p)).or
      ((pass.failures.get? p).map fun f => .validator f.2) := by
  have hfold : ∀ (es : List (Path × Nat × ValidatorError)) (is : Issues),
      (es.foldl (fun is e => (Issues.record is e.1 (.validator e.2.2)).2) is).get? p =
        (is.get? p).or ((Entries.get? p es).map fun f => .validator f.2) := by
    intro es
    induction es with
    | nil => simp [Entries.get?]
    | cons e es ih =>
      intro is
      rw [foldl_cons, ih, Issues.get?_record]
      by_cases he : e.1 = p
      · subst he
        cases is.get? e.1 <;> simp [Entries.get?]
      · rw [if_neg he, show e = (e.1, e.2) from rfl, Entries.get?_cons_ne he]
  rw [mergeIssues]
  refine (hfold _ _).trans ?_
  rw [OrdMap.get?_filter]
  rfl

theorem retains_of_inScope (hp : d.inScope opts p) : retains opts p e = e.isCast := by
  simp only [inScope, Bool.and_eq_true] at hp
  rw [retains]
  cases hr : opts.paths with
  | none => exact Bool.or_false _
  | some requested =>
    rw [hr] at hp
    simp only [hp.1, not_true_eq_false, decide_false, Bool.or_false]

theorem get?_mergeIssues_of_inScope {pass : Pass} (hp : d.inScope pass.options p) : (d.mergeIssues pass).get? p =
    (((d.issues.getD ∅).get? p).filter (·.isCast)).or ((pass.failures.get? p).map fun f => .validator f.2) := by
  have hretains : retains pass.options p = FieldError.isCast := funext fun e => retains_of_inScope hp
  rw [get?_mergeIssues, hretains]

theorem inScope_validating : { d with validating := b }.inScope opts p = d.inScope opts p := rfl

def Admits (d : Document) (hooks : Hooks) : Prop :=
  d.validating = false ∧ ({ d with validating := true }.runPreValidate hooks.preValidate).1 = .ok ()

def preNotes (d : Document) (hooks : Hooks) : List Note :=
  ({ d with validating := true }.runPreValidate hooks.preValidate).2

theorem beginPass_of_admits (h : d.Admits hooks) : d.beginPass hooks opts wait =
    { result := .ok (d.check opts wait).1
      doc := { d with validating := true }
      notes := d.preNotes hooks ++ (d.check opts wait).2 } := by
  obtain ⟨hv, hpre⟩ := h
  rw [beginPass, hv, preNotes]
  rcases hrun : runPreValidate { d with validating := true } hooks.preValidate with ⟨r, notes⟩
  rw [hrun] at hpre
  cases hpre
  simp only [hrun, Bool.false_eq_true, if_false]
  rfl

theorem admits_of_result {r : Except DocumentError Unit}
    (h : (completePass hooks (d.beginPass hooks opts wait)).result = r) (hparallel : r ≠ .error .parallel)
    (hhook : ∀ message, r ≠ .error (.hook .preValidate message)) : d.Admits hooks := by
  rw [beginPass] at h
  split at h
  · exact absurd h.symm hparallel
  · case isFalse hv =>
    refine ⟨Bool.eq_false_iff.mpr hv, ?_⟩
    rcases hrun : runPreValidate { d with validating := true } hooks.preValidate with ⟨message | _, notes⟩
    · simp only [hrun] at h
      exact absurd h.symm (hhook message)
    · rfl

def ended (d : Document) (hooks : Hooks) (opts : ValidateOptions) (wait : Bool) : Ran Unit :=
  { d with validating := true }.finishPass hooks (d.check opts wait).1.settle.1

theorem completePass_of_admits (h : d.Admits hooks) : completePass hooks (d.beginPass hooks opts wait) =
    { d.ended hooks opts wait with
      notes := d.preNotes hooks ++ (d.check opts wait).2 ++ (d.check opts wait).1.settle.2 ++
        (d.ended hooks opts wait).notes } := by
  rw [beginPass_of_admits h]
  rfl

theorem notes_completePass (h : d.Admits hooks) : (completePass hooks (d.beginPass hooks opts wait)).notes.Perm
    (d.preNotes hooks ++ ((d.plan opts).flatMap fun e => d.heardAt opts.moment wait e.1 e.2) ++
      (d.ended hooks opts wait).notes) := by
  rw [completePass_of_admits h]
  refine List.Perm.append_right _ ?_
  rw [append_assoc]
  exact ((Pass.notes_settle.append_left _).trans notes_check).append_left _

theorem tells_settle : (d.check opts wait).1.settle.1.failures.Tells (d.FailsIn opts.moment wait (d.plan opts)) :=
  expects_check.settle

theorem FailsIn.unique (h : d.FailsIn opts.moment wait (d.plan opts) p i e) (h' : d.FailsIn opts.moment wait (d.plan opts) p i e') :
    e = e' := by
  obtain ⟨f, hf, he⟩ := h
  obtain ⟨g, hg, he'⟩ := h'
  rw [field_of_mem_plan hg hf, he] at he'
  cases he'
  rfl

-- The failure with the lowest index is the first one among the outcomes.
theorem failure_of_mem_plan {fs : Failures} (hf : (p, f) ∈ d.plan opts) (h : fs.Tells (d.FailsIn opts.moment wait (d.plan opts))) :
    (fs.get? p).map (·.2) = (d.outcomes opts.moment wait p f).findSome? id := by
  have hfails : ∀ j e, d.FailsIn opts.moment wait (d.plan opts) p j e ↔ (d.outcomes opts.moment wait p f)[j]? = some (some e) := by
    refine fun j e => ⟨?_, fun he => ⟨f, hf, he⟩⟩
    rintro ⟨g, hg, he⟩
    rwa [field_of_mem_plan hf hg]
  cases hp : fs.get? p with
  | none =>
    refine (findSome?_eq_none_iff.mpr fun o ho => ?_).symm
    obtain ⟨j, hj⟩ := getElem?_of_mem ho
    cases o with
    | none => rfl
    | some e => exact absurd ((hfails j e).mpr hj) (h.nothing hp j e)
  | some least =>
    obtain ⟨i, e⟩ := least
    obtain ⟨hi, hleast⟩ := h.least hp
    obtain ⟨hlt, hget⟩ := List.getElem?_eq_some_iff.mp ((hfails i e).mp hi)
    rw [Option.map_some, eq_comm, findSome?_eq_some_iff]
    refine ⟨(d.outcomes opts.moment wait p f).take i, some e, (d.outcomes opts.moment wait p f).drop (i + 1), ?_, rfl, fun o ho => ?_⟩
    · rw [← hget, getElem_cons_drop, take_append_drop]
    · obtain ⟨j, hj, hjo⟩ := mem_take_iff_getElem.mp ho
      cases o with
      | none => rfl
      | some e' =>
        have := hleast j e' ((hfails j e').mpr (by rw [← hjo]; exact getElem?_eq_getElem _))
        omega

theorem issue_of_mem_plan (h : d.Admits hooks) (hf : (p, f) ∈ d.plan opts)
    (hcast : ∀ e, (d.issues.getD ∅).get? p ≠ some (.cast e)) :
    ((completePass hooks (d.beginPass hooks opts wait)).doc.issues.getD ∅).get? p =
      ((d.outcomes opts.moment wait p f).findSome? id).map .validator := by
  have hissues : ∀ m : Issues, (if m.isEmpty then none else some m).getD ∅ = m := by
    intro m
    split
    · case isTrue hm => exact OrdMap.ext (isEmpty_iff.mp hm).symm
    · rfl
  have hscope : { d with validating := true }.inScope (d.check opts wait).1.settle.1.options p := by
    rw [Pass.options_settle, options_check, inScope_validating]
    exact (mem_plan.mp hf).2
  have hkept : ((d.issues.getD ∅).get? p).filter (·.isCast) = none := by
    cases hp : (d.issues.getD ∅).get? p with
    | none => rfl
    | some issue =>
      cases issue with
      | cast e => exact absurd hp (hcast e)
      | validator e => rfl
  rw [completePass_of_admits h]
  simp only [ended, finishPass, hissues]
  rw [get?_mergeIssues_of_inScope hscope, hkept, Option.none_or, ← failure_of_mem_plan hf tells_settle, Option.map_map]
  rfl

-- Nothing to wait for

theorem judge_of_sync (h : v.isAsync = false) : judge o value view true acc i v = judge o value view false acc i v := by
  rw [Validator.isAsync] at h
  rw [judge, judge]
  cases hc : v.check with
  | sync g => rfl
  | async g => rw [hc] at h; cases h

theorem runValidators_of_sync (h : ∀ v ∈ vs, v.isAsync = false) :
    runValidators o value view true i vs acc = runValidators o value view false i vs acc := by
  induction vs generalizing i acc with
  | nil => rfl
  | cons v vs ih =>
    obtain ⟨hv, hvs⟩ := forall_mem_cons.mp h
    rw [runValidators_cons, runValidators_cons, judge_of_sync hv, ih hvs]

theorem check_of_immediate (h : d.schema.Meets .immediate) : d.check opts true = d.check opts false := by
  rw [check_eq, check_eq]
  refine foldl_ext _ _ _ fun acc e he => ?_
  have hsync : ∀ v ∈ e.2.rules.validators, v.isAsync = false :=
    (meets_of_mem_plan he h (by simp [SchemaLaw.immediate])).rules
  rw [checkPath_eq, checkPath_eq]
  cases d.judged? e.1 e.2 with
  | none => rfl
  | some value => exact runValidators_of_sync hsync

theorem validate_of_immediate (h : d.schema.Meets .immediate) : d.validate hooks opts = d.validateSync hooks opts := by
  have hcheck : { d with validating := true }.check opts true = { d with validating := true }.check opts false :=
    check_of_immediate h
  rw [validate, validateSync, beginPass, beginPass]
  simp only [hcheck]

-- Attribution

-- A pass records for each path the failure of the check with the lowest index, whenever the verdicts come, and
-- runs all checks of a value unless it is required and missing.
theorem validate_attributes (d : Document) (hooks : Hooks) (opts : ValidateOptions) :
    (d.schema.Meets .immediate → d.validate hooks opts = d.validateSync hooks opts) ∧
    (d.Admits hooks →
      (∀ e ∈ d.plan opts, (∀ c, (d.issues.getD ∅).get? e.1 ≠ some (.cast c)) →
        ((d.validate hooks opts).doc.issues.getD ∅).get? e.1 =
          ((d.outcomes opts.moment true e.1 e.2).findSome? id).map .validator) ∧
      (∀ order : List PendingCheck, order.Perm (d.check opts true).1.pending →
        order.foldl PendingCheck.record (d.check opts true).1.failures =
          (d.check opts true).1.settle.1.failures) ∧
      (d.validate hooks opts).notes.Perm
        (d.preNotes hooks ++ ((d.plan opts).flatMap fun e => d.heardAt opts.moment true e.1 e.2) ++
          (d.ended hooks opts true).notes)) := by
  refine ⟨validate_of_immediate, fun h => ⟨fun e he hcast => ?_, fun order horder => ?_, ?_⟩⟩
  · exact issue_of_mem_plan h he hcast
  · have hall : Expects (d.check opts true).1.failures order (d.FailsIn opts.moment true (d.plan opts)) :=
      expects_check.perm horder.symm
    exact Failures.Tells.unique (fun _ _ _ _ h h' => h.unique h') hall.record_all tells_settle
  · exact notes_completePass h

def bidWith (validators : List Validator) : Document where
  schema := ⟨{ id := false }, [([.key "amount"], { type := .number, rules := { validators } })], []⟩
  value := .obj [("amount", .int 5)]
  tracker := Tracker.empty.transition [.key "amount"] .init
  isNew := true

def accepting : Validator :=
  .custom fun _ _ => { result := .ok true }

-- A bid is checked thrice: one check passes, and of the two that fail the first one takes longer.
def bid : Document :=
  let told (delay : Nat) (text : String) : Validator :=
    .customAsync fun _ => { delay, verdict := { result := .error text, notes := [.str text] } }
  bidWith [accepting, told 2 "late", told 0 "early"]

-- The checks of this one say at once what they have to say.
def promptBid : Document :=
  let told (text : String) : Validator := .custom fun _ _ => { result := .error text, notes := [.str text] }
  bidWith [accepting, told "first", told "second"]

theorem validate_attributes_bid :
    ((bid.validate {}).doc.issues.getD ∅).get? [.key "amount"] =
      some (.validator (.render [.key "amount"] "late" (some (.int 5)) .custom)) ∧
    (bid.check {} true).1.pending.reverse.foldl PendingCheck.record (bid.check {} true).1.failures =
      (bid.check {} true).1.settle.1.failures ∧
    (bid.validate {}).notes.Perm [.str "late", .str "early"] ∧
    promptBid.schema.Meets .immediate ∧ promptBid.validate {} = promptBid.validateSync {} ∧
    ((promptBid.validateSync {}).doc.issues.getD ∅).get? [.key "amount"] =
      some (.validator (.render [.key "amount"] "first" (some (.int 5)) .custom)) := by
  obtain ⟨hissue, horder, hnotes⟩ := (validate_attributes bid {} {}).2 ⟨rfl, rfl⟩
  have hprompt : promptBid.schema.Meets .immediate := by
    simp [promptBid, bidWith, accepting, Validator.custom, Validator.isAsync, Schema.Meets, Schema.parts,
      Schema.partsOfFields, Field.parts, FieldType.parts, SchemaLaw.immediate]
  have hsync := (validate_attributes promptBid {} {}).1 hprompt
  refine ⟨?_, horder _ (List.reverse_perm _), hnotes, hprompt, hsync, ?_⟩
  · exact hissue _ (List.mem_singleton_self _) (by simp [bid, bidWith])
  · rw [← hsync]
    have hissue := ((validate_attributes promptBid {} {}).2 ⟨rfl, rfl⟩).1
    exact hissue _ (List.mem_singleton_self _) (by simp [promptBid, bidWith])

end Document
end Dossier

import Dossier.Proofs.Verdicts

-- Of any number of validations of one document, which take their steps in any order, one at a time goes through.

namespace Dossier

open List

-- What a callback does, one thing after the other. It can look at the document, and ask for a validation of it,
-- the result of which it gets. What it returns counts if it is run before a pass.
inductive Routine where
  | done (r : Except String Unit)
  | note (n : Note) (rest : Routine)
  | look (rest : Document → Routine)
  | call (opts : ValidateOptions) (wait : Bool) (rest : Except DocumentError Unit → Routine)

def Document.validated (d : Document) (hooks : Hooks) (opts : ValidateOptions) (wait : Bool) : Ran Unit :=
  if wait then d.validate hooks opts else d.validateSync hooks opts

def Routine.run (d : Document) : Routine → Except String Unit × List Note
  | done r => (r, [])
  | note n rest => ((rest.run d).1, n :: (rest.run d).2)
  | look rest => (rest d).run d
  | call opts wait rest =>
    let ran := d.validated {} opts wait
    (((rest ran.result).run d).1, ran.notes ++ ((rest ran.result).run d).2)

structure Callbacks where
  before : List Routine := []
  -- Those after a pass are told what it has found.
  after  : List (Option Issues → Routine) := []

def Callbacks.hooks (c : Callbacks) : Hooks where
  preValidate := c.before.map fun r d => r.run d
  postValidate := c.after.map fun r d outcome => ((r outcome).run d).2

inductive Stage where
  | waiting
  -- The callbacks that are left before the checks, or after them, when the answer is known.
  | calling (left : List Routine) (answer : Option (Except DocumentError Unit))
  | asking (pass : Pass)
  | done (result : Except DocumentError Unit)

structure Attempt where
  opts  : ValidateOptions
  -- Whether it waits for the verdicts that are not there at once.
  wait  : Bool
  stage : Stage := .waiting

def Attempt.inFlight (a : Attempt) : Bool :=
  match a.stage with
  | .calling _ _ | .asking _ => true
  | _ => false

namespace Document

def report? (d : Document) (pass : Pass) : Option Issues :=
  let report := (d.mergeIssues pass).filter fun p _ => d.inScope pass.options p
  if report.isEmpty then none else some report

def recorded (d : Document) (pass : Pass) : Document :=
  let issues := d.mergeIssues pass
  { d with issues := if issues.isEmpty then none else some issues }

def answer : Option Issues → Except DocumentError Unit
  | some report => .error (.validation report)
  | none => .ok ()

end Document

structure Move where
  -- The attempts of a caller, each of which a callback of the next one has asked for.
  stack : List Attempt
  doc   : Document
  notes : List Note := []
  -- The pass that has ended.
  ended : List Attempt := []

namespace Attempt

def become (a : Attempt) (stage : Stage) : Attempt :=
  { a with stage }

-- Hands the result of an attempt to the callback that has asked for it.
def resume (r : Except DocumentError Unit) (a : Attempt) : Option Attempt :=
  match a.stage with
  | .calling (.call _ _ rest :: left) answer => some (a.become (.calling (rest r :: left) answer))
  | _ => none

-- The step of an attempt with callbacks left.
def callStep (d : Document) (a : Attempt) (outer : List Attempt) (left : List Routine)
    (answer : Option (Except DocumentError Unit)) : Routine → Move
  | .done (.ok ()) => { stack := a.become (.calling left answer) :: outer, doc := d }
  | .done (.error message) =>
    match answer with
    | none =>
      let ended := a.become (.done (.error (.hook .preValidate message)))
      { stack := ended :: outer, doc := { d with validating := false }, ended := [ended] }
    | some _ => { stack := a.become (.calling left answer) :: outer, doc := d }
  | .note n rest => { stack := a.become (.calling (rest :: left) answer) :: outer, doc := d, notes := [n] }
  | .look rest => { stack := a.become (.calling (rest d :: left) answer) :: outer, doc := d }
  | .call opts wait rest =>
    { stack := { opts, wait } :: a.become (.calling (.call opts wait rest :: left) answer) :: outer, doc := d }

-- One step of a caller, unless it is done. Only the first step of an attempt looks whether the document takes part
-- in a pass.
def step (c : Callbacks) (d : Document) : List Attempt → Option Move
  | [] => none
  | a :: outer =>
    match a.stage with
    | .waiting =>
      if d.validating then some { stack := a.become (.done (.error .parallel)) :: outer, doc := d }
      else some { stack := a.become (.calling c.before none) :: outer, doc := { d with validating := true } }
    | .calling (r :: left) answer => some (callStep d a outer left answer r)
    | .calling [] none =>
      let (pass, notes) := d.check a.opts a.wait
      some { stack := a.become (.asking pass) :: outer, doc := d, notes }
    | .calling [] (some result) =>
      let ended := a.become (.done result)
      some { stack := ended :: outer, doc := { d with validating := false }, ended := [ended] }
    | .asking pass =>
      let (pass, notes) := pass.poll
      if pass.pending.isEmpty then
        let left := c.after.map (· (d.report? pass))
        some { stack := a.become (.calling left (some (Document.answer (d.report? pass)))) :: outer
               doc := d.recorded pass, notes }
      else some { stack := a.become (.asking pass) :: outer, doc := d, notes }
    | .done r =>
      match outer with
      | [] => none
      | b :: outer => (b.resume r).map fun b => { stack := b :: outer, doc := d }

end Attempt

structure Validations where
  doc     : Document
  callers : List (List Attempt) := []
  notes   : List Note := []
  -- The passes that have ended, in order.
  ended   : List Attempt := []

namespace Validations

def inFlight (s : Validations) : List Attempt :=
  s.callers.flatten.filter (·.inFlight)

-- One step of a caller.
def step (c : Callbacks) (s : Validations) (i : Nat) : Option Validations :=
  (s.callers[i]?.bind (Attempt.step c s.doc)).map fun move =>
    { doc := move.doc
      callers := s.callers.set i move.stack
      notes := s.notes ++ move.notes
      ended := s.ended ++ move.ended }

-- What can come about from a document when callers arrive and take steps.
inductive Reached (c : Callbacks) (d : Document) : Validations → Prop
  | start : Reached c d { doc := d }
  | arrive {s} (opts : ValidateOptions) (wait : Bool) : Reached c d s →
      Reached c d { s with callers := s.callers ++ [[{ opts, wait }]] }
  | step {s s'} (i : Nat) : Reached c d s → s.step c i = some s' → Reached c d s'

-- The passes of some attempts, each run to its end before the next one begins.
def inTurn (c : Callbacks) (d : Document) (attempts : List Attempt) : Validations :=
  attempts.foldl (fun s a =>
    let ran := s.doc.validated c.hooks a.opts a.wait
    { doc := ran.doc, notes := s.notes ++ ran.notes, ended := s.ended ++ [a.become (.done ran.result)] })
    { doc := d }

end Validations

-- Asking

namespace Pass

variable {pass : Pass}

theorem poll_of_pending_nil (h : pass.pending = []) : pass.poll = (pass, []) := by
  rw [poll_eq, h, foldl_nil, ← h]

theorem pollTimes_succ : pollTimes (n + 1) pass =
    ((pollTimes n pass.poll.1).1, pass.poll.2 ++ (pollTimes n pass.poll.1).2) :=
  rfl

theorem pollTimes_of_pending_nil (h : pass.pending = []) : pollTimes n pass = (pass, []) := by
  induction n with
  | zero => rfl
  | succ n ih => rw [pollTimes_succ, poll_of_pending_nil h, ih, append_nil]

theorem pollTimes_of_le (h : ∀ c ∈ pass.pending, c.deferred.delay < n) (hm : n ≤ m) :
    pollTimes m pass = pollTimes n pass := by
  induction n generalizing pass m with
  | zero =>
    have hnil : pass.pending = [] := eq_nil_iff_forall_not_mem.mpr fun c hc => Nat.not_lt_zero _ (h c hc)
    exact pollTimes_of_pending_nil hnil
  | succ n ih =>
    obtain ⟨m, rfl⟩ := Nat.exists_eq_add_of_le' (Nat.lt_of_lt_of_le (Nat.succ_pos n) hm)
    rw [pollTimes_succ, pollTimes_succ, ih (delay_poll h) (Nat.le_of_succ_le_succ hm)]

theorem settle_eq_pollTimes (h : ∀ c ∈ pass.pending, c.deferred.delay < n) : pass.settle = pollTimes n pass := by
  rw [settle, ← pollTimes_of_le (fun _ => delay_lt_rounds) (Nat.le_max_left _ n),
    pollTimes_of_le h (Nat.le_max_right _ n)]

theorem settle_of_pending_nil (h : pass.pending = []) : pass.settle = (pass, []) :=
  pollTimes_of_pending_nil h

theorem settle_poll : pass.settle = (pass.poll.1.settle.1, pass.poll.2 ++ pass.poll.1.settle.2) := by
  have hdelay : ∀ c ∈ pass.pending, c.deferred.delay < pass.rounds + 1 :=
    fun c hc => Nat.lt_succ_of_lt (delay_lt_rounds hc)
  rw [settle_eq_pollTimes hdelay, settle_eq_pollTimes (delay_poll hdelay), pollTimes_succ]

end Pass

-- What an attempt will come to

def Ran.after {α : Type} (notes : List Note) (r : Ran α) : Ran α :=
  { r with notes := notes ++ r.notes }

theorem Ran.after_after {notes notes' : List Note} {r : Ran α} :
    (r.after notes').after notes = r.after (notes ++ notes') := by
  simp [after]

theorem Ran.after_nil {r : Ran α} : r.after [] = r := rfl

namespace Document

variable {d : Document} {hooks : Hooks} {opts : ValidateOptions} {wait : Bool} {pass : Pass}

theorem validated_eq : d.validated hooks opts wait = completePass hooks (d.beginPass hooks opts wait) := by
  cases wait <;> rfl

theorem validated_of_validating (h : d.validating) :
    d.validated hooks opts wait = { result := .error .parallel, doc := d } := by
  rw [validated_eq, beginPass, if_pos h]
  rfl

theorem finishPass_eq : d.finishPass hooks pass =
    { result := answer (d.report? pass)
      doc := { d.recorded pass with validating := false }
      notes := hooks.postValidate.flatMap fun hook => hook (d.recorded pass) (d.report? pass) } := by
  rfl

-- What is left of a pass that has begun when no callback is left before it.
def completed (d : Document) (hooks : Hooks) (pass : Pass) : Ran Unit :=
  (d.finishPass hooks pass.settle.1).after pass.settle.2

theorem completePass_ok :
    completePass hooks { result := .ok pass, doc := d, notes } = (d.completed hooks pass).after notes := by
  simp [completePass, completed, Ran.after]

end Document

namespace Routine

variable {d : Document} {opts : ValidateOptions} {wait : Bool}

theorem run_call (h : d.validating) : (call opts wait rest).run d = (rest (.error .parallel)).run d := by
  rw [run, Document.validated_of_validating h]
  rfl

end Routine

namespace Attempt

variable {c : Callbacks} {d : Document} {a : Attempt} {outer : List Attempt}

-- What an attempt comes to if nothing else is done in the meantime.
def remains (c : Callbacks) (d : Document) (a : Attempt) : Ran Unit :=
  match a.stage with
  | .waiting => d.validated c.hooks a.opts a.wait
  | .calling left none =>
    match d.runPreValidate (left.map fun r d => r.run d) with
    | (.error message, notes) =>
      { result := .error (.hook .preValidate message), doc := { d with validating := false }, notes }
    | (.ok (), notes) =>
      (d.completed c.hooks (d.check a.opts a.wait).1).after (notes ++ (d.check a.opts a.wait).2)
  | .calling left (some result) =>
    { result, doc := { d with validating := false }, notes := left.flatMap fun r => (r.run d).2 }
  | .asking pass => d.completed c.hooks pass
  | .done result => { result, doc := d }

theorem remains_admitted (h : d.validating = false) (ha : a.stage = .waiting) :
    (a.become (.calling c.before none)).remains c { d with validating := true } = a.remains c d := by
  rw [remains, remains, ha]
  dsimp only [become]
  rw [Document.validated_eq, Document.beginPass, h]
  simp only [Bool.false_eq_true, if_false, Callbacks.hooks]
  generalize Document.runPreValidate { d with validating := true } (c.before.map fun r d => r.run d) = ran
  rcases ran with ⟨_ | _, notes⟩
  · rfl
  · exact Document.completePass_ok.symm

-- What remains of an attempt before whose checks a callback is left: the callback is run.
theorem remains_before (ha : a.stage = .calling (r :: left) none) : a.remains c d =
    match r.run d with
    | (.error message, notes) =>
      { result := .error (.hook .preValidate message), doc := { d with validating := false }, notes }
    | (.ok (), notes) => ((a.become (.calling left none)).remains c d).after notes := by
  rw [remains, remains, ha]
  simp only [become, map_cons, Document.runPreValidate]
  rcases r.run d with ⟨_ | _, notes⟩
  · rfl
  · dsimp only
    generalize d.runPreValidate (left.map fun r d => r.run d) = later
    rcases later with ⟨_ | _, notes'⟩
    · rfl
    · simp [Ran.after]

theorem remains_after (ha : a.stage = .calling (r :: left) (some result)) :
    a.remains c d = ((a.become (.calling left (some result))).remains c d).after (r.run d).2 := by
  rw [remains, remains, ha]
  rfl

theorem remains_calling {r' : Routine} {notes : List Note} {answer : Option (Except DocumentError Unit)}
    (ha : a.stage = .calling (r :: left) answer) (h : r.run d = ((r'.run d).1, notes ++ (r'.run d).2)) :
    a.remains c d = ((a.become (.calling (r' :: left) answer)).remains c d).after notes := by
  cases answer with
  | none =>
    rw [remains_before ha, remains_before (a := a.become (.calling (r' :: left) none)) rfl, h]
    rcases r'.run d with ⟨_ | _, notes'⟩
    · rfl
    · exact Ran.after_after.symm
  | some result =>
    rw [remains_after ha, remains_after (a := a.become (.calling (r' :: left) (some result))) rfl, h]
    exact Ran.after_after.symm

theorem remains_asking {pass : Pass} (ha : a.stage = .asking pass) :
    a.remains c d = ((a.become (.asking pass.poll.1)).remains c d).after pass.poll.2 := by
  rw [remains, remains, ha]
  dsimp only [become]
  rw [Document.completed, Document.completed, Ran.after_after, Pass.settle_poll]

theorem remains_settled {pass : Pass} (ha : a.stage = .asking pass) (hp : pass.pending = []) :
    a.remains c d = (a.become (.calling (c.after.map (· (d.report? pass)))
      (some (Document.answer (d.report? pass))))).remains c (d.recorded pass) := by
  rw [remains, remains, ha]
  dsimp only [become]
  rw [Document.completed, Pass.settle_of_pending_nil hp, Document.finishPass_eq, Ran.after_nil]
  simp only [Callbacks.hooks, flatMap_map]

-- An attempt in flight takes a step that leaves what it comes to.
structure Nears (c : Callbacks) (d : Document) (a b : Attempt) (d' : Document) (notes : List Note) : Prop where
  opts    : b.opts = a.opts
  wait    : b.wait = a.wait
  remains : a.remains c d = (b.remains c d').after notes
  flag    : d'.validating = b.inFlight
  ending  : b.inFlight = false → ∃ r, b.stage = .done r

def Awaits (a b : Attempt) : Prop :=
  ∃ rest left answer, a.stage = .calling (.call b.opts b.wait rest :: left) answer

theorem callStep_cases (c : Callbacks) (outer : List Attempt) (ha : a.stage = .calling (r :: left) answer)
    (hv : d.validating) : (∃ b, a.Awaits b ∧ b.stage = .waiting ∧
      callStep d a outer left answer r = { stack := b :: a :: outer, doc := d }) ∨
    ∃ b d' notes, Nears c d a b d' notes ∧ callStep d a outer left answer r =
      { stack := b :: outer, doc := d', notes, ended := if b.inFlight then [] else [b] } := by
  cases r with
  | done r =>
    refine .inr ?_
    cases answer with
    | none =>
      cases r with
      | error message =>
        refine ⟨a.become (.done (.error (.hook .preValidate message))), { d with validating := false }, [],
          ⟨rfl, rfl, ?_, rfl, fun _ => ⟨_, rfl⟩⟩, rfl⟩
        rw [remains_before ha]
        rfl
      | ok =>
        refine ⟨a.become (.calling left none), d, [], ⟨rfl, rfl, ?_, hv, fun h => by cases h⟩, rfl⟩
        rw [remains_before ha]
        rfl
    | some result =>
      refine ⟨a.become (.calling left (some result)), d, [], ⟨rfl, rfl, remains_after ha, hv, fun h => by cases h⟩, ?_⟩
      cases r <;> rfl
  | note n rest =>
    refine .inr ⟨a.become (.calling (rest :: left) answer), d, [n],
      ⟨rfl, rfl, remains_calling ha rfl, hv, fun h => by cases h⟩, rfl⟩
  | look rest =>
    refine .inr ⟨a.become (.calling (rest d :: left) answer), d, [],
      ⟨rfl, rfl, remains_calling ha rfl, hv, fun h => by cases h⟩, rfl⟩
  | call opts wait rest =>
    refine .inl ⟨{ opts, wait }, ⟨rest, left, answer, ha⟩, rfl, ?_⟩
    rw [callStep, ← ha]
    rfl

theorem step_inFlight (c : Callbacks) (outer : List Attempt) (ha : a.inFlight) (hv : d.validating) :
    (∃ b, a.Awaits b ∧ b.stage = .waiting ∧ step c d (a :: outer) = some { stack := b :: a :: outer, doc := d }) ∨
    ∃ b d' notes, Nears c d a b d' notes ∧ step c d (a :: outer) =
      some { stack := b :: outer, doc := d', notes, ended := if b.inFlight then [] else [b] } := by
  rw [inFlight] at ha
  rw [step]
  cases hs : a.stage with
  | waiting => rw [hs] at ha; cases ha
  | done => rw [hs] at ha; cases ha
  | calling left answer =>
    cases left with
    | cons r left =>
      rcases callStep_cases c outer hs hv with ⟨b, hb, hw, he⟩ | ⟨b, d', notes, hb, he⟩
      · exact .inl ⟨b, hb, hw, congrArg some he⟩
      · exact .inr ⟨b, d', notes, hb, congrArg some he⟩
    | nil =>
      refine .inr ?_
      cases answer with
      | none =>
        refine ⟨a.become (.asking (d.check a.opts a.wait).1), d, (d.check a.opts a.wait).2,
          ⟨rfl, rfl, ?_, hv, fun h => by cases h⟩, rfl⟩
        rw [remains, hs]
        rfl
      | some result =>
        refine ⟨a.become (.done result), { d with validating := false }, [],
          ⟨rfl, rfl, ?_, rfl, fun _ => ⟨_, rfl⟩⟩, rfl⟩
        rw [remains, hs]
        rfl
  | asking pass =>
    refine .inr ?_
    dsimp only
    by_cases hp : pass.poll.1.pending.isEmpty
    · rw [if_pos hp]
      refine ⟨a.become (.calling (c.after.map (· (d.report? pass.poll.1)))
        (some (Document.answer (d.report? pass.poll.1)))), d.recorded pass.poll.1, pass.poll.2,
        ⟨rfl, rfl, ?_, hv, fun h => by cases h⟩, rfl⟩
      rw [remains_asking hs, remains_settled rfl (isEmpty_iff.mp hp)]
      rfl
    · rw [if_neg hp]
      exact ⟨a.become (.asking pass.poll.1), d, pass.poll.2,
        ⟨rfl, rfl, remains_asking hs, hv, fun h => by cases h⟩, rfl⟩

theorem step_awaited (hb : a.Awaits b) (hv : d.validating) :
    (b.stage = .waiting → step c d [b, a] = some { stack := [b.become (.done (.error .parallel)), a], doc := d }) ∧
    (b.stage = .done (.error .parallel) → ∃ a', Nears c d a a' d [] ∧ a'.inFlight ∧
      step c d [b, a] = some { stack := [a'], doc := d }) := by
  refine ⟨fun hs => ?_, fun hs => ?_⟩
  · rw [step, hs]
    exact if_pos hv
  · obtain ⟨rest, left, answer, ha⟩ := hb
    refine ⟨a.become (.calling (rest (.error .parallel) :: left) answer),
      ⟨rfl, rfl, remains_calling ha ?_, hv, fun h => by cases h⟩, rfl, ?_⟩
    · rw [Routine.run_call hv]
      rfl
    · rw [step, hs]
      dsimp only
      rw [resume, ha]
      rfl

theorem validating_of_ended (h : step c d stack = some move) (he : move.ended ≠ []) : move.doc.validating = false := by
  rw [step.eq_def] at h
  split at h
  · cases h
  split at h
  · split at h <;> cases h <;> exact absurd rfl he
  · obtain rfl := Option.some.inj h
    revert he
    fun_cases callStep <;> first | exact fun _ => rfl | exact fun he => absurd rfl he
  · cases h
    exact absurd rfl he
  · cases h
    rfl
  · dsimp only at h
    split at h <;> cases h <;> exact absurd rfl he
  · split at h
    · cases h
    · obtain ⟨b, -, rfl⟩ := Option.map_eq_some_iff.mp h
      exact absurd rfl he

end Attempt

-- One pass at a time

namespace Validations

variable {c : Callbacks} {d : Document} {s s' : Validations} {i : Nat} {a : Attempt}

theorem inTurn_concat : inTurn c d (attempts ++ [a]) =
    let s := inTurn c d attempts
    let ran := s.doc.validated c.hooks a.opts a.wait
    { doc := ran.doc, notes := s.notes ++ ran.notes, ended := s.ended ++ [a.become (.done ran.result)] } := by
  rw [inTurn, foldl_append]
  rfl

-- A caller whose attempt has not begun a pass.
def Calm (stack : List Attempt) : Prop :=
  ∃ a : Attempt, stack = [a] ∧ a.inFlight = false

-- The attempts of a caller with a pass in flight, whose callback may have asked for another attempt.
inductive Engaged (a : Attempt) : List Attempt → Prop
  | alone : Engaged a [a]
  | asked {b : Attempt} : a.Awaits b → b.stage = .waiting ∨ b.stage = .done (.error .parallel) → Engaged a [b, a]

-- No caller but one has a pass in flight.
def Others (callers : List (List Attempt)) (i : Nat) : Prop :=
  ∀ j stack, j ≠ i → callers[j]? = some stack → Calm stack

-- The passes that have ended are those of the attempts one after the other, and at most one caller has a pass in
-- flight, which will end as it would have alone.
inductive Orderly (c : Callbacks) (d : Document) (s : Validations) : Prop
  | idle : inTurn c d s.ended = { s with callers := [] } → s.doc.validating = false →
      (∀ (j : Nat) (stack : List Attempt), s.callers[j]? = some stack → Calm stack) → Orderly c d s
  | busy {i : Nat} {a : Attempt} {stack : List Attempt} : (inTurn c d s.ended).ended = s.ended →
      (a.remains c s.doc).after s.notes =
        ((inTurn c d s.ended).doc.validated c.hooks a.opts a.wait).after (inTurn c d s.ended).notes →
      s.doc.validating → a.inFlight → s.callers[i]? = some stack → Engaged a stack →
      Others s.callers i → Orderly c d s

theorem step_eq (hi : s.callers[i]? = some stack) : s.step c i =
    (Attempt.step c s.doc stack).map fun move =>
      { doc := move.doc
        callers := s.callers.set i move.stack
        notes := s.notes ++ move.notes
        ended := s.ended ++ move.ended } := by
  rw [step, hi]
  rfl

theorem Calm.step {stack : List Attempt} (h : Calm stack) (hm : Attempt.step c d stack = some move) :
    ∃ b : Attempt, stack = [b] ∧ b.stage = .waiting ∧
      (d.validating → move = { stack := [b.become (.done (.error .parallel))], doc := d }) ∧ (d.validating = false →
        move = { stack := [b.become (.calling c.before none)], doc := { d with validating := true } }) := by
  obtain ⟨b, rfl, hb⟩ := h
  rw [Attempt.inFlight] at hb
  rw [Attempt.step] at hm
  cases hs : b.stage with
  | waiting =>
    rw [hs] at hm
    refine ⟨b, rfl, hs, fun hv => ?_, fun hv => ?_⟩
    · rw [if_pos hv] at hm
      exact (Option.some.inj hm).symm
    · rw [hv] at hm
      exact (Option.some.inj hm).symm
  | done r => rw [hs] at hm; cases hm
  | calling => rw [hs] at hb; cases hb
  | asking => rw [hs] at hb; cases hb

theorem Others.set {callers : List (List Attempt)} (h : Others callers i) : Others (callers.set i stack) i := by
  intro j stack hj hs
  rw [getElem?_set_ne hj.symm] at hs
  exact h j stack hj hs

-- A pass in flight comes nearer to its end, or ends.
theorem Orderly.near {b : Attempt} {d' : Document} {notes : List Note} {stack : List Attempt}
    (hended : (inTurn c d s.ended).ended = s.ended)
    (hremains : (a.remains c s.doc).after s.notes =
      ((inTurn c d s.ended).doc.validated c.hooks a.opts a.wait).after (inTurn c d s.ended).notes)
    (hi : s.callers[i]? = some stack) (hothers : Others s.callers i) (h : Attempt.Nears c s.doc a b d' notes) :
    Orderly c d { doc := d', callers := s.callers.set i [b], notes := s.notes ++ notes,
                  ended := s.ended ++ if b.inFlight then [] else [b] } := by
  have hlt : i < s.callers.length := (List.getElem?_eq_some_iff.mp hi).1
  rw [h.remains, Ran.after_after, ← h.opts, ← h.wait] at hremains
  cases hb : b.inFlight with
  | true =>
    simp only [if_true, append_nil]
    exact .busy hended hremains (h.flag.trans hb) hb (getElem?_set_self hlt) .alone hothers.set
  | false =>
    simp only [Bool.false_eq_true, if_false]
    obtain ⟨r, hr⟩ := h.ending hb
    have hdone : b.become (.done r) = b := by rw [Attempt.become, ← hr]
    rw [Attempt.remains, hr] at hremains
    obtain ⟨hresult, hdoc, hnotes⟩ := Ran.mk.inj hremains
    refine .idle ?_ (h.flag.trans hb) fun j stack hj => ?_
    · rw [inTurn_concat]
      dsimp only
      rw [← hresult, ← hdoc, ← hnotes, hended, hdone, append_nil]
    · by_cases hji : j = i
      · subst hji
        rw [getElem?_set_self hlt] at hj
        cases hj
        exact ⟨b, rfl, hb⟩
      · exact hothers.set j stack hji hj

theorem Orderly.step (h : Orderly c d s) (hs : s.step c i = some s') : Orderly c d s' := by
  cases hi : s.callers[i]? with
  | none => rw [Validations.step, hi] at hs; cases hs
  | some stack =>
    have hlt : i < s.callers.length := (List.getElem?_eq_some_iff.mp hi).1
    rw [step_eq hi] at hs
    obtain ⟨move, hm, rfl⟩ := Option.map_eq_some_iff.mp hs
    cases h with
    | idle hturn hv hcalm =>
      obtain ⟨b, rfl, hb, -, hstart⟩ := (hcalm i stack hi).step hm
      rw [hstart hv]
      refine .busy ?_ ?_ rfl rfl (getElem?_set_self hlt) .alone (Others.set fun j stack _ hj => hcalm j stack hj)
      · simp only [append_nil]
        rw [hturn]
      · simp only [append_nil]
        rw [hturn, Attempt.remains_admitted hv hb, Attempt.remains, hb]
        rfl
    | @busy k a stack' hended hremains hv ha hk hengaged hothers =>
      by_cases hki : i = k
      · subst hki
        obtain rfl : stack = stack' := Option.some.inj (hi.symm.trans hk)
        cases hengaged with
        | alone =>
          rcases Attempt.step_inFlight c [] ha hv with ⟨b, hb, hw, he⟩ | ⟨b, d', notes, hb, he⟩
          · obtain rfl := Option.some.inj (hm.symm.trans he)
            simp only [append_nil]
            exact .busy hended hremains hv ha (getElem?_set_self hlt) (.asked hb (.inl hw)) hothers.set
          · obtain rfl := Option.some.inj (hm.symm.trans he)
            exact .near hended hremains hi hothers hb
        | @asked b hb hstage =>
          obtain ⟨hwaiting, hdone⟩ := Attempt.step_awaited (c := c) hb hv
          rcases hstage with hstage | hstage
          · obtain rfl := Option.some.inj (hm.symm.trans (hwaiting hstage))
            simp only [append_nil]
            exact .busy hended hremains hv ha (getElem?_set_self hlt) (.asked hb (.inr rfl)) hothers.set
          · obtain ⟨a', ha', hflight, he⟩ := hdone hstage
            obtain rfl := Option.some.inj (hm.symm.trans he)
            have := Orderly.near hended hremains hi hothers ha'
            rwa [if_pos hflight] at this
      · obtain ⟨b, rfl, hb, hrefuse, -⟩ := (hothers i stack hki hi).step hm
        rw [hrefuse hv]
        simp only [append_nil]
        refine .busy (i := k) hended hremains hv ha ?_ hengaged fun j stack hj hs => ?_
        · exact (getElem?_set_ne hki).trans hk
        · by_cases hji : j = i
          · subst hji
            rw [getElem?_set_self hlt] at hs
            cases hs
            exact ⟨_, rfl, rfl⟩
          · rw [getElem?_set_ne (Ne.symm hji)] at hs
            exact hothers j stack hj hs

theorem Orderly.arrive {opts : ValidateOptions} {wait : Bool} (h : Orderly c d s) :
    Orderly c d { s with callers := s.callers ++ [[{ opts, wait }]] } := by
  have hnew : ∀ (j : Nat) (stack : List Attempt), (s.callers ++ [[⟨opts, wait, .waiting⟩]])[j]? = some stack →
      s.callers[j]? = some stack ∨ Calm stack := by
    intro j stack hj
    rw [getElem?_append] at hj
    split at hj
    · exact .inl hj
    · rw [getElem?_singleton] at hj
      split at hj
      · cases hj
        exact .inr ⟨_, rfl, rfl⟩
      · cases hj
  cases h with
  | idle hturn hv hcalm =>
    exact .idle hturn hv fun j stack hj => (hnew j stack hj).elim (hcalm j stack) id
  | busy hended hremains hv ha hk hengaged hothers =>
    refine .busy hended hremains hv ha ?_ hengaged fun j stack hji hj =>
      (hnew j stack hj).elim (hothers j stack hji) id
    exact List.getElem?_append_left (List.getElem?_eq_some_iff.mp hk).1 |>.trans hk

theorem Reached.orderly (hd : d.validating = false) (h : Reached c d s) : Orderly c d s := by
  induction h with
  | start => exact .idle rfl hd fun j stack hj => by cases hj
  | arrive opts wait _ ih => exact ih.arrive
  | step i _ hs ih => exact ih.step hs

theorem Calm.inFlight {stack : List Attempt} (h : Calm stack) : stack.filter (·.inFlight) = [] := by
  obtain ⟨a, rfl, ha⟩ := h
  simp [ha]

theorem inFlight_of_calm {callers : List (List Attempt)}
    (h : ∀ (j : Nat) (stack : List Attempt), callers[j]? = some stack → Calm stack) :
    callers.flatten.filter (·.inFlight) = [] := by
  rw [filter_flatten, flatten_eq_nil_iff]
  intro l hl
  obtain ⟨stack, hstack, rfl⟩ := mem_map.mp hl
  obtain ⟨j, hj⟩ := getElem?_of_mem hstack
  exact (h j stack hj).inFlight

theorem inFlight_of_others {callers : List (List Attempt)} (hi : callers[i]? = some stack) (h : Others callers i) :
    callers.flatten.filter (·.inFlight) = stack.filter (·.inFlight) := by
  induction callers generalizing i with
  | nil => cases hi
  | cons first callers ih =>
    rw [flatten_cons, filter_append]
    cases i with
    | zero =>
      cases hi
      rw [inFlight_of_calm fun j stack hj => h (j + 1) stack (by omega) hj, append_nil]
    | succ i =>
      rw [(h 0 first (by omega) rfl).inFlight, nil_append]
      exact ih hi fun j stack hj hs => h (j + 1) stack (by omega) hs

theorem Engaged.inFlight (h : Engaged a stack) (ha : a.inFlight) : stack.filter (·.inFlight) = [a] := by
  cases h with
  | alone => simp [ha]
  | @asked b _ hb =>
    have : b.inFlight = false := by
      rw [Attempt.inFlight]
      rcases hb with hb | hb <;> rw [hb]
    simp [ha, this]

theorem Orderly.inFlight (h : Orderly c d s) : s.doc.validating = false ∧ s.inFlight = [] ∨
    s.doc.validating ∧ ∃ a, s.inFlight = [a] := by
  cases h with
  | idle _ hv hcalm => exact .inl ⟨hv, inFlight_of_calm hcalm⟩
  | @busy _ a _ _ _ hv ha hk hengaged hothers =>
    refine .inr ⟨hv, a, ?_⟩
    rw [Validations.inFlight, inFlight_of_others hk hothers]
    exact hengaged.inFlight ha

theorem Orderly.ended (h : Orderly c d s) : (inTurn c d s.ended).ended = s.ended := by
  cases h with
  | idle hturn => rw [hturn]
  | busy hended => exact hended

theorem Orderly.inTurn (h : Orderly c d s) (hs : s.inFlight = []) :
    Validations.inTurn c d s.ended = { s with callers := [] } := by
  rcases h.inFlight with ⟨hv, -⟩ | ⟨-, a, ha⟩
  · cases h with
    | idle hturn => exact hturn
    | busy _ _ hbusy => rw [hv] at hbusy; cases hbusy
  · rw [hs] at ha
    cases ha

-- Validations of one document have at most one pass in flight, however their steps and those of their callbacks
-- follow each other. An attempt that starts in the meantime is refused, and the passes do what they would do one
-- after the other.
theorem one_pass_at_a_time (c : Callbacks) (d : Document) (hd : d.validating = false) (s : Validations)
    (hs : Reached c d s) :
    s.inFlight.length ≤ 1 ∧
    (∀ i a outer, s.callers[i]? = some (a :: outer) → a.stage = .waiting →
      (s.inFlight ≠ [] → s.step c i = some { s with
        callers := s.callers.set i (a.become (.done (.error .parallel)) :: outer) }) ∧
      (s.inFlight = [] → s.step c i = some { s with
        doc := { s.doc with validating := true }
        callers := s.callers.set i (a.become (.calling c.before none) :: outer) })) ∧
    (∀ i s', s.step c i = some s' → s'.ended ≠ s.ended → s'.inFlight = []) ∧
    (inTurn c d s.ended).ended = s.ended ∧
    (s.inFlight = [] → inTurn c d s.ended = { s with callers := [] }) := by
  have h := hs.orderly hd
  refine ⟨?_, fun i a outer hi ha => ⟨fun hf => ?_, fun hf => ?_⟩, fun i s' hstep hended => ?_, h.ended, h.inTurn⟩
  · rcases h.inFlight with ⟨-, hf⟩ | ⟨-, a, hf⟩ <;> rw [hf] <;> simp
  · have hv : s.doc.validating := (h.inFlight.resolve_left fun hidle => hf hidle.2).1
    rw [step_eq hi, Attempt.step, ha]
    simp only [hv, if_true, Option.map_some, List.append_nil]
  · have hv : s.doc.validating = false :=
      (h.inFlight.resolve_right fun ⟨_, a, hbusy⟩ => by rw [hf] at hbusy; cases hbusy).1
    rw [step_eq hi, Attempt.step, ha]
    simp only [hv, Bool.false_eq_true, if_false, Option.map_some, List.append_nil]
  · have h' := h.step hstep
    rw [Validations.step] at hstep
    obtain ⟨move, hm, rfl⟩ := Option.map_eq_some_iff.mp hstep
    obtain ⟨stack, -, hm⟩ := Option.bind_eq_some_iff.mp hm
    have hfree : move.doc.validating = false :=
      Attempt.validating_of_ended hm fun hnil => hended (by simp only [hnil, List.append_nil])
    exact (h'.inFlight.resolve_right fun hbusy => by rw [hfree] at hbusy; exact absurd hbusy.1 (by simp)).2

def event (c : Callbacks) (s : Validations) : Option Nat → Validations
  | none => { s with callers := s.callers ++ [[{ opts := {}, wait := true }]] }
  | some i => (s.step c i).getD s

theorem Reached.events {events : List (Option Nat)} (h : Reached c d s) : Reached c d (events.foldl (event c) s) := by
  refine List.foldlRecOn events _ h fun s hs e _ => ?_
  cases e with
  | none => exact hs.arrive {} true
  | some i =>
    rw [event]
    cases hi : s.step c i with
    | none => exact hs
    | some s' => exact hs.step i hi

-- A callback before the pass and one after it ask for validations of their own, and note whether they get one.
def insistent : Callbacks :=
  let noting (r : Except DocumentError Unit) : Routine :=
    .note (.bool (match r with | .error .parallel => false | _ => true)) (.done (.ok ()))
  { before := [.call {} false noting], after := [fun _ => .call {} true noting] }

-- Two callers arrive. The first one begins a pass, and its callback asks for another one.
def besieged : Validations :=
  [none, none, some 0, some 0].foldl (event insistent) { doc := Document.bid }

-- The first caller goes on to its end, and then the second one.
def relieved : Validations :=
  (List.replicate 14 (some 0) ++ List.replicate 16 (some 1)).foldl (event insistent) besieged

theorem one_pass_at_a_time_insistent : besieged.inFlight.length ≤ 1 ∧
    besieged.step insistent 0 = some { besieged with
      callers := [[⟨{}, false, .done (.error .parallel)⟩, ⟨{}, true, .calling insistent.before none⟩],
        [⟨{}, true, .waiting⟩]] } ∧
    besieged.step insistent 1 = some { besieged with
      callers := [[⟨{}, false, .waiting⟩, ⟨{}, true, .calling insistent.before none⟩],
        [⟨{}, true, .done (.error .parallel)⟩]] } ∧
    relieved.ended.length = 2 ∧ inTurn insistent Document.bid relieved.ended = { relieved with callers := [] } := by
  obtain ⟨hone, hstart, -⟩ := one_pass_at_a_time insistent Document.bid rfl besieged Reached.start.events
  obtain ⟨-, -, -, -, hturn⟩ := one_pass_at_a_time insistent Document.bid rfl relieved Reached.start.events.events
  have hbusy : besieged.inFlight ≠ [] := List.length_pos_iff.mp (by decide +kernel)
  exact ⟨hone, (hstart 0 _ _ rfl rfl).1 hbusy, (hstart 1 _ _ rfl rfl).1 hbusy, by decide +kernel,
    hturn (List.isEmpty_iff.mp (by decide +kernel))⟩

end Validations
end Dossier

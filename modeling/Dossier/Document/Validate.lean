import Dossier.Document.Edit

-- A pass plans which paths to check, checks them, and records the failures. Some verdicts come only
-- later, so a pass can be begun, asked for its outstanding verdicts any number of times, and
-- finished.

namespace Dossier

structure ValidateOptions where
  paths        : Option (List Path) := none
  modifiedOnly : Bool := false
  -- When a pass is begun, for checks that do not always say the same.
  moment       : Nat := 0

structure Hooks where
  -- An error stops the validation.
  preValidate  : List (Document → Except String Unit × List Note) := []
  postValidate : List (Document → Option Issues → List Note) := []
  -- An error stops the storing.
  preSave      : List (ExceptT String (StateM Desk) Unit) := []
  postSave     : List (Document → List Note) := []

structure PendingCheck where
  path      : Path
  index     : Nat
  validator : Validator
  value     : Value
  deferred  : Deferred

-- The failures of a pass, of which the check with the lowest index counts. The check of a required
-- value has the index zero.
abbrev Failures := OrdMap Path (Nat × ValidatorError)

def Failures.record (fs : Failures) (p : Path) (index : Nat) (e : ValidatorError) : Failures :=
  match fs.get? p with
  | some (i, _) => if i ≤ index then fs else fs.insert p (index, e)
  | none => fs.insert p (index, e)

structure Pass where
  options  : ValidateOptions
  failures : Failures := ∅
  -- In the order of the plan.
  pending  : List PendingCheck := []

-- The result of an operation on a document that changes only what the document knows of its
-- validity.
structure Ran (α : Type) where
  result : Except DocumentError α
  doc    : Document
  notes  : List Note := []

namespace Document

-- Planning

-- A required path that was not loaded is left out, unless it was modified.
def trackedPaths (d : Document) (t : Tracker) (root : Path) (top : Bool) : List Path :=
  let required := ((t.pathsIn .require).map (root ++ ·)).filter fun p =>
    ¬ top || d.isSelected p || d.isModified p
  let others := [PathState.init, .modify, .default].flatMap t.pathsIn
  required ++ others.map (root ++ ·)

def candidates (d : Document) (opts : ValidateOptions) : List Path :=
  let inner := d.scopes.toList.flatMap fun (_, scope) =>
    scope.root :: d.trackedPaths scope.tracker scope.root false
  let all := d.trackedPaths d.tracker Path.root true ++ inner ++ opts.paths.getD []
  (OrdSet.ofKeys all).keys

def partPaths (path : Path) : Option Value → List Path
  | some (.arr items) => (List.range items.length).map path.index
  | some (.obj fields) => fields.map fun e => path.key e.1
  | _ => []

-- Parts are planned with their declared field, unless they are planned already.
def planField (d : Document) (plan : OrdMap Path Field) (path : Path) (field : Field) :
    OrdMap Path Field :=
  if field.canFail then
    let plan := match field.type with
      | .array el | .map el =>
        if el.canFail then
          (partPaths path (d.get? path)).foldl (fun m p => OrdMap.insertIfNew m p el) plan
        else plan
      | _ => plan
    plan.insert path field
  else plan

def planPath (d : Document) (plan : OrdMap Path Field) (path : Path) : OrdMap Path Field :=
  match d.resolve path with
  | .field field => d.planField plan path field
  | .nested =>
    (d.schema.fieldsBelow path).foldl (fun plan (leaf, _) =>
      match d.resolve leaf with
      | .field field => d.planField plan leaf field
      | _ => plan) plan
  | _ => plan

def inScope (d : Document) (opts : ValidateOptions) (path : Path) : Bool :=
  (match opts.paths with
    | some requested => requested.any (·.covers path)
    | none => true) &&
  (¬ opts.modifiedOnly || d.isModified path || path.ancestors.any d.isDirectlyModified)

def plan (d : Document) (opts : ValidateOptions) : List (Path × Field) :=
  let all := (d.candidates opts).foldl d.planPath ∅
  all.entries.filter fun e => d.inScope opts e.1

-- Checking

-- Runs the validators of a value, of which the first one has the given index. Outstanding verdicts
-- are only waited for if `wait` is set.
def runValidators (o : Occasion) (value : Value) (view : View) (wait : Bool) :
    Nat → List Validator → Pass × List Note → Pass × List Note
  | _, [], acc => acc
  | i, v :: vs, (pass, notes) =>
    runValidators o value view wait (i + 1) vs <|
      match v.check with
      | .sync f =>
        let verdict := f value view
        let pass := match v.failure? o.path value verdict with
          | some e => { pass with failures := pass.failures.record o.path i e }
          | none => pass
        (pass, notes ++ verdict.notes)
      | .async f =>
        let check : PendingCheck :=
          { path := o.path, index := i, validator := v, value, deferred := f o value }
        (if wait then { pass with pending := pass.pending ++ [check] } else pass, notes)

-- Checks a path. A required value that is missing is the only failure of its path, and a value that
-- is absent or null has no other.
def checkPath (d : Document) (moment : Nat) (wait : Bool) (acc : Pass × List Note) (path : Path)
    (field : Field) : Pass × List Note :=
  let (pass, notes) := acc
  let view := d.viewAt path
  let value := d.get? path
  if field.rules.isRequired view ∧ ¬ field.satisfiesRequired value then
    let e := ValidatorError.render path field.rules.requiredMessage value .required
    ({ pass with failures := pass.failures.record path 0 e }, notes)
  else
    match value with
    | none | some .null => acc
    | some v => runValidators ⟨moment, path⟩ v view wait 1 field.rules.validators (pass, notes)

def check (d : Document) (opts : ValidateOptions) (wait : Bool) : Pass × List Note :=
  (d.plan opts).foldl (fun acc (path, field) => d.checkPath opts.moment wait acc path field)
    ({ options := opts }, [])

-- Passes

def runPreValidate (d : Document) :
    List (Document → Except String Unit × List Note) → Except String Unit × List Note
  | [] => (.ok (), [])
  | hook :: hooks =>
    match hook d with
    | (.error e, notes) => (.error e, notes)
    | (.ok (), notes) =>
      let (r, notes') := d.runPreValidate hooks
      (r, notes ++ notes')

def beginPass (d : Document) (hooks : Hooks) (opts : ValidateOptions) (wait : Bool) : Ran Pass :=
  if d.validating then { result := .error .parallel, doc := d }
  else
    let d := { d with validating := true }
    match d.runPreValidate hooks.preValidate with
    | (.error message, notes) =>
      { result := .error (.hook .preValidate message), doc := { d with validating := false }, notes }
    | (.ok (), notes) =>
      let (pass, notes') := d.check opts wait
      { result := .ok pass, doc := d, notes := notes ++ notes' }

-- The failures of the document after a pass: those of casts stay, those of validators that the pass
-- was about are taken from it.
def mergeIssues (d : Document) (pass : Pass) : Issues :=
  let kept := (d.issues.getD ∅).filter fun p e =>
    e.isCast || match pass.options.paths with
      | none => false
      | some requested => ¬ requested.any (·.covers p)
  pass.failures.entries.foldl (fun is (p, _, e) => (Issues.record is p (.validator e)).2) kept

def finishPass (d : Document) (hooks : Hooks) (pass : Pass) : Ran Unit :=
  let issues := d.mergeIssues pass
  let report := issues.filter fun p _ => d.inScope pass.options p
  let d := { d with issues := if issues.isEmpty then none else some issues }
  let outcome := if report.isEmpty then none else some report
  let notes := hooks.postValidate.flatMap fun hook => hook d outcome
  let result := match outcome with
    | some report => .error (.validation report)
    | none => .ok ()
  { result, doc := { d with validating := false }, notes }

end Document

namespace Pass

def poll (pass : Pass) : Pass × List Note :=
  pass.pending.foldl (fun (pass, notes) check =>
    match check.deferred.delay with
    | n + 1 =>
      let check := { check with deferred := { check.deferred with delay := n } }
      ({ pass with pending := pass.pending ++ [check] }, notes)
    | 0 =>
      let verdict := check.deferred.verdict
      let pass := match check.validator.failure? check.path check.value verdict with
        | some e => { pass with failures := pass.failures.record check.path check.index e }
        | none => pass
      (pass, notes ++ verdict.notes)) ({ pass with pending := [] }, [])

def rounds (pass : Pass) : Nat :=
  (pass.pending.map (·.deferred.delay + 1)).foldl max 0

def pollTimes : Nat → Pass → Pass × List Note
  | 0, pass => (pass, [])
  | n + 1, pass =>
    let (pass, notes) := pass.poll
    let (pass, notes') := pollTimes n pass
    (pass, notes ++ notes')

def settle (pass : Pass) : Pass × List Note :=
  pollTimes pass.rounds pass

end Pass

namespace Document

def completePass (hooks : Hooks) (begun : Ran Pass) : Ran Unit :=
  match begun.result with
  | .error e => { result := .error e, doc := begun.doc, notes := begun.notes }
  | .ok pass =>
    let (pass, notes) := pass.settle
    let ended := begun.doc.finishPass hooks pass
    { ended with notes := begun.notes ++ notes ++ ended.notes }

def validate (d : Document) (hooks : Hooks) (opts : ValidateOptions := {}) : Ran Unit :=
  completePass hooks (d.beginPass hooks opts true)

def validateSync (d : Document) (hooks : Hooks) (opts : ValidateOptions := {}) : Ran Unit :=
  completePass hooks (d.beginPass hooks opts false)

end Document

inductive ValidateCall where
  | waiting (opts : ValidateOptions)
  | running (pass : Pass)
  | done (result : Except DocumentError Unit)

namespace ValidateCall

def result? : ValidateCall → Option (Except DocumentError Unit)
  | .done r => some r
  | _ => none

def rounds : ValidateCall → Nat
  | .running pass => pass.rounds
  | _ => 0

def advance (hooks : Hooks) (d : Document) (pass : Pass) : ValidateCall × Document × List Note :=
  let (pass, notes) := pass.poll
  if pass.pending.isEmpty then
    let ended := d.finishPass hooks pass
    (.done ended.result, ended.doc, notes ++ ended.notes)
  else (.running pass, d, notes)

-- One step of a call: the first one begins the pass, and each one asks for outstanding verdicts.
def step (hooks : Hooks) (d : Document) : ValidateCall → ValidateCall × Document × List Note
  | .done r => (.done r, d, [])
  | .running pass => advance hooks d pass
  | .waiting opts =>
    let begun := d.beginPass hooks opts true
    match begun.result with
    | .error e => (.done (.error e), begun.doc, begun.notes)
    | .ok pass =>
      let (call, doc, notes) := advance hooks begun.doc pass
      (call, doc, begun.notes ++ notes)

def stepAll (hooks : Hooks) : Document → List ValidateCall → List ValidateCall × Document × List Note
  | d, [] => ([], d, [])
  | d, call :: calls =>
    let (call, d, notes) := call.step hooks d
    let (calls, d, notes') := stepAll hooks d calls
    (call :: calls, d, notes ++ notes')

def stepTimes (hooks : Hooks) : Nat → Document → List ValidateCall →
    List ValidateCall × Document × List Note
  | 0, d, calls => (calls, d, [])
  | n + 1, d, calls =>
    let (calls, d, notes) := stepAll hooks d calls
    let (calls, d, notes') := stepTimes hooks n d calls
    (calls, d, notes ++ notes')

def join (hooks : Hooks) (d : Document) (calls : List ValidateCall) :
    List ValidateCall × Document × List Note :=
  let (calls, d, notes) := stepAll hooks d calls
  let (calls, d, notes') := stepTimes hooks ((calls.map rounds).foldl max 0) d calls
  (calls, d, notes ++ notes')

end ValidateCall
end Dossier

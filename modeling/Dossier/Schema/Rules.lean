import Dossier.Error

-- What a schema says about a field besides its type. Rules are functions of what they are shown,
-- which is never a document itself but a `View` of the part of it that owns the field; they can
-- leave notes behind.

namespace Dossier

-- A document, or an embedded document, as rules see it.
structure View where
  value : Value
  isNew : Bool

namespace View

def get? (v : View) (p : Path) : Option Value :=
  v.value.get? p

def string? (v : View) (p : Path) : Option String :=
  (v.get? p).bind Value.string?

def double? (v : View) (p : Path) : Option Double :=
  match v.get? p with
  | some (.num n) => some n.toDouble
  | _ => none

end View

abbrev Note := Value

abbrev Condition := View → Bool

inductive Required where
  | no
  | always
  | when (cond : Condition)

inductive Default where
  | literal (v : Value)
  | generate (f : View → Except String Value)
  | freshId

-- What a setter sees of the write that it takes part in.
structure SetterContext where
  path   : Path
  prior  : Option Value
  -- Whether the document is being loaded.
  isInit : Bool

structure SetterResult where
  value    : Value
  -- Writes to other paths of the same document or embedded document, to be done afterwards.
  siblings : List (Path × Value) := []
  notes    : List Note := []

abbrev Setter := SetterContext → Value → SetterResult

abbrev Getter := View → Value → Value

abbrev Virtual := View → Value

-- What a check says of a value. An error replaces the message of the validator.
structure Verdict where
  result : Except String Bool
  notes  : List Note := []

-- A verdict that is there when it has been asked for often enough.
structure Deferred where
  -- How often asking is in vain.
  delay   : Nat
  verdict : Verdict

-- What tells one asking of a check from another one. A check that looks at more than the value can
-- say otherwise on another occasion.
structure Occasion where
  -- When the pass that asks was begun.
  moment : Nat
  path   : Path

inductive Check where
  | sync (f : Value → View → Verdict)
  | async (f : Occasion → Value → Deferred)

structure Validator where
  kind    : ValidatorKind
  -- A template for the path and the value.
  message : String
  check   : Check

namespace Validator

def isAsync (v : Validator) : Bool :=
  match v.check with
  | .sync _ => false
  | .async _ => true

def failure? (v : Validator) (path : Path) (value : Value) (verdict : Verdict) :
    Option ValidatorError :=
  match verdict.result with
  | .ok true => none
  | .ok false => some (.render path v.message (some value) v.kind)
  | .error message => some (.render path message (some value) v.kind)

def withMessage (v : Validator) (template : String) : Validator :=
  { v with message := template }

def customMessage : String :=
  "Validator failed for path `\x7bPATH\x7d` with value `\x7bVALUE\x7d`"

def custom (f : Value → View → Verdict) : Validator :=
  { kind := .custom, message := customMessage, check := .sync f }

def customAsync (f : Value → Deferred) : Validator :=
  { kind := .custom, message := customMessage, check := .async fun _ => f }

def ofPredicate (kind : ValidatorKind) (message : String) (f : Value → Bool) : Validator :=
  { kind, message, check := .sync fun v _ => { result := .ok (f v) } }

def min (bound : Double) : Validator :=
  ofPredicate .min
    ("Path `\x7bPATH\x7d` (\x7bVALUE\x7d) is less than minimum allowed value ("
      ++ bound.boundText ++ ").")
    fun
      | .num n => bound.le n.toDouble
      | _ => true

def max (bound : Double) : Validator :=
  ofPredicate .max
    ("Path `\x7bPATH\x7d` (\x7bVALUE\x7d) is more than maximum allowed value ("
      ++ bound.boundText ++ ").")
    fun
      | .num n => n.toDouble.le bound
      | _ => true

def oneOf (allowed : List Value) : Validator :=
  ofPredicate .enum "`\x7bVALUE\x7d` is not a valid enum value for path `\x7bPATH\x7d`."
    fun v => allowed.any (·.equal v)

def length? : Value → Option Nat
  | .str s => some s.length
  | .arr items => some items.length
  | _ => none

def minLength (n : Nat) : Validator :=
  ofPredicate .minLength
    ("Path `\x7bPATH\x7d` (`\x7bVALUE\x7d`) is shorter than the minimum allowed length ("
      ++ toString n ++ ").")
    fun v => match length? v with
      | some l => n ≤ l
      | none => true

def maxLength (n : Nat) : Validator :=
  ofPredicate .maxLength
    ("Path `\x7bPATH\x7d` (`\x7bVALUE\x7d`) is longer than the maximum allowed length ("
      ++ toString n ++ ").")
    fun v => match length? v with
      | some l => l ≤ n
      | none => true

end Validator

structure Rules where
  required        : Required := .no
  requiredMessage : String := "Path `\x7bPATH\x7d` is required."
  default         : Option Default := none
  validators      : List Validator := []
  setters         : List Setter := []
  getters         : List Getter := []
  -- Refuses changes of a stored document.
  immutable       : Bool := false
  nullable        : Bool := true

namespace Rules

def hasDefault (r : Rules) : Bool :=
  r.default.isSome

def hasRequired (r : Rules) : Bool :=
  match r.required with
  | .no => false
  | _ => true

def isRequired (r : Rules) (view : View) : Bool :=
  match r.required with
  | .no => false
  | .always => true
  | .when cond => cond view

def applyGetters (r : Rules) (view : View) (v : Value) : Value :=
  r.getters.foldl (fun v g => g view v) v

end Rules
end Dossier

import Dossier.Schema.Wire

namespace Dossier

structure ModelConfig where
  validateBeforeSave   : Bool := true
  -- Restricts the validation of a document that is stored already to what was modified.
  validateModifiedOnly : Bool := false
  -- How many milliseconds a call of the store may take. Without a limit it is waited for.
  timeout              : Option Nat := some 10000

namespace ModelConfig

def toValue (c : ModelConfig) : Value :=
  .ofFields [
    ("validate_before_save", .bool c.validateBeforeSave),
    ("validate_modified_only", .bool c.validateModifiedOnly),
    ("operation_timeout_ms", match c.timeout with
      | none => .null
      | some ms => .int ms)]

def timeout? : Value → Option (Option Nat)
  | .null => some none
  | .num (.int (.ofNat ms)) => some (some ms)
  | _ => none

def ofValue? (v : Value) : Option ModelConfig := do
  let dflt : ModelConfig := {}
  let settings ← v.settings? ["validate_before_save", "validate_modified_only",
    "operation_timeout_ms"]
  let validateBeforeSave ← settings.read "validate_before_save" Value.bool? dflt.validateBeforeSave
  let validateModifiedOnly ← settings.read "validate_modified_only" Value.bool?
    dflt.validateModifiedOnly
  let timeout ← settings.read "operation_timeout_ms" timeout? dflt.timeout
  return { validateBeforeSave, validateModifiedOnly, timeout }

end ModelConfig
end Dossier

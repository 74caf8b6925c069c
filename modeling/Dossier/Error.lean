import Dossier.FieldType
import Dossier.OrdMap.Basic
import Dossier.Text.Template
import Dossier.Value.Printer
import Dossier.Value.Tree

-- A value that cannot be cast and a value that a validator rejects are recorded by path, as
-- `Issues`. Everything else is returned to the caller at once.

namespace Dossier

inductive CastTarget where
  | type (tag : TypeTag)
  | object
deriving DecidableEq

def CastTarget.name : CastTarget → String
  | .type tag => tag.name
  | .object => "Object"

inductive CastReason where
  | inexactNumber
  | nullNotAllowed
  | missingId
  | defaultFailed (message : String)
  | unknownVariant (name key : String)
  | badDiscriminator (key : String) (value : Value)
  | unwritable (e : PathError)
  | item (message : String)
  | other (text : String)

def CastReason.text : CastReason → String
  | .inexactNumber => "string is not an exactly representable number"
  | .nullNotAllowed => "null is not allowed"
  | .missingId => "populated record has no _id"
  | .defaultFailed message => "cannot build default: " ++ message
  | .unknownVariant name key =>
    "unknown discriminator value \"" ++ name ++ "\" for key \"" ++ key ++ "\""
  | .badDiscriminator key value =>
    "discriminator \"" ++ key ++ "\" must be a string, got " ++ value.text
  | .unwritable e => e.message
  | .item message => message
  | .other text => text

structure CastError where
  path   : Path
  target : CastTarget
  value  : Value
  reason : Option CastReason := none

namespace CastError

def found (e : CastError) : String :=
  e.value.typeName

def message (e : CastError) : String :=
  "cast to " ++ e.target.name ++ " failed for value " ++ e.value.text ++ " (" ++ e.found
    ++ ") at path \"" ++ e.path.text ++ "\""
    ++ (match e.reason with
      | some r => ": " ++ r.text
      | none => "")

def rebased (e : CastError) (p : Path) : CastError :=
  { e with path := p ++ e.path }

end CastError

inductive ValidatorKind where
  | required
  | min
  | max
  | enum
  | minLength
  | maxLength
  | custom
deriving DecidableEq

def ValidatorKind.name : ValidatorKind → String
  | .required => "required"
  | .min => "min"
  | .max => "max"
  | .enum => "enum"
  | .minLength => "minlength"
  | .maxLength => "maxlength"
  | .custom => "user defined"

namespace ValidatorKind

def all : List ValidatorKind :=
  [.required, .min, .max, .enum, .minLength, .maxLength, .custom]

def ofName? (s : String) : Option ValidatorKind :=
  all.find? (·.name = s)

end ValidatorKind

structure ValidatorError where
  path    : Path
  message : String
  value   : Option Value
  kind    : ValidatorKind

-- The failure of a value, whose message is a template for the path and the value. A string is
-- filled in without quotes.
def ValidatorError.render (path : Path) (template : String) (value : Option Value)
    (kind : ValidatorKind) : ValidatorError :=
  let shown := match value with
    | some (.str s) => s
    | some v => v.text
    | none => "undefined"
  let message := fill (fill template "\x7bPATH\x7d" path.text) "\x7bVALUE\x7d" shown
  { path, message, value, kind }

inductive FieldError where
  | cast (e : CastError)
  | validator (e : ValidatorError)

namespace FieldError

def path : FieldError → Path
  | .cast e => e.path
  | .validator e => e.path

def isCast : FieldError → Bool
  | .cast _ => true
  | .validator _ => false

def message : FieldError → String
  | .cast e => e.message
  | .validator e => e.message

end FieldError

abbrev Issues := OrdMap Path FieldError

namespace Issues

def record (is : Issues) (p : Path) (e : FieldError) : Bool × Issues :=
  if is.contains p then (false, is) else (true, is.insert p e)

def clear (is : Issues) (p : Path) : Option FieldError × Issues :=
  (is.get? p, is.erase p)

def clearSubtree (is : Issues) (p : Path) : Issues :=
  is.filter fun q _ => ¬ p.covers q

def clearBelow (is : Issues) (p : Path) : Issues :=
  is.filter fun q _ => ¬ p.isAbove q

def message (is : Issues) : String :=
  "validation failed: " ++
    ", ".intercalate (is.entries.map fun (p, e) => Path.text p ++ ": " ++ e.message)

def texts (is : Issues) : List String :=
  is.keys.map Path.text

end Issues

inductive StrictViolation where
  | undeclared
  | immutable
deriving DecidableEq

structure StrictError where
  path      : Path
  violation : StrictViolation
deriving DecidableEq

def StrictError.message (e : StrictError) : String :=
  "path \"" ++ e.path.text ++ "\" " ++
    match e.violation with
    | .undeclared => "is not in schema and strict mode is set to throw"
    | .immutable => "is immutable and strict mode is set to throw"

inductive SchemaError where
  | duplicate (path : String)
  | conflict (path field : String)
  | invalid (path : String)
deriving DecidableEq

def SchemaError.message : SchemaError → String
  | .duplicate path => "path \"" ++ path ++ "\" is declared more than once"
  | .conflict path field => "path \"" ++ path ++ "\" conflicts with field \"" ++ field ++ "\""
  | .invalid path => "path \"" ++ path ++ "\" is not a valid field path"

inductive HookPhase where
  | preValidate
  | preSave
deriving DecidableEq

def HookPhase.name : HookPhase → String
  | .preValidate => "pre_validate"
  | .preSave => "pre_save"

inductive DocumentError where
  | cast (e : CastError)
  | validation (issues : Issues)
  | strict (e : StrictError)
  | parallel
  | path (e : PathError)
  | hook (phase : HookPhase) (message : String)

def DocumentError.message : DocumentError → String
  | .cast e => e.message
  | .validation issues => issues.message
  | .strict e => e.message
  | .parallel => "can't validate the same document multiple times in parallel"
  | .path e => e.message
  | .hook phase message => phase.name ++ " hook failed: " ++ message

end Dossier

import Dossier.Schema.Rules

-- A schema declares the fields of a document by their paths. A field can itself hold documents of
-- another schema, which may come in variants that a key of the document tells apart.

namespace Dossier

inductive StrictMode where
  | drop
  | refuse
  | keep
deriving DecidableEq, Repr

structure SchemaOptions where
  strict           : StrictMode := .drop
  id               : Bool := true
  -- The key that tells the variants of embedded documents apart.
  discriminatorKey : String := "kind"
deriving DecidableEq, Repr

mutual

inductive FieldType where
  | string
  | number
  | boolean
  | date
  | id (target : Option String)
  | mixed
  | array (element : Field)
  | map (element : Field)
  | embedded (sub : SubSchema)
  | documentArray (sub : SubSchema)

structure Field where
  type  : FieldType
  rules : Rules

structure SubSchema where
  base     : Schema
  variants : List (String × Schema)

structure Schema where
  options  : SchemaOptions
  -- In the order of declaration.
  fields   : List (Path × Field)
  virtuals : List (String × Virtual)

end

namespace FieldType

def tag : FieldType → TypeTag
  | .string => .string
  | .number => .number
  | .boolean => .boolean
  | .date => .date
  | .id _ => .id
  | .mixed => .mixed
  | .array _ => .array
  | .map _ => .map
  | .embedded _ => .embedded
  | .documentArray _ => .documentArray

def isArray : FieldType → Bool
  | .array _ | .documentArray _ => true
  | _ => false

-- Whether values of the type have parts that are tracked by themselves.
def isStructural : FieldType → Bool
  | .array _ | .map _ | .embedded _ | .documentArray _ => true
  | _ => false

def sub? : FieldType → Option SubSchema
  | .embedded sub | .documentArray sub => some sub
  | _ => none

end FieldType

namespace Field

def plain (type : FieldType) : Field :=
  { type, rules := {} }

def ofSub (sub : SubSchema) : Field :=
  plain (.embedded sub)

def element? (f : Field) : Option Field :=
  match f.type with
  | .array el | .map el => some el
  | .documentArray sub => some (ofSub sub)
  | _ => none

def tag (f : Field) : TypeTag :=
  f.type.tag

-- Whether a value fulfils the requirement of a value. An empty string does not for strings.
def satisfiesRequired (f : Field) (v : Option Value) : Bool :=
  match v with
  | none | some .null => false
  | some (.str s) => f.tag ≠ .string || s ≠ ""
  | some _ => true

end Field

mutual

def FieldType.partsCanFail : FieldType → Bool
  | .embedded _ | .documentArray _ => true
  | .array el | .map el => el.canFail
  | _ => false

def Field.canFail : Field → Bool
  | ⟨type, rules⟩ => rules.hasRequired || !rules.validators.isEmpty || type.partsCanFail

end

namespace Schema

def field? (s : Schema) (p : Path) : Option Field :=
  (s.fields.find? (·.1 = p)).map (·.2)

-- Whether a path leads to an object that only groups fields.
def isNested (s : Schema) (p : Path) : Bool :=
  ¬ p.isEmpty && s.fields.any fun e => p.isAbove e.1

def fieldsBelow (s : Schema) (p : Path) : List (Path × Field) :=
  s.fields.filter fun e => p.isAbove e.1

end Schema

namespace SubSchema

def discriminatorKey (s : SubSchema) : String :=
  s.base.options.discriminatorKey

-- The name of the variant that an embedded document selects. Without the key, or with null under
-- it, there is none; a key that names no variant is an error.
def variant? (s : SubSchema) (v : Option Value) : Except CastReason (Option String) :=
  if s.variants.isEmpty then .ok none
  else
    match v.bind (·.field? s.discriminatorKey) with
    | none | some .null => .ok none
    | some (.str name) =>
      if Entries.contains name s.variants then .ok (some name)
      else .error (.unknownVariant name s.discriminatorKey)
    | some other => .error (.badDiscriminator s.discriminatorKey other)

def named (s : SubSchema) (name : Option String) : Schema :=
  match name.bind (Entries.get? · s.variants) with
  | some schema => schema
  | none => s.base

def select (s : SubSchema) (v : Option Value) : Except CastReason Schema :=
  match s.variant? v with
  | .ok name => .ok (s.named name)
  | .error e => .error e

def selectOrBase (s : SubSchema) (v : Option Value) : Schema :=
  match s.select v with
  | .ok schema => schema
  | .error _ => s.base

end SubSchema

-- Whether something on the way to a path is there and not an object, so that the path cannot be
-- reached without overwriting it.
def Value.blocks (doc : Value) (p : Path) : Bool :=
  p.ancestors.any fun a =>
    match doc.get? a with
    | some v => ¬ v.isObject
    | none => false

end Dossier

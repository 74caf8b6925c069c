import Dossier.Schema.Basic

namespace Dossier
namespace Schema

def idField : Path × Field :=
  ([.key Value.idKey], { type := .id none, rules := { default := some .freshId } })

-- The path of a declaration. It has keys only, and none of them is empty.
def declaredPath? (raw : String) : Option Path :=
  let path := Path.parse raw
  if path.isEmpty ∨ path.any (·.index?.isSome) ∨ (Path.splitDots raw.toList).any List.isEmpty then
    none
  else some path

def declare : List (Path × Field) → List (String × Field) → Except SchemaError (List (Path × Field))
  | fields, [] => .ok fields
  | fields, (raw, field) :: rest =>
    match declaredPath? raw with
    | none => .error (.invalid raw)
    | some path =>
      if fields.any (·.1 = path) then .error (.duplicate raw)
      else declare (fields ++ [(path, field)]) rest

-- The first declaration, in order, below another field, with that field.
def conflict? (fields : List (Path × Field)) : Option (Path × Path) :=
  fields.findSome? fun (path, _) =>
    (path.ancestors.find? fun a => fields.any (·.1 = a)).map (path, ·)

-- A schema of declarations. Unless it is declared, the identifier comes first.
def build (options : SchemaOptions) (declared : List (String × Field))
    (virtuals : List (String × Virtual)) : Except SchemaError Schema :=
  let start := if options.id ∧ ¬ declared.any (·.1 = Value.idKey) then [idField] else []
  match declare start declared with
  | .error e => .error e
  | .ok fields =>
    match conflict? fields with
    | some (path, field) => .error (.conflict path.text field.text)
    | none => .ok { options, fields, virtuals }

def override (fields : List (Path × Field)) (path : Path) (field : Field) : List (Path × Field) :=
  if fields.any (·.1 = path) then
    fields.map fun e => if e.1 = path then (path, field) else e
  else fields ++ [(path, field)]

def variantField (name : String) : Field :=
  { type := .string, rules := { default := some (.literal (.str name)) } }

-- The schema of a variant: its fields over those of the base, and its name under the key that tells
-- the variants apart.
def mergeVariant (base variant : Schema) (name : String) : Schema :=
  let fields := variant.fields.foldl (fun fs e => override fs e.1 e.2) base.fields
  { base with
    fields := override fields [.key base.options.discriminatorKey] (variantField name)
    virtuals := base.virtuals ++ variant.virtuals }

end Schema

def SubSchema.addVariant (s : SubSchema) (name : String) (variant : Schema) : SubSchema :=
  { s with variants := Entries.insert name (s.base.mergeVariant variant name) s.variants }

-- Adds a variant to a field of embedded documents. Other fields have none.
def Field.addVariant (f : Field) (name : String) (variant : Schema) : Field :=
  match f.type with
  | .embedded sub => { f with type := .embedded (sub.addVariant name variant) }
  | .documentArray sub => { f with type := .documentArray (sub.addVariant name variant) }
  | _ => f

end Dossier

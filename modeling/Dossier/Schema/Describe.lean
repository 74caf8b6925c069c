import Dossier.Schema.Resolve
import Dossier.Wire

-- What a schema declares, as a value. Callbacks are shown by their kinds only.

namespace Dossier

def Rules.describe (rules : Rules) (type : FieldType) (target element sub : Value) : Value :=
  .ofFields [
    ("type", .str type.tag.name), ("tag", .str type.tag.label), ("array", .bool type.isArray),
    ("target", target), ("element", element), ("sub", sub),
    ("default", .bool rules.hasDefault), ("required", .bool rules.hasRequired),
    ("immutable", .bool rules.immutable),
    ("validators", .arr (rules.validators.map fun v => .arr [.str v.kind.name, .bool v.isAsync]))]

mutual

def FieldType.describe (rules : Rules) : FieldType → Value
  | .id (some target) => rules.describe (.id (some target)) (.str target) .null .null
  | .array el => rules.describe (.array el) .null el.describe .null
  | .map el => rules.describe (.map el) .null el.describe .null
  | .embedded sub => rules.describe (.embedded sub) .null .null sub.describe
  | .documentArray sub =>
    let parts := sub.describe
    let item := Rules.describe {} (.embedded sub) .null .null parts
    rules.describe (.documentArray sub) .null item parts
  | type => rules.describe type .null .null .null

def Field.describe : Field → Value
  | ⟨type, rules⟩ => type.describe rules

def SubSchema.describe : SubSchema → Value
  | ⟨base, variants⟩ =>
    .ofFields [("fields", base.describe), ("variants", .arr (describeVariants variants))]

def Schema.describe : Schema → Value
  | ⟨_, fields, _⟩ => .arr (describeFields fields)

def describeFields : List (Path × Field) → List Value
  | [] => []
  | (p, f) :: fields => .arr [Path.toValue p, f.describe] :: describeFields fields

def describeVariants : List (String × Schema) → List Value
  | [] => []
  | (name, s) :: variants => .arr [.str name, s.describe] :: describeVariants variants

end

def Resolution.describe : Resolution → Value
  | .field f =>
    .ofFields [("field", .str f.tag.name), ("validators", .int f.rules.validators.length)]
  | .nested => .str "nested"
  | .inMixed => .str "mixed_child"
  | .undeclared => .str "undeclared"

end Dossier

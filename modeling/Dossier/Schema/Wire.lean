import Dossier.Schema.Basic

namespace Dossier

abbrev Settings := List (String × Value)

def Value.bool? : Value → Option Bool
  | .bool b => some b
  | _ => none

-- Takes an object as named values, and an array as the values of the given names in order.
def Value.settings? (names : List String) : Value → Option Settings
  | .obj fields => some fields
  | .arr items => if items.length ≤ names.length then some (names.zip items) else none
  | _ => none

def Settings.read (s : Settings) (name : String) (f : Value → Option α) (dflt : α) : Option α :=
  match s.lookup name with
  | none => some dflt
  | some v => f v

namespace StrictMode

def toValue : StrictMode → Value
  | .drop => .bool true
  | .keep => .bool false
  | .refuse => .str "throw"

def ofValue? : Value → Option StrictMode
  | .bool true => some .drop
  | .bool false => some .keep
  | .str s => if s = "throw" then some .refuse else none
  | _ => none

end StrictMode

namespace SchemaOptions

def toValue (o : SchemaOptions) : Value :=
  .ofFields [
    ("strict", o.strict.toValue), ("id", .bool o.id),
    ("discriminator_key", .str o.discriminatorKey)]

def ofValue? (v : Value) : Option SchemaOptions := do
  let dflt : SchemaOptions := {}
  let settings ← v.settings? ["strict", "id", "discriminator_key"]
  let strict ← settings.read "strict" StrictMode.ofValue? dflt.strict
  let id ← settings.read "id" Value.bool? dflt.id
  let discriminatorKey ← settings.read "discriminator_key" Value.string? dflt.discriminatorKey
  return { strict, id, discriminatorKey }

end SchemaOptions
end Dossier

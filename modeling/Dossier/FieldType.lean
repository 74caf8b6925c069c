
namespace Dossier

-- The type of a field without its parameters, as it is noted in changes.
inductive TypeTag where
  | string
  | number
  | boolean
  | date
  | id
  | mixed
  | array
  | map
  | embedded
  | documentArray
deriving DecidableEq, Repr

namespace TypeTag

def name : TypeTag → String
  | .string => "String"
  | .number => "Number"
  | .boolean => "Boolean"
  | .date => "Date"
  | .id => "Id"
  | .mixed => "Mixed"
  | .array => "Array"
  | .map => "Map"
  | .embedded => "Embedded"
  | .documentArray => "DocumentArray"

def label : TypeTag → String
  | .string => "string"
  | .number => "number"
  | .boolean => "boolean"
  | .date => "date"
  | .id => "id"
  | .mixed => "mixed"
  | .array => "array"
  | .map => "map"
  | .embedded => "embedded"
  | .documentArray => "document_array"

def all : List TypeTag :=
  [.string, .number, .boolean, .date, .id, .mixed, .array, .map, .embedded, .documentArray]

def ofLabel? (s : String) : Option TypeTag :=
  all.find? (·.label = s)

theorem ofLabel?_label (t : TypeTag) : ofLabel? t.label = some t := by
  cases t <;> decide

end TypeTag
end Dossier

import Dossier.Wire

-- A filter selects records by the values at some of their paths.

namespace Dossier

structure Filter where
  conditions : List (Path × Value)

namespace Filter

def all : Filter := ⟨[]⟩

def byId (id : Value) : Filter := ⟨[([.key Value.idKey], id)]⟩

def isEmpty (f : Filter) : Bool :=
  f.conditions.isEmpty

-- A record matches if every condition holds of it. Null also stands for an absent value.
def accepts (f : Filter) (record : Value) : Bool :=
  f.conditions.all fun (path, expected) =>
    match record.get? path with
    | some actual => actual.equal expected
    | none => expected.isNull

def toValue (f : Filter) : Value :=
  .ofFields [("conditions", .arr (f.conditions.map fun (p, v) => .arr [p.toValue, v]))]

end Filter
end Dossier

import Dossier.Schema.Rules
import Dossier.Text.Blank
import Dossier.Wire

-- Conditions, checks, setters, getters and virtual fields that schemas can be put together from.

namespace Dossier

namespace Condition

def isNew : Condition := (·.isNew)

def isSet (p : Path) : Condition := fun view => ¬ Value.isNullish (view.get? p)

def holds (p : Path) (v : Value) : Condition := fun view =>
  match view.get? p with
  | some actual => actual.equal v
  | none => false

end Condition

namespace Verdict

def ofBool (b : Bool) : Verdict := { result := .ok b }

def refusal (message : String) : Verdict := { result := .error message }

def noting (label : Value) (v : Value) : Verdict :=
  { result := .ok true, notes := [.ofFields [("check", label), ("value", v)]] }

def differsFrom (p : Path) (v : Value) (view : View) : Verdict :=
  ofBool <| match view.get? p with
    | some other => ¬ other.equal v
    | none => true

end Verdict

-- A text with its capital letters in the other case; letters outside ASCII stay.
def lowerText (s : String) : String := String.ofList (s.toList.map Char.toLower)

def upperText (s : String) : String := String.ofList (s.toList.map Char.toUpper)

def Value.mapString (f : String → String) : Value → Value
  | .str s => .str (f s)
  | v => v

namespace Setter

def ofFunction (f : Value → Value) : Setter := fun _ v => { value := f v }

def trim : Setter := ofFunction (Value.mapString Dossier.trim)

def lower : Setter := ofFunction (Value.mapString lowerText)

def append (s : String) : Setter := ofFunction (Value.mapString (· ++ s))

def nullIfEmpty : Setter := ofFunction fun
  | .str s => if s = "" then .null else .str s
  | v => v

def keepPrior : Setter := fun ctx v => { value := ctx.prior.getD v }

def path : Setter := fun ctx _ => { value := .str ctx.path.text }

def const (c : Value) : Setter := ofFunction fun _ => c

-- Also writes to another path, a constant or the value itself.
def sibling (p : Path) (c : Option Value) : Setter := fun _ v =>
  { value := v, siblings := [(p, c.getD v)] }

def noting : Setter := fun ctx v =>
  let prior : Value := match ctx.prior with
    | some p => .ofFields [("some", p)]
    | none => .null
  { value := v
    notes := [.ofFields [
      ("setter", ctx.path.toValue), ("value", v), ("prior", prior), ("init", .bool ctx.isInit)]] }

end Setter

namespace Getter

def upper : Getter := fun _ v => v.mapString upperText

def append (s : String) : Getter := fun _ v => v.mapString (· ++ s)

def wrap : Getter := fun _ v => .arr [v]

def isNew : Getter := fun view _ => .bool view.isNew

def field (p : Path) : Getter := fun view _ => (view.get? p).getD .null

end Getter

namespace Virtual

def const (v : Value) : Virtual := fun _ => v

def isNew : Virtual := fun view => .bool view.isNew

def double (p : Path) : Virtual := fun view =>
  match view.double? p with
  | some x => .num (.double x)
  | none => .null

-- The strings at some paths, with blanks between them; a question mark stands for one that is not
-- there.
def concat (ps : List Path) : Virtual := fun view =>
  .str (" ".intercalate (ps.map fun p => (view.string? p).getD "?"))

end Virtual

namespace Default

def isNew : Default := .generate fun view => .ok (.bool view.isNew)

def view : Default := .generate fun view => .ok view.value

def failing (message : String) : Default := .generate fun _ => .error message

def copy (p : Path) : Default := .generate fun view => .ok ((view.get? p).getD .null)

end Default
end Dossier

import Dossier.Number.Basic
import Dossier.OrdMap.Entries

-- The values that documents and records are made of. The fields of an object are in strict key
-- order (`Value.Canonical`); every operation of the library keeps them so.

namespace Dossier

inductive Value where
  | null
  | bool (b : Bool)
  | num (n : Number)
  | str (s : String)
  | arr (items : List Value)
  | obj (fields : List (String × Value))
deriving Inhabited

namespace Value

-- An object of the given fields, of which later ones win over earlier ones with the same key.
def ofFields (fields : List (String × Value)) : Value :=
  .obj (Entries.ofList fields)

def int (i : Int) : Value :=
  .num (.int i)

def isNull : Value → Bool
  | .null => true
  | _ => false

def isObject : Value → Bool
  | .obj _ => true
  | _ => false

def isArray : Value → Bool
  | .arr _ => true
  | _ => false

def isEmptyObject : Value → Bool
  | .obj [] => true
  | _ => false

def isNullish : Option Value → Bool
  | none => true
  | some v => v.isNull

def string? : Value → Option String
  | .str s => some s
  | _ => none

def field? (v : Value) (k : String) : Option Value :=
  match v with
  | .obj fields => Entries.get? k fields
  | _ => none

def typeName : Value → String
  | .null => "null"
  | .bool _ => "boolean"
  | .num _ => "number"
  | .str _ => "string"
  | .arr _ => "array"
  | .obj _ => "object"

def idKey : String := "_id"

-- The identifier of a reference: that of a record which stands in for it, else the value itself.
def referenceId (v : Value) : Value :=
  (v.field? idKey).getD v

mutual

-- Identity of values, which tells integers from doubles.
def same : Value → Value → Bool
  | .null, .null => true
  | .bool a, .bool b => a == b
  | .num a, .num b => a.same b
  | .str a, .str b => a == b
  | .arr as, .arr bs => sameItems as bs
  | .obj as, .obj bs => sameFields as bs
  | _, _ => false

def sameItems : List Value → List Value → Bool
  | [], [] => true
  | a :: as, b :: bs => a.same b && sameItems as bs
  | _, _ => false

def sameFields : List (String × Value) → List (String × Value) → Bool
  | [], [] => true
  | (k, a) :: as, (k', b) :: bs => k == k' && a.same b && sameFields as bs
  | _, _ => false

end

mutual

-- Structural equality, which compares numbers as quantities.
def equal : Value → Value → Bool
  | .null, .null => true
  | .bool a, .bool b => a == b
  | .num a, .num b => a.equal b
  | .str a, .str b => a == b
  | .arr as, .arr bs => as.length == bs.length && equalItems as bs
  | .obj as, .obj bs => as.length == bs.length && equalFields as bs
  | _, _ => false

def equalItems : List Value → List Value → Bool
  | a :: as, b :: bs => a.equal b && equalItems as bs
  | _, _ => true

-- Every field on the left has an equal one on the right.
def equalFields : List (String × Value) → List (String × Value) → Bool
  | [], _ => true
  | (k, a) :: as, bs =>
    (match Entries.get? k bs with
      | some b => a.equal b
      | none => false) && equalFields as bs

end

def equalOpt : Option Value → Option Value → Bool
  | some a, some b => a.equal b
  | none, none => true
  | _, _ => false

mutual

-- All objects in a value have their fields in strict key order.
def Canonical : Value → Prop
  | .arr items => CanonicalItems items
  | .obj fields => Entries.Sorted fields ∧ CanonicalFields fields
  | _ => True

def CanonicalItems : List Value → Prop
  | [] => True
  | v :: vs => v.Canonical ∧ CanonicalItems vs

def CanonicalFields : List (String × Value) → Prop
  | [] => True
  | (_, v) :: fields => v.Canonical ∧ CanonicalFields fields

end

end Value

-- A value with the order of its keys. The constructor of objects cannot ask for it, since the fields are
-- values themselves.
abbrev CanonicalValue := { v : Value // v.Canonical }

namespace Value

mutual

-- Drops the fields of objects that are, or become, empty objects. The items of an array stay, and
-- an array directly inside an array is left as it is.
def minimize : Value → Value
  | .obj fields => .obj (minimizeFields fields)
  | .arr items => .arr (minimizeItems items)
  | v => v

def minimizeFields : List (String × Value) → List (String × Value)
  | [] => []
  | (k, v) :: fields =>
    let v := v.minimize
    if v.isEmptyObject then minimizeFields fields else (k, v) :: minimizeFields fields

def minimizeItems : List Value → List Value
  | [] => []
  | .obj fields :: items => .obj (minimizeFields fields) :: minimizeItems items
  | v :: items => v :: minimizeItems items

end

end Value
end Dossier

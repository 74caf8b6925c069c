import Dossier.Scope.Basic

-- When a field of embedded documents gets a value, a scope is made for each embedded document in
-- it, also for those inside of others.

namespace Dossier

inductive Origin where
  | loaded
  | created
deriving DecidableEq

namespace Origin

def state : Origin → PathState
  | .loaded => .init
  | .created => .modify

def isNew : Origin → Bool
  | .loaded => false
  | .created => true

end Origin

-- The path states of a new scope: the fields that are there, and those that are required, not there
-- and within reach.
def Schema.seedTracker (s : Schema) (value : Value) (present : PathState) : Tracker :=
  s.fields.foldl (fun t (path, field) =>
    if (value.get? path).isSome then t.transition path present
    else if field.rules.hasRequired ∧ ¬ value.blocks path then t.transition path .require
    else t) .empty

namespace Scopes

def addScope (scopes : Scopes) (schema : Schema) (root : Path) (value : Value)
    (parent : Option ScopeKey) (origin : Origin) : ScopeKey × Scopes :=
  scopes.insert {
    root, schema, parent
    tracker := schema.seedTracker value origin.state
    isNew := origin.isNew }

-- Runs over the items of an array that are documents; `i` is the index of the first one.
def forDocuments (attach : Scopes → Path → Value → Scopes) (root : Path) :
    Scopes → Nat → List Value → Scopes
  | scopes, _, [] => scopes
  | scopes, i, v :: vs =>
    let scopes := if v.isObject then attach scopes (root.index i) v else scopes
    forDocuments attach root scopes (i + 1) vs

end Scopes

mutual

def FieldType.attach (parent : Option ScopeKey) (origin : Origin) (root : Path)
    (value : Option Value) (scopes : Scopes) : FieldType → Scopes
  | .embedded sub =>
    match value with
    | some (.obj fields) => sub.attach parent origin root (.obj fields) scopes
    | _ => scopes
  | .documentArray sub =>
    match value with
    | some (.arr items) =>
      Scopes.forDocuments (fun scopes root v => sub.attach parent origin root v scopes) root
        scopes 0 items
    | _ => scopes
  | _ => scopes

def Field.attach (parent : Option ScopeKey) (origin : Origin) (root : Path)
    (value : Option Value) (scopes : Scopes) : Field → Scopes
  | ⟨type, _⟩ => type.attach parent origin root value scopes

-- Makes the scope of an embedded document, and those inside it. The base serves a document that
-- selects no variant.
def SubSchema.attach (parent : Option ScopeKey) (origin : Origin) (root : Path)
    (value : Value) (scopes : Scopes) : SubSchema → Scopes
  | ⟨base, variants⟩ =>
    match (SubSchema.mk base variants).variant? (some value) with
    | .ok (some name) => Schema.attachVariant parent origin root value scopes name variants
    | _ => base.attach parent origin root value scopes

-- The name is always one of the variants.
def Schema.attachVariant (parent : Option ScopeKey) (origin : Origin) (root : Path)
    (value : Value) (scopes : Scopes) (name : String) : List (String × Schema) → Scopes
  | [] => scopes
  | (k, schema) :: rest =>
    if compare name k = .eq then schema.attach parent origin root value scopes
    else Schema.attachVariant parent origin root value scopes name rest

def Schema.attach (parent : Option ScopeKey) (origin : Origin) (root : Path)
    (value : Value) (scopes : Scopes) : Schema → Scopes
  | ⟨options, fields, virtuals⟩ =>
    let (key, scopes) := scopes.addScope ⟨options, fields, virtuals⟩ root value parent origin
    Schema.attachFields (some key) origin root value scopes fields

def Schema.attachFields (parent : Option ScopeKey) (origin : Origin) (root : Path)
    (value : Value) (scopes : Scopes) : List (Path × Field) → Scopes
  | [] => scopes
  | (path, field) :: rest =>
    let scopes := field.attach parent origin (root ++ path) (value.get? path) scopes
    Schema.attachFields parent origin root value scopes rest

end

namespace Scopes

def attachField (scopes : Scopes) (field : Field) (root : Path) (value : Option Value)
    (parent : Option ScopeKey) (origin : Origin) : Scopes :=
  field.attach parent origin root value scopes

def attachItems (scopes : Scopes) (sub : SubSchema) (path : Path) (start : Nat)
    (items : List Value) (parent : Option ScopeKey) (origin : Origin) : Scopes :=
  forDocuments (fun scopes root v => sub.attach parent origin root v scopes) path scopes start items

end Scopes
end Dossier

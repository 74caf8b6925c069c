import Dossier.Document.Set

-- A new document is made of values that are given to its fields. A loaded one takes a record as it
-- is. Both are filled up with defaults.

namespace Dossier
namespace Edit

def storeDefault (path : Path) (made : Except CastFailure (Option Value))
    (stored : Document → Document) : Edit Unit := do
  match made with
  | .ok none => return ()
  | .ok (some v) =>
    let (r, value) := (← doc).value.set path v
    change fun d => { d with value }
    match r with
    | .error e => throw (.path e)
    | .ok () => change stored
  | .error (.cast e) => change fun d => (d.invalidate path (.cast e)).2
  | .error (.strict e) => throw (.strict e)

def fillDefaults : List (Path × Field) → Edit Unit
  | [] => return ()
  | (path, field) :: rest => do
    let d ← doc
    if field.rules.hasDefault ∧ (d.get? path).isNone ∧ d.isSelected path ∧ ¬ d.value.blocks path then
      let made ← cast (field.default? d.topView
        { path, root := Path.root, isInit := ¬ d.isNew })
      storeDefault path made fun d =>
        { d with
          tracker := d.tracker.transition path .default
          scopes := d.scopes.attachField field path (d.get? path) none .created }
    fillDefaults rest

-- The defaults of one embedded document, which ends them if it is gone.
def fillScopeDefaults (key : ScopeKey) (root : Path) : List (Path × Field) → Edit Unit
  | [] => return ()
  | (rel, field) :: rest => do
    let d ← doc
    let path := root ++ rel
    if field.rules.hasDefault ∧ (d.get? path).isNone ∧ d.isSelected path then
      match d.get? root with
      | none => return ()
      | some value =>
        if ¬ value.blocks rel then
          let made ← cast (field.default? { value, isNew := false } { path, root, isInit := true })
          storeDefault path made fun d =>
            let scopes := d.scopes.modify key fun scope =>
              { scope with tracker := scope.tracker.transition rel .default }
            { d with
              tracker := d.tracker.transition path .default
              scopes := scopes.attachField field path (d.get? path) (some key) .created }
        fillScopeDefaults key root rest
    else fillScopeDefaults key root rest

-- Fills in the defaults of the embedded documents that were loaded, outer ones first.
def fillLoadedScopes : List (ScopeKey × Scope) → Edit Unit
  | [] => return ()
  | (key, scope) :: rest => do
    fillScopeDefaults key scope.root scope.schema.fields
    fillLoadedScopes rest

end Edit

namespace Document

def seedRequired (d : Document) : Document :=
  d.schema.fields.foldl (fun d (path, field) =>
    if field.rules.hasRequired ∧ (d.get? path).isNone ∧ (d.stateOf? path).isNone
        ∧ ¬ d.value.blocks path then
      { d with tracker := d.tracker.transition path .require }
    else d) d

def trackLoaded (d : Document) : Document :=
  let declared := d.schema.fields.foldl (fun t (path, _) =>
    if (d.get? path).isSome then t.transition path .init else t) d.tracker
  let keys : List String := match d.value with
    | .obj fields => fields.map (·.1)
    | _ => []
  let tracker := keys.foldl (fun t k =>
    let path : Path := [.key k]
    if (d.schema.field? path).isNone ∧ ¬ d.schema.isNested path then t.transition path .init
    else t) declared
  { d with tracker }

def attachLoaded (d : Document) : Document :=
  { d with
    scopes := d.schema.fields.foldl (fun scopes (path, field) =>
      scopes.attachField field path (d.get? path) none .loaded) d.scopes }

def createEdit (schema : Schema) (fields : List (String × Value)) : Edit Unit := do
  Edit.clearQueue
  Edit.setKeys fields Path.root {}
  Edit.settle {} Edit.maxRounds
  Edit.fillDefaults schema.fields
  Edit.clearQueue
  Edit.change seedRequired

def create (schema : Schema) (initial : Value) (effects : Effects := {}) :
    Except DocumentError Document × Effects :=
  match initial with
  | .obj fields =>
    let start : Desk := { doc := { schema, value := .obj [], isNew := true }, effects }
    match (createEdit schema fields).outcome start with
    | (.ok (), desk) => (.ok desk.doc, desk.effects)
    | (.error e, desk) => (.error e, desk.effects)
  | _ => (.error (.path (.wrongShape Path.root .object)), effects)

def loadEdit (schema : Schema) : Edit Unit := do
  Edit.fillDefaults schema.fields
  Edit.fillLoadedScopes ((← Edit.doc).scopes.toList.filter fun e => ¬ e.2.isNew)
  Edit.clearQueue
  Edit.change seedRequired

def load (schema : Schema) (record : Value) (projection : Option Projection)
    (effects : Effects := {}) : Except DocumentError Document × Effects :=
  match record with
  | .obj _ =>
    let d : Document := { schema, value := record, isNew := false, projection }
    let start : Desk := { doc := d.trackLoaded.attachLoaded, effects }
    match (loadEdit schema).outcome start with
    | (.ok (), desk) => (.ok desk.doc, desk.effects)
    | (.error e, desk) => (.error e, desk.effects)
  | _ => (.error (.path (.wrongShape Path.root .object)), effects)

end Document
end Dossier

import Dossier.Document.Edit

-- What a path is according to the schema decides how a value is stored there; one that cannot be
-- cast is recorded as a failure.

namespace Dossier

structure SetOptions where
  -- Does not mark paths as modified.
  silent : Bool := false
  -- Takes the place of the strict modes of schemas.
  strict : Option StrictMode := none

namespace Document

def strictAt (d : Document) (p : Path) (opts : SetOptions) : StrictMode :=
  match opts.strict with
  | some mode => mode
  | none =>
    match d.scopes.owner? p with
    | some scope => scope.schema.options.strict
    | none => d.schema.options.strict

-- Whether a write is a modification. It is one in a new document, of a path that is modified
-- already and of one that was not loaded; a default that is written again stays a default.
def modifies (d : Document) (p : Path) (prior : Option Value) (v : Value) (opts : SetOptions) :
    Bool :=
  if opts.silent then false
  else if d.isNewAt p then true
  else
    let state := d.stateOf? p
    let unchanged := Value.equalOpt prior (some v)
    if state = some .modify then true
    else if prior.isNone ∧ ¬ d.isSelected p then true
    else if state = some .default ∧ (prior.isNone ∨ unchanged) then false
    else ¬ unchanged

-- The first array on the way to a path that is declared, is indexed and is not there.
def missingArray? (d : Document) (p : Path) : Option Path :=
  (List.range p.length).findSome? fun i =>
    let parent := p.take i
    match i, p[i]? with
    | _ + 1, some (.index _) =>
      match d.get? parent, d.resolve parent with
      | some (.arr _), _ => none
      | _, .field f => if f.type.isArray then some parent else none
      | _, _ => none
    | _, _ => none

end Document

namespace Edit

-- Forgets what is known of the parts of a value that will be replaced.
def detach (path : Path) : Edit Unit :=
  change fun d =>
    let d := d.clearTracking path
    { d with scopes := d.scopes.removeBelow path }

def storeField (path : Path) (field : Field) (prior : Option Value) (v : Value)
    (opts : SetOptions) : Edit Unit := do
  let d ← doc
  let unchanged := Value.equalOpt prior (some v)
  if field.rules.immutable ∧ prior.isSome ∧ ¬ unchanged ∧ ¬ d.isNewAt path then
    if d.strictAt path opts = .refuse then throw (.strict { path, violation := .immutable })
    else return ()
  else
    let modifies := d.modifies path prior v opts
    if unchanged ∧ ¬ modifies then change (·.markValid path)
    else
      if field.type.isStructural then detach path
      write path v
      if field.type.isStructural then
        change fun d =>
          let parent := d.scopes.innermost? path
          { d with scopes := d.scopes.attachField field path (d.get? path) parent .created }
        if field.type.isArray ∧ modifies then
          change (·.noteArrayOp path fun ops => { ops with replaced := true })
      if modifies then change (·.markModified path)
      change (·.markValid path)

def setField (path : Path) (field : Field) (v : Value) (opts : SetOptions) : Edit Unit := do
  let d ← doc
  let prior := d.get? path
  let ctx : CastContext := { path, root := d.rootAt path, prior, strict := opts.strict }
  match ← cast (field.accept ctx v) with
  | .error (.cast e) => change (·.recordCast path e)
  | .error (.strict e) => throw (.strict e)
  | .ok v => storeField path field prior v opts

def setRaw (path : Path) (v : Value) (opts : SetOptions) : Edit Unit := do
  let d ← doc
  let modifies := d.modifies path (d.get? path) v opts
  write path v
  if modifies then change (·.markModified path)

def setUndeclared (path : Path) (v : Value) (opts : SetOptions) : Edit Unit := do
  match (← doc).strictAt path opts with
  | .keep => setRaw path v opts
  | .drop => return ()
  | .refuse => throw (.strict { path, violation := .undeclared })

def setNestedNull (path : Path) (prior : Option Value) (opts : SetOptions) : Edit Unit := do
  detach path
  let modifies := (← doc).modifies path prior .null opts
  write path .null
  if modifies then change (·.markModified path)
  change (·.markValid path)

def markNested (path : Path) (prior : Option Value) (opts : SetOptions) : Edit Unit := do
  let d ← doc
  let changed := ¬ Value.equalOpt prior (d.get? path)
  if ¬ opts.silent ∧ (changed ∨ d.isNewAt path) then change (·.markModified path)
  change (·.markValid path)

mutual

-- Sets a path to a value. An object given to a group of fields, or to the root, sets the fields one
-- by one; those of a group are not marked by themselves.
def setPath : Value → Path → SetOptions → Edit Unit
  | v, [], opts =>
    match v with
    | .obj fields => setKeys fields [] opts
    | _ => throw (.path (.wrongShape [] .object))
  | v, seg :: segs, opts => do
    let path := seg :: segs
    let d ← doc
    match d.missingArray? path with
    | some parent => throw (.path (.wrongShape parent .array))
    | none =>
      match d.resolve path with
      | .field field => setField path field v opts
      | .inMixed => setRaw path v opts
      | .undeclared => setUndeclared path v opts
      | .nested =>
        let prior := d.get? path
        match v with
        | .obj fields =>
          detach path
          write path (.obj [])
          setKeys fields path { opts with silent := true }
          markNested path prior opts
        | .null => setNestedNull path prior opts
        | v => change (·.recordCast path { path, target := .object, value := v })

def setKeys : List (String × Value) → Path → SetOptions → Edit Unit
  | [], _, _ => return ()
  | (k, v) :: rest, path, opts => do
    setPath v (path ++ [.key k]) opts
    setKeys rest path opts

end

-- How often the writes that setters ask for may ask for further ones.
def maxRounds : Nat := 32

def setEach (opts : SetOptions) : List (Path × Value) → Edit Unit
  | [] => return ()
  | (p, v) :: rest => do
    setPath v p opts
    setEach opts rest

-- Does the writes that setters have asked for, round by round, and drops those that are left when
-- the rounds are used up.
def settle (opts : SetOptions) : Nat → Edit Unit
  | 0 => clearQueue
  | n + 1 => do
    match ← takeQueue with
    | [] => return ()
    | queue =>
      setEach opts queue
      settle opts n

def set (path : Path) (v : Value) (opts : SetOptions := {}) : Edit Unit := do
  change (·.openChanges)
  clearQueue
  setPath v path opts
  settle opts maxRounds

def markModified (path : Path) : Edit Unit := do
  change (·.openChanges)
  change (·.markModified path)

end Edit
end Dossier

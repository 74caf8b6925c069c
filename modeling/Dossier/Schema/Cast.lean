import Dossier.Date.Instant
import Dossier.Identifier
import Dossier.Schema.Basic

-- A cast follows the schema down into the parts of a value, runs the setters of the fields that it
-- meets in embedded documents and fills in their defaults. One that fails keeps what its setters
-- have left behind until then.

namespace Dossier

structure CastContext where
  -- Where the value is to be stored.
  path   : Path
  -- The root of the document or embedded document that owns the path.
  root   : Path
  -- The value that is stored at the path.
  prior  : Option Value := none
  isInit : Bool := false
  -- Takes the place of the strict modes of schemas.
  strict : Option StrictMode := none

namespace CastContext

def child (ctx : CastContext) (seg : Seg) : CastContext :=
  { ctx with path := ctx.path ++ [seg], prior := none }

end CastContext

inductive CastFailure where
  -- Is recorded for the path.
  | cast (e : CastError)
  -- Is returned to the caller.
  | strict (e : StrictError)

structure Effects where
  -- Writes that setters have asked for, in order.
  queue : List (Path × Value) := []
  notes : List Note := []
  ids   : IdSupply := .counter

abbrev Cast := ExceptT CastFailure (StateM Effects)

namespace Cast

def fail (path : Path) (target : CastTarget) (value : Value)
    (reason : Option CastReason := none) : Cast α :=
  throw (.cast { path, target, value, reason })

-- Single values

def string (ctx : CastContext) : Value → Cast Value
  | .str s => pure (.str s)
  | .num n => pure (.str n.text)
  | .bool b => pure (.str (if b then "true" else "false"))
  | v => fail ctx.path (.type .string) v

-- A blank string is null; any other has to write a number that loses nothing by being read.
def number (ctx : CastContext) : Value → Cast Value
  | .num n => pure (.num n)
  | .bool b => pure (.int (if b then 1 else 0))
  | .str s =>
    let cs := trimChars s.toList
    if cs.isEmpty then pure .null
    else
      match (Numeral.ofChars? cs).bind Number.lossless? with
      | some n => pure (.num n)
      | none => fail ctx.path (.type .number) (.str s) (some .inexactNumber)
  | v => fail ctx.path (.type .number) v

def truth? : Value → Option Bool
  | .bool b => some b
  | .num n =>
    if n.toDouble.same (.ofInt 1) then some true
    else if n.toDouble.same (.ofInt 0) then some false
    else none
  | .str s =>
    if s = "true" ∨ s = "1" ∨ s = "yes" then some true
    else if s = "false" ∨ s = "0" ∨ s = "no" then some false
    else none
  | _ => none

def boolean (ctx : CastContext) (v : Value) : Cast Value :=
  match truth? v with
  | some b => pure (.bool b)
  | none => fail ctx.path (.type .boolean) v

def instant? : Value → Option Instant
  | .str s => Instant.parse? s
  | .num n => n.toSigned?.bind Instant.ofMillis?
  | _ => none

def date (ctx : CastContext) (v : Value) : Cast Value :=
  match instant? v with
  | some i => pure (.str i.text)
  | none => fail ctx.path (.type .date) v

-- An identifier, or a record that stands in for its own.
def id (ctx : CastContext) (v : Value) : Cast Value :=
  match v with
  | .str _ | .num _ => pure v
  | .obj fields =>
    if Entries.contains Value.idKey fields then pure v else fail ctx.path (.type .id) v
  | _ => fail ctx.path (.type .id) v

-- Parts of values

-- The failure of an item is one of the whole array.
def wrapItem (ctx : CastContext) (whole : Value) (act : Cast α) : Cast α :=
  tryCatch act fun
    | .cast e => fail ctx.path (.type .array) whole (some (.item e.message))
    | .strict e => throw (.strict e)

def items (cast : CastContext → Value → Cast Value) (ctx : CastContext) (whole : Value) :
    Nat → List Value → Cast (List Value)
  | _, [] => pure []
  | i, v :: vs => do
    let v ← wrapItem ctx whole (cast (ctx.child (.index i)) v)
    return v :: (← items cast ctx whole (i + 1) vs)

-- The items of an array. Any other value counts as its only item.
def array (cast : CastContext → Value → Cast Value) (ctx : CastContext) (v : Value) : Cast Value :=
  match v with
  | .arr vs => return .arr (← items cast ctx v 0 vs)
  | _ => return .arr (← items cast ctx v 0 [v])

def entries (cast : CastContext → Value → Cast Value) (ctx : CastContext) :
    List (String × Value) → Cast (List (String × Value))
  | [] => pure []
  | (k, v) :: rest => do
    let v ← cast (ctx.child (.key k)) v
    return (k, v) :: (← entries cast ctx rest)

def map (cast : CastContext → Value → Cast Value) (ctx : CastContext) (v : Value) : Cast Value :=
  match v with
  | .obj fields => return .obj (← entries cast ctx fields)
  | _ => fail ctx.path (.type .map) v

-- Fields

def setters (rules : Rules) (ctx : CastContext) (v : Value) : Cast Value :=
  rules.setters.reverse.foldlM (fun v setter => do
    let r := setter { path := ctx.path, prior := ctx.prior, isInit := ctx.isInit } v
    modify fun e => { e with
      queue := e.queue ++ r.siblings.map fun (p, v) => (ctx.root ++ p, v)
      notes := e.notes ++ r.notes }
    return r.value) v

def freshId : Cast Value :=
  modifyGet fun e => (e.ids.fresh.1, { e with ids := e.ids.fresh.2 })

def rawDefault (field : Field) (view : View) (ctx : CastContext) : Cast (Option Value) :=
  match field.rules.default with
  | none => pure none
  | some (.literal v) => pure (some v)
  | some .freshId => some <$> freshId
  | some (.generate f) =>
    match f view with
    | .ok v => pure (some v)
    | .error message => fail ctx.path (.type field.tag) .null (some (.defaultFailed message))

structure Caster where
  path  : Path
  field : Field
  cast  : CastContext → Value → Cast Value

namespace Caster

def accept (c : Caster) (ctx : CastContext) (v : Value) : Cast Value := do
  c.cast ctx (← setters c.field.rules ctx v)

def default? (c : Caster) (view : View) (ctx : CastContext) : Cast (Option Value) := do
  match ← rawDefault c.field view ctx with
  | some v => some <$> c.accept ctx v
  | none => return none

end Caster

-- Embedded documents

def writePart (out : Value) (rel : Path) (v : Value) (path : Path) (target : CastTarget) :
    Cast Value :=
  match out.set rel v with
  | (.ok (), out) => pure out
  | (.error e, _) => fail path target .null (some (.unwritable e))

-- Casts the fields of an embedded document, those below `place` of it, into `out`.
def keys (casters : List Caster) (strict : StrictMode) (ctx : CastContext) :
    List (String × Value) → Path → Value → Cast Value
  | [], _, out => pure out
  | (k, v) :: rest, place, out => do
    let rel := place.key k
    let child := { ctx with path := ctx.path ++ rel, prior := none }
    let out ←
      match casters.find? (·.path = rel) with
      | some c => do writePart out rel (← c.accept child v) child.path .object
      | none =>
        if casters.any fun c => rel.isAbove c.path then
          match v with
          | .obj inner => keys casters strict ctx inner rel out
          | .null => writePart out rel .null child.path .object
          | v => fail child.path .object v
        else
          match ctx.strict.getD strict with
          | .keep => writePart out rel v child.path .object
          | .drop => pure out
          | .refuse => throw (.strict { path := child.path, violation := .undeclared })
    keys casters strict ctx rest place out

def defaults (ctx : CastContext) : List Caster → Value → Cast Value
  | [], out => pure out
  | c :: cs, out => do
    if ¬ c.field.rules.hasDefault ∨ (out.get? c.path).isSome ∨ out.blocks c.path then
      defaults ctx cs out
    else
      let child := { ctx with path := ctx.path ++ c.path, root := ctx.path, prior := none }
      match ← c.default? { value := out, isNew := true } child with
      | some v =>
        let out ← writePart out c.path v child.path (.type c.field.tag)
        defaults ctx cs out
      | none => defaults ctx cs out

def document (casters : List Caster) (strict : StrictMode) (ctx : CastContext)
    (fields : List (String × Value)) : Cast Value := do
  let out ← keys casters strict ctx fields Path.root (.obj [])
  defaults ctx casters out

end Cast

-- Keeps the name of the variant that an embedded document was cast to.
def Value.keepName (key : String) (input out : Value) : Value :=
  match input.field? key, out with
  | some (.str name), .obj fields => .obj (Entries.insert key (.str name) fields)
  | _, _ => out

mutual

def FieldType.cast : FieldType → CastContext → Value → Cast Value
  | .string, ctx, v => Cast.string ctx v
  | .number, ctx, v => Cast.number ctx v
  | .boolean, ctx, v => Cast.boolean ctx v
  | .date, ctx, v => Cast.date ctx v
  | .id _, ctx, v => Cast.id ctx v
  | .mixed, _, v => pure v
  | .array el, ctx, v => Cast.array (fun ctx v => el.cast ctx v) ctx v
  | .map el, ctx, v => Cast.map (fun ctx v => el.cast ctx v) ctx v
  | .embedded sub, ctx, v => sub.cast ctx v
  | .documentArray sub, ctx, v =>
    Cast.array (fun ctx v => if v.isNull then pure .null else sub.cast ctx v) ctx v

-- The cast of a value to a field. Null passes wherever it is allowed.
def Field.cast : Field → CastContext → Value → Cast Value
  | ⟨type, rules⟩, ctx, v =>
    if v.isNull then
      if rules.nullable then pure .null
      else Cast.fail ctx.path (.type type.tag) v (some .nullNotAllowed)
    else type.cast ctx v

def SubSchema.cast : SubSchema → CastContext → Value → Cast Value
  | ⟨base, variants⟩, ctx, v =>
    let sub : SubSchema := ⟨base, variants⟩
    match v with
    | .obj fields =>
      match sub.variant? (some v) with
      | .error reason => Cast.fail ctx.path (.type .embedded) v (some reason)
      | .ok name => do
        let ctx := { ctx with root := ctx.path, prior := none }
        let out ← match name with
          | none => base.cast ctx fields
          | some name => Schema.castVariant variants name ctx fields
        return v.keepName sub.discriminatorKey out
    | _ => Cast.fail ctx.path (.type .embedded) v

-- The name is always one of the variants.
def Schema.castVariant : List (String × Schema) → String → CastContext → List (String × Value) →
    Cast Value
  | [], name, ctx, fields =>
    Cast.fail ctx.path (.type .embedded) (.obj fields) (some (.unknownVariant name ""))
  | (k, schema) :: rest, name, ctx, fields =>
    if compare name k = .eq then schema.cast ctx fields
    else Schema.castVariant rest name ctx fields

def Schema.cast : Schema → CastContext → List (String × Value) → Cast Value
  | ⟨options, declared, _⟩, ctx, fields =>
    Cast.document (Schema.casters declared) options.strict ctx fields

def Schema.casters : List (Path × Field) → List Cast.Caster
  | [] => []
  | (path, field) :: rest =>
    { path, field, cast := fun ctx v => field.cast ctx v } :: Schema.casters rest

end

namespace Field

def caster (f : Field) (path : Path) : Cast.Caster :=
  { path, field := f, cast := f.cast }

-- The value that is stored for a value given to the field: setters first, then the cast.
def accept (f : Field) (ctx : CastContext) (v : Value) : Cast Value :=
  (f.caster ctx.path).accept ctx v

def default? (f : Field) (view : View) (ctx : CastContext) : Cast (Option Value) :=
  (f.caster ctx.path).default? view ctx

end Field
end Dossier

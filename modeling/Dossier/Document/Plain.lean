import Dossier.Document.Basic

-- How a document is shown to the outside: its value, with getters, virtual fields and the like
-- applied on demand.

namespace Dossier

structure PlainOptions where
  getters    : Bool := false
  virtuals   : Bool := false
  minimize   : Bool := false
  depopulate : Bool := false
  transform  : Option (Value → Value) := none

namespace Document

def views (d : Document) : List (Path × Schema × View) :=
  let inner := d.scopes.toList.filterMap fun (_, scope) =>
    (d.get? scope.root).map fun value =>
      (scope.root, scope.schema, { value, isNew := scope.isNew })
  (Path.root, d.schema, d.topView) :: inner

def showField (root : Path) (view : View) (out : Value) (path : Path) (field : Field) : Value :=
  if field.rules.getters.isEmpty then out
  else
    match out.get? (root ++ path) with
    | some v => out.written (root ++ path) (field.rules.applyGetters view v)
    | none => out

def withGetters (d : Document) (out : Value) : Value :=
  d.views.foldl (fun out (root, schema, view) =>
    schema.fields.foldl (fun out (path, field) => showField root view out path field) out) out

def withVirtuals (d : Document) (out : Value) : Value :=
  d.views.foldl (fun out (root, schema, view) =>
    schema.virtuals.foldl (fun out (name, f) =>
      out.written (root ++ Path.parse name) (f view)) out) out

def withIds (d : Document) (out : Value) : Value :=
  d.populated.entries.foldl (fun out (path, id) => out.written path id) out

def toPlain (d : Document) (opts : PlainOptions := {}) : Value :=
  let out := d.value
  let out := if opts.getters then d.withGetters out else out
  let out := if opts.virtuals then d.withVirtuals out else out
  let out := if opts.depopulate then d.withIds out else out
  let out := if opts.minimize then out.minimize else out
  match opts.transform with
  | some f => f out
  | none => out

end Document
end Dossier

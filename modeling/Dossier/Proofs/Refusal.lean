import Dossier.Proofs.History
import Dossier.Proofs.Mark
import Dossier.Proofs.Setters

-- A write that is refused before anything is done leaves a document as it was, apart from what is kept for
-- undoing.

namespace Dossier

open Value

namespace Document

variable {d : Document} {p : Path} {v : Value}

-- Nothing differs but what is kept for undoing.
def Intact (d d' : Document) : Prop :=
  d' = { d with backup := d'.backup, snapshot := d'.snapshot }

namespace Intact

theorem refl (d : Document) : d.Intact d := rfl

theorem trans (h : d.Intact d') (h' : d'.Intact d'') : d.Intact d'' := by
  rw [Intact, h', h]

theorem changeset (h : d.Intact d') : d'.changeset = d.changeset := by
  rw [h]
  rfl

end Intact

theorem intact_openChanges (d : Document) : d.Intact d.openChanges := by
  rw [openChanges_eq]
  rfl

def Writable (d : Document) (p : Path) : Prop :=
  (d.value.set p .null).1 = .ok ()

theorem Writable.ok (h : d.Writable p) (v : Value) : (d.value.set p v).1 = .ok () :=
  setFrom_ok_iff.mp h

theorem intact_write (h : d.write p v = (.error e, d')) : ¬ d.Writable p ∧ d.Intact d' := by
  rw [write_eq] at h
  obtain ⟨he, rfl⟩ := Prod.mk.inj h
  have hvalue : (d.value.set p v).2 = d.value := (setFrom_of_error he).1
  refine ⟨fun hw => ?_, by rw [hvalue]; rfl⟩
  rw [hw.ok v] at he
  cases he

end Document

namespace Edit

open Document

variable {s' : Desk} {p : Path} {v : Value} {opts : SetOptions} {e : DocumentError}

-- Refused assignments

-- What was there is as it was, or a value that has parts could not be written and they are forgotten.
def Spared (d : Document) (p : Path) (d' : Document) : Prop :=
  d.Intact d' ∨ ¬ d.Writable p ∧ (d.detached p).Intact d'

theorem spared_storeField (h : (storeField p f prior v opts).outcome s = (.error e, s')) : Spared s.doc p s'.doc := by
  rw [outcome_storeField] at h
  dsimp only at h
  split at h
  · split at h
    · cases h
      exact .inl (.refl _)
    · cases h
  split at h
  · cases h
  split at h
  · cases h
  · case _ hd =>
    cases h
    split at hd
    · exact .inr (intact_write hd)
    · exact .inl (intact_write hd).2

theorem spared_setField (h : (setField p f v opts).outcome s = (.error e, s')) : Spared s.doc p s'.doc := by
  rw [outcome_setField] at h
  split at h
  · cases h
  · cases h
    exact .inl (.refl _)
  · case _ w effects _ => exact spared_storeField (s := ⟨s.doc, effects⟩) h

theorem intact_setRaw (h : (setRaw p v opts).outcome s = (.error e, s')) : s.doc.Intact s'.doc := by
  rw [outcome_setRaw] at h
  split at h
  · cases h
  · case _ hd =>
    cases h
    exact (intact_write hd).2

theorem spared_setPath (hp : p ≠ []) (hr : s.doc.resolve p ≠ .nested)
    (h : (setPath v p opts).outcome s = (.error e, s')) : Spared s.doc p s'.doc := by
  rw [outcome_setPath hp] at h
  split at h
  · cases h
    exact .inl (.refl _)
  split at h
  · exact spared_setField h
  · exact .inl (intact_setRaw h)
  · rw [outcome_setUndeclared] at h
    split at h
    · exact .inl (intact_setRaw h)
    · cases h
    · cases h
      exact .inl (.refl _)
  · case _ hn => exact absurd hn hr

-- Of the keys of an object some were set before one was refused.
def Stopped (fields : List (String × Value)) (p : Path) (opts : SetOptions) (s : Desk) (e : DocumentError)
    (s' : Desk) : Prop :=
  ∃ before k v after s₁, fields = before ++ (k, v) :: after ∧ (setKeys before p opts).outcome s = (.ok (), s₁) ∧
    (setPath v (p ++ [.key k]) opts).outcome s₁ = (.error e, s')

theorem stopped_setKeys (h : (setKeys fields p opts).outcome s = (.error e, s')) : Stopped fields p opts s e s' := by
  induction fields generalizing s with
  | nil => cases h
  | cons a fields ih =>
    obtain ⟨k, v⟩ := a
    rw [setKeys, outcome_bind] at h
    cases hr : (setPath v (p ++ [.key k]) opts).outcome s with
    | mk r s₁ =>
      rw [hr] at h
      cases r with
      | error =>
        cases h
        exact ⟨[], k, v, fields, s, rfl, by rw [setKeys, outcome_pure], hr⟩
      | ok =>
        obtain ⟨before, k', v', after, s₂, rfl, hbefore, hstop⟩ := ih h
        refine ⟨(k, v) :: before, k', v', after, s₂, rfl, ?_, hstop⟩
        rw [setKeys, outcome_bind, hr]
        exact hbefore

-- A group that was emptied.
def emptied (p : Path) (s : Desk) : Desk :=
  { s with doc := ((s.doc.detached p).write p (.obj [])).2 }

theorem stopped_setGroup (h : (setGroup p prior opts (.obj fields)).outcome s = (.error e, s')) :
    ¬ s.doc.Writable p ∧ (s.doc.detached p).Intact s'.doc ∨
      s.doc.Writable p ∧ Stopped fields p { opts with silent := true } (emptied p s) e s' := by
  rw [outcome_setGroup_obj] at h
  split at h
  · case _ d hd =>
    have hw : s.doc.Writable p := by
      refine setFrom_ok_iff.mp (?_ : (s.doc.value.set p (.obj [])).1 = .ok ())
      rw [write_eq] at hd
      exact congrArg Prod.fst hd
    refine .inr ⟨hw, stopped_setKeys ?_⟩
    rw [emptied, hd]
    rw [outcome_bind] at h
    generalize (setKeys fields p { opts with silent := true }).outcome { s with doc := d } = r at h ⊢
    rcases r with ⟨_ | _, s₁⟩
    · exact h
    · dsimp only at h
      rw [outcome_markNested] at h
      cases h
  · case _ hd =>
    cases h
    exact .inl (intact_write hd)

theorem spared_setNestedNull (h : (setNestedNull p prior opts).outcome s = (.error e, s')) :
    ¬ s.doc.Writable p ∧ (s.doc.detached p).Intact s'.doc := by
  rw [outcome_setNestedNull] at h
  split at h
  · cases h
  · case _ hd =>
    cases h
    exact intact_write hd

-- What the refused assignment of a value to a path leaves.
inductive Left (p : Path) (v : Value) (opts : SetOptions) (s : Desk) (e : DocumentError) (s' : Desk) : Prop
  -- Everything.
  | intact : s.doc.Intact s'.doc → Left p v opts s e s'
  -- What is known of the parts of a value is forgotten, since one with parts was to be written and could not be.
  | forgotten : ¬ s.doc.Writable p → (s.doc.detached p).Intact s'.doc → Left p v opts s e s'
  -- The keys of the root before the refused one are set.
  | root {fields} : p = [] → v = .obj fields → Stopped fields [] opts s e s' → Left p v opts s e s'
  -- The group has lost its fields, and those before the refused one are set.
  | group {fields} : s.doc.resolve p = .nested → v = .obj fields → s.doc.Writable p →
      Stopped fields p { opts with silent := true } (emptied p s) e s' → Left p v opts s e s'

theorem left_setPath (h : (setPath v p opts).outcome s = (.error e, s')) : Left p v opts s e s' := by
  by_cases hp : p = []
  · subst hp
    cases v with
    | obj fields => exact .root rfl rfl (stopped_setKeys (by rwa [setPath] at h))
    | null | bool | num | str | arr =>
      simp only [setPath] at h
      cases h
      exact .intact (.refl _)
  by_cases hr : s.doc.resolve p = .nested
  · rw [outcome_setPath hp] at h
    split at h
    · cases h
      exact .intact (.refl _)
    · rw [hr] at h
      cases v with
      | obj fields =>
        rcases stopped_setGroup h with ⟨hw, hd⟩ | ⟨hw, hstop⟩
        · exact .forgotten hw hd
        · exact .group hr rfl hw hstop
      | null =>
        obtain ⟨hw, hd⟩ := spared_setNestedNull h
        exact .forgotten hw hd
      | bool | num | str | arr => cases h
  · rcases spared_setPath hp hr h with hd | ⟨hw, hd⟩
    · exact .intact hd
    · exact .forgotten hw hd

-- Refused calls

-- A write that a setter has asked for is refused, when what it was asked for by is done.
def Late (opts : SetOptions) (s : Desk) (e : DocumentError) (s' : Desk) : Prop :=
  s.effects.queue ≠ [] ∧ (settle opts maxRounds).outcome s = (.error e, s')

theorem late_of_settle (h : (settle opts maxRounds).outcome s = (.error e, s')) : Late opts s e s' := by
  refine ⟨fun hq => ?_, h⟩
  rw [outcome_settle hq] at h
  cases h

-- A call begins with open changes, and nothing is asked for.
def opened (s : Desk) : Desk :=
  ⟨s.doc.openChanges, { s.effects with queue := [] }⟩

theorem left_set (h : (Edit.set p v opts).outcome s = (.error e, s')) : Left p v opts (opened s) e s' ∨
      (setPath v p opts).outcome (opened s) = (.ok (), begun p v opts s) ∧ Late opts (begun p v opts s) e s' := by
  rw [outcome_set] at h
  split at h
  · case _ s₁ hs =>
    have hs : (setPath v p opts).outcome (opened s) = (.ok (), s₁) := hs
    have hb : begun p v opts s = s₁ := congrArg Prod.snd hs
    rw [hb]
    exact .inr ⟨hs, late_of_settle h⟩
  · case _ hs =>
    cases h
    exact .inl (left_setPath hs)

-- An append was made before a write that a setter has asked for was refused.
def LatePush (p : Path) (vs : List Value) (s : Desk) (e : DocumentError) (s' : Desk) : Prop :=
  ∃ f el items pushed s₁, s.doc.arrayField? p = some f ∧ f.element? = some el ∧
    Value.items? (s.doc.get? p) = some items ∧
    (castItems p (s.doc.openChanges.rootAt p) el items.length vs).outcome (opened s) = (.ok (some pushed), s₁) ∧
    (s.doc.openChanges.write p (.arr (items ++ pushed))).1 = .ok () ∧
    Late {} { s₁ with
      doc := (s.doc.openChanges.write p (.arr (items ++ pushed))).2.appended p f items.length pushed } e s'

theorem intact_push (h : (push p vs).outcome s = (.error e, s')) : s.doc.Intact s'.doc ∨ LatePush p vs s e s' := by
  rw [outcome_push] at h
  split at h
  · case _ f el items hf hel hitems =>
    have hdoc : ∀ r, (castItems p (s.doc.openChanges.rootAt p) el items.length vs).outcome (opened s) = r →
        r.1 = .ok none ∨ r.2.doc = s.doc.openChanges := by
      rintro _ rfl
      exact (castItems_spec fun _ _ _ => el.cast_appends _ _).2.2.1
    generalize hr : (castItems _ _ _ _ vs).outcome _ = r at h
    have hdoc := hdoc r hr
    rcases r with ⟨_ | (_ | _ | ⟨x, xs⟩), s₁⟩
    · have hsame : s₁.doc = s.doc.openChanges := hdoc.resolve_left (by simp)
      cases h
      exact .inl (hsame ▸ intact_openChanges s.doc)
    · cases h
    · cases h
    · have hsame : s₁.doc = s.doc.openChanges := hdoc.resolve_left (by simp)
      dsimp only at h
      rw [hsame] at h
      split at h
      · case _ hd =>
        cases h
        exact .inl ((intact_openChanges s.doc).trans (intact_write hd).2)
      · case _ d hd =>
        rw [hf] at hel
        refine .inr ⟨f, el, items, x :: xs, s₁, hf, hel, hitems, hr, by rw [hd], ?_⟩
        rw [hd]
        exact late_of_settle h
  · cases h
    exact .inl (.refl _)
  · cases h
    exact .inl (.refl _)

-- Without setters

theorem guided_calm :
    Guided (fun _ => True) (fun _ => False) (fun _ => False) fun d => d.schema.Meets .noSetters where
  stable := {
    opened := fun h => by rw [openChanges_eq]; exact h
    written := fun _ h => by rw [write_eq]; exact h
    detached := fun _ h => h
    attached := fun _ h => h
    extended := fun _ h => h
    noted := fun _ h => h
    marked := fun _ h => h
    reported := fun h => h }
  key _ _ _ := trivial
  schema _ h := fun part hpart => SchemaLaw.siblings_of_noSetters (h part hpart)
  leads _ _ _ _ _ := ⟨fun _ => False.elim, fun _ _ => False.elim⟩
  asked _ := False.elim

theorem queue_begun (h : s.doc.schema.Meets .noSetters) : (begun p v opts s).effects.queue = [] := by
  have hruns := guided_calm.course.setPath v p opts (opened s) (fun _ => trivial) (fun _ => trivial)
    ⟨guided_calm.stable.opened h, by simp [opened]⟩
  exact List.eq_nil_iff_forall_not_mem.mpr hruns.2

theorem not_latePush (h : s.doc.schema.Meets .noSetters) : ¬ LatePush p vs s e s' := by
  rintro ⟨f, el, items, pushed, s₁, hf, hel, -, hcast, -, hlate, -⟩
  have hresolve := (arrayField?_eq_some_iff.mp hf).1
  have hel : el.Meets .noSetters := (resolve_meets h rfl hresolve).element rfl hel
  obtain ⟨⟨asked, hq, ha⟩, -⟩ := castItems_spec (n := items.length) (s := opened s) fun i v (_ : v ∈ vs) =>
    Cast.gives_iff.mp (Field.cast_quiet hel { path := p.index i, root := s.doc.openChanges.rootAt p } v)
  rw [hcast, List.eq_nil_iff_forall_not_mem.mpr ha] at hq
  exact hlate hq

end Edit

namespace Document

variable {d d' : Document} {p : Path} {v : Value} {opts : SetOptions} {effects : Effects} {k : String}

theorem missingArray?_congr (hs : d'.schema = d.schema) (hv : d'.value = d.value) :
    d'.missingArray? p = d.missingArray? p := by
  simp only [missingArray?, get?, resolve, hs, hv]

def cleared (d : Document) (p : Path) : Document :=
  { d with value := (d.value.set p (.obj [])).2 }

theorem emptied_opened (d : Document) (effects : Effects) (p : Path) :
    (Edit.emptied p (Edit.opened ⟨d, effects⟩)).doc.schema = d.schema ∧
      (Edit.emptied p (Edit.opened ⟨d, effects⟩)).doc.value = (d.cleared p).value := by
  rw [Edit.emptied, Edit.opened, openChanges_eq, write_eq]
  exact ⟨rfl, rfl⟩

theorem write_emptied (hw : d.Writable p) (effects : Effects) : (d.openChanges.detached p).write p (.obj []) =
    (.ok (), (Edit.emptied p (Edit.opened ⟨d, effects⟩)).doc) := by
  have hok := hw.ok (.obj [])
  rw [Edit.emptied, Edit.opened, openChanges_eq, write_eq]
  exact congrArg (·, _) hok

theorem setPath_undeclared (hp : p ≠ []) (hm : s.doc.missingArray? p = none) (hr : s.doc.resolve p = .undeclared)
    (hs : opts.strict = some .refuse) :
    (Edit.setPath v p opts).outcome s = (.error (.strict { path := p, violation := .undeclared }), s) := by
  rw [Edit.outcome_setPath hp, hm, hr]
  dsimp only
  rw [Edit.outcome_setUndeclared, strictAt, hs]

theorem set_group_refused (hr : d.resolve p = .nested) (hm : d.missingArray? p = none) (hw : d.Writable p)
    (hm' : (d.cleared p).missingArray? (p.key k) = none) (hr' : (d.cleared p).resolve (p.key k) = .undeclared)
    (hs : opts.strict = some .refuse) : ∃ s', (Edit.set p (.obj [(k, v)]) opts).outcome ⟨d, effects⟩ =
      (.error (.strict { path := p.key k, violation := .undeclared }), s') ∧ s'.doc.get? p = some (.obj []) := by
  have hp : p ≠ [] := by
    rintro rfl
    cases hr
  let s := Edit.emptied p (Edit.opened ⟨d, effects⟩)
  obtain ⟨hschema, hvalue⟩ := emptied_opened d effects p
  have hkey : (Edit.setPath v (p ++ [.key k]) { opts with silent := true }).outcome s =
      (.error (.strict { path := p.key k, violation := .undeclared }), s) := by
    refine setPath_undeclared (by simp) ((missingArray?_congr (d := d.cleared p) hschema hvalue).trans hm') ?_ hs
    rw [resolve, hschema, hvalue]
    exact hr'
  have hgroup : (Edit.setGroup p (d.get? p) opts (.obj [(k, v)])).outcome (Edit.opened ⟨d, effects⟩) =
      (.error (.strict { path := p.key k, violation := .undeclared }), s) := by
    have hs : { Edit.opened ⟨d, effects⟩ with doc := s.doc } = s := rfl
    rw [Edit.outcome_setGroup_obj, Edit.opened, write_emptied hw effects]
    dsimp only
    rw [Edit.opened] at hs
    rw [hs, Edit.outcome_bind, Edit.setKeys, Edit.outcome_bind, hkey]
  have hpath : (Edit.setPath (.obj [(k, v)]) p opts).outcome (Edit.opened ⟨d, effects⟩) =
      (.error (.strict { path := p.key k, violation := .undeclared }), s) := by
    rw [Edit.outcome_setPath hp, Edit.opened, missingArray?_openChanges, hm, resolve_openChanges, hr,
      get?_openChanges]
    exact hgroup
  refine ⟨s, ?_, ?_⟩
  · rw [Edit.opened] at hpath
    rw [Edit.outcome_set, hpath]
  · rw [Document.get?, hvalue]
    exact get?_setFrom_self (hw.ok _)

theorem writable_openChanges : d.openChanges.Writable p ↔ d.Writable p := by
  rw [openChanges_eq]
  rfl

-- A refused assignment to a path that can be written, other than the root and a group of fields, and a refused
-- append leave the document as it was, unless it was a setter whose write was refused. Of an object that is
-- assigned to the root or to a group the keys before the refused one stay set, and the group loses all others.
theorem refused_write_leaves (d : Document) (effects : Effects) (e : DocumentError) (s' : Desk) :
    (∀ p v opts, (Edit.set p v opts).outcome ⟨d, effects⟩ = (.error e, s') →
      (p ≠ [] → d.resolve p ≠ .nested → d.Writable p →
        d.schema.Meets .noSetters ∨ (Edit.begun p v opts ⟨d, effects⟩).effects.queue = [] →
        d.Intact s'.doc ∧ s'.doc.changeset = d.changeset) ∧
      (Edit.Left p v opts (Edit.opened ⟨d, effects⟩) e s' ∨
        (Edit.setPath v p opts).outcome (Edit.opened ⟨d, effects⟩) = (.ok (), Edit.begun p v opts ⟨d, effects⟩) ∧
          Edit.Late opts (Edit.begun p v opts ⟨d, effects⟩) e s')) ∧
    (∀ p vs, (Edit.push p vs).outcome ⟨d, effects⟩ = (.error e, s') →
      d.Intact s'.doc ∧ s'.doc.changeset = d.changeset ∨
        ¬ d.schema.Meets .noSetters ∧ Edit.LatePush p vs ⟨d, effects⟩ e s') ∧
    (∀ p k v opts, d.resolve p = .nested → d.missingArray? p = none → d.Writable p →
      (d.cleared p).missingArray? (p.key k) = none → (d.cleared p).resolve (p.key k) = .undeclared →
      opts.strict = some .refuse →
      ∃ s₁, (Edit.set p (.obj [(k, v)]) opts).outcome ⟨d, effects⟩ =
        (.error (.strict { path := p.key k, violation := .undeclared }), s₁) ∧ s₁.doc.get? p = some (.obj [])) := by
  refine ⟨fun p v opts h => ?_, fun p vs h => ?_, fun p k v opts hr hm hw hm' hr' hs => ?_⟩
  · have hleft := Edit.left_set h
    refine ⟨fun hp hr hw hq => ?_, hleft⟩
    rcases hleft with hleft | ⟨-, hlate, -⟩
    · have hintact : d.Intact s'.doc := by
        cases hleft with
        | intact hd => exact (intact_openChanges d).trans hd
        | forgotten hno => exact absurd (writable_openChanges.mpr hw) hno
        | root hnil => exact absurd hnil hp
        | group hn => exact absurd (resolve_openChanges.symm.trans hn) hr
      exact ⟨hintact, hintact.changeset⟩
    · exact absurd (hq.elim (fun hc => Edit.queue_begun hc) id) hlate
  · rcases Edit.intact_push h with hintact | hlate
    · exact .inl ⟨hintact, hintact.changeset⟩
    · exact .inr ⟨fun hc => Edit.not_latePush hc hlate, hlate⟩
  · exact set_group_refused hr hm hw hm' hr' hs

-- Sheets that take nothing which is not declared.
def sheets : Schema :=
  ⟨{ id := false, strict := .refuse }, [([.key "title"], .plain .string),
    ([.key "rows"], .plain (.array (.plain (.array (.plain .string))))),
    ([.key "page", .key "width"], .plain .string), ([.key "page", .key "height"], .plain .string)], []⟩

def sheet : Value :=
  .obj [("page", .obj [("height", .str "2"), ("width", .str "1")]), ("rows", .arr [.arr [.str "a"]])]

-- The title has been set. What is not declared is refused, and so is an item for a row that cannot be there yet.
theorem refused_write_leaves_sheet : ∃ start, (load sheets sheet none).1 = .ok start ∧
    let d := (Call.run (.set [.key "title"] (.str "t") {}) ⟨start, {}⟩).doc
    d.changeset.changes ≠ [] ∧
    (∃ e s', (Edit.set [.key "note"] (.str "n")).outcome ⟨d, {}⟩ = (.error e, s') ∧
      d.Intact s'.doc ∧ s'.doc.changeset = d.changeset) ∧
    ∃ e s', (Edit.push [.key "rows", .index 3] [.str "b"]).outcome ⟨d, {}⟩ = (.error e, s') ∧
      d.Intact s'.doc ∧ s'.doc.changeset = d.changeset := by
  have hload : (load sheets sheet none).1 = .ok _ := rfl
  refine ⟨_, hload, by decide +kernel, ⟨_, _, rfl, ?_⟩, _, _, rfl, ?_⟩
  · obtain ⟨hset, -⟩ := refused_write_leaves _ _ _ _
    exact (hset [.key "note"] (.str "n") {} rfl).1 (by simp) (fun h => by cases h) rfl (.inl (by decide +kernel))
  · obtain ⟨-, hpush, -⟩ := refused_write_leaves _ _ _ _
    exact (hpush [.key "rows", .index 3] [.str "b"] rfl).resolve_right fun hlate => hlate.1 (by decide +kernel)

-- The width has been set. Something else of the page is refused; then width and height are gone, and no change
-- is left to be stored.
theorem refused_group_loses_fields : ∃ start, (load sheets sheet none).1 = .ok start ∧
    let d := (Call.run (.set [.key "page", .key "width"] (.str "3") {}) ⟨start, {}⟩).doc
    d.get? [.key "page"] = some (.obj [("height", .str "2"), ("width", .str "3")]) ∧ d.changeset.changes ≠ [] ∧
    ∃ s', (Edit.set [.key "page"] (.obj [("depth", .int 1)])).outcome ⟨d, {}⟩ =
      (.error (.strict { path := [.key "page", .key "depth"], violation := .undeclared }), s') ∧
      s'.doc.get? [.key "page"] = some (.obj []) ∧ s'.doc.changeset.changes = [] :=
  ⟨_, rfl, by decide +kernel, by decide +kernel, _, rfl, by decide +kernel, by decide +kernel⟩

end Document
end Dossier

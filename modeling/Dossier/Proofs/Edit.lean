import Dossier.Document.Items
import Dossier.Document.Reference
import Dossier.Document.Save
import Dossier.Proofs.Cast

-- The outcome of an edit in terms of its parts, and what it takes for an edit to keep a property of documents.

namespace Dossier

open List

namespace Edit

variable {α β : Type} {e : Edit α} {f : α → Edit β} {s : Desk}

-- Outcomes

@[simp] theorem outcome_pure {a : α} : (pure a : Edit α).outcome s = (.ok a, s) := rfl

@[simp] theorem outcome_throw {x : DocumentError} :
    (throw x : Edit α).outcome s = (.error x, s) := rfl

theorem outcome_bind : (e >>= f).outcome s = match e.outcome s with
    | (.ok a, s') => (f a).outcome s'
    | (.error x, s') => (.error x, s') := by
  simp only [outcome, ExceptT.run_bind, StateT.run_bind]
  rcases StateT.run e.run s with ⟨_ | _, _⟩ <;> rfl

theorem ok_of_bind_ok {b : β} (h : (e >>= f).outcome s = (.ok b, s')) :
    ∃ a s₁, e.outcome s = (.ok a, s₁) ∧ (f a).outcome s₁ = (.ok b, s') := by
  rw [outcome_bind] at h
  rcases hr : e.outcome s with ⟨_ | a, s₁⟩
  all_goals rw [hr] at h
  · cases h
  · exact ⟨a, s₁, rfl, h⟩

@[simp] theorem outcome_doc : doc.outcome s = (.ok s.doc, s) := rfl

@[simp] theorem outcome_change {g : Document → Document} :
    (change g).outcome s = (.ok (), { s with doc := g s.doc }) := rfl

@[simp] theorem outcome_clearQueue :
    clearQueue.outcome s = (.ok (), { s with effects := { s.effects with queue := [] } }) := rfl

@[simp] theorem outcome_takeQueue : takeQueue.outcome s =
    (.ok s.effects.queue, { s with effects := { s.effects with queue := [] } }) := rfl

@[simp] theorem outcome_cast {c : Cast α} : (cast c).outcome s =
    (.ok (c.outcome s.effects).1, { s with effects := (c.outcome s.effects).2 }) := rfl

@[simp] theorem outcome_get : (MonadState.get : Edit Desk).outcome s = (.ok s, s) := rfl

@[simp] theorem outcome_setState {s' : Desk} :
    (MonadStateOf.set s' : Edit Unit).outcome s = (.ok (), s') := rfl

theorem outcome_write {p : Path} : (write p v).outcome s =
    ((match (s.doc.write p v).1 with
      | .ok () => .ok ()
      | .error e => .error (.path e)), { s with doc := (s.doc.write p v).2 }) := by
  simp only [write, outcome_bind, outcome_get, outcome_setState]
  cases (s.doc.write p v).1 <;> rfl

end Edit

-- The parts of a write

namespace Document

def detached (d : Document) (p : Path) : Document :=
  { d.clearTracking p with scopes := (d.clearTracking p).scopes.removeBelow p }

def attached (d : Document) (p : Path) (f : Field) : Document :=
  { d with scopes := d.scopes.attachField f p (d.get? p) (d.scopes.innermost? p) .created }

def settled (d : Document) (p : Path) (f : Field) (modifies : Bool) : Document :=
  let d := if f.type.isStructural then d.attached p f else d
  let d := if f.type.isArray ∧ modifies then
    d.noteArrayOp p fun ops => { ops with replaced := true } else d
  let d := if modifies then d.markModified p else d
  d.markValid p

-- An array to which values were appended, when it had `n` items before.
def appended (d : Document) (p : Path) (f : Field) (n : Nat) (pushed : List Value) : Document :=
  let d := match f.type with
    | .documentArray sub =>
      { d with scopes := d.scopes.attachItems sub p n pushed (d.scopes.innermost? p) .created }
    | _ => d
  (d.noteArrayOp p fun ops => { ops with pushed := ops.pushed ++ pushed }).markModified p

-- An array from which a value has removed the items that the flags tell.
def withdrawn (d : Document) (p : Path) (v : Value) (removed : List Bool) : Document :=
  (((d.reindex p removed).clearIssuesBelow p).noteArrayOp p fun ops =>
    { ops with pulled := ops.pulled ++ [v] }).markModified p

-- What forgetting an item and moving one keep is kept when the items of an array are removed.
theorem reindex_rec {I : Document → Prop} {removed : List Bool} (hdrop : ∀ d i, I d → I (d.dropItem (p.index i)))
    (hmove : ∀ d i j, I d → I (d.moveItem p i j)) (h : I d) : I (d.reindex p removed) := by
  have hgaps : ∀ (flags : List Bool) (i shift : Nat) (d : Document), I d →
      I (closeGaps p flags i shift d) := by
    intro flags
    induction flags with
    | nil => exact fun _ _ _ h => h
    | cons r flags ih =>
      intro i shift d h
      cases r with
      | true => exact ih _ _ d h
      | false =>
        refine ih _ _ _ ?_
        split
        · exact h
        · exact hmove d _ _ h
  refine hgaps _ _ _ _ (List.foldlRecOn _ _ h fun d h e _ => ?_)
  dsimp only
  split
  · exact hdrop d _ h
  · exact h

theorem openChanges_eq (d : Document) : d.openChanges = { d with backup := d.openChanges.backup } := by
  rw [openChanges]
  split <;> rfl

theorem write_eq (d : Document) (p : Path) (v : Value) : d.write p v =
    ((d.value.set p v).1, { d with
      value := (d.value.set p v).2
      snapshot := (d.keepTop p).snapshot }) := by
  simp only [write, keepTop]
  split <;> rfl

theorem arrayField?_eq_some_iff {d : Document} {f : Field} :
    d.arrayField? p = some f ↔ d.resolve p = .field f ∧ f.type.isArray := by
  rw [arrayField?]
  split
  · case _ g hg =>
    rw [hg]
    by_cases ha : g.type.isArray <;> simp [ha]
    · rintro rfl
      exact ha
    · rintro rfl
      simpa using ha
  · case _ hn => simpa using fun h => absurd h (hn f)

theorem ne_nil_of_resolve {d : Document} {f : Field} (h : d.resolve p = .field f) : p ≠ [] := by
  rintro rfl
  cases h

theorem resolve_meets {law : SchemaLaw} {d : Document} {p : Path} (hs : d.schema.Meets law) (hr : law (.rules {}))
    (h : d.resolve p = .field f) : f.Meets law := by
  have hm : (p.foldl Cursor.step (.schema d.schema Path.root (some d.value))).Meets law :=
    Cursor.Meets.foldl hs hr
  rw [Document.resolve, Schema.resolve] at h
  generalize List.foldl _ _ p = c at hm h
  cases c with
  | field g => cases h; exact hm
  | schema s q => simp only [Cursor.resolution] at h; split at h <;> cases h
  | inMixed | lost => cases h

end Document

theorem FieldType.isStructural_of_isArray {t : FieldType} (h : t.isArray) : t.isStructural := by
  cases t <;> simp_all [isArray, isStructural]

namespace Edit

variable {s : Desk} {p : Path} {f : Field} {prior : Option Value} {v : Value} {opts : SetOptions}

theorem outcome_detach : (detach p).outcome s = (.ok (), { s with doc := s.doc.detached p }) := rfl

theorem outcome_storeField : (storeField p f prior v opts).outcome s =
    let d := s.doc
    if f.rules.immutable ∧ prior.isSome ∧ ¬ Value.equalOpt prior (some v) ∧ ¬ d.isNewAt p then
      if d.strictAt p opts = .refuse then
        (.error (.strict { path := p, violation := .immutable }), s)
      else (.ok (), s)
    else if Value.equalOpt prior (some v) ∧ ¬ d.modifies p prior v opts then
      (.ok (), { s with doc := d.markValid p })
    else
      match (if f.type.isStructural then d.detached p else d).write p v with
      | (.ok (), d') => (.ok (), { s with doc := d'.settled p f (d.modifies p prior v opts) })
      | (.error e, d') => (.error (.path e), { s with doc := d' }) := by
  simp only [storeField, outcome_bind, outcome_doc]
  by_cases himm : f.rules.immutable ∧ prior.isSome ∧ ¬ Value.equalOpt prior (some v) ∧ ¬ s.doc.isNewAt p
  · rw [if_pos himm, if_pos himm]
    by_cases hr : s.doc.strictAt p opts = .refuse
    · rw [if_pos hr, if_pos hr]; rfl
    · rw [if_neg hr, if_neg hr]; rfl
  rw [if_neg himm, if_neg himm]
  by_cases hsame : Value.equalOpt prior (some v) ∧ ¬ s.doc.modifies p prior v opts
  · rw [if_pos hsame, if_pos hsame]; rfl
  rw [if_neg hsame, if_neg hsame]
  generalize s.doc.modifies p prior v opts = modifies
  by_cases hst : f.type.isStructural
  · simp only [hst, if_true, Document.settled]
    rw [outcome_bind, outcome_detach]
    dsimp only
    rw [outcome_bind, outcome_write]
    dsimp only
    rcases (s.doc.detached p).write p v with ⟨_ | _, d'⟩
    · rfl
    · by_cases ha : f.type.isArray ∧ modifies
      · simp only [ha.1, ha.2, and_self, if_true]; rfl
      · simp only [ha, if_false]
        cases modifies <;> rfl
  · have ha : ¬ (f.type.isArray ∧ modifies) := fun ha => hst (FieldType.isStructural_of_isArray ha.1)
    simp only [hst, ha, if_false, Document.settled, Bool.false_eq_true]
    rw [outcome_bind, outcome_write]
    rcases s.doc.write p v with ⟨_ | _, d'⟩
    · rfl
    · cases modifies <;> rfl

def castContext (d : Document) (p : Path) (opts : SetOptions) : CastContext :=
  { path := p, root := d.rootAt p, prior := d.get? p, strict := opts.strict }

theorem outcome_setField : (setField p f v opts).outcome s =
    match (f.accept (castContext s.doc p opts) v).outcome s.effects with
    | (.error (.cast e), effects) => (.ok (), { doc := s.doc.recordCast p e, effects })
    | (.error (.strict e), effects) => (.error (.strict e), { s with effects })
    | (.ok w, effects) => (storeField p f (s.doc.get? p) w opts).outcome { s with effects } := by
  simp only [setField, outcome_bind, outcome_doc, outcome_cast, castContext]
  generalize (f.accept _ v).outcome s.effects = r
  rcases r with ⟨(_ | _) | _, _⟩ <;> rfl

theorem outcome_setRaw : (setRaw p v opts).outcome s =
    match s.doc.write p v with
    | (.ok (), d) => (.ok (), { s with
        doc := if s.doc.modifies p (s.doc.get? p) v opts then d.markModified p else d })
    | (.error e, d) => (.error (.path e), { s with doc := d }) := by
  simp only [setRaw, outcome_bind, outcome_doc, outcome_write]
  rcases s.doc.write p v with ⟨_ | _, _⟩
  · rfl
  · cases s.doc.modifies p (s.doc.get? p) v opts <;> rfl

theorem outcome_setUndeclared : (setUndeclared p v opts).outcome s =
    match s.doc.strictAt p opts with
    | .keep => (setRaw p v opts).outcome s
    | .drop => (.ok (), s)
    | .refuse => (.error (.strict { path := p, violation := .undeclared }), s) := by
  simp only [setUndeclared, outcome_bind, outcome_doc]
  cases s.doc.strictAt p opts <;> rfl

theorem outcome_setNestedNull : (setNestedNull p prior opts).outcome s =
    match (s.doc.detached p).write p .null with
    | (.ok (), d) => (.ok (), { s with
        doc := (if (s.doc.detached p).modifies p prior .null opts then d.markModified p else d).markValid p })
    | (.error e, d) => (.error (.path e), { s with doc := d }) := by
  simp only [setNestedNull, outcome_bind, outcome_doc, outcome_detach, outcome_write]
  rcases (s.doc.detached p).write p .null with ⟨_ | _, _⟩
  · rfl
  · cases (s.doc.detached p).modifies p prior .null opts <;> rfl

theorem outcome_markNested : (markNested p prior opts).outcome s = (.ok (), { s with
    doc := (if ¬ opts.silent ∧ (¬ Value.equalOpt prior (s.doc.get? p) ∨ s.doc.isNewAt p) then
      s.doc.markModified p else s.doc).markValid p }) := by
  simp only [markNested, outcome_bind, outcome_doc]
  split <;> rfl

def setGroup (p : Path) (prior : Option Value) (opts : SetOptions) : Value → Edit Unit
  | .obj fields => do
    detach p
    write p (.obj [])
    setKeys fields p { opts with silent := true }
    markNested p prior opts
  | .null => setNestedNull p prior opts
  | v => change (·.recordCast p { path := p, target := .object, value := v })

theorem outcome_setPath (hp : p ≠ []) : (setPath v p opts).outcome s =
    match s.doc.missingArray? p with
    | some parent => (.error (.path (.wrongShape parent .array)), s)
    | none =>
      match s.doc.resolve p with
      | .field f => (setField p f v opts).outcome s
      | .inMixed => (setRaw p v opts).outcome s
      | .undeclared => (setUndeclared p v opts).outcome s
      | .nested => (setGroup p (s.doc.get? p) opts v).outcome s := by
  match p, hp with
  | seg :: segs, _ =>
    unfold setPath
    rw [outcome_bind, outcome_doc]
    dsimp only
    cases s.doc.missingArray? (seg :: segs) with
    | some => rfl
    | none => cases s.doc.resolve (seg :: segs) <;> cases v <;> rfl

theorem write_ok {s' : Desk} (hok : (write p v).outcome s = (.ok (), s')) :
    s' = { s with doc := (s.doc.write p v).2 } ∧ (s.doc.value.set p v).1 = .ok () := by
  rw [outcome_write] at hok
  have hfst : (s.doc.write p v).1 = (s.doc.value.set p v).1 := by rw [Document.write_eq]
  rw [hfst] at hok
  cases hr : (s.doc.value.set p v).1 with
  | ok => rw [hr] at hok; cases hok; exact ⟨rfl, rfl⟩
  | error => rw [hr] at hok; cases hok

theorem setGroup_ok {s' : Desk}
    (hok : (setGroup p prior opts (.obj fields)).outcome s = (.ok (), s')) :
    (s.doc.value.set p (.obj [])).1 = .ok () ∧ ∃ s₁,
      (setKeys fields p { opts with silent := true }).outcome
        { s with doc := ((s.doc.detached p).write p (.obj [])).2 } = (.ok (), s₁) ∧
      s' = { s₁ with
        doc := (if ¬ opts.silent ∧ (¬ Value.equalOpt prior (s₁.doc.get? p) ∨ s₁.doc.isNewAt p) then
          s₁.doc.markModified p else s₁.doc).markValid p } := by
  obtain ⟨_, _, hdetach, hok⟩ := ok_of_bind_ok hok
  rw [outcome_detach] at hdetach
  cases hdetach
  obtain ⟨_, _, hwrite, hok⟩ := ok_of_bind_ok hok
  obtain ⟨rfl, hset⟩ := write_ok hwrite
  obtain ⟨_, s₁, hkeys, hok⟩ := ok_of_bind_ok hok
  rw [outcome_markNested] at hok
  cases hok
  exact ⟨hset, s₁, hkeys, rfl⟩

theorem outcome_itemsAt : (itemsAt p).outcome s = match Value.items? (s.doc.get? p) with
    | some items => (.ok items, s)
    | none => (.error (.path (.wrongShape p .array)), s) := by
  simp only [itemsAt, outcome_bind, outcome_doc]
  rcases s.doc.get? p with _ | (_ | _ | _ | _ | _ | _) <;> rfl

theorem outcome_setGroup_obj {fields : List (String × Value)} : (setGroup p prior opts (.obj fields)).outcome s =
    match (s.doc.detached p).write p (.obj []) with
    | (.ok (), d) => (setKeys fields p { opts with silent := true } >>= fun _ => markNested p prior opts).outcome
        { s with doc := d }
    | (.error e, d) => (.error (.path e), { s with doc := d }) := by
  rw [setGroup, outcome_bind, outcome_detach]
  dsimp only
  rw [outcome_bind, outcome_write]
  dsimp only
  rcases (s.doc.detached p).write p (.obj []) with ⟨_ | _, d⟩ <;> rfl

theorem outcome_set {v : Value} : (Edit.set p v opts).outcome s =
    match (setPath v p opts).outcome ⟨s.doc.openChanges, { s.effects with queue := [] }⟩ with
    | (.ok (), s') => (settle opts maxRounds).outcome s'
    | (.error e, s') => (.error e, s') := by
  rw [Edit.set, outcome_bind, outcome_change]
  dsimp only
  rw [outcome_bind, outcome_clearQueue]
  dsimp only
  rw [outcome_bind]
  rcases (setPath v p opts).outcome _ with ⟨_ | _, s'⟩ <;> rfl

theorem outcome_settle {opts : SetOptions} {s : Desk} (h : s.effects.queue = []) :
    (settle opts n).outcome s = (.ok (), s) := by
  have hs : { s with effects := { s.effects with queue := [] } } = s := by
    rw [← h]
  cases n with
  | zero => rw [settle, outcome_clearQueue, hs]
  | succ n => simp only [settle, outcome_bind, outcome_takeQueue, h, hs, outcome_pure]

theorem doc_settle {n : Nat} (h : effects.queue = []) : ((settle opts n).outcome ⟨d, effects⟩).2.doc = d := by
  rw [outcome_settle h]

theorem effects_storeField : ((storeField p f prior v opts).outcome s).2.effects = s.effects := by
  rw [outcome_storeField]
  dsimp only
  split
  · split <;> rfl
  split
  · rfl
  split <;> rfl

theorem effects_setRaw : ((setRaw p v opts).outcome s).2.effects = s.effects := by
  rw [outcome_setRaw]
  split <;> rfl

theorem effects_setField : ((setField p f v opts).outcome s).2.effects =
    ((f.accept (castContext s.doc p opts) v).outcome s.effects).2 := by
  rw [outcome_setField]
  rcases (f.accept (castContext s.doc p opts) v).outcome s.effects with ⟨(_ | _) | _, _⟩
  · rfl
  · rfl
  · exact effects_storeField

theorem pull_cases (p : Path) (v : Value) (s : Desk) : ((pull p v).outcome s).2 = s ∨
    ∃ items, s.doc.get? p = some (.arr items) ∧ items.any (Change.selects · v) ∧ p ≠ [] ∧
      ((pull p v).outcome s).2 = { s with
        doc := (s.doc.openChanges.write p (.arr (items.filter fun x => ¬ Change.selects x v))).2.withdrawn
          p v (items.map (Change.selects · v)) } := by
  rw [pull, outcome_bind, outcome_doc]
  dsimp only
  split
  · exact .inl rfl
  · case _ f hf =>
    split
    · case _ items hget =>
      by_cases hany : (items.map (Change.selects · v)).any id
      · refine .inr ⟨items, hget, by simpa using hany, ?_, ?_⟩
        · exact Document.ne_nil_of_resolve (Document.arrayField?_eq_some_iff.mp hf).1
        · have hok : (s.doc.openChanges.write p
              (.arr (items.filter fun x => ¬ Change.selects x v))).1 = .ok () := by
            rw [Document.write_eq, Document.openChanges_eq]
            exact Value.setFrom_ok_of_get? hget
          simp only [hany, if_true, outcome_bind, outcome_change, outcome_write, hok]
          rfl
      · rw [if_neg hany]
        exact .inl rfl
    · exact .inl rfl

theorem outcome_push : (push p values).outcome s =
    match s.doc.arrayField? p, (s.doc.arrayField? p).bind Field.element?, Value.items? (s.doc.get? p) with
    | some f, some el, some items =>
      match (castItems p (s.doc.openChanges.rootAt p) el items.length values).outcome
        { doc := s.doc.openChanges, effects := { s.effects with queue := [] } } with
      | (.error e, s) => (.error e, s)
      | (.ok none, s) | (.ok (some []), s) => (.ok (), s)
      | (.ok (some pushed), s) =>
        match s.doc.write p (.arr (items ++ pushed)) with
        | (.error e, d) => (.error (.path e), { s with doc := d })
        | (.ok (), d) =>
          (settle {} maxRounds).outcome { s with doc := d.appended p f items.length pushed }
    | some _, some _, none => (.error (.path (.wrongShape p .array)), s)
    | _, _, _ => (.error (.path (.wrongShape p .arrayField)), s) := by
  simp only [push, outcome_bind, outcome_doc]
  cases s.doc.arrayField? p with
  | none => rfl
  | some f =>
    dsimp only [Option.bind]
    cases f.element? with
    | none => rfl
    | some el =>
      simp only [outcome_bind, outcome_itemsAt]
      cases Value.items? (s.doc.get? p) with
      | none => rfl
      | some items =>
        simp only [outcome_change, outcome_clearQueue, outcome_doc]
        generalize (castItems _ _ _ _ _).outcome _ = r
        rcases r with ⟨_ | (_ | _ | _), s⟩
        · rfl
        · rfl
        · rfl
        · dsimp only
          rw [outcome_bind, outcome_write]
          rcases s.doc.write p _ with ⟨_ | _, d⟩
          · rfl
          · dsimp only
            cases ht : f.type <;> simp only [Document.appended, ht] <;> rfl

end Edit

-- Validation

theorem Document.exists_issues {d : Document} {hooks : Hooks} :
    ∃ issues, (completePass hooks (d.beginPass hooks opts wait)).doc = { d with issues } := by
  rw [beginPass]
  split
  · exact ⟨d.issues, rfl⟩
  · case isFalse hv =>
    have hv : d.validating = false := Bool.eq_false_iff.mpr hv
    dsimp only
    split
    · exact ⟨d.issues, by rw [← hv]; rfl⟩
    · exact ⟨_, by simp only [completePass, finishPass, ← hv]; rfl⟩

namespace Edit

theorem doc_validated {run : Document → Ran α} : ((validated run).outcome s).2.doc = (run s.doc).doc := by
  rw [validated, outcome_bind, outcome_doc]
  dsimp only
  generalize run s.doc = r
  rcases r with ⟨_ | _, _, _⟩ <;> rfl

-- Properties that edits keep

-- An edit keeps a property of documents, whether it comes to its end or not.
def Keeps (I : Document → Prop) (e : Edit α) : Prop :=
  ∀ s, I s.doc → I (e.outcome s).2.doc

variable {α β : Type} {e : Edit α} {g : α → Edit β} {I : Document → Prop}

theorem keeps_pure : Keeps I (pure a) := fun _ h => h

theorem Keeps.bind (h : Keeps I e) (hf : ∀ a, Keeps I (g a)) : Keeps I (e >>= g) := by
  intro s hs
  have := h s hs
  rw [outcome_bind]
  rcases hr : e.outcome s with ⟨_ | a, s'⟩
  all_goals rw [hr] at this
  · exact this
  · exact hf a s' this

theorem keeps_change {g : Document → Document} (h : ∀ d, I d → I (g d)) : Keeps I (change g) :=
  fun _ hs => h _ hs

theorem keeps_clearQueue : Keeps I clearQueue := fun _ h => h

theorem keeps_write {p : Path} (h : ∀ d, I d → I (d.write p v).2) : Keeps I (write p v) := by
  intro s hs
  rw [outcome_write]
  exact h _ hs

-- A field is left as it is, or is given a value after its old parts were forgotten.
theorem storeField_rec {J : Document → Prop} (h : I d) (hvalid : I (d.markValid p))
    (hdetached : f.type.isStructural → J (d.detached p)) (hkept : ¬ f.type.isStructural → J d)
    (hfailed : ∀ {d e}, J d → (d.write p v).1 = .error e → I (d.write p v).2)
    (hsettled : ∀ {d modifies}, J d → (d.write p v).1 = .ok () → I ((d.write p v).2.settled p f modifies)) :
    I ((storeField p f prior v opts).outcome ⟨d, effects⟩).2.doc := by
  rw [outcome_storeField]
  dsimp only
  split
  · split <;> exact h
  split
  · exact hvalid
  have hd : J (if f.type.isStructural then d.detached p else d) := iteInduction hdetached hkept
  generalize (if f.type.isStructural then d.detached p else d) = d₁ at hd
  rcases hw : d₁.write p v with ⟨_ | _, d'⟩
  · have := hfailed hd (by rw [hw])
    rwa [hw] at this
  · have : I ((d₁.write p v).2.settled p f (d.modifies p prior v opts)) := hsettled hd (by rw [hw])
    rwa [hw] at this

end Edit

theorem Document.settled_rec {I : Document → Prop} {modifies : Bool}
    (hattached : f.type.isStructural → I (d.attached p f)) (hplain : ¬ f.type.isStructural → I d)
    (hnoted : ∀ {d g}, I d → I (d.noteArrayOp p g)) (hmarked : ∀ {d}, I d → I (d.markModified p))
    (hvalid : ∀ {d}, I d → I (d.markValid p)) : I (d.settled p f modifies) := by
  rw [settled]
  have h : I (if f.type.isStructural then d.attached p f else d) := iteInduction hattached hplain
  generalize (if f.type.isStructural then d.attached p f else d) = d₁ at h
  exact hvalid (iteInduction (fun _ => hmarked (iteInduction (fun _ => hnoted h) fun _ => h))
    fun _ => iteInduction (fun _ => hnoted h) fun _ => h)

namespace Edit

-- The steps of an assignment

-- A relation of the desks before and after an assignment, by its path and value, that each of its steps obeys.
structure Course (R : Path → Value → Desk → Desk → Prop) : Prop where
  refl     : ∀ {p v s}, R p v s s
  field    : ∀ {p v s f opts}, s.doc.resolve p = .field f → R p v s ((setField p f v opts).outcome s).2
  -- The path is of no field, and nothing is declared below it.
  taken    : ∀ {p v s}, p ≠ [] → s.doc.resolve p = .inMixed ∨ s.doc.resolve p = .undeclared →
    R p v s { s with doc := (s.doc.write p v).2 }
  -- A group of fields loses them.
  emptied  : ∀ {p v w s}, p ≠ [] → s.doc.resolve p = .nested → w = .null ∨ w = .obj [] →
    R p v s { s with doc := ((s.doc.detached p).write p w).2 }
  marked   : ∀ {p v s d e}, p ≠ [] → (∀ f, s.doc.resolve p ≠ .field f) → R p v s ⟨d, e⟩ → R p v s ⟨d.markModified p, e⟩
  reported : ∀ {p v s d e issues}, R p v s ⟨d, e⟩ → R p v s ⟨{ d with issues }, e⟩
  inner    : ∀ {p s s' s'' fields k x}, p = [] ∨ s.doc.resolve p = .nested → (k, x) ∈ fields →
    R p (.obj fields) s s' → R (p ++ [.key k]) x s' s'' → R p (.obj fields) s s''

namespace Course

variable {R : Path → Value → Desk → Desk → Prop} {p : Path} {v : Value} {s : Desk} {d : Document} {effects : Effects}
  {prior : Option Value} {opts : SetOptions}

theorem marked_ite (h : Course R) (hp : p ≠ []) (hr : ∀ f, s.doc.resolve p ≠ .field f) [Decidable c]
    (hs : R p v s ⟨d, effects⟩) : R p v s ⟨if c then d.markModified p else d, effects⟩ :=
  iteInduction (motive := fun d => R p v s ⟨d, effects⟩) (fun _ => h.marked hp hr hs) fun _ => hs

theorem markValid (h : Course R) (hs : R p v s ⟨d, effects⟩) : R p v s ⟨d.markValid p, effects⟩ := by
  rw [Document.markValid]
  split
  · exact hs
  · exact h.reported hs

theorem setRaw (h : Course R) (hp : p ≠ []) (hr : s.doc.resolve p = .inMixed ∨ s.doc.resolve p = .undeclared) :
    R p v s ((Edit.setRaw p v opts).outcome s).2 := by
  have hw : R p v s { s with doc := (s.doc.write p v).2 } := h.taken hp hr
  rw [outcome_setRaw]
  rcases he : s.doc.write p v with ⟨_ | _, d⟩
  all_goals rw [he] at hw
  · exact hw
  · exact h.marked_ite hp (by rcases hr with hr | hr <;> simp [hr]) hw

theorem setNestedNull (h : Course R) (hp : p ≠ []) (hr : s.doc.resolve p = .nested) :
    R p v s ((Edit.setNestedNull p prior opts).outcome s).2 := by
  have hw : R p v s { s with doc := ((s.doc.detached p).write p .null).2 } := h.emptied hp hr (.inl rfl)
  rw [outcome_setNestedNull]
  rcases he : (s.doc.detached p).write p .null with ⟨_ | _, d⟩
  all_goals rw [he] at hw
  · exact hw
  · exact h.markValid (h.marked_ite hp (by simp [hr]) hw)

theorem markNested (h : Course R) (hp : p ≠ []) (hr : s.doc.resolve p = .nested) (hs : R p v s s') :
    R p v s ((Edit.markNested p prior opts).outcome s').2 := by
  rw [outcome_markNested]
  exact h.markValid (h.marked_ite hp (by simp [hr]) hs)

mutual

theorem setPath (h : Course R) : (v : Value) → (p : Path) → (opts : SetOptions) → (s : Desk) →
    R p v s ((Edit.setPath v p opts).outcome s).2
  | .obj fields, [], opts, s => by
    rw [Edit.setPath]
    exact h.setKeys fields (fun _ he => he) (.inl rfl) opts h.refl
  | .null, [], _, _ | .bool _, [], _, _ | .num _, [], _, _ | .str _, [], _, _ | .arr _, [], _, _ => by
    simp only [Edit.setPath]
    exact h.refl
  | v, seg :: segs, opts, s => by
    have hp : seg :: segs ≠ [] := by simp
    generalize seg :: segs = p at hp
    rw [outcome_setPath hp]
    split
    · exact h.refl
    split
    · case _ hf => exact h.field hf
    · case _ hr => exact h.setRaw hp (.inl hr)
    · case _ hr =>
      rw [outcome_setUndeclared]
      split
      · exact h.setRaw hp (.inr hr)
      · exact h.refl
      · exact h.refl
    · case _ hr =>
      cases v with
      | obj fields =>
        have hw : R p (.obj fields) s { s with doc := ((s.doc.detached p).write p (.obj [])).2 } :=
          h.emptied hp hr (.inr rfl)
        rw [outcome_setGroup_obj]
        rcases he : (s.doc.detached p).write p (.obj []) with ⟨_ | _, d⟩
        all_goals rw [he] at hw
        · exact hw
        · have hkeys := h.setKeys fields (fun _ he => he) (.inr hr) { opts with silent := true } hw
          dsimp only
          rw [outcome_bind]
          rcases hset : (Edit.setKeys fields p { opts with silent := true }).outcome { s with doc := d } with ⟨_ | _, s'⟩
          all_goals rw [hset] at hkeys
          · exact hkeys
          · exact h.markNested hp hr hkeys
      | null => exact h.setNestedNull hp hr
      | bool | num | str | arr => exact h.reported h.refl

theorem setKeys (h : Course R) : (rest : List (String × Value)) → {fields : List (String × Value)} → {p : Path} →
    {s s' : Desk} → (∀ e ∈ rest, e ∈ fields) → p = [] ∨ s.doc.resolve p = .nested → (opts : SetOptions) →
    R p (.obj fields) s s' → R p (.obj fields) s ((Edit.setKeys rest p opts).outcome s').2
  | [], _, _, _, _, _, _, _, hs => by
    rw [Edit.setKeys]
    exact hs
  | (k, v) :: rest, _, p, _, s', hrest, hp, opts, hs => by
    obtain ⟨hmem, hrest⟩ := forall_mem_cons.mp hrest
    have hkey := h.inner hp hmem hs (h.setPath v (p ++ [.key k]) opts s')
    rw [Edit.setKeys, outcome_bind]
    generalize (Edit.setPath v (p ++ [.key k]) opts).outcome s' = r at hkey
    rcases r with ⟨_ | _, s''⟩
    · exact hkey
    · exact h.setKeys rest hrest hp opts hkey

end

end Course

theorem setEach_rec {M : Desk → Prop} {C : Path × Value → Prop}
    (hset : ∀ a s, C a → M s → M ((setPath a.2 a.1 opts).outcome s).2) (hq : ∀ a ∈ queue, C a) (hs : M s) :
    M ((setEach opts queue).outcome s).2 := by
  induction queue generalizing s with
  | nil => exact hs
  | cons a queue ih =>
    obtain ⟨ha, hq⟩ := forall_mem_cons.mp hq
    have hI := hset a s ha hs
    rw [setEach, outcome_bind]
    rcases hr : (setPath a.2 a.1 opts).outcome s with ⟨_ | _, s'⟩
    all_goals rw [hr] at hI
    · exact hI
    · exact ih hq hI

-- Every round starts from what the round before has asked for.
theorem settle_rec {M : Desk → Prop} {C : Path × Value → Prop} (hclear : ∀ s, M s → M { s with effects.queue := [] })
    (hasked : ∀ s, M s → ∀ a ∈ s.effects.queue, C a) (hset : ∀ a s, C a → M s → M ((setPath a.2 a.1 opts).outcome s).2)
    (hs : M s) : M ((settle opts n).outcome s).2 := by
  induction n generalizing s with
  | zero => exact hclear s hs
  | succ n ih =>
    rw [settle, outcome_bind, outcome_takeQueue]
    dsimp only
    split
    · exact hclear s hs
    · have hI := setEach_rec hset (hasked s hs) (hclear s hs)
      rw [outcome_bind]
      rcases hr : (setEach opts s.effects.queue).outcome { s with effects.queue := [] } with ⟨_ | _, s'⟩
      all_goals rw [hr] at hI
      · exact hI
      · exact ih hI

theorem set_rec {M : Desk → Prop} {C : Path × Value → Prop} (hclear : ∀ s, M s → M { s with effects.queue := [] })
    (hasked : ∀ s, M s → ∀ a ∈ s.effects.queue, C a) (hset : ∀ a s, C a → M s → M ((setPath a.2 a.1 opts).outcome s).2)
    (hs : M ((setPath v p opts).outcome ⟨s.doc.openChanges, { s.effects with queue := [] }⟩).2) :
    M ((Edit.set p v opts).outcome s).2 := by
  rw [outcome_set]
  rcases hr : (setPath v p opts).outcome ⟨s.doc.openChanges, { s.effects with queue := [] }⟩ with ⟨_ | _, s'⟩
  all_goals rw [hr] at hs
  · exact hs
  · exact settle_rec hclear hasked hset hs

-- The steps of an append

theorem castItems_spec
    (hcast : ∀ i, ∀ v ∈ vs, Cast.Yields E (el.cast { path := p.index i, root } v) P) :
    let r := (castItems p root el n vs).outcome s
    (∃ asked, r.2.effects.queue = s.effects.queue ++ asked ∧ ∀ a ∈ asked, E a) ∧
      (∃ issues, r.2.doc = { s.doc with issues }) ∧ (r.1 = .ok none ∨ r.2.doc = s.doc) ∧
      ∀ ws, r.1 = .ok (some ws) → ∀ w ∈ ws, P w := by
  induction vs generalizing n s with
  | nil =>
    refine ⟨⟨[], (append_nil _).symm, by simp⟩, ⟨_, rfl⟩, .inr rfl, ?_⟩
    rintro ws ⟨⟩
    simp
  | cons v vs ih =>
    obtain ⟨⟨asked, hq, ha⟩, hP⟩ := hcast n v mem_cons_self s.effects
    rw [castItems, outcome_bind, outcome_cast]
    rcases hr : (el.cast { path := p.index n, root } v).outcome s.effects with ⟨(_ | _) | w, effects⟩
    all_goals rw [hr] at hq hP
    · exact ⟨⟨asked, hq, ha⟩, ⟨_, rfl⟩, .inl rfl, fun _ h => by cases h⟩
    · exact ⟨⟨asked, hq, ha⟩, ⟨_, rfl⟩, .inr rfl, fun _ h => by cases h⟩
    · obtain ⟨⟨asked', hq', ha'⟩, hdoc, hsame, hws⟩ :=
        ih (fun i v hv => hcast i v (mem_cons_of_mem _ hv)) (n := n + 1) (s := { s with effects })
      have hasked : ∃ asked, ((castItems p root el (n + 1) vs).outcome { s with effects }).2.effects.queue =
          s.effects.queue ++ asked ∧ ∀ a ∈ asked, E a := by
        refine ⟨asked ++ asked', ?_, forall_mem_append.mpr ⟨ha, ha'⟩⟩
        rw [hq', hq, append_assoc]
      dsimp only
      rw [outcome_bind]
      rcases hr' : (castItems p root el (n + 1) vs).outcome { s with effects } with ⟨_ | (_ | ws'), s'⟩
      all_goals rw [hr'] at hasked hdoc hsame hws
      · exact ⟨hasked, hdoc, hsame, fun _ h => by cases h⟩
      · exact ⟨hasked, hdoc, .inl rfl, fun _ h => by cases h⟩
      · refine ⟨hasked, hdoc, .inr (hsame.resolve_left (by simp)), ?_⟩
        rintro ws ⟨⟩
        exact forall_mem_cons.mpr ⟨hP w rfl, hws ws' rfl⟩

theorem doc_castItems (p root : Path) (el : Field) (vs : List Value) (n : Nat) (s : Desk) :
    ∃ issues, ((castItems p root el n vs).outcome s).2.doc = { s.doc with issues } :=
  (castItems_spec fun _ _ _ => el.cast_appends _ _).2.1

structure Appending (p : Path) (vs : List Value) (s : Desk) (f el : Field) (items pushed : List Value) (s' : Desk) : Prop where
  field   : s.doc.arrayField? p = some f
  element : f.element? = some el
  stored  : Value.items? (s.doc.get? p) = some items
  cast    : (castItems p (s.doc.openChanges.rootAt p) el items.length vs).outcome
    ⟨s.doc.openChanges, { s.effects with queue := [] }⟩ = (.ok (some pushed), s')
  filled  : pushed ≠ []

namespace Appending

variable {p : Path} {vs items pushed : List Value} {s s' : Desk} {f el : Field}

variable (h : Appending p vs s f el items pushed s')

include h

theorem resolve : s.doc.resolve p = .field f :=
  (Document.arrayField?_eq_some_iff.mp h.field).1

theorem ne_nil : p ≠ [] :=
  Document.ne_nil_of_resolve h.resolve

theorem spec
    (hcast : ∀ i, ∀ v ∈ vs, Cast.Yields E (el.cast { path := p.index i, root := s.doc.openChanges.rootAt p } v) P) :
    s'.doc = s.doc.openChanges ∧ (∀ a ∈ s'.effects.queue, E a) ∧ ∀ w ∈ pushed, P w := by
  obtain ⟨⟨asked, hq, ha⟩, -, hsame, hP⟩ := castItems_spec hcast (n := items.length)
    (s := ⟨s.doc.openChanges, { s.effects with queue := [] }⟩)
  rw [h.cast] at hq hsame hP
  rw [nil_append] at hq
  exact ⟨hsame.resolve_left (by simp), hq ▸ ha, hP pushed rfl⟩

theorem doc : s'.doc = s.doc.openChanges :=
  (h.spec fun _ v _ => el.cast_appends _ v).1

theorem gives (hcast : ∀ i, ∀ v ∈ vs,
    Cast.Gives (el.cast { path := p.index i, root := s.doc.openChanges.rootAt p } v) P) :
    s'.effects.queue = [] ∧ ∀ w ∈ pushed, P w := by
  obtain ⟨-, hq, hP⟩ := h.spec fun i v hv => Cast.gives_iff.mp (hcast i v hv)
  exact ⟨eq_nil_iff_forall_not_mem.mpr hq, hP⟩

end Appending

theorem push_rec {I : Document → Prop} (hs : I s.doc)
    (hcast : ∀ issues, I { s.doc.openChanges with issues })
    (hfailed : ∀ {f el items pushed s' e}, Appending p vs s f el items pushed s' →
      (s.doc.openChanges.write p (.arr (items ++ pushed))).1 = .error e →
      I (s.doc.openChanges.write p (.arr (items ++ pushed))).2)
    (hdone : ∀ {f el items pushed s'}, Appending p vs s f el items pushed s' →
      (s.doc.openChanges.write p (.arr (items ++ pushed))).1 = .ok () →
      I ((settle {} maxRounds).outcome { s' with
        doc := (s.doc.openChanges.write p (.arr (items ++ pushed))).2.appended p f items.length pushed }).2.doc) :
    I ((push p vs).outcome s).2.doc := by
  rw [outcome_push]
  split
  · case _ f el items hf hel hitems =>
    rw [hf, Option.bind_some] at hel
    obtain ⟨issues, hdoc⟩ := doc_castItems p (s.doc.openChanges.rootAt p) el vs items.length
      ⟨s.doc.openChanges, { s.effects with queue := [] }⟩
    rcases hr : (castItems p (s.doc.openChanges.rootAt p) el items.length vs).outcome
      ⟨s.doc.openChanges, { s.effects with queue := [] }⟩ with ⟨_ | (_ | _ | ⟨v, pushed⟩), s'⟩
    all_goals rw [hr] at hdoc
    · exact hdoc ▸ hcast issues
    · exact hdoc ▸ hcast issues
    · exact hdoc ▸ hcast issues
    · have happending : Appending p vs s f el items (v :: pushed) s' := ⟨hf, hel, hitems, hr, by simp⟩
      dsimp only
      rw [happending.doc]
      rcases hw : s.doc.openChanges.write p (.arr (items ++ v :: pushed)) with ⟨_ | _, d⟩
      · have := hfailed happending (by rw [hw])
        rwa [hw] at this
      · have := hdone happending (by rw [hw])
        rwa [hw] at this
  · exact hs
  · exact hs

end Edit

-- Calls

section

variable {I : Document → Prop} {s : Desk} {p : Path} {v : Value}

theorem Edit.pull_rec (h : I s.doc) (hwritten : ∀ {v}, p ≠ [] → I (s.doc.openChanges.write p v).2)
    (hwithdrawn : ∀ {d flags}, p ≠ [] → I d → I (d.withdrawn p v flags)) : I ((Edit.pull p v).outcome s).2.doc := by
  rcases pull_cases p v s with he | ⟨items, -, -, hne, he⟩
  · rwa [he]
  · rw [he]
    exact hwithdrawn hne (hwritten hne)

theorem Edit.populate_rec (h : I s.doc) (hwritten : ∀ {d v}, p ≠ [] → I d → I (d.write p v).2)
    (hstood : ∀ {d x}, p ≠ [] → I d → I { d with populated := d.populated.insert p x }) :
    I ((Edit.populate p v).outcome s).2.doc := by
  rw [Edit.populate, outcome_bind, outcome_doc]
  dsimp only
  split
  · case _ hr =>
    have hp := Document.ne_nil_of_resolve hr
    split
    · exact h
    · exact (Keeps.bind (keeps_write fun _ hd => hwritten hp hd) fun _ => keeps_change fun _ hd => hstood hp hd) s h
  · exact h

theorem Edit.depopulate_rec (h : I s.doc) (hvacated : ∀ {d}, I d → I { d with populated := d.populated.erase p })
    (hwritten : ∀ {d v}, (s.doc.populated.get? p).isSome → I d → I (d.write p v).2) :
    I ((Edit.depopulate p).outcome s).2.doc := by
  rw [Edit.depopulate, outcome_bind, outcome_doc]
  dsimp only
  split
  · exact h
  · case _ id hid =>
    exact (Keeps.bind (keeps_change fun _ hd => hvacated hd)
      fun _ => keeps_write fun _ hd => hwritten (by simp [hid]) hd) s h

end

end Dossier

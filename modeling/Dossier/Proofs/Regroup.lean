import Dossier.Proofs.History
import Dossier.Proofs.Mark
import Dossier.Proofs.Setters

-- A group that is set to an object is emptied first and then filled field by field, without marks of their own.

namespace Dossier

open Value List

-- Resolution

namespace Cursor

variable {s : Schema} {q : Path}

-- Places reached by the same way in two documents, which have the given values there.
inductive Along (x x' : Value) : Cursor → Cursor → Prop
  | schema {s q d d'} : d.get? q = some x → d'.get? q = some x' →
      Along x x' (.schema s q (some d)) (.schema s q (some d'))
  | field {f} : Along x x' (.field f (some x)) (.field f (some x'))
  | inMixed : Along x x' .inMixed .inMixed
  | lost : Along x x' .lost .lost

theorem spelled_key (hs : s.Meets .wellFormed) (h : (s.field? (q.key k)).isSome ∨ s.isNested (q.key k)) :
    (Seg.key k).Spelled := by
  obtain ⟨e, he, hc⟩ : ∃ e ∈ s.fields, (q.key k).covers e.1 := by
    rcases h with h | h
    · obtain ⟨f, hf⟩ := Option.isSome_iff_exists.mp h
      exact ⟨_, Schema.mem_of_field? hf, Path.covers_refl _⟩
    · simp only [Schema.isNested, Bool.and_eq_true, any_eq_true] at h
      obtain ⟨-, e, he, ha⟩ := h
      exact ⟨e, he, Path.covers_of_isAbove ha⟩
  obtain ⟨r, hr⟩ := Path.covers_iff.mp hc
  have hspelled := (hs.declared he).2.1
  exact hspelled _ (by simp [hr, Path.key])

theorem Along.stepSchema (hs : s.Meets .wellFormed) (hseg : seg.Spelled) (hd : d.get? q = some x)
    (hd' : d'.get? q = some x') (hy : x.child? seg = some y) (hy' : x'.child? seg = some y') :
    Along y y' (stepSchema s q (some d) seg) (stepSchema s q (some d') seg) := by
  have hget : ∀ {d x y : Value}, (Seg.key seg.toKey).Spelled → d.get? q = some x →
      x.child? seg = some y → d.get? (q.key seg.toKey) = some y := by
    intro d x y hkey hd hy
    have : seg = .key seg.toKey := hseg.symm.trans hkey
    rw [Path.key, ← this, get?_append, hd, Option.bind_some, get?, hy]
    rfl
  simp only [Cursor.stepSchema]
  split
  · case _ f hf =>
    have hkey := spelled_key hs (q := q) (.inl (by rw [hf]; rfl))
    rw [Option.bind_some, Option.bind_some, hget hkey hd hy, hget hkey hd' hy']
    exact .field
  · split
    · case isTrue hn =>
      have hkey := spelled_key hs (q := q) (.inr hn)
      exact .schema (hget hkey hd hy) (hget hkey hd' hy')
    · exact .lost

theorem Along.step (h : Along x x' c c') (hc : c.Meets .wellFormed) (hseg : seg.Spelled) (hy : x.child? seg = some y)
    (hy' : x'.child? seg = some y') (hsel : ∀ sub : SubSchema, sub.selectOrBase (some x) = sub.selectOrBase (some x')) :
    Along y y' (c.step seg) (c'.step seg) := by
  cases h with
  | schema hd hd' => exact Along.stepSchema hc hseg hd hd' hy hy'
  | inMixed => exact .inMixed
  | lost => exact .lost
  | @field f =>
    refine step_field₂ (fun _ => rfl) .inMixed .lost (fun sub hs => ?_) fun _ _ => ?_
    · have ht := Field.Meets.type hc
      rw [hs] at ht
      rw [← hsel]
      exact Along.stepSchema (FieldType.Meets.sub (.inl ht)).selectOrBase hseg (get?_nil x) (get?_nil x') hy hy'
    · rw [Option.bind_some, Option.bind_some, hy, hy']
      exact .field

end Cursor

theorem SubSchema.selectOrBase_of_open {sub : SubSchema} {y : Value} (hx : x.field? sub.discriminatorKey = some y)
    (hy : y.get? r = some (.obj fs)) : sub.selectOrBase (some x) = sub.base := by
  simp only [selectOrBase, select, variant?, Option.bind_some, hx]
  cases y with
  | obj => cases sub.variants.isEmpty <;> rfl
  | arr => cases sub.variants.isEmpty <;> rfl
  | null | bool | num | str => cases r <;> simp [get?, child?] at hy

theorem SubSchema.selectOrBase_congr {sub : SubSchema} {x' : Value}
    (h : x.field? sub.discriminatorKey = x'.field? sub.discriminatorKey) :
    sub.selectOrBase (some x) = sub.selectOrBase (some x') := by
  simp only [selectOrBase, select, variant?, Option.bind_some, h]

theorem SubSchema.selectOrBase_setFrom {sub : SubSchema} {seg : Seg} {r : Path}
    (h : x.get? (seg :: r) = some (.obj fs)) :
    sub.selectOrBase (some (setFrom full (.obj gs) (seg :: r) x).2) = sub.selectOrBase (some x) := by
  have hself : (setFrom full (.obj gs) (seg :: r) x).2.get? (seg :: r) = some (.obj gs) :=
    get?_setFrom_self (setFrom_ok_of_get? h)
  cases x with
  | null | bool | num | str => simp [get?, child?] at h
  | arr items =>
    refine selectOrBase_congr ?_
    cases seg with
    | key => simp [setFrom]
    | index i => simp only [setFrom]; split <;> rfl
  | obj fields =>
    rw [setFrom_cons_of_openFields rfl] at hself ⊢
    by_cases hk : seg.toKey = sub.discriminatorKey
    · rw [get?_cons_of_openFields rfl] at h hself
      obtain ⟨y, hy, h⟩ := Option.bind_eq_some_iff.mp h
      obtain ⟨z, hz, hself⟩ := Option.bind_eq_some_iff.mp hself
      rw [hk] at hy hz
      rw [selectOrBase_of_open (x := .obj fields) hy h, selectOrBase_of_open (hk ▸ hz) hself]
    · exact selectOrBase_congr (Entries.get?_insert_ne hk)

namespace Cursor

theorem Along.foldl {x : Value} {c' : Cursor} (h : Along x (setFrom full (.obj gs) p x).2 c c')
    (hc : c.Meets .wellFormed) (hp : p.Spelled) (hx : x.get? p = some (.obj fs)) :
    Along (.obj fs) (.obj gs) (p.foldl Cursor.step c) (p.foldl Cursor.step c') := by
  induction p generalizing x c c' with
  | nil =>
    rw [get?_nil] at hx
    cases hx
    simpa [setFrom] using h
  | cons seg r ih =>
    obtain ⟨hseg, hr⟩ := Path.spelled_cons.mp hp
    have hx' := hx
    rw [get?] at hx'
    cases hy : x.child? seg with
    | none => simp [hy] at hx'
    | some y =>
      rw [hy] at hx'
      have hok : (setFrom full (.obj gs) ([seg] ++ r) x).1 = .ok () := setFrom_ok_of_get? hx
      have hy' := get?_setFrom_append hok
      simp only [get?, hy, singleton_append] at hy'
      have hy' : (setFrom full (.obj gs) (seg :: r) x).2.child? seg =
          some (setFrom full (.obj gs) r y).2 := by
        cases hz : (setFrom full (.obj gs) (seg :: r) x).2.child? seg <;> simp_all
      exact ih (h.step hc hseg hy hy' fun sub => (sub.selectOrBase_setFrom hx).symm)
        (hc.step trivial) hr hx'

end Cursor

-- Values that casts give back

def Field.Fixes (f : Field) (v : Value) : Prop :=
  ∀ ctx e, ctx.strict = none → ((f.cast ctx v).outcome e).1 = .ok v

def Value.isGroup : Value → Bool
  | .obj _ | .null => true
  | _ => false

mutual

-- A value of a group of fields all whose parts are declared and given back by their casts.
def Schema.Fixes (s : Schema) (q : Path) : Value → Prop
  | .obj fields => s.FixesAll q fields
  | _ => True

def Schema.FixesAll (s : Schema) (q : Path) : List (String × Value) → Prop
  | [] => True
  | (k, v) :: rest =>
    (match s.field? (q.key k) with
      | some f => f.Fixes v
      | none => s.isNested (q.key k) ∧ v.isGroup ∧ s.Fixes (q.key k) v) ∧ s.FixesAll q rest

end

theorem Field.Fixes.accept {f : Field} (h : f.Fixes v) (hf : f.Meets .noSetters) (ctx : CastContext)
    (hc : ctx.strict = none) (e : Effects) : ∃ e', (f.accept ctx v).outcome e = (.ok v, e') ∧ e'.queue = e.queue := by
  refine ⟨_, Prod.ext ?_ rfl, f.accept_quiet hf e⟩
  rw [Field.accept_eq_cast hf.rules]
  exact h ctx e hc

-- Groups

namespace Document

variable {d d₁ : Document} {s : Schema} {q : Path} {f : Field}

-- A path at which a schema has a group of fields, or the root of its documents.
def Groups (d : Document) (w : Path) (s : Schema) (q : Path) : Prop :=
  ∃ doc, w.foldl Cursor.step (.schema d.schema Path.root (some d.value)) = .schema s q doc

theorem Groups.meets (h : d.Groups w s q) (hs : d.schema.Meets law) (hr : law (.rules {})) : s.Meets law := by
  obtain ⟨doc, hd⟩ := h
  have hm : (w.foldl Cursor.step (.schema d.schema Path.root (some d.value))).Meets law :=
    Cursor.Meets.foldl hs hr
  rw [hd] at hm
  exact hm

theorem Groups.field (h : d.Groups w s q) (hf : s.field? (q.key k) = some f) :
    d.resolve (w ++ [.key k]) = .field f := by
  obtain ⟨doc, hd⟩ := h
  simp [resolve, Schema.resolve, foldl_append, hd, Cursor.step, Cursor.stepSchema, Seg.toKey, hf,
    Cursor.resolution]

theorem Groups.group (h : d.Groups w s q) (hf : s.field? (q.key k) = none) (hn : s.isNested (q.key k)) :
    d.Groups (w ++ [.key k]) s (q.key k) := by
  obtain ⟨doc, hd⟩ := h
  exact ⟨doc, by simp [foldl_append, hd, Cursor.step, Cursor.stepSchema, Seg.toKey, hf, hn]⟩

theorem Groups.resolve (h : d.Groups w s q) (hq : q ≠ []) : d.resolve w = .nested := by
  obtain ⟨doc, hd⟩ := h
  simp [Document.resolve, Schema.resolve, hd, Cursor.resolution, hq]

theorem Groups.exchange (h : d.Groups w s q) (hs : d.schema.Meets .wellFormed) (hw : w.Spelled)
    (hget : d.get? w = some (.obj fs)) (hschema : d₁.schema = d.schema)
    (hvalue : d₁.value = (d.value.set w (.obj gs)).2) : d₁.Groups w s q := by
  obtain ⟨doc, hd⟩ := h
  have hstart : Cursor.Along d.value (d.value.set w (.obj gs)).2
      (.schema d.schema Path.root (some d.value))
      (.schema d.schema Path.root (some (d.value.set w (.obj gs)).2)) :=
    .schema (get?_nil _) (get?_nil _)
  have halong := hstart.foldl hs hw hget
  rw [Groups, hschema, hvalue]
  rw [hd] at halong
  generalize List.foldl _ _ w = c' at halong ⊢
  cases halong with
  | schema _ _ => exact ⟨_, rfl⟩

-- Silent writes

-- A document in which nothing is known any more of what is strictly below a path, and all else is as it was.
structure Hushed (p : Path) (d d₁ : Document) : Prop where
  linked    : d₁.Linked
  schema    : d₁.schema = d.schema
  populated : d₁.populated = d.populated
  states    : ∀ q, d₁.stateOf? q = if p.isAbove q then none else d.stateOf? q
  arrayOps  : ∀ q, d₁.arrayOps.get? q = if p.isAbove q then none else d.arrayOps.get? q

namespace Hushed

theorem start (h : d.Linked) : Hushed p d (d.detached p) where
  linked := h.detached
  schema := rfl
  populated := rfl
  states _ := stateOf?_detached
  arrayOps _ := arrayOps_detached

variable (h : Hushed p d d₁)

include h

theorem detached (hw : p.covers w) : Hushed p d (d₁.detached w) where
  linked := h.linked.detached
  schema := h.schema
  populated := h.populated
  states q := by
    rw [stateOf?_detached, h.states]
    split
    · case isTrue ha => rw [if_pos (Path.isAbove_of_covers_isAbove hw ha)]
    · rfl
  arrayOps q := by
    rw [arrayOps_detached, h.arrayOps]
    split
    · case isTrue ha => rw [if_pos (Path.isAbove_of_covers_isAbove hw ha)]
    · rfl

theorem write {w : Path} (hw : w ≠ []) : Hushed p d (d₁.write w v).2 := by
  have hl := stable_linked.written (v := v) hw h.linked
  rw [write_eq] at hl ⊢
  exact ⟨hl, h.schema, h.populated, h.states, h.arrayOps⟩

theorem attached : Hushed p d (d₁.attached w f) :=
  ⟨h.linked.attached, h.schema, h.populated, h.states, h.arrayOps⟩

theorem reported {issues : Option Issues} : Hushed p d { d₁ with issues } :=
  ⟨stable_linked.reported h.linked, h.schema, h.populated, h.states, h.arrayOps⟩

theorem markValid : Hushed p d (d₁.markValid w) := by
  obtain ⟨issues, he⟩ := markValid_eq d₁ w
  rw [he]
  exact h.reported

theorem settled : Hushed p d (d₁.settled w f false) := by
  simp only [Document.settled, Bool.false_eq_true, and_false, if_false]
  split
  · exact h.attached.markValid
  · exact h.markValid

end Hushed

-- A group at `w`, at or below `p`, is being filled and has the fields `done` by now.
structure Filling (d : Document) (p w : Path) (s : Schema) (q : Path) (done : List (String × Value))
    (desk : Desk) : Prop where
  hushed  : Hushed p d desk.doc
  queue   : desk.effects.queue = []
  covered : p.covers w
  spelled : w.Spelled
  group   : desk.doc.Groups w s q
  held    : desk.doc.get? w = some (.obj done)

namespace Filling

theorem absent (h : Filling d p w s q done desk) (hk : Entries.get? k done = none) :
    desk.doc.get? (w ++ [.key k]) = none := by
  have := h.held
  rw [Document.get?] at this ⊢
  rw [get?_append, this]
  simp [Value.get?, child?, Seg.toKey, hk]

theorem set_key {x : Value} (h : x.get? w = some (.obj done)) :
    (x.set (w ++ [.key k]) v).2 = (x.set w (.obj (Entries.insert k v done))).2 := by
  have hset : setFrom (w ++ [.key k]) v [.key k] (.obj done) =
      (.ok (), .obj (Entries.insert k v done)) := by
    rw [setFrom_cons_of_openFields rfl]
    simp [setFrom, Seg.toKey]
  rw [Value.set, setFrom_append h (by rw [hset]), hset, ← put_eq_setFrom _ h, Value.set,
    ← put_eq_setFrom _ h]

theorem next (h : Filling d p w s q done desk) (hd : d.schema.Meets .wellFormed) (hh : Hushed p d desk'.doc)
    (hq : desk'.effects.queue = []) (hv : desk'.doc.value = (desk.doc.value.set (w ++ [.key k]) v).2) :
    Filling d p w s q (Entries.insert k v done) desk' := by
  have hv' := hv.trans (set_key h.held)
  refine ⟨hh, hq, h.covered, h.spelled, ?_, ?_⟩
  · exact h.group.exchange (h.hushed.schema ▸ hd) h.spelled h.held
      (hh.schema.trans h.hushed.schema.symm) hv'
  · rw [Document.get?, hv']
    exact get?_setFrom_self (setFrom_ok_of_get? h.held)

end Filling

end Document

namespace Edit

open Document

variable {d : Document} {s : Desk} {q : Path} {f : Field}

theorem fill_field (h : Hushed p d s.doc) (hp : p.covers w) (hw : w ≠ [])
    (hok : (storeField w f none v { silent := true }).outcome s = (.ok (), s')) :
    Hushed p d s'.doc ∧ s'.effects = s.effects ∧ s'.doc.value = (s.doc.value.set w v).2 := by
  rw [outcome_storeField] at hok
  simp only [Option.isSome_none, Bool.false_eq_true, false_and, and_false, if_false, Value.equalOpt,
    Document.modifies, if_true] at hok
  have hd : Hushed p d (if f.type.isStructural then s.doc.detached w else s.doc) ∧
      (if f.type.isStructural then s.doc.detached w else s.doc).value = s.doc.value := by
    split
    · exact ⟨h.detached hp, rfl⟩
    · exact ⟨h, rfl⟩
  split at hok
  · case _ d' hd' =>
    cases hok
    obtain rfl : ((if f.type.isStructural then s.doc.detached w else s.doc).write w v).2 = d' := by
      rw [hd']
    refine ⟨(hd.1.write hw).settled, rfl, ?_⟩
    rw [value_settled, write_eq, hd.2]
  · cases hok

theorem fill_null (h : Hushed p d s.doc) (hp : p.covers w) (hw : w ≠ [])
    (hok : (setNestedNull w prior { silent := true }).outcome s = (.ok (), s')) :
    Hushed p d s'.doc ∧ s'.effects = s.effects ∧ s'.doc.value = (s.doc.value.set w .null).2 := by
  rw [outcome_setNestedNull] at hok
  simp only [Document.modifies, if_true, Bool.false_eq_true, if_false] at hok
  split at hok
  · case _ d' hd' =>
    cases hok
    obtain rfl : ((s.doc.detached w).write w .null).2 = d' := by rw [hd']
    refine ⟨((h.detached hp).write hw).markValid, rfl, ?_⟩
    rw [value_markValid, write_eq]
    rfl
  · cases hok

mutual

theorem fill_path (hd : d.schema.Meets .noSetters) (hd' : d.schema.Meets .wellFormed) :
    (v : Value) → v.Canonical → ∀ {w S q k done s s'}, Filling d p w S q done s →
    Entries.get? k done = none → S.FixesAll q [(k, v)] →
    (setPath v (w ++ [.key k]) { silent := true }).outcome s = (.ok (), s') →
    Filling d p w S q (Entries.insert k v done) s' ∧
      s'.doc.value = (s.doc.value.set (w ++ [.key k]) v).2
  | v, hv, w, S, q, k, done, s, s', h, hk, hfix, hok => by
    have hne : w ++ [.key k] ≠ [] := by simp
    have hcov : p.covers (w ++ [.key k]) := Path.covers_trans h.covered (Path.covers_iff.mpr ⟨_, rfl⟩)
    rw [outcome_setPath hne] at hok
    split at hok
    · cases hok
    have hfix := hfix.1
    cases hf : S.field? (q.key k) with
    | some f =>
      rw [hf] at hfix
      rw [h.group.field hf] at hok
      dsimp only at hok hfix
      have hS : S.Meets .noSetters := h.group.meets (h.hushed.schema ▸ hd) rfl
      obtain ⟨e, he, hq⟩ := hfix.accept (hS.field (Schema.mem_of_field? hf))
        (castContext s.doc (w ++ [.key k]) { silent := true }) rfl s.effects
      rw [outcome_setField, he, h.absent hk] at hok
      obtain ⟨hh, heff, hval⟩ := fill_field (s := { s with effects := e }) h.hushed hcov hne hok
      exact ⟨h.next hd' hh (by rw [heff]; exact hq.trans h.queue) hval, hval⟩
    | none =>
      rw [hf] at hfix
      obtain ⟨hn, hgroup, hfix⟩ := hfix
      have hg := h.group.group hf hn
      rw [hg.resolve (by simp [Path.key])] at hok
      dsimp only at hok
      match v, hv, hgroup, hfix with
      | .null, _, _, _ =>
        obtain ⟨hh, heff, hval⟩ := fill_null h.hushed hcov hne hok
        exact ⟨h.next hd' hh (by rw [heff]; exact h.queue) hval, hval⟩
      | .obj fields, hv, _, hfix =>
        obtain ⟨hset, s₁, hkeys, rfl⟩ := setGroup_ok hok
        have hh := (h.hushed.detached hcov).write (v := .obj []) hne
        have hval : ((s.doc.detached (w ++ [.key k])).write (w ++ [.key k]) (.obj [])).2.value =
            (s.doc.value.set (w ++ [.key k]) (.obj [])).2 := by
          rw [write_eq]
          rfl
        have hS : S.Meets .wellFormed := h.group.meets (h.hushed.schema ▸ hd') trivial
        have hnext : Filling d p w _ _ _ ⟨_, s.effects⟩ := h.next hd' hh h.queue hval
        have hfilling : Filling d p (w ++ [.key k]) S (q.key k) []
            { s with doc := ((s.doc.detached (w ++ [.key k])).write (w ++ [.key k]) (.obj [])).2 } := {
          hushed := hh
          queue := h.queue
          covered := hcov
          spelled := Path.spelled_append.mpr
            ⟨h.spelled, by simpa using Cursor.spelled_key hS (.inr hn)⟩
          group := hnext.group.group hf hn
          held := by
            rw [Document.get?, hval]
            exact get?_setFrom_self hset }
        have ⟨hsorted, hcanon⟩ := hv.openFields rfl
        obtain ⟨hlast, hval'⟩ := fill_keys hd hd' fields hcanon hfilling hsorted hfix hkeys
        have hval : (s₁.doc.markValid (w ++ [.key k])).value =
            (s.doc.value.set (w ++ [.key k]) (.obj fields)).2 := by
          rw [value_markValid, hval', hval, Value.set, Value.set, setFrom_setFrom hset]
          rfl
        simp only [not_true_eq_false, false_and, if_false]
        exact ⟨h.next hd' hlast.hushed.markValid hlast.queue hval, hval⟩

theorem fill_keys (hd : d.schema.Meets .noSetters) (hd' : d.schema.Meets .wellFormed) :
    (fields : List (String × Value)) → (∀ e ∈ fields, e.2.Canonical) → ∀ {w S q done s s'},
    Filling d p w S q done s → Entries.Sorted (done ++ fields) → S.FixesAll q fields →
    (setKeys fields w { silent := true }).outcome s = (.ok (), s') →
    Filling d p w S q (done ++ fields) s' ∧
      s'.doc.value = (s.doc.value.set w (.obj (done ++ fields))).2
  | [], _, w, S, q, done, s, s', h, hsorted, hfix, hok => by
    rw [setKeys] at hok
    cases hok
    rw [append_nil]
    exact ⟨h, by rw [Value.set, setFrom_of_get? h.held]⟩
  | (k, v) :: rest, hc, w, S, q, done, s, s', h, hsorted, hfix, hok => by
    have ⟨hv, hrest⟩ := forall_mem_cons.mp hc
    rw [setKeys] at hok
    obtain ⟨_, s₁, h₁, h₂⟩ := ok_of_bind_ok hok
    have hsplit : done ++ (k, v) :: rest = (done ++ [(k, v)]) ++ rest := by simp
    rw [hsplit] at hsorted ⊢
    have hfirst := (pairwise_append.mp hsorted).1
    have hk : Entries.get? k done = none := Entries.get?_eq_none_iff.mpr fun e he heq => by
      have := (pairwise_append.mp hfirst).2.2 e he _ (mem_singleton_self _)
      rw [heq, Std.ReflOrd.compare_self] at this
      cases this
    obtain ⟨hnext, hval⟩ := fill_path hd hd' v hv h hk ⟨hfix.1, trivial⟩ h₁
    rw [Entries.insert_eq_append hfirst] at hnext
    obtain ⟨hlast, hval'⟩ := fill_keys hd hd' rest hrest hnext hsorted hfix.2 h₂
    refine ⟨hlast, ?_⟩
    rw [hval', hval, Filling.set_key h.held, Value.set, Value.set,
      setFrom_setFrom (setFrom_ok_of_get? h.held)]
    rfl

end

end Edit

end Dossier

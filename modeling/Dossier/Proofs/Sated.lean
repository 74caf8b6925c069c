import Mathlib.Data.List.TakeWhile
import Dossier.Proofs.Fare
import Dossier.Proofs.Outset

-- Fields that are not nullable are not null in documents that were made of values and then changed by sets and
-- appends.

namespace Dossier

open Value Edit Path List

namespace Edit

theorem storeField_cases {p : Path} {f : Field} (s : Desk) :
    ((storeField p f prior v opts).outcome s).2.doc.schema = s.doc.schema ∧
    (((storeField p f prior v opts).outcome s).2.doc.value = s.doc.value ∨
      ((storeField p f prior v opts).outcome s).2.doc.value = (s.doc.value.set p v).2) := by
  let I : Document → Prop := fun d => d.schema = s.doc.schema ∧ (d.value = s.doc.value ∨ d.value = (s.doc.value.set p v).2)
  let J : Document → Prop := fun d => d.schema = s.doc.schema ∧ d.value = s.doc.value
  have hvalid : ∀ {d}, I d → I (d.markValid p) := by
    intro d hd
    obtain ⟨issues, he⟩ := Document.markValid_eq d p
    rw [he]
    exact hd
  have hwritten : ∀ {d}, J d → I (d.write p v).2 := by
    rintro d ⟨hschema, hvalue⟩
    rw [Document.write_eq]
    exact ⟨hschema, .inr (by rw [hvalue])⟩
  refine storeField_rec (I := I) (J := J) (d := s.doc) ⟨rfl, .inl rfl⟩ (hvalid ⟨rfl, .inl rfl⟩)
    (fun _ => ⟨rfl, rfl⟩) (fun _ => ⟨rfl, rfl⟩)
    (fun hd _ => hwritten hd) fun hd _ => ?_
  have hw := hwritten hd
  exact Document.settled_rec (fun _ => hw) (fun _ => hw) (fun hd => hd) (fun hd => hd) hvalid

end Edit

-- Sated desks

variable {schema : Schema}

structure Document.Sated (A : Field → Prop) (schema : Schema) (d : Document) : Prop where
  home  : d.schema = schema
  value : schema.Sated A d.value

-- The document on a desk is sated, and only values of one kind are asked to be written.
structure Desk.Sated (A : Field → Prop) (E : Value → Prop) (schema : Schema) (s : Desk) : Prop where
  doc   : s.doc.Sated A schema
  asked : ∀ a ∈ s.effects.queue, E a.2

theorem Document.Sated.of_eq {d d' : Document} (h : d.Sated A schema) (hschema : d'.schema = d.schema)
    (hvalue : d'.value = d.value) : d'.Sated A schema :=
  ⟨hschema.trans h.home, hvalue ▸ h.value⟩

-- Values of the kind `V` can be given to a schema, and what its setters ask for can be, too.
structure Schema.Served (A : Field → Prop) (V E : Value → Prop) (schema : Schema) : Prop where
  fare   : Fare A V
  fed    : schema.Meets (.fed V E)
  tags   : schema.Meets .noVariants ∨ ∀ e ∈ schema.fields, ∀ t ∈ e.2.schemas, t.Untagged
  -- What setters ask for may be written anywhere.
  asked  : ∀ v, E v → V v ∧ schema.Meets .noVariants

theorem Schema.exists_field_of_resolve {v : Value} {p : Path} (h : schema.resolve v p = .field f) :
    ∃ e ∈ schema.fields, f.schemas ⊆ e.2.schemas := by
  suffices ∀ (q : Path) (o : Option Value), (p.foldl Cursor.step (.schema schema q o)).resolution = .field f →
      ∃ e ∈ schema.fields, f.schemas ⊆ e.2.schemas from this _ _ h
  clear h
  intro q o hf
  induction p generalizing q with
  | nil =>
    simp only [foldl_nil, Cursor.resolution] at hf
    split at hf <;> cases hf
  | cons seg p ih =>
    simp only [foldl_cons, Cursor.step, Cursor.stepSchema] at hf
    split at hf
    · case _ g hg =>
      refine ⟨_, Schema.mem_of_field? hg, ?_⟩
      have hsub := Cursor.schemas_foldl (p := p) (c := .field g (o.bind (·.get? (q.key seg.toKey))))
      generalize p.foldl Cursor.step _ = c at hf hsub
      cases c with
      | schema => simp only [Cursor.resolution] at hf; split at hf <;> cases hf
      | inMixed | lost => cases hf
      | field =>
        cases hf
        exact hsub
    · split at hf
      · exact ih _ hf
      · exact absurd hf (Cursor.resolution_ne_field (Cursor.isRaw_foldl rfl))

namespace Schema.Served

variable {f : Field}

theorem wellFormed (h : schema.Served A V E) : schema.Meets .wellFormed :=
  h.fed.wellFormed_of_fed

theorem field {d : Document} {p : Path} (h : schema.Served A V E) (hd : d.schema = schema)
    (hf : d.resolve p = .field f) : f.Meets (.fed V E) ∧ f.Tagless := by
  subst hd
  refine ⟨Document.resolve_meets h.fed ⟨trivial, by simp, by simp⟩ hf, ?_⟩
  refine h.tags.imp (fun hv => Document.resolve_meets hv trivial hf) fun ht t hmem => ?_
  obtain ⟨e, he, hsub⟩ := Schema.exists_field_of_resolve hf
  exact ht e he t (hsub hmem)

theorem declared {p : Path} (h : schema.Served A V E) (hf : (p, f) ∈ schema.fields) : f.Meets (.fed V E) ∧ f.Tagless :=
  ⟨h.fed.field hf, h.tags.imp (fun hv => hv.field hf) fun ht => ht _ hf⟩

end Schema.Served

namespace Document

variable {d : Document} {p : Path} {f : Field}

-- The path leaves the keys that tell the variants of the documents around it.
def Minds (d : Document) (p : Path) : Prop :=
  ∀ g, d.Governs p g → p.Distinct g

-- What an assignment to a path comes to: null is only where it may be, and the paths to it lead where they did.
structure Amid (A : Field → Prop) (E : Value → Prop) (schema : Schema) (p : Path) (s s' : Desk) : Prop where
  sated : s'.Sated A E schema
  same  : ∀ x : Path, x.covers p → s'.doc.resolve x = s.doc.resolve x

theorem appended_holds (d : Document) (p : Path) (f : Field) (n : Nat) (pushed : List Value) :
    (d.appended p f n pushed).schema = d.schema ∧ (d.appended p f n pushed).value = d.value := by
  rw [appended]
  split <;> exact ⟨rfl, rfl⟩

namespace Amid

theorem refl (h : s.Sated A E schema) : Amid A E schema p s s :=
  ⟨h, fun _ _ => rfl⟩

theorem of_eq (h : Amid A E schema p s s') (hschema : s''.doc.schema = s'.doc.schema)
    (hvalue : s''.doc.value = s'.doc.value) (hasked : ∀ a ∈ s''.effects.queue, E a.2) : Amid A E schema p s s'' where
  sated := ⟨h.sated.doc.of_eq hschema hvalue, hasked⟩
  same x hx := by
    rw [← h.same x hx, resolve, resolve, hschema, hvalue]

theorem write (h : s.Sated A E schema) (hw : schema.Meets .wellFormed) (hp : s.doc.Minds p) (hne : p ≠ [])
    (hfield : ∀ g, s.doc.resolve p = .field g → g.Sated A y)
    (hnested : s.doc.resolve p = .nested → ∀ r, y.Has r → r = []) (hschema : s'.doc.schema = s.doc.schema)
    (hvalue : s'.doc.value = (s.doc.value.set p y).2) (hasked : ∀ a ∈ s'.effects.queue, E a.2) :
    Amid A E schema p s s' := by
  refine ⟨⟨⟨hschema.trans h.doc.home, ?_⟩, hasked⟩, fun x hx => ?_⟩
  · rw [hvalue, ← h.doc.home]
    exact sated_write (h.doc.home ▸ h.doc.value) (h.doc.home ▸ hw) hp hne hfield hnested
  · rw [resolve, hschema, hvalue]
    exact resolve_set hp y hx

theorem setField (h : s.Sated A E schema) (hs : schema.Served A V E) (hp : s.doc.Minds p)
    (hf : s.doc.resolve p = .field f) (hv : V v) : Amid A E schema p s ((Edit.setField p f v opts).outcome s).2 := by
  obtain ⟨hfed, htags⟩ := hs.field h.doc.home hf
  have haccept : Cast.Yields (fun a => E a.2) (f.accept (castContext s.doc p opts) v) (f.Sated A) :=
    f.accept_sated hs.fare hfed htags hv
  have hasked := haccept.queue h.asked
  have hsated := (haccept s.effects).2
  rw [outcome_setField]
  rcases hr : (f.accept (castContext s.doc p opts) v).outcome s.effects with ⟨(e | e) | w, effects⟩
  all_goals rw [hr] at hasked hsated
  · exact (refl h).of_eq rfl rfl hasked
  · exact (refl h).of_eq rfl rfl hasked
  · obtain ⟨hschema, hvalue⟩ := storeField_cases (p := p) (f := f) (v := w) { s with effects }
    have heffects : ((storeField p f (s.doc.get? p) w opts).outcome { s with effects }).2.effects = effects :=
      effects_storeField
    rw [← heffects] at hasked
    rcases hvalue with hvalue | hvalue
    · exact (refl h).of_eq hschema hvalue hasked
    · refine write h hs.wellFormed hp (ne_nil_of_resolve hf) (fun g hg => ?_) (fun hn => ?_) hschema hvalue hasked
      · rw [hf] at hg
        cases hg
        exact hsated w rfl
      · rw [hf] at hn
        cases hn

theorem minds (h : Amid A E schema p s s') (hp : s.doc.Minds p) (hn : p = [] ∨ s.doc.resolve p = .nested) (k : String) :
    s'.doc.Minds (p ++ [.key k]) := by
  rintro g ⟨x, fld, sub, hx, hfld, hsub⟩
  have hx := isAbove_append_iff.mp hx
  rw [h.same x hx] at hfld
  rcases eq_or_isAbove_of_covers hx with rfl | hx
  · rcases hn with rfl | hn
    · cases hfld
    · rw [hn] at hfld
      cases hfld
  · exact (hp g ⟨x, fld, sub, hx, hfld, hsub⟩).of_covers (covers_append p _)

end Amid

theorem course_sated (hs : schema.Served A V E) :
    Course fun p v s s' => V v → s.doc.Minds p → s.Sated A E schema → Amid A E schema p s s' where
  refl _ _ h := .refl h
  field hf hv hp h := .setField h hs hp hf hv
  taken hne hr _ hp h := by
    refine .write h hs.wellFormed hp hne (fun g hg => ?_) (fun hn => ?_) (by rw [write_eq]) (by rw [write_eq]) h.asked
    · rcases hr with hr | hr <;> rw [hr] at hg <;> cases hg
    · rcases hr with hr | hr <;> rw [hr] at hn <;> cases hn
  emptied hne hn hw _ hp h := by
    refine .write h hs.wellFormed hp hne (fun g hg => ?_) (fun _ r hr => ?_) (by rw [write_eq]; rfl) (by rw [write_eq]; rfl)
      h.asked
    · rw [hn] at hg
      cases hg
    · rcases hw with rfl | rfl
      · cases hr
        rfl
      · cases hr with
        | here => rfl
        | field hc => cases hc
  marked _ _ hR hv hp h := (hR hv hp h).of_eq rfl rfl (hR hv hp h).sated.asked
  reported hR hv hp h := (hR hv hp h).of_eq rfl rfl (hR hv hp h).sated.asked
  inner {p _ _ _ fields k x} hn hm hR hR' hv hp h := by
    have hamid := hR hv hp h
    have hinner := hR' ((hs.fare.parts.obj.mp hv).2 _ hm) (hamid.minds hp hn k) hamid.sated
    refine ⟨hinner.sated, fun y hy => ?_⟩
    rw [hinner.same y (covers_trans hy (covers_append p _)), hamid.same y hy]

theorem minds_top {seg : Seg} : d.Minds [seg] := by
  rintro g ⟨x, fld, sub, hx, hfld, -⟩
  obtain rfl : x = [] := covers_nil.mp (isAbove_append_iff.mp hx)
  cases hfld

theorem minds_of_noVariants (h : d.schema.Meets .noVariants) : d.Minds p := by
  rintro g ⟨x, fld, sub, -, hfld, hsub, hv, -⟩
  have hm := (resolve_meets h trivial hfld).type
  rw [hsub] at hm
  exact absurd (FieldType.Meets.sub (.inl hm)).variants hv

theorem Minds.of_eq {d' : Document} (h : d.Minds p) (hschema : d'.schema = d.schema) (hvalue : d'.value = d.value) :
    d'.Minds p := by
  rintro g ⟨x, fld, sub, hx, hfld, hsub⟩
  refine h g ⟨x, fld, sub, hx, ?_, hsub⟩
  rw [← hfld, resolve, resolve, hschema, hvalue]

end Document

namespace Desk.Sated

variable {s : Desk} {p : Path}

section

variable (h : s.Sated A E schema)

include h

theorem of_eq {s' : Desk} (hschema : s'.doc.schema = s.doc.schema) (hvalue : s'.doc.value = s.doc.value)
    (hasked : ∀ a ∈ s'.effects.queue, E a.2) : s'.Sated A E schema :=
  ⟨h.doc.of_eq hschema hvalue, hasked⟩

theorem setPath (hs : schema.Served A V E) (hv : V v) (hp : s.doc.Minds p) :
    ((Edit.setPath v p opts).outcome s).2.Sated A E schema :=
  ((Document.course_sated hs).setPath v p opts s hv hp h).sated

theorem setAsked {a : Path × Value} (hs : schema.Served A V E) (ha : E a.2) :
    ((Edit.setPath a.2 a.1 opts).outcome s).2.Sated A E schema :=
  h.setPath hs (hs.asked _ ha).1 (Document.minds_of_noVariants (h.doc.home ▸ (hs.asked _ ha).2))

theorem unasked : Desk.Sated A E schema { s with effects.queue := [] } :=
  h.of_eq rfl rfl (by simp)

theorem settle (hs : schema.Served A V E) (opts : SetOptions) (n : Nat) :
    ((Edit.settle opts n).outcome s).2.Sated A E schema :=
  settle_rec (fun _ => unasked) (fun _ => asked) (fun _ _ ha h => h.setAsked hs ha) h

end

theorem opened (h : s.doc.Sated A schema) :
    Desk.Sated A E schema ⟨s.doc.openChanges, { s.effects with queue := [] }⟩ := by
  rw [Document.openChanges_eq]
  exact ⟨h.of_eq rfl rfl, by simp⟩

theorem set (h : s.doc.Sated A schema) (hs : schema.Served A V E) (hv : V v) (hp : s.doc.Minds p) :
    ((Edit.set p v opts).outcome s).2.Sated A E schema := by
  have hminds : s.doc.openChanges.Minds p := by
    rw [Document.openChanges_eq]
    exact hp.of_eq rfl rfl
  exact set_rec (fun _ => unasked) (fun _ => asked) (fun _ _ ha h => h.setAsked hs ha) ((opened h).setPath hs hv hminds)

end Desk.Sated

-- Appends

theorem Value.get?_of_items {o : Option Value} (h : items? o = some items) (hne : items ≠ []) :
    o = some (.arr items) := by
  rcases o with _ | (_ | _ | _ | _ | _ | _) <;> cases h
  · exact absurd rfl hne
  · exact absurd rfl hne
  · rfl

theorem Document.sated_append {d : Document} (h : d.schema.Sated A d.value) (hw : d.schema.Meets .wellFormed)
    (hp : d.Minds p) (hf : d.resolve p = .field f) (ha : f.type.isArray) (hel : f.element? = some el)
    (hitems : Value.items? (d.get? p) = some items) (hpushed : ∀ w ∈ pushed, el.Sated A w) :
    d.schema.Sated A (d.value.set p (.arr (items ++ pushed))).2 := by
  refine sated_set h hw hp (ne_nil_of_resolve hf) (fun hok q g hkeys hq hb hg => ?_) fun hn => ?_
  · have hfg := resolve_of_alias hp hok hkeys hq hg
    rw [hf] at hfg
    cases hfg
    refine Field.Sated.append ?_ ha hel hpushed
    by_cases hnil : items = []
    · exact Field.sated_nil hnil
    · have hget : d.value.get? p = some (.arr items) := get?_of_items hitems hnil
      have hold : d.value.Has q := hq.of_setFrom_self hkeys (by rw [hget]; rfl)
      have hres : d.resolve q = .field f := by
        rw [← hg, resolve_of_set hp hok hq]
        intro y hy hpy
        obtain ⟨t, ht, rfl⟩ := isAbove_iff.mp hy
        have hlen := congrArg List.length hkeys
        have hle := hpy.length_le
        have hpos := length_pos_iff.mpr ht
        simp only [length_map, length_append] at hlen hle
        omega
      obtain ⟨c, hc⟩ := Option.isSome_iff_exists.mp hold.isSome
      obtain rfl := eq_of_get?_keys hkeys hc hget
      exact h.field hw hold hb hres hc
  · rw [hf] at hn
    cases hn

namespace Desk.Sated

variable {p : Path}

theorem push (h : s.doc.Sated A schema) (hs : schema.Served A V E) (hvs : ∀ v ∈ vs, V v) (hp : s.doc.Minds p) :
    ((Edit.push p vs).outcome s).2.doc.Sated A schema := by
  have hwritten {f el : Field} {items pushed : List Value} {s' : Desk} (ha : Appending p vs s f el items pushed s') :
      (s.doc.openChanges.write p (.arr (items ++ pushed))).2.Sated A schema ∧ ∀ a ∈ s'.effects.queue, E a.2 := by
    obtain ⟨hfed, htags⟩ := hs.field h.home ha.resolve
    have hel : el.Tagless := htags.imp (fun hv => hv.element trivial ha.element) fun ht => by
      rwa [Field.schemas_element ha.element]
    obtain ⟨-, hasked, hpushed⟩ := ha.spec fun _ _ hv =>
      Field.cast_sated hs.fare (hfed.element ⟨trivial, by simp, by simp⟩ ha.element) hel _ (hvs _ hv)
    refine ⟨?_, hasked⟩
    rw [Document.openChanges_eq, Document.write_eq]
    refine ⟨h.home, ?_⟩
    rw [← h.home]
    exact Document.sated_append (h.home ▸ h.value) (h.home ▸ hs.wellFormed) hp ha.resolve
      (Document.arrayField?_eq_some_iff.mp ha.field).2 ha.element ha.stored hpushed
  refine push_rec h (fun _ => (opened (E := E) h).doc.of_eq rfl rfl) (fun ha _ => (hwritten ha).1)
    fun {f el items pushed s'} ha _ => ?_
  obtain ⟨hsated, hasked⟩ := hwritten ha
  let d := (s.doc.openChanges.write p (.arr (items ++ pushed))).2
  obtain ⟨hschema, hvalue⟩ := d.appended_holds p f items.length pushed
  have hdue : Desk.Sated A E schema ⟨d.appended p f items.length pushed, s'.effects⟩ :=
    ⟨hsated.of_eq hschema hvalue, hasked⟩
  exact (hdue.settle hs {} maxRounds).doc

-- New documents

theorem fillDefaults (h : s.Sated A E schema) (hs : schema.Served A V E) :
    ((Edit.fillDefaults schema.fields).outcome s).2.Sated A E schema := by
  have hmade {p : Path} {f : Field} {view : View} {ctx : CastContext} (hm : (p, f) ∈ schema.fields) :
      Cast.Yields (fun a => E a.2) (f.default? view ctx) fun o => ∀ w, o = some w → f.Sated A w :=
    f.default_sated hs.fare (hs.declared hm).1 (hs.declared hm).2
  refine fillDefaults_rec (fun _ _ _ h => h.of_eq rfl rfl h.asked)
    (fun s p f view ctx hm h => h.of_eq rfl rfl ((hmade hm).queue h.asked))
    (fun s p f view ctx w hm _ hw _ h => ⟨⟨h.doc.home, ?_⟩, (hmade hm).queue h.asked⟩) s h
  have hres : s.doc.resolve p = .field f := by
    rw [Document.resolve, h.doc.home]
    exact Schema.resolve_declared hs.wellFormed.apart hm
  have hminds : s.doc.Minds p := by
    rintro g ⟨x, fld, sub, hx, hfld, -⟩
    rw [Document.resolve, h.doc.home] at hfld
    exact absurd hfld (Schema.not_field_of_isAbove hs.wellFormed (.inr ⟨(p, f), hm, hx⟩) fld)
  have hwritten : Document.Amid A E schema p s ⟨{ s.doc with value := (s.doc.value.set p w).2 }, s.effects⟩ := by
    refine .write h hs.wellFormed hminds (Document.ne_nil_of_resolve hres) (fun g hg => ?_) (fun hn => ?_) rfl rfl h.asked
    · rw [hres] at hg
      cases hg
      exact (hmade hm s.effects).2 _ hw w rfl
    · rw [hres] at hn
      cases hn
  exact hwritten.sated.doc.value

end Desk.Sated

namespace Document

variable {d start : Document} {initial : Value} {effects : Effects}

theorem sated_create (hs : schema.Served A V E) (hv : V initial) (h : (create schema initial effects).1 = .ok d) :
    d.Sated A schema := by
  obtain ⟨fields, -, rfl, -, -⟩ := ok_of_create h
  obtain ⟨s, s', -, hsettle, hfill, rfl⟩ := given_of_create h
  have hblank : Desk.Sated A E schema ⟨{ schema, value := .obj [], isNew := true }, { effects with queue := [] }⟩ :=
    ⟨⟨rfl, (Schema.stocked_empty : schema.Stocked A False (.obj [])).sated⟩, by simp⟩
  have hgiven : (given schema fields effects).Sated A E schema := ((course_sated hs).setKeys
    (s := ⟨{ schema, value := .obj [], isNew := true }, { effects with queue := [] }⟩) fields (fun _ he => he) (.inl rfl) {}
    ((course_sated hs).refl (v := .obj fields)) hv (by rintro g ⟨x, -, -, hx, -⟩; simp at hx) hblank).sated
  have hfilled := (hgiven.settle hs {} maxRounds).fillDefaults hs
  rw [hsettle, hfill] at hfilled
  exact seedRequired_rec hfilled.doc fun _ hd => hd.of_eq rfl rfl

end Document

-- Calls

namespace Call

variable {c : Call} {calls : List Call}

-- Sets and appends that leave the keys which tell the variants of the documents around their paths.
def Mindful (d : Document) : Call → Prop
  | set p .. | push p .. => d.Minds p
  | _ => False

def Brings (V : Value → Prop) : Call → Prop
  | set _ v _ => V v
  | push _ vs => ∀ v ∈ vs, V v
  | _ => True

theorem Brings.and (h : c.Brings V) (h' : c.Brings W) : c.Brings fun v => V v ∧ W v := by
  cases c with
  | set => exact ⟨h, h'⟩
  | push => exact fun v hv => ⟨h v hv, h' v hv⟩
  | pull | mark | unmark | populate | depopulate | report | commit | rollback => trivial

theorem sated_run (hs : schema.Served A V E) (hm : c.Mindful s.doc) (hb : c.Brings V) (h : s.doc.Sated A schema) :
    (c.run s).doc.Sated A schema := by
  cases c with
  | set => exact (Desk.Sated.set h hs hb hm).doc
  | push => exact Desk.Sated.push h hs hb hm
  | pull | mark | unmark | populate | depopulate | report | commit | rollback => exact hm.elim

theorem sated_runAll (hs : schema.Served A V E) (hc : Throughout Mindful calls s) (hb : ∀ c ∈ calls, c.Brings V)
    (h : s.doc.Sated A schema) : (runAll calls s).doc.Sated A schema := by
  induction calls generalizing s with
  | nil => exact h
  | cons c calls ih =>
    obtain ⟨hbc, hb⟩ := forall_mem_cons.mp hb
    exact ih hc.2 hb (sated_run hs hc.1 hbc h)

end Call

-- Blank strings

namespace Value

mutual

def texts : Value → List String
  | .str s => [s]
  | .arr items => textsOfItems items
  | .obj fields => textsOfFields fields
  | _ => []

def textsOfItems : List Value → List String
  | [] => []
  | v :: vs => v.texts ++ textsOfItems vs

def textsOfFields : List (String × Value) → List String
  | [] => []
  | (_, v) :: fields => v.texts ++ textsOfFields fields

end

theorem mem_textsOfItems : s ∈ textsOfItems items ↔ ∃ v ∈ items, s ∈ v.texts := by
  induction items with
  | nil => simp [textsOfItems]
  | cons v vs ih => simp [textsOfItems, ih]

theorem mem_textsOfFields : s ∈ textsOfFields fields ↔ ∃ e ∈ fields, s ∈ e.2.texts := by
  induction fields with
  | nil => simp [textsOfFields]
  | cons e fields ih => simp [textsOfFields, ih]

def Inked (v : Value) : Prop :=
  ∀ s ∈ v.texts, trimChars s.toList ≠ []

instance (v : Value) : Decidable v.Inked :=
  inferInstanceAs (Decidable (∀ s ∈ v.texts, trimChars s.toList ≠ []))

theorem hereditary_inked : Hereditary fun v => v.Canonical ∧ v.Inked where
  null := ⟨trivial, by simp [Inked, texts]⟩
  arr {items} := by
    have hitems : (Value.arr items).Inked ↔ ∀ v ∈ items, v.Inked := by
      simp only [Inked, texts, mem_textsOfItems, forall_exists_index, and_imp]
      exact ⟨fun h v hv s hs => h s v hv hs, fun h s v hv hs => h v hv s hs⟩
    rw [hitems, hereditary_canonical.arr]
    exact forall₂_and.symm
  obj {fields} := by
    have hfields : (Value.obj fields).Inked ↔ ∀ e ∈ fields, e.2.Inked := by
      simp only [Inked, texts, mem_textsOfFields, forall_exists_index, and_imp]
      exact ⟨fun h v hv s hs => h s v hv hs, fun h s v hv hs => h v hv s hs⟩
    rw [hfields, hereditary_canonical.obj, and_assoc]
    exact and_congr_right fun _ => forall₂_and.symm

end Value

theorem fare_canonical : Fare (fun f => f.type = .number) Canonical :=
  ⟨hereditary_canonical, fun _ => trivial, fun _ _ h _ _ => h⟩

theorem fare_inked : Fare (fun _ => False) fun v => v.Canonical ∧ v.Inked :=
  ⟨hereditary_inked, fun s => ⟨trivial, forall_mem_singleton.mpr (s.inked _)⟩,
    fun _ _ _ ht hblank => forall_mem_singleton.mp ht.2 hblank⟩

namespace SchemaLaw

variable {part : SchemaPart}

theorem feeds_and (h : feeds V V part) (h' : feeds W W part) :
    feeds (fun v => V v ∧ W v) (fun v => V v ∧ W v) part := by
  cases part with
  | variants | paths => trivial
  | rules r =>
    refine ⟨fun d hd => ?_, fun setter hm input v hv => ?_⟩
    · have hV := h.1 d hd
      have hW := h'.1 d hd
      cases d with
      | literal => exact ⟨hV, hW⟩
      | generate => exact fun view v hv => ⟨hV view v hv, hW view v hv⟩
      | freshId => trivial
    · obtain ⟨hV, hasked⟩ := h.2 setter hm input v hv.1
      obtain ⟨hW, hasked'⟩ := h'.2 setter hm input v hv.2
      exact ⟨⟨hV, hW⟩, fun e he => ⟨hasked e he, hasked' e he⟩⟩

theorem feeds_of_siblings (h : feeds V V part) (hs : siblings (fun _ => False) part) :
    feeds V (fun _ => False) part := by
  cases part with
  | variants | paths => trivial
  | rules r => exact ⟨h.1, fun setter hm input v hv => ⟨(h.2 setter hm input v hv).1, hs setter hm input v⟩⟩

end SchemaLaw

instance : Decidable schema.Untagged :=
  inferInstanceAs (Decidable (∀ e ∈ schema.fields, e.1 = [.key schema.options.discriminatorKey] →
    e.2.rules.hasDefault = false ∧ e.2.rules.setters = []))

-- There are no variants; or they are told by keys that are given by hand only, and setters ask for no further
-- writes.
def Schema.Steady (schema : Schema) : Prop :=
  schema.Meets .noVariants ∨
    schema.Meets (.siblings fun _ => False) ∧ ∀ e ∈ schema.fields, ∀ t ∈ e.2.schemas, t.Untagged

theorem Schema.Steady.served (h : schema.Steady) (hfare : Fare A V) (hw : schema.Meets .wellFormed)
    (hfeeds : schema.Meets (.feeds V V)) : ∃ E, schema.Served A V E := by
  rcases h with hnone | ⟨hsiblings, htags⟩
  · exact ⟨V, hfare, fun part hp => ⟨hw part hp, hfeeds part hp⟩, .inl hnone, fun v hv => ⟨hv, hnone⟩⟩
  · exact ⟨fun _ => False, hfare, fun part hp => ⟨hw part hp,
      SchemaLaw.feeds_of_siblings (hfeeds part hp) (hsiblings part hp)⟩,
      .inr htags, fun v hv => hv.elim⟩

namespace Document

variable {start : Document} {initial : Value} {effects effects' : Effects} {calls : List Call}

theorem sated_reached (hsteady : schema.Steady) (hfare : Fare A V) (hw : schema.Meets .wellFormed)
    (hfeeds : schema.Meets (.feeds V V)) (hv : V initial) (hstart : (create schema initial effects).1 = .ok start)
    (hcalls : Call.Throughout Call.Mindful calls ⟨start, effects'⟩) (hgiven : ∀ c ∈ calls, c.Brings V) :
    (Call.runAll calls ⟨start, effects'⟩).doc.Sated A schema := by
  obtain ⟨E, hs⟩ := hsteady.served hfare hw hfeeds
  exact Call.sated_runAll hs hcalls hgiven (sated_create hs hv hstart)

theorem Sated.get?_ne_null {d : Document} (h : d.Sated A schema) (hp : d.value.Has p) (hb : p.Bounded)
    (hf : d.resolve p = .field f) (hnullable : f.rules.nullable = false) (hA : ¬ A f) : d.get? p ≠ some .null := by
  intro hnull
  rw [resolve, h.home] at hf
  rcases h.value p f hp hb hf hnull with hn | ha
  · rw [hnullable] at hn
    cases hn
  · exact hA ha

-- No field, item or entry that is not nullable is null, numbers apart; and numbers are not null either if no blank
-- string is given. The sets and appends must not be of keys that tell variants apart.
theorem null_only_in_nullable (initial : CanonicalValue) (hw : schema.Meets .wellFormed) (hsteady : schema.Steady)
    (hfeeds : schema.Meets (.feeds Canonical Canonical))
    (hstart : (create schema initial effects).1 = .ok start)
    (hcalls : Call.Throughout Call.Mindful calls ⟨start, effects'⟩) (hgiven : ∀ c ∈ calls, c.Brings Canonical) :
    let d := (Call.runAll calls ⟨start, effects'⟩).doc
    ∀ p f, d.value.Has p → p.Bounded → d.resolve p = .field f → f.rules.nullable = false →
      (f.type ≠ .number → d.get? p ≠ some .null) ∧
      (schema.Meets (.feeds Inked Inked) → initial.1.Inked → (∀ c ∈ calls, c.Brings Inked) → d.get? p ≠ some .null) := by
  intro d p f hp hb hf hnullable
  refine ⟨fun ht => ?_, fun hinked hi hcinked => ?_⟩
  · have h := sated_reached hsteady fare_canonical hw hfeeds initial.2 hstart hcalls hgiven
    exact h.get?_ne_null hp hb hf hnullable ht
  · have h := sated_reached hsteady fare_inked hw (fun part hpart => SchemaLaw.feeds_and (hfeeds part hpart) (hinked part hpart))
      ⟨initial.2, hi⟩ hstart hcalls fun c hc => (hgiven c hc).and (hcinked c hc)
    exact h.get?_ne_null hp hb hf hnullable not_false

-- A parcel of some sizes, in a body that can be a box. A box has a side.
def parcel : Schema :=
  let body (side : Rules) : Schema :=
    ⟨{ id := false }, [([.key "kind"], .plain .string), ([.key "side"], ⟨.number, side⟩)], []⟩
  ⟨{ id := false }, [([.key "body"], .ofSub ⟨body {}, [("box", body { nullable := false })]⟩),
    ([.key "sizes"], .plain (.array ⟨.number, { nullable := false }⟩)),
    ([.key "title"], ⟨.string, { nullable := false, default := some (.literal (.str "untitled")) }⟩)], []⟩

def boxed (side : Value) : Value :=
  .obj [("kind", .str "box"), ("side", side)]

theorem parcel_meets : parcel.Meets .wellFormed ∧ parcel.Steady ∧
    ∀ V : Value → Prop, V (.str "untitled") → parcel.Meets (.feeds V V) := by
  refine ⟨?_, .inr ⟨?_, by decide +kernel⟩, fun V hV => ?_⟩
  · unfold Schema.Meets
    decide +kernel
  all_goals simp [Schema.Meets, parcel, Schema.parts, Schema.partsOfFields, Field.parts, FieldType.parts, SubSchema.parts,
    Field.ofSub, Field.plain, Schema.partsOfVariants, SchemaLaw.siblings, SchemaLaw.feeds, Default.Makes, *]

-- Null is refused where a box has a side and where there is a title.
def parcelCalls : List Call :=
  [.set [.key "body", .key "side"] .null {}, .push [.key "sizes"] [.int 3], .set [.key "title"] .null {}]

theorem null_only_in_nullable_parcel : ∃ start,
    (create parcel (.obj [("body", boxed (.int 2)), ("sizes", .arr [.int 1])])).1 = .ok start ∧
    let d := (Call.runAll parcelCalls ⟨start, {}⟩).doc
    d.value = .obj [("body", boxed (.int 2)), ("sizes", .arr [.int 1, .int 3]), ("title", .str "untitled")] ∧
    d.get? [.key "title"] ≠ some .null ∧ d.get? [.key "body", .key "side"] ≠ some .null := by
  have hrun : (create parcel (.obj [("body", boxed (.int 2)), ("sizes", .arr [.int 1])])).1.toOption.map
      (fun start => (Call.runAll parcelCalls ⟨start, {}⟩).doc.value) =
      some (.obj [("body", boxed (.int 2)), ("sizes", .arr [.int 1, .int 3]), ("title", .str "untitled")]) := by
    decide +kernel
  obtain ⟨start, hstart, hvalue⟩ := ok_of_map hrun
  obtain ⟨hw, hsteady, hfeeds⟩ := parcel_meets
  have hinitial : Canonical (.obj [("body", boxed (.int 2)), ("sizes", .arr [.int 1])]) := by decide +kernel
  have hcalls : Call.Throughout Call.Mindful parcelCalls ⟨start, {}⟩ := by
    refine ⟨?_, minds_top, minds_top, trivial⟩
    rintro g ⟨x, f, sub, hx, hf, hsub, -, rfl⟩
    rw [resolve, schema_of_create hstart] at hf
    obtain ⟨t, ht, hp⟩ := Path.isAbove_iff.mp hx
    rcases x with _ | ⟨_, _ | ⟨_, x⟩⟩
    · cases hf
    · cases hp
      cases hf
      cases hsub
      decide
    · simp_all
  have hgiven : ∀ c ∈ parcelCalls, c.Brings Canonical := by simp [parcelCalls, Call.Brings, Canonical, Value.int]
  have hhome := (sated_reached hsteady fare_canonical hw (hfeeds Canonical trivial) hinitial hstart hcalls hgiven).home
  have h := null_only_in_nullable ⟨_, hinitial⟩ hw hsteady (hfeeds Canonical trivial) hstart hcalls hgiven
  simp only [resolve, hhome, hvalue] at h
  refine ⟨start, hstart, hvalue, ?_, ?_⟩
  · exact (h [.key "title"] _ (.field rfl .here) (by decide) rfl rfl).1 FieldType.noConfusion
  · exact (h [.key "body", .key "side"] _ (.field rfl (.field rfl .here)) (by decide) rfl rfl).2
      (hfeeds Inked (by decide)) (by decide +kernel) (by simp [parcelCalls, Call.Brings, Inked, texts, Value.int])

-- A blank string is null among the sizes, and so is the side of a body that becomes a box.
theorem null_where_not_nullable :
    (∃ start, (create parcel (.obj [("body", .obj [("side", .null)]), ("sizes", .arr [.str ""])])).1 = .ok start ∧
      let d := ((Call.set [.key "body", .key "kind"] (.str "box") {}).run ⟨start, {}⟩).doc
      d.get? [.key "sizes", .index 0] = some .null ∧
      d.resolve [.key "sizes", .index 0] = .field ⟨.number, { nullable := false }⟩ ∧
      d.get? [.key "body", .key "side"] = some .null ∧
      d.resolve [.key "body", .key "side"] = .field ⟨.number, { nullable := false }⟩) := by
  have hrun : (create parcel (.obj [("body", .obj [("side", .null)]), ("sizes", .arr [.str ""])])).1.toOption.map
      (fun start => ((Call.set [.key "body", .key "kind"] (.str "box") {}).run ⟨start, {}⟩).doc.value) =
      some (.obj [("body", boxed .null), ("sizes", .arr [.null]), ("title", .str "untitled")]) := by
    decide +kernel
  obtain ⟨start, hstart, hvalue⟩ := ok_of_map hrun
  have hhome := ((create_sound hstart).schema_run (.set [.key "body", .key "kind"] (.str "box") {}) {}).trans
    (schema_of_create hstart)
  refine ⟨start, hstart, ?_⟩
  simp only [get?, resolve, hvalue, hhome]
  exact ⟨rfl, rfl, rfl, rfl⟩

end Document
end Dossier

import Dossier.Proofs.Conversion
import Dossier.Proofs.Loading

-- Defaults are filled in by three loops, each of which writes what a default is cast to where there is room.

namespace Dossier

open Path Value List

-- Room

namespace Value

variable {v : Value}

theorem Room.get?_eq_none (h : v.Room q) : v.get? q = none := by
  induction q generalizing v with
  | nil => cases h
  | cons seg q ih =>
    obtain ⟨-, ⟨hn, -⟩ | ⟨c, hc, h⟩⟩ := room_cons.mp h
    · rw [get?_cons, hn, Option.bind_none]
    · rw [get?_cons_of_child? hc, ih h]

theorem Room.not_has (h : v.Room q) : ¬ v.Has q := by
  intro hq
  have := hq.isSome
  rw [h.get?_eq_none] at this
  cases this

theorem Room.object_of_isAbove (h : v.Room q) (hk : ∀ seg ∈ q, seg.index? = none) (hp : p.isAbove q)
    (hx : v.get? p = some x) : ∃ fs, x = .obj fs := by
  induction q generalizing v p with
  | nil => cases h
  | cons seg q ih =>
    obtain ⟨hseg, hq⟩ := forall_mem_cons.mp hk
    obtain ⟨hf, h⟩ := room_cons.mp h
    cases p with
    | nil =>
      cases hx
      exact object_of_fits hf hseg
    | cons b p =>
      obtain ⟨rfl, hpq⟩ := cons_isAbove_cons.mp hp
      rw [get?_cons] at hx
      rcases h with ⟨hn, -⟩ | ⟨c, hc, h⟩
      · rw [hn] at hx
        cases hx
      · rw [hc] at hx
        exact ih h hq hpq hx

theorem Room.not_blocks (h : v.Room q) (hk : ∀ seg ∈ q, seg.index? = none) : ¬ v.blocks q := by
  intro hb
  obtain ⟨a, ha, hb⟩ := any_eq_true.mp hb
  cases hx : v.get? a with
  | none => rw [hx] at hb; cases hb
  | some x =>
    obtain ⟨fs, rfl⟩ := h.object_of_isAbove hk (mem_ancestors_iff.mp ha).2 hx
    rw [hx] at hb
    cases hb

theorem Room.inside (h : v.Room (p ++ q)) (hc : v.get? p = some c) : c.Room q := by
  induction p generalizing v with
  | nil => cases hc; exact h
  | cons seg p ih =>
    rw [get?_cons] at hc
    obtain ⟨-, ⟨hn, -⟩ | ⟨d, hd, h⟩⟩ := room_cons.mp h
    · rw [hn] at hc
      cases hc
    · rw [hd] at hc
      exact ih h hc

theorem Room.of_grows (h : w.Room q) (hg : v.Grows w) (hk : ∀ seg ∈ q, seg.index? = none) : v.Room q := by
  induction q generalizing v w with
  | nil => cases h
  | cons seg q ih =>
    obtain ⟨-, hq⟩ := forall_mem_cons.mp hk
    obtain ⟨hf, h⟩ := room_cons.mp h
    refine room_cons.mpr ⟨hg.kin.fits ▸ hf, ?_⟩
    cases hx : v.child? seg with
    | none => exact .inl ⟨rfl, hq⟩
    | some x =>
      obtain ⟨y, hy, hxy⟩ := hg.child hx
      rcases h with ⟨hn, -⟩ | ⟨c, hc, h⟩
      · cases hn.symm.trans hy
      · cases hc.symm.trans hy
        exact .inr ⟨x, rfl, ih h hxy hq⟩

-- Writes to places that have room

theorem room_setFrom_null (hp : ∀ seg ∈ p, seg.index? = none) (hq : ∀ seg ∈ q, seg.index? = none) (ha : q.Apart p) :
    (setFrom full y p .null).2.Room q := by
  induction p generalizing q with
  | nil => exact absurd (nil_covers q) ha.2
  | cons seg p ih =>
    cases q with
    | nil => exact absurd (nil_covers _) ha.1
    | cons b q =>
      obtain ⟨hseg, hp'⟩ := forall_mem_cons.mp hp
      obtain ⟨hb, hq'⟩ := forall_mem_cons.mp hq
      rw [setFrom_cons rfl]
      have hfits : (putChild .null seg (setFrom full y p .null).2).fits b := by
        cases b with
        | key => rfl
        | index => cases hb
      refine room_cons.mpr ⟨hfits, ?_⟩
      rcases child?_putChild (v := .null) rfl b with hsame | ⟨hk, hnew, -⟩
      · exact .inl ⟨hsame, hq'⟩
      · obtain rfl := eq_of_fits (fits_putChild (v := .null) rfl hseg) hfits hk
        exact .inr ⟨_, hnew, ih hp' hq' ((cons_apart_cons.mp ha).resolve_left fun h => h rfl)⟩

theorem Room.setFrom_apart (h : v.Room q) (hp : v.Room p) (ha : q.Apart p) : (setFrom full y p v).2.Room q := by
  induction q generalizing v p with
  | nil => cases h
  | cons b q ih =>
    cases p with
    | nil => cases hp
    | cons seg p =>
      obtain ⟨hb, h⟩ := room_cons.mp h
      obtain ⟨hf, hp⟩ := room_cons.mp hp
      rw [setFrom_cons (takes_of_fits hf)]
      refine room_cons.mpr ⟨(kin_putChild hf).fits ▸ hb, ?_⟩
      rw [child?_putChild_of_fits hf hb]
      split
      · case isTrue he =>
        subst he
        have ha := (cons_apart_cons.mp ha).resolve_left fun h => h rfl
        refine .inr ⟨_, rfl, ?_⟩
        rcases h with ⟨hn, hq⟩ | ⟨c, hc, h⟩ <;> rcases hp with ⟨hn', hp⟩ | ⟨c', hc', hp⟩
        · rw [hn]
          exact room_setFrom_null hp hq ha
        · cases hn.symm.trans hc'
        · cases hn'.symm.trans hc
        · cases hc.symm.trans hc'
          rw [hc]
          exact ih h hp ha
      · exact h

theorem Room.get?_setFrom (h : v.Room p) (hq : v.Has q) (hc : ¬ q.covers p) :
    (setFrom full y p v).2.get? q = v.get? q := by
  induction p generalizing v q with
  | nil => cases h
  | cons seg p ih =>
    cases q with
    | nil => exact absurd (nil_covers _) hc
    | cons b q =>
      obtain ⟨hf, h⟩ := room_cons.mp h
      obtain ⟨hb, x, hx, hq⟩ := has_cons.mp hq
      rw [setFrom_cons (takes_of_fits hf), get?_cons, child?_putChild_of_fits hf hb, get?_cons]
      split
      · case isTrue he =>
        subst he
        rcases h with ⟨hn, -⟩ | ⟨c, hc', h⟩
        · cases hn.symm.trans hx
        · cases hx.symm.trans hc'
          rw [hx]
          exact ih h hq fun h => hc (cons_covers_cons.mpr ⟨rfl, h⟩)
      · rfl

end Value

-- Sites

structure Site where
  root  : Path
  rel   : Path
  field : Field

namespace Site

variable {e : Site}

def path (e : Site) : Path :=
  e.root ++ e.rel

def store (e : Site) (v : Value) : Value :=
  e.field.initial?.elim v fun y => (v.set e.path y).2

-- The default is filled in where nothing is and nothing is in the way.
def fill (e : Site) (v : Value) : Value :=
  match v.get? e.root with
  | some u => if (u.get? e.rel).isNone ∧ ¬ u.blocks e.rel then e.store v else v
  | none => v

structure Stands (e : Site) (v : Value) : Prop where
  has    : v.Has e.root
  object : ∃ fs, v.get? e.root = some (.obj fs)
  keyed  : ∀ seg ∈ e.rel, seg.index? = none

theorem Stands.grows (h : e.Stands v) (hg : v.Grows w) : e.Stands w := by
  obtain ⟨fs, hfs⟩ := h.object
  obtain ⟨y, hy, hkin⟩ := hg _ _ hfs
  refine ⟨hg.has h.has, ?_, h.keyed⟩
  cases hkin with
  | same => exact ⟨fs, hy⟩
  | obj => exact ⟨_, hy⟩

theorem Stands.room_iff (h : e.Stands v) (hu : v.get? e.root = some u) :
    v.Room e.path ↔ (u.get? e.rel).isNone ∧ ¬ u.blocks e.rel := by
  obtain ⟨fs, hfs⟩ := h.object
  rw [hfs] at hu
  cases hu
  constructor
  · intro hroom
    have hroom : (Value.obj fs).Room e.rel := hroom.inside hfs
    exact ⟨by rw [hroom.get?_eq_none]; rfl, hroom.not_blocks h.keyed⟩
  · rintro ⟨hnone, hb⟩
    exact .append h.has hfs (room_of_keys h.keyed (Option.isNone_iff_eq_none.mp hnone) hb)

theorem Stands.room_of_grows (h : e.Stands v) (hg : v.Grows w) (hroom : w.Room e.path) : v.Room e.path := by
  obtain ⟨fs, hfs⟩ := h.object
  obtain ⟨y, hy, hpart⟩ := hg.part hfs
  exact .append h.has hfs ((hroom.inside hy).of_grows hpart h.keyed)

theorem Stands.fill_of_room (h : e.Stands v) (hroom : v.Room e.path) : e.fill v = e.store v := by
  obtain ⟨fs, hfs⟩ := h.object
  rw [fill, hfs]
  exact if_pos ((h.room_iff hfs).mp hroom)

theorem Stands.fill_of_not_room (h : e.Stands v) (hroom : ¬ v.Room e.path) : e.fill v = v := by
  obtain ⟨fs, hfs⟩ := h.object
  rw [fill, hfs]
  exact if_neg fun hc => hroom ((h.room_iff hfs).mpr hc)

end Site

def Value.fillAll (sites : List Site) (v : Value) : Value :=
  sites.foldl (fun v e => e.fill v) v

theorem Site.canonical_fill {e : Site} (he : e.field.Meets .passive) (hv : v.Canonical) : (e.fill v).Canonical := by
  have hstore : (e.store v).Canonical := by
    rw [store]
    cases hy : e.field.initial? with
    | none => exact hv
    | some y => exact hereditary_canonical.setFrom hv (Field.canonical_initial? he hy)
  rw [fill]
  split
  · split
    · exact hstore
    · exact hv
  · exact hv

theorem Value.canonical_fillAll {sites : List Site} {v : Value} (hs : ∀ e ∈ sites, e.field.Meets .passive)
    (hv : v.Canonical) : (v.fillAll sites).Canonical :=
  List.foldlRecOn sites _ hv fun _ h e he => Site.canonical_fill (hs e he) h

theorem Value.fillAll_append {v : Value} : v.fillAll (sites ++ sites') = (v.fillAll sites).fillAll sites' :=
  foldl_append

namespace Site

-- Sites that have room are the same or do not touch.
def Spread (sites : List Site) (v : Value) : Prop :=
  ∀ e ∈ sites, ∀ e' ∈ sites, v.Room e.path → v.Room e'.path →
    e.path = e'.path ∧ e.field = e'.field ∨ e.path.Apart e'.path

-- A value has grown by the defaults of the sites that had room.
structure Filled (sites : List Site) (v x : Value) : Prop where
  grows  : v.Grows x
  -- What is new is at or below a site, or an object around one.
  added  : ∀ p, x.Has p → ¬ v.Has p → ∃ e ∈ sites, ∃ y, v.Room e.path ∧ e.field.initial? = some y ∧
    (e.path.covers p ∨ p.isAbove e.path ∧ ∃ fs, x.get? p = some (.obj fs))
  filled : ∀ e ∈ sites, ∀ y, v.Room e.path → e.field.initial? = some y → x.get? e.path = some y
  kept   : ∀ q, v.Has q → (∀ e ∈ sites, v.Room e.path → ¬ q.covers e.path) → x.get? q = v.get? q

theorem filled_nil : Filled [] v v where
  grows := .refl v
  added := fun _ hp hn => absurd hp hn
  filled := by simp
  kept := fun _ _ _ => rfl

theorem Filled.cons_of_unfilled (h : Filled sites v x) (he : v.Room e.path → e.field.initial? = none) :
    Filled (e :: sites) v x where
  grows := h.grows
  added p hp hn := by
    obtain ⟨e', hmem, h⟩ := h.added p hp hn
    exact ⟨e', mem_cons_of_mem _ hmem, h⟩
  filled := by
    refine forall_mem_cons.mpr ⟨fun y hroom hy => ?_, h.filled⟩
    rw [he hroom] at hy
    cases hy
  kept q hq hsites := h.kept q hq (forall_mem_cons.mp hsites).2

theorem Filled.cons (h : Filled sites (v.set e.path y).2 x) (hstands : ∀ e ∈ sites, e.Stands v)
    (hspread : Spread (e :: sites) v) (hroom : v.Room e.path) (hy : e.field.initial? = some y) :
    Filled (e :: sites) v x := by
  have hgrows : v.Grows (v.set e.path y).2 := hroom.grows
  have hhas : (v.set e.path y).2.Has e.path := hroom.has_self
  have hback : ∀ e' ∈ sites, (v.set e.path y).2.Room e'.path → v.Room e'.path := fun e' he' =>
    (hstands e' he').room_of_grows hgrows
  -- What was written stays: the sites that have room now are elsewhere.
  have hself : x.get? e.path = some y := by
    rw [h.kept _ hhas fun e' he' hr hc => ?_]
    · exact get?_setFrom_self hroom.ok
    · rcases hspread e mem_cons_self e' (mem_cons_of_mem _ he') hroom (hback e' he' hr) with ⟨hp, -⟩ | ha
      · rw [← hp] at hr
        exact hr.not_has hhas
      · exact ha.1 hc
  refine ⟨hgrows.trans h.grows, fun p hp hn => ?_, forall_mem_cons.mpr ⟨fun z _ hz => ?_, fun e' he' z hr hz => ?_⟩,
    fun q hq hsites => ?_⟩
  · by_cases hold : (v.set e.path y).2.Has p
    · refine ⟨e, mem_cons_self, y, hroom, hy, ?_⟩
      rcases hroom.has_setFrom hold hn with hc | ⟨ha, fs, hfs⟩
      · exact .inl hc
      · obtain ⟨z, hz, hkin⟩ := h.grows _ _ hfs
        cases hkin with
        | same => exact .inr ⟨ha, fs, hz⟩
        | obj => exact .inr ⟨ha, _, hz⟩
    · obtain ⟨e', he', z, hr, h⟩ := h.added p hp hold
      exact ⟨e', mem_cons_of_mem _ he', z, hback e' he' hr, h⟩
  · rw [hy] at hz
    cases hz
    exact hself
  · rcases hspread e mem_cons_self e' (mem_cons_of_mem _ he') hroom hr with ⟨hp, hf⟩ | ha
    · rw [← hf, hy] at hz
      cases hz
      rw [← hp, hself]
    · exact h.filled e' he' z (hr.setFrom_apart hroom ha.symm) hz
  · obtain ⟨he, hsites⟩ := forall_mem_cons.mp hsites
    rw [h.kept q (hgrows.has hq) fun e' he' hr => hsites e' he' (hback e' he' hr)]
    exact hroom.get?_setFrom hq (he hroom)

theorem filled_fillAll (hstands : ∀ e ∈ sites, e.Stands v) (hspread : Spread sites v) :
    Filled sites v (v.fillAll sites) := by
  induction sites generalizing v with
  | nil => exact filled_nil
  | cons e sites ih =>
    obtain ⟨he, hstands⟩ := forall_mem_cons.mp hstands
    have hrest : Spread sites v := fun e₁ h₁ e₂ h₂ =>
      hspread e₁ (mem_cons_of_mem _ h₁) e₂ (mem_cons_of_mem _ h₂)
    rw [Value.fillAll, foldl_cons]
    by_cases hroom : v.Room e.path
    · rw [he.fill_of_room hroom, store]
      cases hy : e.field.initial? with
      | none => exact (ih hstands hrest).cons_of_unfilled fun _ => hy
      | some y =>
        have hgrows : v.Grows (v.set e.path y).2 := hroom.grows
        refine Filled.cons (ih (fun e' he' => (hstands e' he').grows hgrows) fun e₁ h₁ e₂ h₂ hr₁ hr₂ => ?_) hstands hspread
          hroom hy
        exact hrest e₁ h₁ e₂ h₂ ((hstands e₁ h₁).room_of_grows hgrows hr₁) ((hstands e₂ h₂).room_of_grows hgrows hr₂)
    · rw [he.fill_of_not_room hroom]
      exact (ih hstands hrest).cons_of_unfilled fun hr => absurd hr hroom

end Site

-- The loops

namespace Site

variable {e : Site} {v : Value} {fields : List (Path × Field)} {root rel : Path}

def under (root : Path) (fields : List (Path × Field)) : List Site :=
  fields.map fun e => ⟨root, e.1, e.2⟩

theorem fillAll_under_cons : v.fillAll (under root ((rel, f) :: fields)) =
    (fill ⟨root, rel, f⟩ v).fillAll (under root fields) := rfl

theorem fill_of_lacking (hu : v.get? e.root = some u) (h : (u.get? e.rel).isNone ∧ ¬ u.blocks e.rel) :
    e.fill v = e.store v := by
  rw [fill, hu]
  exact if_pos h

theorem fill_of_not_lacking (hu : v.get? e.root = some u)
    (h : ¬ (e.field.rules.hasDefault ∧ (u.get? e.rel).isNone ∧ ¬ u.blocks e.rel)) : e.fill v = v := by
  rw [fill, hu]
  dsimp only
  split
  · case isTrue hc =>
    have hnone : e.field.rules.default = none := by
      rw [← Option.not_isSome_iff_eq_none]
      exact fun hd => h ⟨hd, hc⟩
    rw [store, Field.initial?, hnone]
    rfl
  · rfl

theorem fillAll_of_gone (h : v.get? root = none) : v.fillAll (under root fields) = v := by
  induction fields with
  | nil => rfl
  | cons e fields ih =>
    obtain ⟨rel, f⟩ := e
    have hfill : fill ⟨root, rel, f⟩ v = v := by rw [fill, h]
    rw [fillAll_under_cons, hfill, ih]

end Site

namespace Field

open Cast

variable {f : Field}

theorem join_default? (hf : f.Meets .passive) (hctx : ctx.strict = none) (e : Effects) :
    ((f.default? view ctx).outcome e).1.toOption.join = f.initial? := by
  have hd : f.default? view ctx = _ := Caster.default?_eq (c := f.caster ctx.path) hf.rules
  dsimp only [caster] at hd
  rw [hd, initial?]
  cases f.rules.default with
  | none => rfl
  | some d =>
    cases d with
    | freshId | generate => rfl
    | literal v =>
      dsimp only
      rw [← bind_pure_comp, outcome_bind, ← (settles_cast hf hctx (v := v) e).2]
      rcases (f.cast ctx v).outcome e with ⟨_ | _, _⟩ <;> rfl

theorem default?_gives (hf : f.Meets .passive) (hctx : ctx.strict = none) :
    Gives (f.default? view ctx) (· = f.initial?) := by
  have hd : f.default? view ctx = _ := Caster.default?_eq (c := f.caster ctx.path) hf.rules
  dsimp only [caster] at hd
  rw [hd, initial?]
  split
  · rw [← bind_pure_comp]
    exact (settles_cast hf hctx).gives.bind fun w hw => gives_pure hw.symm
  · exact gives_pure rfl

end Field

namespace Cast

variable {fields : List (Path × Field)}

theorem defaults_gives_fillAll (hf : ∀ e ∈ fields, e.2.Meets .passive) (hctx : ctx.strict = none) :
    Gives (defaults ctx (Schema.casters fields) out) (· = out.fillAll (Site.under [] fields)) := by
  induction fields generalizing out with
  | nil =>
    rw [Schema.casters, defaults]
    exact gives_pure rfl
  | cons e fields ih =>
    obtain ⟨rel, f⟩ := e
    obtain ⟨hf₁, hf⟩ := forall_mem_cons.mp hf
    have hu : out.get? [] = some out := get?_nil out
    rw [Schema.casters, defaults, Site.fillAll_under_cons]
    dsimp only
    split
    · case isTrue hc =>
      rw [Site.fill_of_not_lacking hu]
      · exact ih hf
      · rintro ⟨hd, hn, hb⟩
        rcases hc with hc | hc | hc
        · exact hc hd
        · rw [Option.isNone_iff_eq_none.mp hn] at hc
          cases hc
        · exact hb hc
    · case isFalse hc =>
      obtain ⟨-, hn, hb⟩ := not_or.mp hc |>.imp_right not_or.mp
      rw [Site.fill_of_lacking hu ⟨by simpa using hn, hb⟩, Site.store]
      refine Gives.bind (Field.default?_gives hf₁ hctx) fun o ho => ?_
      subst ho
      cases f.initial? with
      | none => exact ih hf
      | some y =>
        refine writePart_gives.bind fun written hw => ?_
        obtain rfl : written = (out.set _ y).2 := by rw [hw]
        exact ih hf

end Cast

namespace Edit

variable {root : Path} {fields : List (Path × Field)}

theorem storeDefault_ok {stored : Document → Document} (hok : (storeDefault p made stored).outcome s = (.ok (), s'))
    (hstored : ∀ d, (stored d).value = d.value ∧ (stored d).projection = d.projection) :
    s'.doc.value = made.toOption.join.elim s.doc.value (fun y => (s.doc.value.set p y).2) ∧
      s'.doc.projection = s.doc.projection := by
  rw [outcome_storeDefault] at hok
  split at hok
  · cases hok
    exact ⟨rfl, rfl⟩
  · case _ v =>
    split at hok
    · case _ value hw =>
      cases hok
      obtain ⟨hvalue, hprojection⟩ := hstored { s.doc with value }
      exact ⟨hvalue.trans (by rw [Except.toOption, Option.join_some, Option.elim_some, hw]), hprojection⟩
    · cases hok
  · cases hok
    exact ⟨rfl, rfl⟩
  · cases hok

theorem storeDefault_default? {e : Site} (hf : e.field.Meets .passive) (hctx : ctx.strict = none)
    (hok : (storeDefault e.path ((e.field.default? view ctx).outcome effects).1 stored).outcome s = (.ok (), s'))
    (hstored : ∀ d, (stored d).value = d.value ∧ (stored d).projection = d.projection) :
    s'.doc.value = e.store s.doc.value ∧ s'.doc.projection = s.doc.projection := by
  have h := storeDefault_ok hok hstored
  rwa [Field.join_default? hf hctx] at h

theorem fillDefaults_ok (hf : ∀ e ∈ fields, e.2.Meets .passive) (hp : s.doc.projection = none)
    (hok : (fillDefaults fields).outcome s = (.ok (), s')) :
    s'.doc.value = s.doc.value.fillAll (Site.under [] fields) ∧ s'.doc.projection = none := by
  induction fields generalizing s with
  | nil =>
    rw [fillDefaults, outcome_pure] at hok
    cases hok
    exact ⟨rfl, hp⟩
  | cons e fields ih =>
    obtain ⟨rel, f⟩ := e
    obtain ⟨hf₁, hf⟩ := forall_mem_cons.mp hf
    let e : Site := ⟨[], rel, f⟩
    have hu : s.doc.value.get? e.root = some s.doc.value := get?_nil _
    have hsel : s.doc.isSelected rel := by rw [Document.isSelected, hp]; rfl
    rw [fillDefaults, outcome_bind, outcome_doc] at hok
    dsimp only at hok
    rw [Site.fillAll_under_cons]
    split at hok
    · case isTrue hc =>
      rw [outcome_bind, outcome_cast] at hok
      obtain ⟨_, s₁, hstore, hok⟩ := ok_of_bind_ok hok
      obtain ⟨hvalue, hprojection⟩ := storeDefault_default? (e := e) hf₁ rfl hstore fun d => ⟨rfl, rfl⟩
      have hfill : e.fill s.doc.value = s₁.doc.value := (Site.fill_of_lacking hu ⟨hc.2.1, hc.2.2.2⟩).trans hvalue.symm
      rw [hfill]
      exact ih hf (hprojection.trans hp) hok
    · case isFalse hc =>
      have hfill : e.fill s.doc.value = s.doc.value :=
        Site.fill_of_not_lacking hu fun h => hc ⟨h.1, h.2.1, hsel, h.2.2⟩
      rw [hfill]
      exact ih hf hp hok

theorem fillScopeDefaults_ok {key : ScopeKey} (hf : ∀ e ∈ fields, e.2.Meets .passive) (hp : s.doc.projection = none)
    (hok : (fillScopeDefaults key root fields).outcome s = (.ok (), s')) :
    s'.doc.value = s.doc.value.fillAll (Site.under root fields) ∧ s'.doc.projection = none := by
  induction fields generalizing s with
  | nil =>
    rw [fillScopeDefaults, outcome_pure] at hok
    cases hok
    exact ⟨rfl, hp⟩
  | cons e fields ih =>
    obtain ⟨rel, f⟩ := e
    obtain ⟨hf₁, hf⟩ := forall_mem_cons.mp hf
    let e : Site := ⟨root, rel, f⟩
    have hsel : s.doc.isSelected (root ++ rel) := by rw [Document.isSelected, hp]; rfl
    rw [fillScopeDefaults, outcome_bind, outcome_doc] at hok
    dsimp only at hok
    split at hok
    · case isTrue hc =>
      split at hok
      · case _ hgone =>
        cases hok
        exact ⟨(Site.fillAll_of_gone hgone).symm, hp⟩
      · case _ u hu =>
        have hu : s.doc.value.get? e.root = some u := hu
        have hnone : (u.get? rel).isNone := by
          have := hc.2.1
          rwa [Document.get?, get?_append, hu] at this
        rw [Site.fillAll_under_cons]
        split at hok
        · case isTrue hb =>
          rw [outcome_bind, outcome_cast] at hok
          obtain ⟨_, s₁, hstore, hok⟩ := ok_of_bind_ok hok
          obtain ⟨hvalue, hprojection⟩ := storeDefault_default? (e := e) hf₁ rfl hstore fun d => ⟨rfl, rfl⟩
          have hfill : e.fill s.doc.value = s₁.doc.value := (Site.fill_of_lacking hu ⟨hnone, hb⟩).trans hvalue.symm
          rw [hfill]
          exact ih hf (hprojection.trans hp) hok
        · case isFalse hb =>
          have hfill : e.fill s.doc.value = s.doc.value := Site.fill_of_not_lacking hu fun h => hb h.2.2
          rw [hfill]
          exact ih hf hp hok
    · case isFalse hc =>
      have hfill : e.fill s.doc.value = s.doc.value := by
        cases hu : s.doc.value.get? root with
        | none => rw [Site.fill, show s.doc.value.get? e.root = none from hu]
        | some u =>
          refine Site.fill_of_not_lacking hu fun h => hc ⟨h.1, ?_, hsel⟩
          rw [Document.get?, get?_append, hu]
          exact h.2.1
      rw [Site.fillAll_under_cons, hfill]
      exact ih hf hp hok

def sitesOf (es : List (ScopeKey × Scope)) : List Site :=
  es.flatMap fun e => Site.under e.2.root e.2.schema.fields

theorem fillLoadedScopes_ok {es : List (ScopeKey × Scope)} (hs : ∀ e ∈ es, e.2.schema.Meets .passive)
    (hp : s.doc.projection = none) (hok : (fillLoadedScopes es).outcome s = (.ok (), s')) :
    s'.doc.value = s.doc.value.fillAll (sitesOf es) := by
  induction es generalizing s with
  | nil =>
    rw [fillLoadedScopes, outcome_pure] at hok
    cases hok
    rfl
  | cons e es ih =>
    obtain ⟨hs₁, hs⟩ := forall_mem_cons.mp hs
    rw [show e = (e.1, e.2) from rfl, fillLoadedScopes] at hok
    obtain ⟨_, s₁, hscope, hok⟩ := ok_of_bind_ok hok
    obtain ⟨hvalue, hprojection⟩ := fillScopeDefaults_ok (fun _ he => hs₁.field he) hp hscope
    have hsites : sitesOf (e :: es) = Site.under e.2.root e.2.schema.fields ++ sitesOf es := rfl
    rw [ih hs hprojection hok, hvalue, hsites, fillAll_append]

end Edit

end Dossier

import Dossier.Proofs.Beside
import Dossier.Proofs.Embedding
import Dossier.Proofs.Placement
import Dossier.Proofs.Undo

-- A write changes where the fields of a document and of the documents in it are below its path only.

namespace Dossier

open Path Value List

-- Segments

-- Keys are not spelled like indices.
def Path.Worded (p : Path) : Prop :=
  ∀ seg ∈ p, seg.index? = none → seg.Spelled

-- Values around a write

namespace Value

-- A write elsewhere than on the way to a path that a value has is elsewhere by the texts of the paths too.
theorem distinct_of_has (hok : (setFrom full x p v).1 = .ok ()) (hp : p.Bounded) (h : v.Has r) (hr : r.Worded)
    (hbelow : ¬ p.covers r) (habove : ¬ r.covers p) : p.Distinct r := by
  induction r generalizing v p with
  | nil => exact absurd (nil_covers p) habove
  | cons b r ih =>
    obtain ⟨hf, c, hc, hin⟩ := has_cons.mp h
    cases p with
    | nil => exact absurd (nil_covers _) hbelow
    | cons seg p =>
      obtain ⟨hb, hrest⟩ := forall_mem_cons.mp hr
      obtain ⟨hseg, hsegs⟩ := forall_mem_cons.mp hp
      have ht := takes_of_ok hok
      refine cons_distinct_cons.mpr ?_
      by_cases he : seg.toKey = b.toKey
      · obtain rfl : seg = b := by
          obtain ⟨_, _, rfl, rfl⟩ | ⟨_, _, rfl, rfl, -⟩ := fits_cases hf
          · exact Seg.eq_key_of_toKey (hb rfl) hseg he
          · cases seg with
            | key => cases ht
            | index j => rw [Seg.index_toKey_injective he]
        rw [setFrom_cons ht, hc] at hok
        exact .inr (ih hok hsegs hin hrest (fun h => hbelow (cons_covers_cons.mpr ⟨rfl, h⟩))
          fun h => habove (cons_covers_cons.mpr ⟨rfl, h⟩))
      · exact .inl he

theorem obj_of_setFrom_below {fs : List (String × Value)} (hok : (setFrom full x q v).1 = .ok ()) (ha : p.isAbove q)
    (hv : v.get? p = some (.obj fs)) : ∃ gs, (setFrom full x q v).2.get? p = some (.obj gs) := by
  obtain ⟨r, hr, rfl⟩ := isAbove_iff.mp ha
  cases r with
  | nil => exact absurd rfl hr
  | cons seg rest =>
    rw [get?_setFrom_append hok, hv, Option.getD_some, setFrom_cons_of_openFields rfl]
    exact ⟨_, rfl⟩

-- An array that a write goes through gets one more item at most, on the way.
theorem items_of_setFrom_below {xs : List Value} (hok : (setFrom full x q v).1 = .ok ()) (ha : p.isAbove q)
    (hv : v.get? p = some (.arr xs)) : ∃ ys, (setFrom full x q v).2.get? p = some (.arr ys) ∧ xs.length ≤ ys.length ∧
      ∀ i < ys.length, ¬ (p.index i).covers q → i < xs.length := by
  obtain ⟨r, hr, rfl⟩ := isAbove_iff.mp ha
  cases r with
  | nil => exact absurd rfl hr
  | cons seg rest =>
    have hpart := setFrom_ok_of_append hok
    rw [get?_setFrom_append hok]
    rw [hv, Option.getD_some] at hpart ⊢
    cases seg with
    | key k => cases hpart
    | index j =>
      have hj : j ≤ xs.length := by
        by_contra hlt
        rw [setFrom, if_pos (Nat.lt_of_not_le hlt)] at hpart
        cases hpart
      rw [setFrom_index_arr hj]
      dsimp only
      generalize (setFrom full x rest _).2 = c
      refine ⟨_, rfl, length_putItem, fun i hi hout => ?_⟩
      have hne : i ≠ j := by
        rintro rfl
        refine hout ?_
        rw [Path.index, append_covers_append]
        exact cons_covers_cons.mpr ⟨rfl, nil_covers _⟩
      have hsome : ((putItem xs j c)[i]?).isSome := by simpa using hi
      rw [getElem?_putItem hj, if_neg hne] at hsome
      simpa using hsome

end Value

-- Fields and documents

theorem FieldType.embeds_of_item {t : FieldType} (ht : t = .documentArray sub)
    (h : (FieldType.embedded sub).Embeds (r.index i) items[i]? q s w) : t.Embeds r (some (.arr items)) q s w := by
  subst ht
  generalize hroot : r.index i = root at h
  generalize hc : items[i]? = c at h
  cases h with
  | here hh =>
    cases hh
    exact hroot ▸ .here (.item hc)
  | inner hh hf he =>
    cases hh
    exact .inner (.item hc) hf (hroot ▸ he)

-- A value that a path leads through on its way to the fields inside. Documents in arrays and maps of other kinds are
-- not kept track of.
def FieldType.Passable : FieldType → Option Value → Prop
  | .embedded _, v => ∃ fs, v = some (.obj fs)
  | .documentArray _, v => ∃ items, v = some (.arr items)
  | .array el, _ | .map el, _ => el.type.sub? = none
  | _, _ => True

namespace Schema

-- The field that is at a path of a document, also in the documents in it. A path into a document that is not there
-- leads to no field.
inductive Leads (schema : Schema) (v : Value) : Path → Field → Prop
  | declared {p : Path} {f : Field} : (p, f) ∈ schema.fields → Leads schema v p f
  | item {r : Path} {f : Field} {sub : SubSchema} {items : List Value} {i : Nat} :
    Leads schema v r f → f.type = .documentArray sub → v.get? r = some (.arr items) → i < items.length →
      Leads schema v (r.index i) (.ofSub sub)
  | inner {r q : Path} {f g : Field} {sub : SubSchema} {fs : List (String × Value)} :
    Leads schema v r f → f.type = .embedded sub → v.get? r = some (.obj fs) →
      (q, g) ∈ (sub.selectOrBase (some (.obj fs))).fields → Leads schema v (r ++ q) g

def DocumentAt (schema : Schema) (v : Value) (r : Path) (s : Schema) : Prop :=
  ∃ w, schema.Embeds v r s w

variable {schema : Schema} {v : Value} {p : Path}

namespace Leads

section

variable (h : schema.Leads v r f)

include h

theorem meets {law : SchemaLaw} (hs : schema.Meets law) (hr : law (.rules {})) : f.Meets law := by
  induction h with
  | declared hf => exact hs.field hf
  | item _ ht _ _ ih => exact Field.meets_ofSub (FieldType.Meets.sub (.inr (ht ▸ ih.type))) hr
  | inner _ ht _ hg ih => exact (FieldType.Meets.sub (.inl (ht ▸ ih.type))).selectOrBase.field hg

theorem walk (hw : schema.Meets .wellFormed) :
    r.foldl Cursor.step (.schema schema Path.root (some v)) = .field f (v.get? r) := by
  induction h with
  | declared hf => exact Schema.foldl_declared hw.apart hf
  | @item r f sub items i _ ht hv hi ih =>
    rw [Path.index, foldl_append, ih, get?_append, hv]
    simp only [foldl_cons, foldl_nil, Cursor.step, Cursor.stepField, ht, Seg.index?, Option.isSome_some,
      if_true, Option.bind_some, Value.child?, get?_index_arr, getElem?_eq_getElem hi, get?_nil]
  | @inner r q f g sub fs hr ht hv hg ih =>
    have hs : (sub.selectOrBase (some (.obj fs))).Meets .wellFormed :=
      (FieldType.Meets.sub (.inl (ht ▸ (hr.meets hw trivial).type))).selectOrBase
    have hq := (hs.declared hg).1
    rw [foldl_append, ih, Cursor.foldl_embedded ht hq, hv, Schema.foldl_declared hs.apart hg, get?_append, hv]

theorem resolve (hw : schema.Meets .wellFormed) : schema.resolve v r = .field f := by
  rw [Schema.resolve, h.walk hw]
  rfl

theorem resolve_item {sub : SubSchema} (hw : schema.Meets .wellFormed) (ht : f.type = .documentArray sub) :
    schema.resolve v (r.index i) = .field (.ofSub sub) := by
  rw [Schema.resolve, Path.index, foldl_append, h.walk hw]
  simp only [foldl_cons, foldl_nil, Cursor.step, Cursor.stepField, ht, Seg.index?, Option.isSome_some, if_true]
  rfl

theorem unique (h' : schema.Leads v r g) (hw : schema.Meets .wellFormed) : f = g := by
  have he := (h.resolve hw).symm.trans (h'.resolve hw)
  cases he
  rfl

theorem ne_nil (hw : schema.Meets .wellFormed) : r ≠ [] := by
  rintro rfl
  cases h.resolve hw

end

theorem get?_item {items : List Value} (hv : v.get? r = some (.arr items)) : v.get? (r.index i) = items[i]? := by
  rw [Path.index, get?_append, hv, Option.bind_some, get?_index_arr]
  cases items[i]? <;> simp

theorem embeds (h : schema.Leads v p f) (he : f.type.Embeds p (v.get? p) r s w) : schema.Embeds v r s w := by
  induction h with
  | declared hf => exact ⟨_, _, hf, he⟩
  | item _ ht hv _ ih =>
    refine ih ?_
    rw [get?_item hv] at he
    rw [hv]
    exact FieldType.embeds_of_item ht he
  | @inner r q f g sub fs _ ht hv hg ih =>
    refine ih ?_
    rw [get?_append, hv] at he
    rw [hv, ht]
    exact .inner .embedded hg he

theorem resolve_between {sub : SubSchema} (h : schema.Leads v r f) (hw : schema.Meets .wellFormed)
    (ht : f.type = .embedded sub) (hv : v.get? r = some (.obj fs))
    (hg : (q, g) ∈ (sub.selectOrBase (some (.obj fs))).fields) (hp : p ≠ []) (ha : p.isAbove q) :
    schema.resolve v (r ++ p) = .nested := by
  have hs : (sub.selectOrBase (some (.obj fs))).Meets .wellFormed :=
    (FieldType.Meets.sub (.inl (ht ▸ (h.meets hw trivial).type))).selectOrBase
  rw [Schema.resolve, foldl_append, h.walk hw, Cursor.foldl_embedded ht hp, hv, Schema.foldl_of_isAbove hs.apart hg ha,
    Cursor.resolution, if_neg (by simpa using hp)]

end Leads

theorem leads_of_holds (h : schema.Leads v p f) (hh : f.type.Holds p (v.get? p) r s w) : ∃ g sub fs,
    schema.Leads v r g ∧ g.type = .embedded sub ∧ v.get? r = some (.obj fs) ∧ w = .obj fs ∧
      s = sub.selectOrBase (some (.obj fs)) := by
  generalize ht : f.type = t at hh
  generalize hv : v.get? p = o at hh
  cases hh with
  | embedded => exact ⟨f, _, _, h, ht, hv, rfl, rfl⟩
  | @item sub _ items i fs hi =>
    exact ⟨.ofSub sub, sub, fs, h.item ht hv (List.getElem?_eq_some_iff.mp hi).1, rfl, by rw [Leads.get?_item hv, hi],
      rfl, rfl⟩

theorem leads_of_embeds (h : schema.Leads v p f) (he : f.type.Embeds p (v.get? p) r s w) : ∃ g sub fs,
    schema.Leads v r g ∧ g.type = .embedded sub ∧ v.get? r = some (.obj fs) ∧
      s = sub.selectOrBase (some (.obj fs)) := by
  generalize ht : f.type = t at he
  generalize hv : v.get? p = o at he
  induction he generalizing f with
  | here hh =>
    subst ht hv
    obtain ⟨g, sub, fs, hg, hsub, hget, -, hs⟩ := leads_of_holds h hh
    exact ⟨g, sub, fs, hg, hsub, hget, hs⟩
  | @inner t root r r' q o s s' w w' g hh hf _ ih =>
    subst ht hv
    obtain ⟨g, sub, fs, hg, hsub, hget, rfl, rfl⟩ := leads_of_holds h hh
    exact ih (hg.inner hsub hget hf) rfl (by rw [get?_append, hget, Option.bind_some])

theorem documentAt_iff : schema.DocumentAt v r s ↔ ∃ f sub fs, schema.Leads v r f ∧ f.type = .embedded sub ∧
    v.get? r = some (.obj fs) ∧ s = sub.selectOrBase (some (.obj fs)) := by
  constructor
  · rintro ⟨w, p, f, hf, he⟩
    exact leads_of_embeds (.declared hf) he
  · rintro ⟨f, sub, fs, h, ht, hv, rfl⟩
    refine ⟨.obj fs, h.embeds ?_⟩
    rw [hv, ht]
    exact .here .embedded

theorem DocumentAt.unique (h : schema.DocumentAt v r s) (h' : schema.DocumentAt v r s')
    (hw : schema.Meets .wellFormed) : s = s' := by
  obtain ⟨f, sub, fs, hf, ht, hv, rfl⟩ := documentAt_iff.mp h
  obtain ⟨f', sub', fs', hf', ht', hv', rfl⟩ := documentAt_iff.mp h'
  obtain rfl := hf.unique hf' hw
  rw [ht] at ht'
  rw [hv] at hv'
  cases ht'
  cases hv'
  rfl

theorem Leads.above (h : schema.Leads v r f) (hw : schema.Meets .wellFormed) (hp : p ≠ []) (ha : p.isAbove r) :
    (∃ g, schema.Leads v p g ∧ g.type.Passable (v.get? p) ∧ ∀ r' s w, f.type.Embeds r (v.get? r) r' s w →
      g.type.Embeds p (v.get? p) r' s w) ∨ schema.resolve v p = .nested := by
  induction h with
  | declared hf => exact .inr (Schema.resolve_of_isAbove hw.apart hf ha hp)
  | @item r f sub items i hr ht hv hi ih =>
    have hstep : ∀ r' s w, (Field.ofSub sub).type.Embeds (r.index i) (v.get? (r.index i)) r' s w →
        f.type.Embeds r (v.get? r) r' s w := by
      intro r' s w he
      rw [get?_item hv] at he
      rw [hv]
      exact FieldType.embeds_of_item ht he
    rcases eq_or_isAbove_of_covers (isAbove_append_iff.mp ha) with rfl | ha
    · exact .inl ⟨f, hr, by rw [ht]; exact ⟨items, hv⟩, hstep⟩
    · rcases ih ha with ⟨g, hg, hpass, he⟩ | hn
      · exact .inl ⟨g, hg, hpass, fun r' s w h => he r' s w (hstep r' s w h)⟩
      · exact .inr hn
  | @inner r q f g sub fs hr ht hv hg ih =>
    have hstep : ∀ r' s w, g.type.Embeds (r ++ q) (v.get? (r ++ q)) r' s w → f.type.Embeds r (v.get? r) r' s w := by
      intro r' s w he
      rw [get?_append, hv] at he
      rw [hv, ht]
      exact .inner .embedded hg he
    rcases eq_or_isAbove_or (covers_of_isAbove ha) (covers_append r q) with rfl | habove | hbelow
    · exact .inl ⟨f, hr, by rw [ht]; exact ⟨fs, hv⟩, hstep⟩
    · rcases ih habove with ⟨g, hg, hpass, he⟩ | hn
      · exact .inl ⟨g, hg, hpass, fun r' s w h => he r' s w (hstep r' s w h)⟩
      · exact .inr hn
    · obtain ⟨x, hx, rfl⟩ := isAbove_iff.mp hbelow
      exact .inr (hr.resolve_between hw ht hv hg hx (append_isAbove_append.mp ha))

-- Ways through values

-- A place on a way through values that are there. Only documents and arrays of documents matter later.
def Passes (schema : Schema) (v : Value) (p : Path) : Cursor → Prop
  | .schema s place doc => ∃ r, p = r ++ place ∧ doc = v.get? r ∧ s.Meets .wellFormed ∧
      ∀ q g, (q, g) ∈ s.fields → schema.Leads v (r ++ q) g
  | .field f x => x = v.get? p ∧ (f.type.sub?.isSome → schema.Leads v p f)
  | .inMixed | .lost => True

theorem passes_stepSchema (hs : s.Meets .wellFormed) (hseg : seg.Bounded)
    (hfields : ∀ q g, (q, g) ∈ s.fields → schema.Leads v (r ++ q) g) :
    schema.Passes v (r ++ q ++ [seg]) (Cursor.stepSchema s q (v.get? r) seg) := by
  -- A segment that leads on is a key.
  have hkey : ∀ e ∈ s.fields, (q.key seg.toKey).covers e.1 → seg = .key seg.toKey := by
    intro e he hc
    obtain ⟨-, hspelled, -⟩ := hs.declared he
    exact Seg.eq_key_of_toKey (hspelled.of_covers hc _ (by simp [Path.key])) hseg rfl
  rw [Cursor.stepSchema]
  split
  · case _ f hf =>
    have hmem := mem_of_field? hf
    have hseg := hkey _ hmem (covers_refl _)
    have hpath : r ++ q ++ [seg] = r ++ q.key seg.toKey := by
      rw [append_assoc, Path.key, ← hseg]
    rw [Passes, hpath, ← get?_append]
    exact ⟨rfl, fun _ => hfields _ _ hmem⟩
  · split
    · case _ hn =>
      obtain ⟨e, he, ha⟩ := any_eq_true.mp (Bool.and_eq_true_iff.mp hn).2
      have hseg := hkey e he (covers_of_isAbove ha)
      refine ⟨r, ?_, rfl, hs, hfields⟩
      rw [append_assoc, Path.key, ← hseg]
    · trivial

theorem Passes.step (h : schema.Passes v p c) (hw : schema.Meets .wellFormed) (hseg : seg.Bounded)
    (hsome : (v.get? (p ++ [seg])).isSome) (hpass : ∀ g, c.resolution = .field g → g.type.Passable (v.get? p)) :
    schema.Passes v (p ++ [seg]) (c.step seg) := by
  cases c with
  | inMixed | lost => trivial
  | schema s q doc =>
    obtain ⟨r, rfl, rfl, hs, hfields⟩ := h
    exact passes_stepSchema hs hseg hfields
  | field f x =>
    obtain ⟨rfl, hleads⟩ := h
    have hchild : (v.get? p).bind (·.child? seg) = v.get? (p ++ [seg]) := get?_concat.symm
    have hopen := hpass f rfl
    rw [Cursor.step, Cursor.stepField]
    generalize ht : f.type = t at hopen hleads
    cases t with
    | string | number | boolean | date | id | mixed => trivial
    | embedded sub =>
      obtain ⟨fs, hfs⟩ := hopen
      have hl := hleads rfl
      have hs := (FieldType.Meets.sub (.inl (ht ▸ (hl.meets hw trivial).type))).selectOrBase (v := some (.obj fs))
      have : schema.Passes v (p ++ [] ++ [seg]) (Cursor.stepSchema _ [] (v.get? p) seg) :=
        passes_stepSchema hs hseg fun q g hg => hl.inner ht hfs hg
      rw [append_nil] at this
      dsimp only
      rw [hfs] at this ⊢
      exact this
    | array el =>
      dsimp only
      split
      · exact ⟨hchild, fun hs => by rw [hopen] at hs; cases hs⟩
      · trivial
    | map el => exact ⟨hchild, fun hs => by rw [hopen] at hs; cases hs⟩
    | documentArray sub =>
      obtain ⟨items, hitems⟩ := hopen
      cases seg with
      | key k => trivial
      | index i =>
        have hi : i < items.length := by
          rw [← Path.index, Leads.get?_item hitems] at hsome
          simpa using hsome
        exact ⟨hchild, fun _ => (hleads rfl).item ht hitems hi⟩

-- Where a path leads, if it leads through values that are there.
theorem passes_foldl (hw : schema.Meets .wellFormed) (hb : p.Bounded) (hsome : (v.get? p).isSome)
    (hpass : ∀ a g, a.isAbove p → schema.resolve v a = .field g → g.type.Passable (v.get? a)) :
    schema.Passes v p (p.foldl Cursor.step (.schema schema Path.root (some v))) := by
  induction p using List.reverseRecOn with
  | nil => exact ⟨[], rfl, (get?_nil v).symm, hw, fun q g hg => .declared hg⟩
  | append_singleton p seg ih =>
    have habove : Path.isAbove p (p ++ [seg]) := isAbove_append_iff.mpr (covers_refl p)
    have hp := ih (bounded_append.mp hb).1 (get?_isSome_of_covers hsome (covers_append p _))
      fun a g ha => hpass a g (isAbove_trans ha habove)
    rw [foldl_append]
    exact hp.step hw (hb seg (by simp)) hsome fun g hg => hpass p g habove hg

theorem leads_of_resolve (hw : schema.Meets .wellFormed) (hb : p.Bounded) (hsome : (v.get? p).isSome)
    (hpass : ∀ a g, a.isAbove p → schema.resolve v a = .field g → g.type.Passable (v.get? a))
    (hf : schema.resolve v p = .field f) (hs : f.type.sub?.isSome) : schema.Leads v p f := by
  have h := passes_foldl hw hb hsome hpass
  rw [resolve] at hf
  generalize List.foldl _ _ p = c at h hf
  cases c with
  | field g x => cases hf; exact h.2 hs
  | schema s q doc =>
    rw [Cursor.resolution] at hf
    split at hf <;> cases hf
  | inMixed | lost => cases hf

-- A path that documents are at or below leads to a field that embeds them, or to a group of fields around them.
theorem DocumentAt.covered (h : schema.DocumentAt v r s) (hw : schema.Meets .wellFormed) (hp : p ≠ [])
    (hc : p.covers r) : (∃ g, schema.Leads v p g ∧ ∃ y, g.type.Embeds p (v.get? p) r s y) ∨
      schema.resolve v p = .nested ∧ p.isAbove r := by
  obtain ⟨f, sub, fs, hf, ht, hv, rfl⟩ := documentAt_iff.mp h
  have hself : f.type.Embeds r (v.get? r) r (sub.selectOrBase (some (.obj fs))) (.obj fs) := by
    rw [ht, hv]
    exact .here .embedded
  rcases eq_or_isAbove_of_covers hc with rfl | ha
  · exact .inl ⟨f, hf, _, hself⟩
  · rcases hf.above hw hp ha with ⟨g, hg, -, he⟩ | hn
    · exact .inl ⟨g, hg, _, he _ _ _ hself⟩
    · exact .inr ⟨hn, ha⟩

theorem documentAt_below_iff (hw : schema.Meets .wellFormed) (hb : p.Bounded)
    (hpass : ∀ a g, a.isAbove p → schema.resolve v a = .field g → g.type.Passable (v.get? a))
    (hf : schema.resolve v p = .field f) (hc : p.covers r) :
    schema.DocumentAt v r s ↔ ∃ y, f.type.Embeds p (v.get? p) r s y := by
  have hp : p ≠ [] := by
    rintro rfl
    cases hf
  constructor
  · intro h
    rcases h.covered hw hp hc with ⟨g, hg, he⟩ | ⟨hn, -⟩
    · have hfg := (hg.resolve hw).symm.trans hf
      cases hfg
      exact he
    · rw [hf] at hn
      cases hn
  · rintro ⟨y, he⟩
    have hsub : f.type.sub?.isSome := by
      cases he with
      | here hh | inner hh =>
        obtain ⟨sub, hsub, -⟩ := hh.sub?
        rw [hsub]
        rfl
    exact ⟨y, (leads_of_resolve hw hb he.isSome hpass hf hsub).embeds he⟩

theorem not_documentAt_of_resolve (hw : schema.Meets .wellFormed) (hp : p ≠ [])
    (hr : schema.resolve v p = .inMixed ∨ schema.resolve v p = .undeclared) (hc : p.covers r) :
    ¬ schema.DocumentAt v r s := by
  intro h
  rcases h.covered hw hp hc with ⟨g, hg, -⟩ | ⟨hn, -⟩
  · rw [hg.resolve hw] at hr
    rcases hr with hr | hr <;> cases hr
  · rw [hn] at hr
    rcases hr with hr | hr <;> cases hr

theorem not_documentAt_of_none (hv : v.get? p = none) (hc : p.covers r) : ¬ schema.DocumentAt v r s := by
  intro h
  obtain ⟨f, sub, fs, -, -, hfs, -⟩ := documentAt_iff.mp h
  rw [get?_of_covers hv hc] at hfs
  cases hfs

theorem not_documentAt_of_emptied (hw : schema.Meets .wellFormed) (hp : p ≠ []) (hr : schema.resolve v p = .nested)
    (hv : v.get? p = some .null ∨ v.get? p = some (.obj [])) (hc : p.covers r) : ¬ schema.DocumentAt v r s := by
  intro h
  obtain ⟨f, sub, fs, -, -, hfs, -⟩ := documentAt_iff.mp h
  rcases h.covered hw hp hc with ⟨g, hg, -⟩ | ⟨-, ha⟩
  · rw [hg.resolve hw] at hr
    cases hr
  · obtain ⟨q, hq, rfl⟩ := isAbove_iff.mp ha
    cases q with
    | nil => exact absurd rfl hq
    | cons seg q =>
      rw [get?_append] at hfs
      rcases hv with hv | hv <;> rw [hv] at hfs <;> cases hfs

-- Fields apart from a write

theorem Leads.has (h : schema.Leads v r f) (hw : schema.Meets .wellFormed) (hsome : (v.get? r).isSome) :
    v.Has r ∧ r.Worded := by
  induction h with
  | declared hf =>
    obtain ⟨-, hspelled, hkeys⟩ := hw.declared hf
    exact ⟨has_of_keys hkeys hsome, fun seg hseg _ => hspelled seg hseg⟩
  | @item r f sub items i _ _ hv hi ih =>
    obtain ⟨hhas, hworded⟩ := ih (by rw [hv]; rfl)
    refine ⟨has_append.mpr ⟨hhas, _, hv, .item (getElem?_eq_getElem hi) .here⟩, ?_⟩
    exact forall_mem_append.mpr ⟨hworded, by simp [Seg.index?]⟩
  | @inner r q f g sub fs hr ht hv hg ih =>
    have hs : (sub.selectOrBase (some (.obj fs))).Meets .wellFormed :=
      (FieldType.Meets.sub (.inl (ht ▸ (hr.meets hw trivial).type))).selectOrBase
    obtain ⟨-, hspelled, hkeys⟩ := hs.declared hg
    obtain ⟨hhas, hworded⟩ := ih (by rw [hv]; rfl)
    rw [get?_append, hv] at hsome
    exact ⟨has_append.mpr ⟨hhas, _, hv, has_of_keys hkeys hsome⟩,
      forall_mem_append.mpr ⟨hworded, fun seg hseg _ => hspelled seg hseg⟩⟩

theorem Leads.distinct (h : schema.Leads v r f) (hw : schema.Meets .wellFormed) (hsome : (v.get? r).isSome)
    (hok : (v.set p x).1 = .ok ()) (hb : p.Bounded) (hbelow : ¬ p.covers r) (habove : ¬ r.isAbove p) :
    p.Distinct r := by
  obtain ⟨hhas, hworded⟩ := h.has hw hsome
  refine distinct_of_has hok hb hhas hworded hbelow fun hc => ?_
  rcases eq_or_isAbove_of_covers hc with rfl | ha
  · exact hbelow (covers_refl _)
  · exact habove ha

end Schema

namespace Document

variable {d : Document}

-- A path that a write can go along without changing which documents are around it. The embedded documents and the
-- arrays of documents on the way are there, and the path does not lead to a key that tells their variants.
structure Apt (d : Document) (p : Path) : Prop where
  bounded  : p.Bounded
  through  : ∀ a f, a.isAbove p → d.resolve a = .field f → f.type.Passable (d.get? a)
  selected : ∀ g, d.Governs p g → p.Distinct g

namespace Apt

variable {sub : SubSchema}

theorem selectOrBase_eq (h : d.Apt p) (hf : d.resolve r = .field f) (ht : f.type = .embedded sub) (ha : r.isAbove p)
    (hv : d.get? r = some (.obj fs)) (hw : (d.value.set p x).2.get? r = some (.obj gs)) :
    sub.selectOrBase (some (.obj gs)) = sub.selectOrBase (some (.obj fs)) := by
  by_cases hvar : sub.variants = []
  · simp [SubSchema.selectOrBase, SubSchema.select, SubSchema.variant?, hvar]
  · refine SubSchema.selectOrBase_eq ?_
    have hd := h.selected _ ⟨r, f, sub, ha, hf, ht, hvar, rfl⟩
    have := get?_set_distinct (v := d.value) (x := x) hd
    rw [Document.get?] at hv
    rwa [get?_key, get?_key, hv, hw] at this

section

variable (h : d.Apt p) (hw : d.schema.Meets .wellFormed) (hok : (d.value.set p x).1 = .ok ())
  (hr : d.schema.Leads d.value r f)

include h hw hok hr

theorem object_set (ht : f.type = .embedded sub) (hv : d.get? r = some (.obj fs)) (hout : ¬ p.covers r) :
    ∃ gs, (d.value.set p x).2.get? r = some (.obj gs) ∧
      sub.selectOrBase (some (.obj gs)) = sub.selectOrBase (some (.obj fs)) := by
  by_cases ha : r.isAbove p
  · obtain ⟨gs, hgs⟩ := obj_of_setFrom_below hok ha hv
    exact ⟨gs, hgs, h.selectOrBase_eq (hr.resolve hw) ht ha hv hgs⟩
  · have hd := hr.distinct hw (by rw [← Document.get?, hv]; rfl) hok h.bounded hout ha
    exact ⟨fs, by rw [get?_set_distinct hd]; exact hv, rfl⟩

theorem items_set (hv : d.get? r = some (.arr xs)) (hout : ¬ p.covers r) :
    ∃ ys, (d.value.set p x).2.get? r = some (.arr ys) ∧ xs.length ≤ ys.length := by
  by_cases ha : r.isAbove p
  · obtain ⟨ys, hys, hle, -⟩ := items_of_setFrom_below hok ha hv
    exact ⟨ys, hys, hle⟩
  · have hd := hr.distinct hw (by rw [← Document.get?, hv]; rfl) hok h.bounded hout ha
    exact ⟨xs, by rw [get?_set_distinct hd]; exact hv, Nat.le_refl _⟩

theorem leads_set (hout : ¬ p.covers r) : d.schema.Leads (d.value.set p x).2 r f := by
  induction hr with
  | declared hf => exact .declared hf
  | item hr ht hv hi ih =>
    have hout := fun hc => hout (covers_trans hc (covers_append _ _))
    obtain ⟨ys, hys, hle⟩ := h.items_set hw hok hr hv hout
    exact (ih hout).item ht hys (Nat.lt_of_lt_of_le hi hle)
  | inner hr ht hv hg ih =>
    have hout := fun hc => hout (covers_trans hc (covers_append _ _))
    obtain ⟨gs, hgs, hsel⟩ := h.object_set hw hok hr ht hv hout
    exact (ih hout).inner ht hgs (hsel ▸ hg)

end

theorem set_ok_set (hok : (d.value.set p x).1 = .ok ()) : ((d.value.set p x).2.set p x).1 = .ok () :=
  setFrom_ok_of_get? (get?_setFrom_self hok)

variable (h : d.Apt p) (hw : d.schema.Meets .wellFormed) (hok : (d.value.set p x).1 = .ok ())

include h hw hok

theorem object_of_set (hr : d.schema.Leads d.value r f) (hr' : d.schema.Leads (d.value.set p x).2 r f)
    (ht : f.type = .embedded sub) (hv : (d.value.set p x).2.get? r = some (.obj gs)) (hout : ¬ p.covers r) :
    ∃ fs, d.get? r = some (.obj fs) ∧ sub.selectOrBase (some (.obj gs)) = sub.selectOrBase (some (.obj fs)) := by
  by_cases ha : r.isAbove p
  · have hpass := h.through r f ha (hr.resolve hw)
    rw [ht] at hpass
    obtain ⟨fs, hfs⟩ := hpass
    exact ⟨fs, hfs, h.selectOrBase_eq (hr.resolve hw) ht ha hfs hv⟩
  · have hd := hr'.distinct hw (by rw [hv]; rfl) (set_ok_set hok) h.bounded hout ha
    rw [get?_set_distinct hd] at hv
    exact ⟨gs, hv, rfl⟩

-- An item that a write adds to an array is at its path, as the items on the way are there.
theorem items_of_set (hr : d.schema.Leads d.value r f) (hr' : d.schema.Leads (d.value.set p x).2 r f)
    (ht : f.type = .documentArray sub) (hv : (d.value.set p x).2.get? r = some (.arr ys)) (hi : i < ys.length)
    (hout : ¬ p.covers (r.index i)) : ∃ xs, d.get? r = some (.arr xs) ∧ i < xs.length := by
  by_cases ha : r.isAbove p
  · have hpass := h.through r f ha (hr.resolve hw)
    rw [ht] at hpass
    obtain ⟨xs, hxs⟩ := hpass
    obtain ⟨ys', hys, -, hnew⟩ := items_of_setFrom_below hok ha hxs
    have he := hys.symm.trans hv
    cases he
    refine ⟨xs, hxs, ?_⟩
    by_cases hc : (r.index i).covers p
    · have habove : (r.index i).isAbove p :=
        isAbove_iff_covers.mpr ⟨hc, fun he => hout (he ▸ covers_refl _)⟩
      obtain ⟨fs, hfs⟩ := h.through _ _ habove (hr.resolve_item hw ht)
      rw [Document.get?] at hxs
      rw [Document.get?, Schema.Leads.get?_item hxs] at hfs
      exact (List.getElem?_eq_some_iff.mp hfs).1
    · exact hnew i hi hc
  · have hd := hr'.distinct hw (by rw [hv]; rfl) (set_ok_set hok) h.bounded
      (fun hc => hout (covers_trans hc (covers_append _ _))) ha
    rw [get?_set_distinct hd] at hv
    exact ⟨ys, hv, hi⟩

theorem leads_of_set (hr : d.schema.Leads (d.value.set p x).2 r f) (hout : ¬ p.covers r) :
    d.schema.Leads d.value r f := by
  induction hr with
  | declared hf => exact .declared hf
  | item hr ht hv hi ih =>
    have hold := ih fun hc => hout (covers_trans hc (covers_append _ _))
    obtain ⟨xs, hxs, hlt⟩ := h.items_of_set hw hok hold hr ht hv hi hout
    exact hold.item ht hxs hlt
  | inner hr ht hv hg ih =>
    have hout := fun hc => hout (covers_trans hc (covers_append _ _))
    obtain ⟨fs, hfs, hsel⟩ := h.object_of_set hw hok (ih hout) hr ht hv hout
    exact (ih hout).inner ht hfs (hsel ▸ hg)

theorem documentAt_set (hout : ¬ p.covers r) :
    d.schema.DocumentAt (d.value.set p x).2 r s ↔ d.schema.DocumentAt d.value r s := by
  simp only [Schema.documentAt_iff]
  constructor
  · rintro ⟨f, sub, gs, hr, ht, hv, rfl⟩
    have hold := h.leads_of_set hw hok hr hout
    obtain ⟨fs, hfs, hsel⟩ := h.object_of_set hw hok hold hr ht hv hout
    exact ⟨f, sub, fs, hold, ht, hfs, hsel⟩
  · rintro ⟨f, sub, fs, hr, ht, hv, rfl⟩
    obtain ⟨gs, hgs, hsel⟩ := h.object_set hw hok hr ht hv hout
    exact ⟨f, sub, gs, h.leads_set hw hok hr hout, ht, hgs, hsel.symm⟩

end Apt

-- Apt paths

-- What is on the way to a path is still there.
structure Steady (p : Path) (d d' : Document) : Prop where
  resolve : ∀ a, a.covers p → d'.resolve a = d.resolve a
  through : ∀ a (t : FieldType), a.isAbove p → t.Passable (d.get? a) → t.Passable (d'.get? a)

namespace Steady

theorem refl : Steady p d d :=
  ⟨fun _ _ => rfl, fun _ _ _ => id⟩

theorem trans (h : Steady p d d') (h' : Steady p d' d'') : Steady p d d'' :=
  ⟨fun a ha => (h'.resolve a ha).trans (h.resolve a ha), fun a t ha ht => h'.through a t ha (h.through a t ha ht)⟩

theorem of_covers (h : Steady q d d') (hc : p.covers q) : Steady p d d' :=
  ⟨fun a ha => h.resolve a (covers_trans ha hc), fun a t ha => h.through a t (isAbove_of_isAbove_covers ha hc)⟩

theorem of_value (hs : d'.schema = d.schema) (hv : d'.value = d.value) : Steady p d d' := by
  refine ⟨fun a _ => ?_, fun a t _ ht => ?_⟩
  · rw [Document.resolve, Document.resolve, hs, hv]
  · rwa [Document.get?, hv]

end Steady

namespace Apt

theorem of_steady (h : d.Apt p) (hs : Steady p d d') : d'.Apt p where
  bounded := h.bounded
  through a f ha hr := hs.through a f.type ha (h.through a f ha (hs.resolve a (covers_of_isAbove ha) ▸ hr))
  selected := by
    rintro g ⟨x, f, sub, hx, hr, ht, hv, rfl⟩
    exact h.selected _ ⟨x, f, sub, hx, hs.resolve x (covers_of_isAbove hx) ▸ hr, ht, hv, rfl⟩

theorem steady_set (h : d.Apt p) (hs : d'.schema = d.schema) (hv : d'.value = (d.value.set p x).2) : Steady p d d' := by
  refine ⟨fun a ha => ?_, fun a t ha ht => ?_⟩
  · rw [Document.resolve, hs, hv]
    exact resolve_set h.selected x ha
  rw [Document.get?, hv]
  cases hok : (d.value.set p x).1 with
  | error e =>
    rw [Value.set, (setFrom_of_error hok).1]
    exact ht
  | ok =>
    cases t with
    | embedded =>
      obtain ⟨fs, hfs⟩ := ht
      exact obj_of_setFrom_below hok ha hfs
    | documentArray =>
      obtain ⟨xs, hxs⟩ := ht
      obtain ⟨ys, hys, -⟩ := items_of_setFrom_below hok ha hxs
      exact ⟨ys, hys⟩
    | string | number | boolean | date | id | mixed | array | map => exact ht

theorem nil : d.Apt [] where
  bounded := by simp [Path.Bounded]
  through a f ha := by simp at ha
  selected := by
    rintro g ⟨x, f, sub, hx, -⟩
    simp at hx

theorem key (h : d.Apt p) (hr : ∀ f, d.resolve p ≠ .field f) : d.Apt (p ++ [.key k]) where
  bounded := bounded_append.mpr ⟨h.bounded, by simp [Path.Bounded, Seg.Bounded, Seg.index?]⟩
  through a f ha hf := by
    rcases eq_or_isAbove_of_covers (isAbove_append_iff.mp ha) with rfl | ha
    · exact absurd hf (hr f)
    · exact h.through a f ha hf
  selected := by
    rintro g ⟨x, f, sub, hx, hf, ht, hv, rfl⟩
    rcases eq_or_isAbove_of_covers (isAbove_append_iff.mp hx) with rfl | hx
    · exact absurd hf (hr f)
    · exact (h.selected _ ⟨x, f, sub, hx, hf, ht, hv, rfl⟩).inside _

end Apt

theorem passable_of_leads (h : d.schema.Leads d.value p f) (hw : d.schema.Meets .wellFormed) (ha : a.isAbove p)
    (hg : d.resolve a = .field g) : d.schema.Leads d.value a g ∧ g.type.Passable (d.get? a) := by
  have hne : a ≠ [] := ne_nil_of_resolve hg
  rcases h.above hw hne ha with ⟨g', hg', hpass, -⟩ | hn
  · have he := (hg'.resolve hw).symm.trans hg
    cases he
    exact ⟨hg', hpass⟩
  · have he := hn.symm.trans hg
    cases he

theorem apt_of_leads (h : d.schema.Leads d.value p f) (hw : d.schema.Meets .wellFormed) (hb : p.Bounded)
    (hsel : ∀ g, d.Governs p g → p.Distinct g) : d.Apt p :=
  ⟨hb, fun _ _ ha hg => (passable_of_leads h hw ha hg).2, hsel⟩

theorem apt_of_declared (hf : (p, f) ∈ d.schema.fields) (hw : d.schema.Meets .wellFormed) : d.Apt p := by
  obtain ⟨-, -, hkeys⟩ := hw.declared hf
  refine apt_of_leads (.declared hf) hw (bounded_of_keys hkeys) ?_
  rintro g ⟨x, fld, sub, hx, hr, -⟩
  have hn : d.resolve x = .nested := Schema.resolve_of_isAbove hw.apart hf hx (ne_nil_of_resolve hr)
  rw [hr] at hn
  cases hn

end Document
end Dossier

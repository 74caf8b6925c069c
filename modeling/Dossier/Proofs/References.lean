import Dossier.Proofs.Changeset
import Dossier.Proofs.Mark
import Dossier.Proofs.Setters

-- A record that stands in for a reference is written as the identifier that it took the place of.

namespace Dossier

open Path Entries Value List

namespace Path

-- Neither path leads to the place of the other one or into it, also where an index stands for a key.
def Distinct (p q : Path) : Prop :=
  ¬ p.map Seg.toKey <+: q.map Seg.toKey ∧ ¬ q.map Seg.toKey <+: p.map Seg.toKey

instance (p q : Path) : Decidable (p.Distinct q) :=
  inferInstanceAs (Decidable (_ ∧ _))

variable {p q c : Path}

theorem Apart.distinct (h : p.Apart q) (hp : p.Spelled) (hq : q.Spelled) : p.Distinct q :=
  ⟨h.keys hp hq, h.symm.keys hq hp⟩

theorem Distinct.symm (h : p.Distinct q) : q.Distinct p :=
  ⟨h.2, h.1⟩

theorem cons_distinct_cons {a : Seg} : Distinct (a :: p) (b :: q) ↔ a.toKey ≠ b.toKey ∨ p.Distinct q := by
  simp only [Distinct, map_cons, cons_prefix_cons]
  grind

theorem Distinct.inside (h : p.Distinct q) (seg : Seg) : Distinct (p ++ [seg]) q := by
  refine ⟨fun hp => h.1 ?_, fun hq => ?_⟩
  · rw [map_append] at hp
    exact (prefix_append _ _).trans hp
  · rw [map_append, map_singleton, prefix_concat_iff] at hq
    rcases hq with hq | hq
    · exact h.1 (hq ▸ prefix_append _ _)
    · exact h.2 hq

theorem Distinct.of_covers {r : Path} (h : p.Distinct q) (hc : p.covers r) : r.Distinct q := by
  obtain ⟨x, rfl⟩ := covers_iff.mp hc
  induction x generalizing p with
  | nil => rwa [append_nil]
  | cons seg x ih =>
    rw [← singleton_append, ← append_assoc]
    exact ih (h.inside seg) (covers_append _ _)

theorem Distinct.below (h : Distinct (c ++ p) (c ++ q)) : p.Distinct q := by
  simpa [Distinct, map_append, prefix_append_right_inj] using h

theorem Distinct.not_covers (h : p.Distinct q) : ¬ p.covers q := by
  intro hc
  obtain ⟨r, rfl⟩ := covers_iff.mp hc
  exact h.1 (by simp)

theorem Distinct.ne (h : p.Distinct q) : p ≠ q := by
  rintro rfl
  exact h.not_covers (covers_refl p)

end Path

theorem Value.get?_set_distinct {v : Value} (h : q.Distinct p) : (v.set q x).2.get? p = v.get? p :=
  get?_setFrom_of_keys h.2 h.1

namespace Document

variable {d d' start : Document} {p q rel : Path} {v : Value}

-- What is written

-- Of the identifiers that go back into a value, the one for a path is found there. All others go elsewhere.
theorem get?_restoreIds {path : Path} (hs : Entries.Sorted es)
    (hes : ∀ e ∈ es, e.1 = path ++ rel ∨ e.1.Distinct (path ++ rel)) (hv : w.get? rel = some v) :
    (restoreIds path es w).get? rel = some ((Entries.get? (path ++ rel) es).getD v) := by
  induction es generalizing v w with
  | nil => exact hv
  | cons e es ih =>
    obtain ⟨q, id⟩ := e
    obtain ⟨hq, hes⟩ := forall_mem_cons.mp hes
    have ih : ∀ {v w : Value}, w.get? rel = some v → _ := fun hv => ih hs.tail hes hv
    dsimp only at hq
    rw [restoreIds]
    split
    · case _ hb =>
      have hne : q ≠ path ++ rel := by
        rintro rfl
        simp at hb
      rw [get?_cons_ne hne]
      exact ih hv
    · case _ hb =>
      have hb : q = path ++ [] := below?_eq_some_iff.mp hb
      rw [append_nil] at hb
      rcases hq with hq | hq
      · obtain rfl : rel = [] := by simpa [hb] using hq
        rw [hq, get?_cons_self, get?_nil]
        rfl
      · exact absurd (hb ▸ covers_append path rel) hq.not_covers
    · case _ r _ hb =>
      obtain rfl := below?_eq_some_iff.mp hb
      rcases hq with hq | hq
      · obtain rfl := append_cancel_left hq
        have hw : (w.written r id).get? r = some id := get?_setFrom_self (setFrom_ok_of_get? hv)
        rw [ih hw, get?_cons_self, hs.get?_tail]
        rfl
      · rw [get?_cons_ne hq.ne]
        refine ih ?_
        rw [Value.written, get?_set_distinct hq.below]
        exact hv

theorem exists_written {c : Change} (hc : c ∈ d.changeset.changes) (hops : d.arrayOps = ∅)
    (hpop : ∀ q, (d.populated.get? q).isSome → q = c.path ++ rel ∨ q.Distinct (c.path ++ rel))
    (hv : d.get? (c.path ++ rel) = some v) :
    ∃ w, c.op = .set w ∧ w.get? rel = some ((d.populated.get? (c.path ++ rel)).getD v) := by
  rw [Document.get?, get?_append] at hv
  obtain ⟨y, hy, hv⟩ := Option.bind_eq_some_iff.mp hv
  refine ⟨d.depopulated c.path y, ?_, ?_⟩
  · have hinc : d.incremental? d.dirtyPaths c.path = none := by
      simp [incremental?, hops]
    rw [(mem_changeset.mp hc).1, changeAt, hinc]
    dsimp only
    rw [Document.get?, hy]
  · refine get?_restoreIds d.populated.sorted (fun e he => hpop e.1 ?_) hv
    rw [OrdMap.mem_entries_iff.mp he]
    rfl

-- Calls

-- The path is that of a field of identifiers.
def IsReference (d : Document) (p : Path) : Prop :=
  ∃ f, d.resolve p = .field f ∧ f.tag = .id

-- What a call does to the value of a document and to the identifiers that are kept for records.
inductive Swap (d d' : Document) : Call → Prop
  | still {c} : d'.value = d.value → d'.populated = d.populated → Swap d d' c
  -- The record stands in for the same identifier as what it replaces.
  | populated {q record v} : d.IsReference q → d.get? q = some v → v.referenceId = record.referenceId →
      d'.value = (d.value.set q record).2 → d'.populated = d.populated.insert q record.referenceId →
      Swap d d' (.populate q record)
  | depopulated {q id} : d.populated.get? q = some id → d'.value = (d.value.set q id).2 →
      d'.populated = d.populated.erase q → Swap d d' (.depopulate q)
  | assigned {q x opts} : d.IsReference q → x.referenceId = x → (d.value.set q x).1 = .ok () →
      d'.value = (d.value.set q x).2 → d'.populated = d.populated → Swap d d' (.set q x opts)

structure Turn (d d' : Document) (c : Call) : Prop where
  schema   : d'.schema = d.schema
  arrayOps : d'.arrayOps = d.arrayOps
  swap     : Swap d d' c

end Document

-- A string or a number.
def Value.IsIdentifier : Value → Prop
  | .str _ | .num _ => True
  | _ => False

theorem Value.IsIdentifier.referenceId_eq {v : Value} (h : v.IsIdentifier) : v.referenceId = v := by
  cases v with
  | str | num => rfl
  | null | bool | arr | obj => exact h.elim

namespace Call

-- A call on references: a record is put in the place of its own identifier or taken out again, or an
-- identifier is assigned.
def Refers (d : Document) : Call → Prop
  | populate p record => (d.get? p).map Value.referenceId = record.field? Value.idKey
  | depopulate _ => True
  | set p v _ => v.IsIdentifier ∧ ∃ f, d.resolve p = .field f ∧ f.tag = .id ∧ f.rules.setters = []
  | _ => False

-- A path at which a record stands is assigned no other identifier than the one that is kept for it.
def Respects (p : Path) (d : Document) : Call → Prop
  | set q v _ => q = p → ∀ id, d.populated.get? p = some id → id = v
  | _ => True

-- Each call is of a kind, in the document that it is made on.
def Throughout (P : Document → Call → Prop) : List Call → Desk → Prop
  | [], _ => True
  | c :: calls, s => P s.doc c ∧ Throughout P calls (c.run s)

end Call

theorem Field.not_isStructural_of_id {f : Field} (h : f.tag = .id) : ¬ f.type.isStructural := by
  obtain ⟨t, r⟩ := f
  cases t with
  | id => simp [FieldType.isStructural]
  | _ => cases h

namespace Edit

open Document

variable {s : Desk} {p : Path} {f : Field} {v : Value} {opts : SetOptions}

theorem accept_identifier {ctx : CastContext} (hf : f.tag = .id) (hs : f.rules.setters = []) (hv : v.IsIdentifier) :
    f.accept ctx v = pure v := by
  rw [Field.accept_eq_cast hs]
  obtain ⟨t, r⟩ := f
  cases t with
  | id target =>
    cases v with
    | str | num => simp [Field.cast, Value.isNull, FieldType.cast, Cast.id]
    | null | bool | arr | obj => exact hv.elim
  | _ => cases hf

theorem doc_storeField {prior : Option Value} (hf : ¬ f.type.isStructural) :
    let d' := ((storeField p f prior v opts).outcome s).2.doc
    d'.schema = s.doc.schema ∧ d'.arrayOps = s.doc.arrayOps ∧ d'.populated = s.doc.populated ∧
      (d'.value = s.doc.value ∨
        (s.doc.value.set p v).1 = .ok () ∧ d'.value = (s.doc.value.set p v).2) := by
  have ha : ¬ f.type.isArray := fun ha => hf (FieldType.isStructural_of_isArray ha)
  rw [outcome_storeField]
  dsimp only
  split
  · split <;> exact ⟨rfl, rfl, rfl, .inl rfl⟩
  split
  · obtain ⟨issues, hi⟩ := markValid_eq s.doc p
    rw [hi]
    exact ⟨rfl, rfl, rfl, .inl rfl⟩
  rw [write_eq]
  cases hr : (s.doc.value.set p v).1 with
  | error e => exact ⟨rfl, rfl, rfl, .inl (setFrom_of_error hr).1⟩
  | ok =>
    simp only [settled, hf, ha, false_and, if_false, Bool.false_eq_true]
    generalize s.doc.modifies p prior v opts = modifies
    obtain ⟨issues, hi⟩ := markValid_eq (if modifies then _ else _) p
    rw [hi]
    cases modifies <;> exact ⟨rfl, rfl, rfl, .inr ⟨trivial, rfl⟩⟩

theorem doc_set_identifier (hr : s.doc.resolve p = .field f) (hf : f.tag = .id) (hs : f.rules.setters = [])
    (hv : v.IsIdentifier) : ∃ s₁ : Desk, s₁.doc = s.doc.openChanges ∧ (((Edit.set p v opts).outcome s).2.doc = s₁.doc ∨
      ((Edit.set p v opts).outcome s).2.doc = ((storeField p f (s.doc.get? p) v opts).outcome s₁).2.doc) := by
  refine ⟨{ doc := s.doc.openChanges, effects := { s.effects with queue := [] } }, rfl, ?_⟩
  have hr₁ : s.doc.openChanges.resolve p = .field f := by
    rw [openChanges_eq]
    exact hr
  have hget : s.doc.openChanges.get? p = s.doc.get? p := by
    rw [openChanges_eq]
    rfl
  rw [Edit.set, Edit.outcome_bind, outcome_change]
  dsimp only
  rw [Edit.outcome_bind, outcome_clearQueue]
  dsimp only
  rw [Edit.outcome_bind, outcome_setPath (ne_nil_of_resolve hr)]
  dsimp only
  cases s.doc.openChanges.missingArray? p with
  | some parent => exact .inl rfl
  | none =>
    refine .inr ?_
    dsimp only
    rw [hr₁]
    dsimp only
    rw [outcome_setField, accept_identifier hf hs hv, Cast.outcome_pure]
    dsimp only
    rw [hget]
    rcases ho : (storeField p f (s.doc.get? p) v opts).outcome _ with ⟨_ | _, s'⟩
    · rfl
    · have hq := congrArg (fun r => r.2.effects) ho
      dsimp only at hq ⊢
      rw [effects_storeField] at hq
      rw [outcome_settle (by rw [← hq])]

end Edit

namespace Document

variable {d d' start : Document} {p q : Path} {v : Value}

theorem Turn.of_populate (h : (s.doc.get? p).map Value.referenceId = record.field? Value.idKey) :
    Turn s.doc ((Edit.populate p record).outcome s).2.doc (.populate p record) := by
  rw [Edit.populate, Edit.outcome_bind, Edit.outcome_doc]
  dsimp only
  split
  · case _ hr =>
    cases hid : record.field? Value.idKey with
    | none => exact ⟨rfl, rfl, .still rfl rfl⟩
    | some id =>
      have href : record.referenceId = id := by
        rw [Value.referenceId, hid]
        rfl
      rw [hid] at h
      obtain ⟨v, hv, hvid⟩ := Option.map_eq_some_iff.mp h
      have hok : (s.doc.value.set p record).1 = .ok () := setFrom_ok_of_get? hv
      dsimp only
      rw [Edit.outcome_bind, Edit.outcome_write, write_eq, hok]
      dsimp only [Edit.outcome_change]
      refine ⟨rfl, rfl, .populated ⟨_, hr, rfl⟩ hv (hvid.trans href.symm) rfl
        (congrArg (s.doc.populated.insert p) ?_)⟩
      -- What is replaced stands for the identifier of the record, also if it is null.
      rw [hv, href]
      cases v with
      | null => rfl
      | bool | num | str | arr | obj => exact hvid
  · exact ⟨rfl, rfl, .still rfl rfl⟩

theorem Turn.of_depopulate : Turn s.doc ((Edit.depopulate p).outcome s).2.doc (.depopulate p) := by
  rw [Edit.depopulate, Edit.outcome_bind, Edit.outcome_doc]
  dsimp only
  split
  · exact ⟨rfl, rfl, .still rfl rfl⟩
  · case _ id hid =>
    rw [Edit.outcome_bind, Edit.outcome_change]
    dsimp only
    rw [Edit.outcome_write, write_eq]
    exact ⟨rfl, rfl, .depopulated hid rfl rfl⟩

theorem Turn.of_set (hv : v.IsIdentifier) (hr : s.doc.resolve p = .field f) (hf : f.tag = .id)
    (hs : f.rules.setters = []) : Turn s.doc ((Edit.set p v opts).outcome s).2.doc (.set p v opts) := by
  obtain ⟨s₁, hs₁, he⟩ := Edit.doc_set_identifier hr hf hs hv
  rw [openChanges_eq] at hs₁
  rcases he with he | he
  all_goals rw [he]
  · rw [hs₁]
    exact ⟨rfl, rfl, .still rfl rfl⟩
  · obtain ⟨hschema, hops, hpop, hvalue⟩ := Edit.doc_storeField (s := s₁) (Field.not_isStructural_of_id hf)
    rw [hs₁] at hschema hops hpop hvalue
    refine ⟨hschema, hops, ?_⟩
    rcases hvalue with hvalue | ⟨hok, hvalue⟩
    · exact .still hvalue hpop
    · exact .assigned ⟨f, hr, hf⟩ hv.referenceId_eq hok hvalue hpop

theorem Turn.of_refers (h : c.Refers s.doc) : Turn s.doc (c.run s).doc c := by
  cases c with
  | populate => exact .of_populate h
  | depopulate => exact .of_depopulate
  | set =>
    obtain ⟨hv, f, hr, hf, hs⟩ := h
    exact .of_set hv hr hf hs
  | push | pull | mark | unmark | report | commit | rollback => exact h.elim

-- What stands at a path

-- What a call does, as seen at one path.
inductive SwapAt (p : Path) (d d' : Document) : Call → Prop
  | still {c} : d'.get? p = d.get? p → d'.populated.get? p = d.populated.get? p → SwapAt p d d' c
  | populated {c record v} : d.get? p = some v → v.referenceId = record.referenceId →
      d'.get? p = some record → d'.populated.get? p = some record.referenceId → SwapAt p d d' c
  | depopulated {c id} : d.populated.get? p = some id → ((d.get? p).isSome → d'.get? p = some id) →
      d'.populated.get? p = none → SwapAt p d d' c
  | assigned {x opts} : x.referenceId = x → d'.get? p = some x →
      d'.populated.get? p = d.populated.get? p → SwapAt p d d' (.set p x opts)

theorem Swap.at (h : Swap d d' c)
    (hq : ∀ q, c.path? = some q → d.IsReference q ∨ (d.populated.get? q).isSome → q = p ∨ q.Distinct p) :
    SwapAt p d d' c := by
  have hget : ∀ {q x}, q.Distinct p → d'.value = (d.value.set q x).2 → d'.get? p = d.get? p := by
    intro q x hd hv
    rw [Document.get?, hv, get?_set_distinct hd]
    rfl
  have hself : ∀ {x}, (d.value.set p x).1 = .ok () → d'.value = (d.value.set p x).2 → d'.get? p = some x := by
    intro x hok hv
    rw [Document.get?, hv]
    exact get?_setFrom_self hok
  cases h with
  | still hv hpop => exact .still (by rw [Document.get?, hv]; rfl) (by rw [hpop])
  | @populated q record v href hold hid hv hpop =>
    rcases hq q rfl (.inl href) with rfl | hd
    · refine .populated hold hid (hself (setFrom_ok_of_get? hold) hv) ?_
      rw [hpop, OrdMap.get?_insert_self]
    · refine .still (hget hd hv) ?_
      rw [hpop, OrdMap.get?_insert_ne hd.ne]
  | @depopulated q id hid hv hpop =>
    rcases hq q rfl (.inr (by simp [hid])) with rfl | hd
    · refine .depopulated hid (fun hsome => ?_) (by rw [hpop, OrdMap.get?_erase_self])
      obtain ⟨v, hheld⟩ := Option.isSome_iff_exists.mp hsome
      exact hself (setFrom_ok_of_get? hheld) hv
    · refine .still (hget hd hv) ?_
      rw [hpop, OrdMap.get?_erase_ne hd.ne]
  | @assigned q x opts href hx hok hv hpop =>
    rcases hq q rfl (.inl href) with rfl | hd
    · exact .assigned hx (hself hok hv) (by rw [hpop])
    · exact .still (hget hd hv) (by rw [hpop])

-- What stands at a path and what is kept for it. Values that came with the document may be anything that
-- has one identifier.
structure Identified (start : Document) (p : Path) (d : Document) : Prop where
  kept   : ∀ id, d.populated.get? p = some id → id.referenceId = id ∧ (d.get? p).isSome
  stands : ∀ v, d.get? p = some v → v.referenceId.referenceId = v.referenceId
  bare   : d.populated.get? p = none → ∀ v, d.get? p = some v → v.referenceId = v ∨ start.get? p = some v

theorem Identified.swap (h : Identified start p d) (hs : SwapAt p d d' c) : Identified start p d' := by
  cases hs with
  | still hget hpop =>
    refine ⟨?_, ?_, ?_⟩ <;> simp only [hget, hpop]
    · exact h.kept
    · exact h.stands
    · exact h.bare
  | @populated _ record v hold hid hget hpop =>
    have hrecord := h.stands v hold
    rw [hid] at hrecord
    refine ⟨?_, ?_, ?_⟩ <;> simp only [hget, hpop]
    · rintro _ ⟨⟩
      exact ⟨hrecord, rfl⟩
    · rintro _ ⟨⟩
      exact hrecord
    · simp
  | @depopulated _ id hid hget hpop =>
    obtain ⟨hbare, hsome⟩ := h.kept id hid
    refine ⟨?_, ?_, ?_⟩ <;> simp only [hget hsome, hpop]
    · simp
    · rintro _ ⟨⟩
      rw [hbare, hbare]
    · rintro - _ ⟨⟩
      exact .inl hbare
  | @assigned x _ hx hget hpop =>
    refine ⟨?_, ?_, ?_⟩ <;> simp only [hget, hpop]
    · exact fun id hid => ⟨(h.kept id hid).1, rfl⟩
    · rintro _ ⟨⟩
      rw [hx, hx]
    · rintro - _ ⟨⟩
      exact .inl hx

-- What stands at a path has the identifier that is kept for it.
def Aligned (p : Path) (d : Document) : Prop :=
  ∀ id v, d.populated.get? p = some id → d.get? p = some v → id = v.referenceId

theorem Aligned.swap (h : Aligned p d) (hs : SwapAt p d d' c) (hc : c.Respects p d) : Aligned p d' := by
  cases hs with
  | still hget hpop =>
    unfold Aligned
    rwa [hget, hpop]
  | populated _ _ hget hpop =>
    unfold Aligned
    rw [hget, hpop]
    rintro _ _ ⟨⟩ ⟨⟩
    rfl
  | depopulated _ _ hpop =>
    unfold Aligned
    simp [hpop]
  | assigned hx hget hpop =>
    unfold Aligned
    rw [hget, hpop]
    rintro id _ hid ⟨⟩
    rw [hx]
    exact hc rfl id hid

-- Runs

-- Where records stand, apart from a path itself, has nothing to do with the path.
structure Standing (schema : Schema) (p : Path) (d : Document) : Prop where
  schema   : d.schema = schema
  arrayOps : d.arrayOps = ∅
  apart    : ∀ q, (d.populated.get? q).isSome → q = p ∨ q.Distinct p

variable {schema : Schema}

theorem schema_runAll (h : Call.Throughout Call.Refers calls s) : (Call.runAll calls s).doc.schema = s.doc.schema := by
  induction calls generalizing s with
  | nil => rfl
  | cons c calls ih => exact (ih h.2).trans (Turn.of_refers h.1).schema

theorem Standing.turn (h : Standing schema p d) (ht : Turn d d' c)
    (hq : ∀ q, c.path? = some q → d.IsReference q → q = p ∨ q.Distinct p) : Standing schema p d' := by
  refine ⟨ht.schema.trans h.schema, ht.arrayOps.trans h.arrayOps, fun r hr => ?_⟩
  cases ht.swap with
  | still _ hpop | assigned _ _ _ _ hpop =>
    rw [hpop] at hr
    exact h.apart r hr
  | populated href _ _ _ hpop =>
    rw [hpop, OrdMap.get?_insert] at hr
    split at hr
    · case isTrue he =>
      subst he
      exact hq _ rfl href
    · exact h.apart r hr
  | @depopulated q _ _ _ hpop =>
    rw [hpop] at hr
    by_cases he : q = r
    · simp [he, OrdMap.get?_erase_self] at hr
    · rw [OrdMap.get?_erase_ne he] at hr
      exact h.apart r hr

-- As far as calls go to references, these are the path itself or distinct from it.
def Spares (schema : Schema) (p : Path) (calls : List Call) : Prop :=
  ∀ q ∈ calls.filterMap Call.path?, ∀ d : Document, d.schema = schema → d.IsReference q →
    q = p ∨ q.Distinct p

theorem Standing.runAll (hcalls : Call.Throughout Call.Refers calls s)
    (hq : Spares schema p calls) (h : Standing schema p s.doc) :
    let d := (Call.runAll calls s).doc
    Standing schema p d ∧ (Identified start p s.doc → Identified start p d) ∧
      (Aligned p s.doc → Call.Throughout (Call.Respects p) calls s → Aligned p d) := by
  induction calls generalizing s with
  | nil => exact ⟨h, id, fun ha _ => ha⟩
  | cons c calls ih =>
    have hpath : ∀ q, c.path? = some q → s.doc.IsReference q → q = p ∨ q.Distinct p := fun q hc href =>
      hq q (mem_filterMap.mpr ⟨c, mem_cons_self, hc⟩) s.doc h.schema href
    have hrest : Spares schema p calls := by
      intro q hm
      obtain ⟨c', hc', hpath'⟩ := mem_filterMap.mp hm
      exact hq q (mem_filterMap.mpr ⟨c', mem_cons_of_mem _ hc', hpath'⟩)
    have hturn := Turn.of_refers hcalls.1
    have hswap : SwapAt p s.doc (c.run s).doc c := hturn.swap.at fun q hc hr => hr.elim (hpath q hc) (h.apart q)
    obtain ⟨hstand, hident, halign⟩ := ih hcalls.2 hrest (h.turn hturn hpath)
    exact ⟨hstand, fun hi => hident (hi.swap hswap), fun ha hr => halign (ha.swap hswap hr.1) hr.2⟩

theorem IsReference.distinct (hv : schema.Meets .noVariants) (hd : d.schema = schema) (hd' : d'.schema = schema)
    (hp : d.IsReference p) (hq : d'.IsReference q) (hps : p.Spelled) (hqs : q.Spelled) : q = p ∨ q.Distinct p := by
  have hplace : ∀ {d : Document} {p : Path}, d.schema = schema → d.IsReference p →
      ∃ f x, schema.place p = .field f x ∧ ¬ f.type.isStructural := by
    rintro d p rfl ⟨f, hr, hf⟩
    obtain ⟨x, hx⟩ := Schema.place_of_resolve hv hr
    exact ⟨f, x, hx, Field.not_isStructural_of_id hf⟩
  -- Nothing is declared below a reference.
  have habove : ∀ {d d' : Document} {p q : Path}, d.schema = schema → d'.schema = schema →
      d.IsReference p → d'.IsReference q → ¬ p.isAbove q := by
    intro d d' p q hd hd' hp hq ha
    obtain ⟨f, x, hf, hs⟩ := hplace hd hp
    obtain ⟨g, y, hg, -⟩ := hplace hd' hq
    obtain ⟨r, hr, rfl⟩ := isAbove_iff.mp ha
    rw [Schema.place_append, hf] at hg
    have hraw := Cursor.isRaw_of_not_structural (v := x) hs hr
    rw [hg] at hraw
    cases hraw
  by_cases he : q = p
  · exact .inl he
  · refine .inr (Path.Apart.distinct ⟨fun hc => ?_, fun hc => ?_⟩ hqs hps)
    · exact habove hd' hd hq hp (isAbove_iff_covers.mpr ⟨hc, he⟩)
    · exact habove hd hd' hp hq (isAbove_iff_covers.mpr ⟨hc, Ne.symm he⟩)

-- What a document has at a path is an identifier, or a record with an identifier and not `v`.
def IdentifiesAt (d : Document) (p : Path) (v : Value) : Prop :=
  ∀ w, d.get? p = some w → w.referenceId.referenceId = w.referenceId ∧ (w = v → w.referenceId = w)

-- After any calls on references, a reference that is covered by a change is written: as the identifier that
-- is kept for its path if a record was put there, and else as it is. That is the identifier of what the
-- document holds exactly if none is kept or it is the one, and always if no other identifier was assigned
-- while a record stood there.
theorem changeset_references {record : Value} {projection : Option Projection} {effects₀ : Effects}
    (hload : (load schema record projection effects₀).1 = .ok start) (calls : List Call) (effects : Effects)
    (hcalls : Call.Throughout Call.Refers calls ⟨start, effects⟩) :
    let d := (Call.runAll calls ⟨start, effects⟩).doc
    ∀ c ∈ d.changeset.changes, ∀ p rel v, p = c.path ++ rel → d.IsReference p → d.get? p = some v →
      (schema.Meets .noVariants ∧ p.Spelled ∧ (∀ q ∈ calls.filterMap Call.path?, q.Spelled) ∨
        ∀ q ∈ calls.filterMap Call.path?, q = p ∨ q.Distinct p) →
      ∃ w, c.op = .set w ∧ w.get? rel = some ((d.populated.get? p).getD v) ∧
        (start.IdentifiesAt p v →
          (w.get? rel = some v.referenceId ↔ ∀ id, d.populated.get? p = some id → id = v.referenceId) ∧
          (Call.Throughout (Call.Respects p) calls ⟨start, effects⟩ → w.get? rel = some v.referenceId)) := by
  intro d c hc p rel v hp href hv hpaths
  have hloaded := load_loaded hload
  have hpop : ∀ q, start.populated.get? q = none := by simp [hloaded.populated]
  have hq : Spares schema p calls := by
    intro q hm d' hd' hr
    rcases hpaths with ⟨hvariants, hps, hqs⟩ | hflat
    · have hd : d.schema = schema := (schema_runAll hcalls).trans hloaded.schema
      exact IsReference.distinct hvariants hd hd' href hr hps (hqs q hm)
    · exact hflat q hm
  obtain ⟨hstand, hident, halign⟩ := Standing.runAll hcalls hq
    ⟨hloaded.schema, hloaded.arrayOps, fun q hsome => by simp [hpop] at hsome⟩
  subst hp
  obtain ⟨w, hop, hw⟩ := exists_written hc hstand.arrayOps hstand.apart hv
  refine ⟨w, hop, hw, fun hid => ?_⟩
  have hident : Identified start (c.path ++ rel) d :=
    hident ⟨by simp [hpop], fun w hw => (hid w hw).1, fun _ w hw => .inr hw⟩
  have hiff : w.get? rel = some v.referenceId ↔
      ∀ id, d.populated.get? (c.path ++ rel) = some id → id = v.referenceId := by
    rw [hw, Option.some_inj]
    cases hk : d.populated.get? (c.path ++ rel) with
    | some id => simp
    | none =>
      -- What stands there is an identifier, unless it is what came with the document.
      have hbare : v.referenceId = v := (hident.bare hk v hv).elim id fun hold => (hid v hold).2 rfl
      simp [hbare]
  refine ⟨hiff, fun hrespects => hiff.mpr fun id hk => ?_⟩
  exact halign (fun _ _ hsome => by simp [hpop] at hsome) hrespects id v hk hv

-- Posts with a reference to their owner.
def posts : Schema :=
  ⟨{ id := false }, [([.key "owner"], .plain (.id (some "User")))], []⟩

def user (id : String) : Value :=
  .obj [("_id", .str id), ("name", .str "n")]

-- The owner is taken out, exchanged and put back in.
theorem changeset_references_exchange : ∃ start, (load posts (.obj [("owner", .str "u1")]) none).1 = .ok start ∧
    let d := (Call.runAll [.populate [.key "owner"] (user "u1"), .depopulate [.key "owner"],
      .set [.key "owner"] (.str "u2") {}, .populate [.key "owner"] (user "u2")] ⟨start, {}⟩).doc
    d.get? [.key "owner"] = some (user "u2") ∧
    ∃ c ∈ d.changeset.changes, c.path = [.key "owner"] ∧
      ∃ w, c.op = .set w ∧ w.get? [] = some (.str "u2") := by
  have hload : (load posts (.obj [("owner", .str "u1")]) none).1 = .ok _ := rfl
  obtain ⟨w, hop, -, hid⟩ := changeset_references hload [.populate [.key "owner"] (user "u1"),
    .depopulate [.key "owner"], .set [.key "owner"] (.str "u2") {}, .populate [.key "owner"] (user "u2")] {}
    ⟨rfl, trivial, ⟨trivial, _, rfl, rfl, rfl⟩, rfl, trivial⟩
    ⟨[.key "owner"], .set (.str "u2"), some .id⟩ (List.mem_singleton_self _) [.key "owner"] [] (user "u2") rfl
    ⟨_, rfl, rfl⟩ rfl (.inr (by simp [Call.path?]))
  refine ⟨_, hload, rfl, ⟨[.key "owner"], .set (.str "u2"), some .id⟩, List.mem_singleton_self _, rfl, w, hop, ?_⟩
  refine (hid fun w hw => ?_).2 ⟨trivial, trivial, fun _ id hk => ?_, trivial, trivial⟩
  · obtain rfl : Value.str "u1" = w := Option.some.inj hw
    exact ⟨rfl, fun _ => rfl⟩
  · cases hk

-- The owner is exchanged while a record stands in for it, and the old one is written.
theorem changeset_keeps_reference : ∃ start, (load posts (.obj [("owner", .str "u1")]) none).1 = .ok start ∧
    let calls := [.populate [.key "owner"] (user "u1"), .set [.key "owner"] (.str "u2") {}]
    let d := (Call.runAll calls ⟨start, {}⟩).doc
    Call.Throughout Call.Refers calls ⟨start, {}⟩ ∧
    d.get? [.key "owner"] = some (.str "u2") ∧
    d.changeset.changes = [⟨[.key "owner"], .set (.str "u1"), some .id⟩] :=
  ⟨_, rfl, ⟨rfl, ⟨trivial, _, rfl, rfl, rfl⟩, trivial⟩, rfl, rfl⟩

end Document
end Dossier

import Mathlib.Data.List.NodupEquivFin
import Dossier.Document.Plain
import Dossier.Proofs.Beside
import Dossier.Proofs.Pull
import Dossier.Proofs.Undo

-- Identifiers that records took the place of follow their items as long as nothing is removed at or before them.

namespace Dossier

open Entries Value List

-- Where an array stands

namespace Value

variable {v x : Value} {p : Path}

theorem eq_of_get?_keys (hk : p.map Seg.toKey = q.map Seg.toKey) (hp : v.get? p = some x) (hq : v.get? q = some y) :
    x = y := by
  induction p generalizing v q with
  | nil =>
    obtain rfl : q = [] := by simpa using hk.symm
    exact Option.some.inj (hp.symm.trans hq)
  | cons a p ih =>
    cases q with
    | nil => simp at hk
    | cons b q =>
      obtain ⟨hab, hk⟩ := List.cons.inj hk
      have hchild : v.child? a = v.child? b := by
        cases v with
        | obj => simp only [child?, hab]
        | null | bool | num | str => rfl
        | arr items =>
          cases a with
          | key => simp [get?, child?] at hp
          | index i =>
            cases b with
            | key => simp [get?, child?] at hq
            | index j => rw [Seg.index_toKey_injective hab]
      rw [get?] at hp hq
      rw [hchild] at hp
      cases hc : v.child? b with
      | none => simp [hc] at hp
      | some c =>
        rw [hc] at hp hq
        exact ih hk hp hq

theorem ne_str_of_get?_arr {xs : List Value} (h : v.get? p = some (.arr xs)) (s : String) : v ≠ .str s := by
  rintro rfl
  cases p <;> simp [get?, child?] at h

end Value

theorem SubSchema.selectOrBase_of_ne_str {sub : SubSchema} {o : Option Value}
    (h : ∀ s, o.bind (·.field? sub.discriminatorKey) ≠ some (.str s)) : sub.selectOrBase o = sub.base := by
  simp only [selectOrBase, select, variant?]
  split
  · case _ hsel =>
    split at hsel
    · case _ hname =>
      cases hsel
      split at hname
      · cases hname
        rfl
      · split at hname
        · cases hname
          rfl
        · cases hname
          rfl
        · case _ s hs => exact absurd hs (h s)
        · cases hname
    · cases hsel
  · rfl

-- Where a path leads is the same in two documents that have arrays there and differ only inside them.
theorem Schema.resolve_of_arrays {schema : Schema} {a : Value} {xs ys : List Value} (ha : a.get? p = some (.arr xs))
    (hb : b.get? p = some (.arr ys)) (hab : ∀ q, q.Distinct p → a.get? q = b.get? q) (hx : x.covers p) :
    schema.resolve a x = schema.resolve b x := by
  refine Schema.resolve_congr (fun y _ sub r habove _ _ hr => ?_) hx
  by_cases hd : (r.key sub.discriminatorKey).Distinct p
  · refine SubSchema.selectOrBase_eq ?_
    rw [← get?_key, ← get?_key, hab _ hd]
  · -- The key is on the way to the array, so under it are no strings.
    have hway : (r.key sub.discriminatorKey).map Seg.toKey <+: p.map Seg.toKey := by
      rw [Path.Distinct, not_and_or, not_not, not_not] at hd
      refine hd.elim id fun hd => ?_
      obtain ⟨t, ht, rfl⟩ := Path.isAbove_iff.mp habove
      have hlen := congrArg List.length hr
      have hle := hd.length_le
      have hpos := length_pos_iff.mpr ht
      simp only [Path.key, length_map, length_append, length_singleton] at hlen hle
      exact (hd.eq_of_length (by simp [Path.key]; omega)) ▸ prefix_rfl
    have hbase : ∀ {w : Value} {zs : List Value}, w.get? p = some (.arr zs) →
        sub.selectOrBase (w.get? r) = sub.base := by
      intro w zs hw
      refine SubSchema.selectOrBase_of_ne_str fun s hs => ?_
      rw [← get?_key] at hs
      obtain ⟨t, ht⟩ := hway
      have hlen : (r.key sub.discriminatorKey).map Seg.toKey =
          (p.take (r.key sub.discriminatorKey).length).map Seg.toKey := by
        rw [map_take, ← ht, take_left' (by simp)]
      have hp := hw
      rw [← take_append_drop (r.key sub.discriminatorKey).length p, get?_append] at hp
      obtain ⟨c, hc, hp⟩ := Option.bind_eq_some_iff.mp hp
      exact ne_str_of_get?_arr hp s (eq_of_get?_keys hlen hs hc).symm
    rw [hbase ha, hbase hb]

-- Identifiers in the places of items

theorem Value.get?_written_index {w v : Value} (h : w.get? p = some (.arr xs)) :
    (w.written (p.index i) v).get? p = some (.arr (if i ≤ xs.length then putItem xs i v else xs)) := by
  split
  · case isTrue hi =>
    have hset : setFrom (p.index i) v [.index i] (.arr xs) = (.ok (), .arr (putItem xs i v)) := setFrom_index_arr hi
    have hok : (setFrom (p.index i) v [.index i] (.arr xs)).1 = .ok () := by
      rw [hset]
    have happend : w.set (p.index i) v = setFrom (p.index i) (.arr (putItem xs i v)) p w := by
      have happend := setFrom_append h hok
      rw [hset] at happend
      exact happend
    rw [written, happend]
    exact get?_setFrom_self (setFrom_ok_of_get? h)
  · case isFalse hi =>
    cases hr : (w.set (p.index i) v).1 with
    | error e => rw [written, set, (setFrom_of_error hr).1, h]
    | ok =>
      have hok := setFrom_ok_of_append hr
      rw [h, Option.getD_some] at hok
      simp [setFrom, Nat.lt_of_not_le hi] at hok

namespace Document

variable {d : Document} {p : Path} {xs : List Value} {i j : Nat}

-- The identifiers that are kept for items of an array go to their places, and one past the end is appended.
theorem get?_restored {es : List (Path × Value)} (hs : Entries.Sorted es)
    (hes : ∀ e ∈ es, (∃ i, e.1 = p.index i) ∨ e.1.Distinct p) {w : Value} (hw : w.get? p = some (.arr xs)) :
    ∃ zs, (es.foldl (fun out e => out.written e.1 e.2) w).get? p = some (.arr zs) ∧ xs.length ≤ zs.length ∧
      ((Entries.get? (p.index xs.length) es).isSome → xs.length < zs.length) ∧
      (Entries.get? (p.index xs.length) es = none → zs.length = xs.length ∧
        ∀ i x, xs[i]? = some x → zs[i]? = some ((Entries.get? (p.index i) es).getD x)) := by
  induction es generalizing xs w with
  | nil => exact ⟨xs, hw, Nat.le_refl _, by simp [Entries.get?], fun _ => ⟨rfl, fun i x hx => hx⟩⟩
  | cons e es ih =>
    obtain ⟨q, id⟩ := e
    obtain ⟨hq, htail⟩ := forall_mem_cons.mp hes
    rw [foldl_cons]
    dsimp only at hq ⊢
    rcases hq with ⟨j, rfl⟩ | hq
    · have hw' := get?_written_index (i := j) (v := id) hw
      have hindex : ∀ i, i ≠ j → Entries.get? (p.index i) ((p.index j, id) :: es) = Entries.get? (p.index i) es :=
        fun i hi => get?_cons_ne (by simpa [Path.index] using Ne.symm hi)
      obtain ⟨zs, hzs, hle, hlt, heq⟩ := ih hs.tail htail hw'
      refine ⟨zs, hzs, ?_⟩
      rcases Nat.lt_trichotomy j xs.length with hj | rfl | hj
      · -- An item is replaced, for the only time.
        rw [if_pos (Nat.le_of_lt hj)] at hle hlt heq
        have hlen : (Value.putItem xs j id).length = xs.length := by simp [Value.putItem, hj]
        rw [hlen] at hle hlt heq
        rw [hindex _ (Nat.ne_of_gt hj)]
        refine ⟨hle, hlt, fun hn => ⟨(heq hn).1, fun i x hx => ?_⟩⟩
        have hput := (heq hn).2 i
        rw [getElem?_putItem (Nat.le_of_lt hj)] at hput
        by_cases hi : i = j
        · subst hi
          rw [hput id (if_pos rfl), get?_cons_self, hs.get?_tail]
          rfl
        · rw [hindex i hi]
          exact hput x (by rw [if_neg hi, hx])
      · -- The array grows, and never shrinks again.
        rw [if_pos (Nat.le_refl _)] at hle
        have hlen : (Value.putItem xs xs.length id).length = xs.length + 1 := by simp [Value.putItem]
        rw [hlen] at hle
        refine ⟨by omega, fun _ => hle, fun hn => ?_⟩
        rw [get?_cons_self] at hn
        cases hn
      · rw [if_neg (Nat.not_le_of_lt hj)] at hle hlt heq
        rw [hindex _ (Nat.ne_of_lt hj)]
        refine ⟨hle, hlt, fun hn => ⟨(heq hn).1, fun i x hx => ?_⟩⟩
        have hi : i < xs.length := (List.getElem?_eq_some_iff.mp hx).1
        rw [hindex i (by omega)]
        exact (heq hn).2 i x hx
    · have hindex : ∀ i, Entries.get? (p.index i) ((q, id) :: es) = Entries.get? (p.index i) es := by
        refine fun i => get?_cons_ne ?_
        rintro rfl
        exact hq.symm.not_covers (Path.covers_append _ _)
      have hw' : (w.written q id).get? p = some (.arr xs) := by
        rw [Value.written, get?_set_distinct hq, hw]
      simp only [hindex]
      exact ih hs.tail htail hw'

-- The field at a path is an array of references and holds the items. No identifiers are kept around it or inside
-- its items.
structure HoldsReferences (p : Path) (xs : List Value) (d : Document) : Prop where
  field : ∃ f el, d.resolve p = .field f ∧ f.type = .array el ∧ el.tag = .id
  held  : d.get? p = some (.arr xs)
  apart : ∀ q, (d.populated.get? q).isSome → (∃ i, q = p.index i) ∨ q.Distinct p

theorem HoldsReferences.toPlain_iff (h : HoldsReferences p xs d) :
    (d.toPlain { depopulate := true }).get? p = some (.arr (xs.map Value.referenceId)) ↔
      d.populated.get? (p.index xs.length) = none ∧
        ∀ i x, xs[i]? = some x → (d.populated.get? (p.index i)).getD x = x.referenceId := by
  have hes : ∀ e ∈ d.populated.entries, (∃ i, e.1 = p.index i) ∨ e.1.Distinct p := by
    refine fun e he => h.apart e.1 ?_
    rw [OrdMap.mem_entries_iff.mp he]
    rfl
  obtain ⟨zs, hzs, -, hlt, heq⟩ := get?_restored d.populated.sorted hes h.held
  have hplain : (d.toPlain { depopulate := true }).get? p = some (.arr zs) := hzs
  rw [hplain, Option.some.injEq, Value.arr.injEq]
  constructor
  · intro hmap
    have hlen : zs.length = xs.length := by simp [hmap]
    have hnone : d.populated.get? (p.index xs.length) = none := by
      rw [← Option.not_isSome_iff_eq_none]
      intro hsome
      have := hlt hsome
      omega
    refine ⟨hnone, fun i x hx => ?_⟩
    have hi := (heq hnone).2 i x hx
    rw [hmap, getElem?_map, hx] at hi
    exact (Option.some.inj hi).symm
  · rintro ⟨hnone, hids⟩
    obtain ⟨hlen, hget⟩ := heq hnone
    refine ext_getElem? fun i => ?_
    rw [getElem?_map]
    cases hx : xs[i]? with
    | some x =>
      rw [hget i x hx]
      exact congrArg some (hids i x hx)
    | none =>
      rw [getElem?_eq_none_iff] at hx
      exact getElem?_eq_none (by omega)

-- Calls

theorem HoldsReferences.of_get? (h : HoldsReferences p xs d) (hs : d'.schema = d.schema)
    (hd : ∀ q, q.Distinct p → d'.get? q = d.get? q) (hget : d'.get? p = some (.arr ys))
    (hpop : ∀ q, (d'.populated.get? q).isSome → (d.populated.get? q).isSome ∨ ∃ i, q = p.index i) :
    HoldsReferences p ys d' := by
  refine ⟨?_, hget, fun q hq => (hpop q hq).elim (h.apart q) .inl⟩
  obtain ⟨f, el, hf, hel, htag⟩ := h.field
  refine ⟨f, el, ?_, hel, htag⟩
  rw [← hf, Document.resolve, Document.resolve, hs]
  exact Schema.resolve_of_arrays hget h.held hd (Path.covers_refl p)

theorem HoldsReferences.resolve_index (h : HoldsReferences p xs d) (i : Nat) :
    ∃ el, d.resolve (p.index i) = .field el ∧ el.tag = .id := by
  obtain ⟨f, el, hf, hel, htag⟩ := h.field
  refine ⟨el, ?_, htag⟩
  rw [Document.resolve, Schema.resolve] at hf ⊢
  rw [Path.index, foldl_append]
  generalize p.foldl Cursor.step (.schema d.schema Path.root (some d.value)) = c at hf ⊢
  cases c with
  | schema => simp only [Cursor.resolution] at hf; split at hf <;> cases hf
  | inMixed => cases hf
  | lost => cases hf
  | field f' value =>
    cases hf
    simp [Cursor.step, Cursor.stepField, hel, Seg.index?, Cursor.resolution]

theorem HoldsReferences.populate {s : Desk} {x : Value} (h : HoldsReferences p xs s.doc) (hx : xs[i]? = some x)
    (hr : record.field? Value.idKey = some x.referenceId) :
    let d := ((Call.populate (p.index i) record).run s).doc
    HoldsReferences p (xs.set i record) d ∧ d.populated = s.doc.populated.insert (p.index i) x.referenceId := by
  intro d
  have hi : i < xs.length := (List.getElem?_eq_some_iff.mp hx).1
  have hget : s.doc.get? (p.index i) = some x := by
    rw [Document.get?, Path.index, get?_append, show s.doc.value.get? p = _ from h.held, Option.bind_some,
      get?_index_arr, hx]
    rfl
  obtain ⟨hschema, hvalue, hpop⟩ : d.schema = s.doc.schema ∧
      d.value = s.doc.value.written (p.index i) record ∧
      d.populated = s.doc.populated.insert (p.index i) x.referenceId := by
    have hok : (s.doc.value.set (p.index i) record).1 = .ok () := setFrom_ok_of_get? hget
    obtain ⟨⟨type, rules⟩, hel, htag⟩ := h.resolve_index i
    cases type with
    | id =>
      dsimp only [d]
      rw [Call.run, Call.edit, Edit.populate, Edit.outcome_bind, Edit.outcome_doc]
      dsimp only
      rw [hel]
      dsimp only
      rw [hr]
      dsimp only
      rw [Edit.outcome_bind, Edit.outcome_write, write_eq, hok]
      dsimp only [Edit.outcome_change]
      rw [hget]
      refine ⟨rfl, rfl, ?_⟩
      cases x <;> rfl
    | _ => cases htag
  refine ⟨h.of_get? hschema (fun q hq => ?_) ?_ fun q hq => ?_, hpop⟩
  · have hinside : (p.index i).Distinct q := hq.symm.inside (.index i)
    rw [Document.get?, hvalue, Value.written, get?_set_distinct hinside]
    rfl
  · have hput := get?_written_index (i := i) (v := record) h.held
    rw [if_pos (Nat.le_of_lt hi), Value.putItem, if_pos hi] at hput
    rwa [Document.get?, hvalue]
  · rw [hpop, OrdMap.get?_insert] at hq
    split at hq
    · case isTrue he => exact .inr ⟨i, he.symm⟩
    · exact .inl hq

theorem frame_reindex (flags : List Bool) : (d.reindex p flags).schema = d.schema ∧
    (d.reindex p flags).value = d.value ∧ (d.reindex p flags).populated = d.populated :=
  reindex_rec (I := fun d' => d'.schema = d.schema ∧ d'.value = d.value ∧ d'.populated = d.populated)
    (fun _ _ h => h) (fun _ _ _ h => h) ⟨rfl, rfl, rfl⟩

theorem HoldsReferences.pull {s : Desk} (h : HoldsReferences p xs s.doc) (v : Value) :
    let d := ((Call.pull p v).run s).doc
    HoldsReferences p (xs.filter fun x => ¬ Change.selects x v) d ∧ d.populated = s.doc.populated := by
  intro d
  obtain ⟨f, el, hf, hel, -⟩ := h.field
  have harray : s.doc.arrayField? p = some f := arrayField?_eq_some_iff.mpr ⟨hf, by rw [hel]; rfl⟩
  by_cases hany : (xs.map (Change.selects · v)).any id
  · obtain ⟨hschema, hvalue, hpop⟩ : d.schema = s.doc.schema ∧
        d.value = s.doc.value.written p (.arr (xs.filter fun x => ¬ Change.selects x v)) ∧
        d.populated = s.doc.populated := by
      generalize hleft : (xs.filter fun x => ¬ Change.selects x v) = left
      have hok : (s.doc.openChanges.write p (.arr left)).1 = .ok () := by
        rw [write_eq, openChanges_eq]
        exact setFrom_ok_of_get? h.held
      have hdoc : d = (s.doc.openChanges.write p (.arr left)).2.withdrawn p v (xs.map (Change.selects · v)) := by
        dsimp only [d]
        rw [Call.run, Call.edit, Edit.pull, Edit.outcome_bind, Edit.outcome_doc]
        dsimp only
        rw [harray, h.held]
        dsimp only
        simp only [if_pos hany, hleft, Edit.outcome_bind, Edit.outcome_change, Edit.outcome_write, hok]
        rfl
      obtain ⟨hschema, hvalue, hpop⟩ := frame_reindex (p := p) (xs.map (Change.selects · v))
        (d := (s.doc.openChanges.write p (.arr left)).2)
      rw [hdoc]
      refine ⟨hschema.trans ?_, hvalue.trans ?_, hpop.trans ?_⟩
      all_goals rw [write_eq, openChanges_eq]
      rfl
    refine ⟨h.of_get? hschema (fun q hq => ?_) ?_ fun q hq => .inl (hpop ▸ hq), hpop⟩
    · rw [Document.get?, hvalue, Value.written, get?_set_distinct hq.symm]
      rfl
    · rw [Document.get?, hvalue]
      exact get?_setFrom_self (setFrom_ok_of_get? h.held)
  · have hdoc : d = s.doc := by
      dsimp only [d]
      rw [Call.run, Call.edit, Edit.pull, Edit.outcome_bind, Edit.outcome_doc]
      dsimp only
      rw [harray, h.held]
      dsimp only
      rw [if_neg hany]
      rfl
    have hall : (xs.filter fun x => ¬ Change.selects x v) = xs := by
      rw [filter_eq_self]
      simpa using hany
    rw [hdoc, hall]
    exact ⟨h, rfl⟩

-- Runs

-- The identifier that is kept for an item is its own, and an item for which none is kept is an identifier.
structure References (p : Path) (xs : List Value) (d : Document) : Prop extends HoldsReferences p xs d where
  aligned : ∀ i id, d.populated.get? (p.index i) = some id → xs[i]?.map Value.referenceId = some id
  bare    : ∀ i x, xs[i]? = some x → d.populated.get? (p.index i) = none → x.referenceId = x

-- Records in the places of items.
def standIn (xs : List Value) (records : List (Nat × Value)) : List Value :=
  records.foldl (fun xs r => xs.set r.1 r.2) xs

theorem map_set_record {x : Value} (hx : xs[i]? = some x) (hr : record.field? Value.idKey = some x.referenceId) :
    (xs.set i record).map Value.referenceId = xs.map Value.referenceId := by
  have hi : i < xs.length := (List.getElem?_eq_some_iff.mp hx).1
  refine ext_getElem? fun j => ?_
  rw [getElem?_map, getElem?_map, getElem?_set]
  split
  · case isTrue hij =>
    subst hij
    rw [hx, Option.map_some, Option.map_some, Value.referenceId, hr]
    rfl
  · rfl

theorem References.populate (h : References p xs s.doc) (hx : xs[i]? = some x)
    (hr : record.field? Value.idKey = some x.referenceId) :
    References p (xs.set i record) ((Call.populate (p.index i) record).run s).doc := by
  obtain ⟨hholds, hpop⟩ := h.toHoldsReferences.populate hx hr
  have hi : i < xs.length := (List.getElem?_eq_some_iff.mp hx).1
  refine ⟨hholds, fun j id hid => ?_, fun j y hy hid => ?_⟩
  · rw [← getElem?_map, map_set_record hx hr, getElem?_map]
    rw [hpop, OrdMap.get?_insert] at hid
    split at hid
    · case isTrue hij =>
      obtain rfl : i = j := by simpa [Path.index] using hij
      rw [hx, ← hid]
      rfl
    · exact h.aligned j id hid
  · rw [hpop, OrdMap.get?_insert] at hid
    split at hid
    · cases hid
    · case isFalse hij =>
      have hij : i ≠ j := by simpa [Path.index] using hij
      rw [getElem?_set_ne hij] at hy
      exact h.bare j y hy hid

theorem References.populateAll (h : References p xs s.doc)
    (hrecords : ∀ r ∈ records, ∃ id, r.2.field? Value.idKey = some id ∧ xs[r.1]?.map Value.referenceId = some id) :
    let d := (Call.runAll (records.map fun r => .populate (p.index r.1) r.2) s).doc
    References p (standIn xs records) d ∧
    (standIn xs records).map Value.referenceId = xs.map Value.referenceId ∧
    ∀ i, d.populated.get? (p.index i) =
      if i ∈ records.map Prod.fst then xs[i]?.map Value.referenceId else s.doc.populated.get? (p.index i) := by
  induction records generalizing xs s with
  | nil => exact ⟨h, rfl, fun i => rfl⟩
  | cons r records ih =>
    obtain ⟨i, record⟩ := r
    obtain ⟨⟨id, hr, hid⟩, hrecords⟩ := forall_mem_cons.mp hrecords
    obtain ⟨x, hx, rfl⟩ := Option.map_eq_some_iff.mp hid
    have hids : ∀ j : Nat, (xs.set i record)[j]?.map Value.referenceId = xs[j]?.map Value.referenceId := by
      intro j
      rw [← getElem?_map, map_set_record hx hr, getElem?_map]
    obtain ⟨hall, hmap, hpop⟩ := ih (h.populate hx hr) fun r hmem => by
      rw [hids]
      exact hrecords r hmem
    refine ⟨hall, hmap.trans (map_set_record hx hr), fun j => (hpop j).trans ?_⟩
    rw [hids, (h.toHoldsReferences.populate hx hr).2, OrdMap.get?_insert, map_cons]
    by_cases hij : i = j
    · subst hij
      simp [hx]
    · have hne : p.index i ≠ p.index j := by simpa [Path.index] using hij
      have hmem : j ∈ i :: records.map Prod.fst ↔ j ∈ records.map Prod.fst := by simp [Ne.symm hij]
      rw [if_neg hne, if_congr hmem rfl rfl]

theorem HoldsReferences.pullAll {vs : List Value} (h : HoldsReferences p xs s.doc) :
    let d := (Call.runAll (vs.map (.pull p)) s).doc
    HoldsReferences p (xs.filter fun x => ! vs.any (Change.selects x)) d ∧ d.populated = s.doc.populated := by
  induction vs generalizing xs s with
  | nil => simpa [Call.runAll] using h
  | cons v vs ih =>
    obtain ⟨hv, hpop⟩ := h.pull v
    obtain ⟨hvs, hpops⟩ := ih hv
    refine ⟨?_, hpops.trans hpop⟩
    rw [filter_filter] at hvs
    simpa [Call.runAll, Bool.and_comm] using hvs

-- Places of items that are left

variable {keep : Value → Bool}

theorem getElem?_filter_of_kept (h : ∀ k ≤ i, ∀ x, xs[k]? = some x → keep x) (hj : j ≤ i) :
    (xs.filter keep)[j]? = xs[j]? := by
  induction xs generalizing i j with
  | nil => rfl
  | cons x xs ih =>
    rw [filter_cons_of_pos (h 0 (Nat.zero_le _) x rfl)]
    cases j with
    | zero => rfl
    | succ j =>
      rw [getElem?_cons_succ, getElem?_cons_succ]
      exact ih (i := i - 1) (fun k hk y hy => h (k + 1) (by omega) y (by simpa using hy)) (by omega)

theorem exists_place_of_filter (xs : List Value) (keep : Value → Bool) :
    ∃ f : Nat → Nat, StrictMono f ∧ ∀ i, (xs.filter keep)[i]? = xs[f i]? := by
  obtain ⟨f, hf⟩ := sublist_iff_exists_orderEmbedding_getElem?_eq.mp (filter_sublist (p := keep) (l := xs))
  exact ⟨f, f.strictMono, hf⟩

-- Among items with different identifiers one is in its old place only if nothing before it was removed.
theorem kept_of_getElem?_filter (hnodup : (xs.map Value.referenceId).Nodup) {id : Value}
    (hnew : (xs.filter keep)[i]?.map Value.referenceId = some id) (hold : xs[i]?.map Value.referenceId = some id)
    (hj : j ≤ i) (hx : xs[j]? = some x) : keep x := by
  obtain ⟨f, hmono, hf⟩ := exists_place_of_filter xs keep
  have hfi : f i = i := by
    rw [hf i, ← getElem?_map] at hnew
    rw [← getElem?_map] at hold
    have hi := (List.getElem?_eq_some_iff.mp hold).1
    exact ((getElem?_inj hi hnodup).mp (hold.trans hnew.symm)).symm
  have hfj : f j = j := by
    have hle := hmono.add_le_nat j 0
    have hadd := hmono.add_le_nat (i - j) j
    rw [Nat.sub_add_cancel hj, hfi] at hadd
    rw [Nat.add_zero] at hle
    omega
  have hmem : x ∈ xs.filter keep := mem_of_getElem? (by rw [hf j, hfj, hx])
  exact (mem_filter.mp hmem).2

-- References that follow their items

-- The array is shown as the identifiers of its items.
def ShowsIdentifiers (p : Path) (xs : List Value) (d : Document) : Prop :=
  (d.toPlain { depopulate := true }).get? p = some (.arr (xs.map Value.referenceId))

-- An identifier is kept only under the index of an item that has it.
def KeepsIdentifiers (p : Path) (xs : List Value) (d : Document) : Prop :=
  ∀ i id, d.populated.get? (p.index i) = some id → xs[i]?.map Value.referenceId = some id

-- No item is removed at or before an index for which an identifier is kept.
def Undisturbed (p : Path) (xs : List Value) (keep : Value → Bool) (d : Document) : Prop :=
  ∀ i, (d.populated.get? (p.index i)).isSome → ∀ j ≤ i, ∀ x, xs[j]? = some x → keep x

section

variable (h : References p xs d) (hu : d.Undisturbed p xs keep)

include h hu

theorem References.keepsIdentifiers : d.KeepsIdentifiers p (xs.filter keep) := by
  intro i id hid
  rw [getElem?_filter_of_kept (hu i (by simp [hid])) (Nat.le_refl i)]
  exact h.aligned i id hid

-- An item without a record is still one, since a record before it stays and one behind it stays behind it.
theorem References.bare_of_undisturbed (hx : (xs.filter keep)[i]? = some x)
    (hid : d.populated.get? (p.index i) = none) : x.referenceId = x := by
  by_cases hlater : ∃ k, i ≤ k ∧ (d.populated.get? (p.index k)).isSome
  · obtain ⟨k, hik, hk⟩ := hlater
    rw [getElem?_filter_of_kept (hu k hk) hik] at hx
    exact h.bare i x hx hid
  · obtain ⟨f, hmono, hf⟩ := exists_place_of_filter xs keep
    have hle := hmono.add_le_nat i 0
    rw [Nat.add_zero] at hle
    rw [hf i] at hx
    refine h.bare (f i) x hx ?_
    rw [← Option.not_isSome_iff_eq_none]
    exact fun hsome => hlater ⟨f i, by omega, hsome⟩

theorem References.showsIdentifiers (hleft : HoldsReferences p (xs.filter keep) d')
    (hpop : d'.populated = d.populated) : d'.ShowsIdentifiers p (xs.filter keep) := by
  have hkeeps := h.keepsIdentifiers hu
  refine hleft.toPlain_iff.mpr ⟨?_, fun i x hx => ?_⟩
  · rw [hpop, ← Option.not_isSome_iff_eq_none]
    intro hsome
    obtain ⟨id, hid⟩ := Option.isSome_iff_exists.mp hsome
    simpa using hkeeps _ id hid
  · rw [hpop]
    cases hid : d.populated.get? (p.index i) with
    | none => exact (h.bare_of_undisturbed hu hx hid).symm
    | some id => simpa [hx] using (hkeeps i id hid).symm

end

-- Records are put in the places of references, and then items are removed. The identifiers are found under the
-- indexes of their items as long as nothing was removed at or before an index for which one is kept; if the
-- references are different, only then.
theorem references_follow_pulls (s : Desk) (p : Path) (xs : List Value) (h : References p xs s.doc)
    (records : List (Nat × Value)) (vs : List Value)
    (hrecords : ∀ r ∈ records, ∃ id, r.2.field? Value.idKey = some id ∧ xs[r.1]?.map Value.referenceId = some id) :
    let mid := Call.runAll (records.map fun r => .populate (p.index r.1) r.2) s
    let d := (Call.runAll (vs.map (.pull p)) mid).doc
    let items := standIn xs records
    let keep := fun x => ! vs.any (Change.selects x)
    mid.doc.get? p = some (.arr items) ∧ items.map Value.referenceId = xs.map Value.referenceId ∧
    d.get? p = some (.arr (items.filter keep)) ∧
    (∀ i, d.populated.get? (p.index i) =
      if i ∈ records.map Prod.fst then xs[i]?.map Value.referenceId else s.doc.populated.get? (p.index i)) ∧
    (d.Undisturbed p items keep →
      d.ShowsIdentifiers p (items.filter keep) ∧ d.KeepsIdentifiers p (items.filter keep)) ∧
    ((xs.map Value.referenceId).Nodup → d.KeepsIdentifiers p (items.filter keep) → d.Undisturbed p items keep) := by
  intro mid d items keep
  obtain ⟨hmid, hids, hkept⟩ := h.populateAll hrecords
  obtain ⟨hleft, hpop⟩ : HoldsReferences p (items.filter keep) d ∧ d.populated = mid.doc.populated :=
    hmid.toHoldsReferences.pullAll
  refine ⟨hmid.held, hids, hleft.held, fun i => ?_, fun hu => ?_, fun hnodup hkeeps i hi j hj x hx => ?_⟩
  · rw [hpop]
    exact hkept i
  · have hu : mid.doc.Undisturbed p items keep := by simpa only [Undisturbed, hpop] using hu
    refine ⟨hmid.showsIdentifiers hu hleft hpop, fun i id hid => ?_⟩
    rw [hpop] at hid
    exact hmid.keepsIdentifiers hu i id hid
  · obtain ⟨id, hid⟩ := Option.isSome_iff_exists.mp hi
    rw [← hids] at hnodup
    refine kept_of_getElem?_filter hnodup (hkeeps i id hid) (hmid.aligned i id ?_) hj hx
    rw [← hpop]
    exact hid

def crews : Schema :=
  ⟨{ id := false }, [([.key "members"], .plain (.array (.plain (.id (some "User")))))], []⟩

def crewOf (ids : List String) : Value :=
  .obj [("members", .arr (ids.map .str))]

theorem references_of_load (hload : (load crews (crewOf ids) none).1 = .ok start) :
    References [.key "members"] (ids.map .str) start := by
  obtain rfl : _ = start := Except.ok.inj hload
  refine ⟨⟨⟨_, _, rfl, rfl, rfl⟩, rfl, fun q hq => ?_⟩, fun i id hid => ?_, fun i x hx _ => ?_⟩
  · cases hq
  · cases hid
  · obtain ⟨id, -, rfl⟩ := mem_map.mp (mem_of_getElem? hx)
    rfl

-- The last member leaves, and those before whose records stand in for them stay where they are.
theorem references_follow_pulls_crew : ∃ start, (load crews (crewOf ["a", "b", "c"]) none).1 = .ok start ∧
    let mid := Call.runAll [.populate [.key "members", .index 1] (user "b")] ⟨start, {}⟩
    let d := (Call.runAll [.pull [.key "members"] (.str "c")] mid).doc
    d.get? [.key "members"] = some (.arr [.str "a", user "b"]) ∧
    d.ShowsIdentifiers [.key "members"] [.str "a", user "b"] ∧
    d.KeepsIdentifiers [.key "members"] [.str "a", user "b"] := by
  have hload : (load crews (crewOf ["a", "b", "c"]) none).1 = .ok _ := rfl
  obtain ⟨-, -, hget, hkept, hfollow, -⟩ := references_follow_pulls ⟨_, {}⟩ [.key "members"]
    (["a", "b", "c"].map .str) (references_of_load hload) [(1, user "b")] [.str "c"]
    (List.forall_mem_singleton.mpr ⟨_, rfl, rfl⟩)
  refine ⟨_, hload, hget, hfollow fun i hi j hj x hx => ?_⟩
  have hi : i = 1 := by
    rw [hkept] at hi
    split at hi
    · case isTrue hmem => exact List.mem_singleton.mp hmem
    · cases hi
  subst hi
  have hj : j = 0 ∨ j = 1 := by omega
  rcases hj with rfl | rfl <;> cases hx <;> decide +kernel

-- The first member leaves. The one behind is shown with its record, and its identifier is appended.
theorem pull_misplaces_reference : ∃ start, (load crews (crewOf ["a", "b"]) none).1 = .ok start ∧
    References [.key "members"] [.str "a", .str "b"] start ∧
    let mid := Call.runAll [.populate [.key "members", .index 1] (user "b")] ⟨start, {}⟩
    let d := (Call.runAll [.pull [.key "members"] (.str "a")] mid).doc
    d.get? [.key "members"] = some (.arr [user "b"]) ∧
    (d.toPlain { depopulate := true }).get? [.key "members"] = some (.arr [user "b", .str "b"]) ∧
    d.populated.get? [.key "members", .index 1] = some (.str "b") := by
  have hload : (load crews (crewOf ["a", "b"]) none).1 = .ok _ := rfl
  exact ⟨_, hload, references_of_load hload, rfl, rfl, rfl⟩

end Document
end Dossier

import Dossier.Proofs.Records
import Dossier.Proofs.Equality

-- Writes look for a record under the text of an identifier; reads compare identifiers as quantities.

namespace Dossier

open Value List

-- Identical values are equal

namespace Number

theorem equal_of_same {a : Number} (h : a.same b) : a.equal b := by
  cases a with
  | int i =>
    cases b with
    | int j =>
      simp only [same, beq_iff_eq] at h
      rw [h]
      exact equal_refl _
    | double y => cases h
  | double x =>
    cases b with
    | int j => cases h
    | double y => exact h

end Number

namespace Value

theorem length_eq_of_sameItems {as : List Value} (h : sameItems as bs) : as.length = bs.length := by
  induction as generalizing bs with
  | nil => cases bs <;> simp_all [sameItems]
  | cons a as ih =>
    cases bs with
    | nil => simp [sameItems] at h
    | cons b bs =>
      simp only [sameItems, Bool.and_eq_true] at h
      simp [ih h.2]

theorem length_eq_of_sameFields (h : sameFields as bs) : as.length = bs.length := by
  induction as generalizing bs with
  | nil => cases bs <;> simp_all [sameFields]
  | cons a as ih =>
    cases bs with
    | nil => simp [sameFields] at h
    | cons b bs =>
      simp only [sameFields, Bool.and_eq_true] at h
      simp [ih h.2]

mutual

theorem equal_of_same : (a b : Value) → b.Canonical → a.same b → a.equal b
  | a, .null, _, h => by cases a <;> simp_all [same, equal]
  | a, .bool _, _, h => by cases a <;> simp_all [same, equal]
  | a, .str _, _, h => by cases a <;> simp_all [same, equal]
  | a, .num n, _, h => by
    cases a with
    | num m =>
      simp only [same] at h
      simp only [equal]
      exact Number.equal_of_same h
    | _ => simp [same] at h
  | a, .arr bs, hb, h => by
    cases a with
    | arr as =>
      simp only [same] at h
      simp only [equal, Bool.and_eq_true, beq_iff_eq]
      exact ⟨length_eq_of_sameItems h, equalItems_of_sameItems as bs hb h⟩
    | _ => simp [same] at h
  | a, .obj bs, hb, h => by
    cases a with
    | obj as =>
      simp only [same] at h
      simp only [equal, Bool.and_eq_true, beq_iff_eq]
      exact ⟨length_eq_of_sameFields h,
        equalFields_of_sameFields as bs bs (fun _ he => Entries.get?_of_mem hb.1 he) hb.2 h⟩
    | _ => simp [same] at h

theorem equalItems_of_sameItems : (as bs : List Value) → CanonicalItems bs → sameItems as bs → equalItems as bs
  | as, [], _, h => by cases as <;> simp_all [sameItems, equalItems]
  | as, b :: bs, hb, h => by
    cases as with
    | nil => simp [sameItems] at h
    | cons a as =>
      simp only [sameItems, Bool.and_eq_true] at h
      simp [equalItems, equal_of_same a b hb.1 h.1, equalItems_of_sameItems as bs hb.2 h.2]

theorem equalFields_of_sameFields : (as bs all : List (String × Value)) →
    (∀ e ∈ bs, Entries.get? e.1 all = some e.2) → CanonicalFields bs → sameFields as bs → equalFields as all
  | as, [], _, _, _, h => by cases as <;> simp_all [sameFields, equalFields]
  | as, (k, b) :: bs, all, hall, hb, h => by
    cases as with
    | nil => simp [sameFields] at h
    | cons a as =>
      simp only [sameFields, Bool.and_eq_true, beq_iff_eq] at h
      obtain ⟨hk, hall⟩ := forall_mem_cons.mp hall
      simp [equalFields, h.1.1, hk, equal_of_same a.2 b hb.1 h.1.2,
        equalFields_of_sameFields as bs all hall hb.2 h.2]

end

mutual

theorem doubleFree_of_integral : (v : Value) → v.Integral → v.doubleFree
  | .null, _ | .bool _, _ | .str _, _ => by simp [doubleFree]
  | .num (.int _), _ => by simp [doubleFree]
  | .num (.double _), h => by simp [Integral, Number.toSigned?] at h
  | .arr items, h => by
    rw [doubleFree]
    exact doubleFreeItems_of_integral items h
  | .obj fields, h => by
    rw [doubleFree]
    exact doubleFreeFields_of_integral fields h

theorem doubleFreeItems_of_integral : (items : List Value) → IntegralItems items → doubleFreeItems items
  | [], _ => rfl
  | v :: items, h => by
    simp [doubleFreeItems, doubleFree_of_integral v h.1, doubleFreeItems_of_integral items h.2]

theorem doubleFreeFields_of_integral : (fields : List (String × Value)) → IntegralFields fields →
    doubleFreeFields fields
  | [], _ => rfl
  | (_, v) :: fields, h => by
    simp [doubleFreeFields, doubleFree_of_integral v h.1, doubleFreeFields_of_integral fields h.2]

end

end Value

-- Reads

namespace Collections

variable {cs : Collections} {c k : String} {id : Value} {stored : Stored}

-- The key of the record that a read by identifier finds.
def readKey? (cs : Collections) (c : String) (id : Value) : Option String :=
  (((cs.get? c).getD ∅).entries.find? fun e => (Filter.byId id).accepts e.2.record).map (·.1)

theorem mem_shelf_iff : (k, stored) ∈ ((cs.get? c).getD ∅).entries ↔ cs.find? c k = some stored := by
  rw [OrdMap.mem_entries_iff, find?]
  cases cs.get? c <;> rfl

theorem readOne?_eq : cs.readOne? c id none = (cs.readKey? c id).bind fun k => (cs.find? c k).map Stored.record := by
  have hread : cs.readOne? c id none =
      (((cs.get? c).getD ∅).entries.find? fun e => (Filter.byId id).accepts e.2.record).map (·.2.record) := by
    simp only [readOne?, read, records, OrdMap.values, head?_filter, map_map, find?_map]
    rfl
  rw [hread, readKey?]
  cases hfind : ((cs.get? c).getD ∅).entries.find? fun e => (Filter.byId id).accepts e.2.record with
  | none => rfl
  | some e =>
    have hmem : cs.find? c e.1 = some e.2 := mem_shelf_iff.mp (mem_of_find?_eq_some hfind)
    simp [hmem]

theorem accepts_byId (h : recordId? stored.record = some own) :
    (Filter.byId id).accepts stored.record = own.equal id := by
  have hfield := (recordId?_eq_some_iff.mp h).1
  have hget : stored.record.get? [.key Value.idKey] = some own := by
    cases hr : stored.record with
    | obj fields =>
      rw [hr] at hfield
      rw [get?_cons_of_openFields rfl]
      exact Option.bind_eq_some_iff.mpr ⟨own, hfield, get?_nil own⟩
    | _ =>
      rw [hr] at hfield
      cases hfield
  simp [Filter.accepts, Filter.byId, hget]

theorem readKey?_eq_some (h : cs.readKey? c id = some k) :
    (∃ stored, cs.find? c k = some stored ∧ (Filter.byId id).accepts stored.record) ∧
      ∀ k' stored, cs.find? c k' = some stored → (Filter.byId id).accepts stored.record → compare k' k ≠ .lt := by
  obtain ⟨e, hfind, rfl⟩ := Option.map_eq_some_iff.mp h
  obtain ⟨hacc, as, bs, hsplit, has⟩ := find?_eq_some_iff_append.mp hfind
  refine ⟨⟨e.2, mem_shelf_iff.mp (mem_of_find?_eq_some hfind), hacc⟩, fun k' stored hf hacc hlt => ?_⟩
  have hsorted := ((cs.get? c).getD ∅).sorted
  have hmem := mem_shelf_iff.mpr hf
  rw [hsplit] at hsorted hmem
  rcases mem_append.mp hmem with hmem | hmem
  · have := has _ hmem
    simp [hacc] at this
  · rcases mem_cons.mp hmem with rfl | hmem
    · simp at hlt
    · have hgt := (pairwise_cons.mp (pairwise_append.mp hsorted).2.1).1 _ hmem
      rw [Std.OrientedOrd.eq_swap, hgt] at hlt
      cases hlt

theorem isSome_readKey? (hf : cs.find? c k = some stored) (h : (Filter.byId id).accepts stored.record) :
    (cs.readKey? c id).isSome := by
  rw [readKey?, Option.isSome_map, find?_isSome]
  exact ⟨(k, stored), mem_shelf_iff.mpr hf, h⟩

-- Writes

theorem Kept.reaches (hk : Kept P history cs) (hf : cs.find? c id.text = some stored) :
    P id ∧ ∃ own, recordId? stored.record = some own ∧ own.same id := by
  obtain ⟨id', own, hP, htext, hown, hsame⟩ := (hk c id.text stored hf).id
  cases text_inj.mp htext
  exact ⟨hP, own, hown, hsame⟩

theorem Kept.update_empty_iff (hk : Kept P history cs) :
    (∃ r, cs.apply (.update c id .empty) = .ok r) ↔ (cs.find? c id.text).isSome := by
  simp only [Collections.apply, updateRecord]
  cases hf : cs.find? c id.text with
  | none => simp
  | some stored =>
    obtain ⟨-, own, hown, hsame⟩ := hk.reaches hf
    have hfield := (recordId?_eq_some_iff.mp hown).1
    simp [Changeset.apply, Changeset.applyAll, Changeset.empty, hfield, hsame]

theorem Kept.accepts (hk : Kept Value.Canonical history cs) (hf : cs.find? c id.text = some stored) :
    (Filter.byId id).accepts stored.record := by
  obtain ⟨hcanonical, own, hown, hsame⟩ := hk.reaches hf
  rw [accepts_byId hown]
  exact equal_of_same own id hcanonical hsame

theorem Kept.accepts_iff (hk : Kept P history cs) (hf : cs.find? c k = some stored) :
    (Filter.byId id).accepts stored.record ↔ ∃ own, stored.record.field? Value.idKey = some own ∧ own.equal id := by
  obtain ⟨-, own, -, -, hown, -⟩ := (hk c k stored hf).id
  rw [accepts_byId hown, (recordId?_eq_some_iff.mp hown).1]
  simp

-- A record with an equal identifier is not filed before the text of the identifier, and there is one
-- that is filed under it.
def Aligned (cs : Collections) (c : String) (id : Value) : Prop :=
  ∀ k stored own, cs.find? c k = some stored → stored.record.field? Value.idKey = some own → own.equal id →
    compare k id.text ≠ .lt ∧ (cs.find? c id.text).isSome

theorem Aligned.of_accepts (h : cs.Aligned c id) (hk : Kept P history cs) (hf : cs.find? c k = some stored)
    (hacc : (Filter.byId id).accepts stored.record) : compare k id.text ≠ .lt ∧ (cs.find? c id.text).isSome := by
  obtain ⟨own, hown, hequal⟩ := (hk.accepts_iff hf).mp hacc
  exact h k stored own hf hown hequal

theorem Kept.aligned_iff (hk : Kept Value.Canonical history cs) :
    cs.Aligned c id ↔ cs.readKey? c id = (cs.find? c id.text).map fun _ => id.text := by
  constructor
  · intro h
    cases hr : cs.readKey? c id with
    | none =>
      cases hf : cs.find? c id.text with
      | none => rfl
      | some stored =>
        have := isSome_readKey? hf (hk.accepts hf)
        rw [hr] at this
        cases this
    | some k =>
      obtain ⟨⟨stored, hf, hacc⟩, hfirst⟩ := readKey?_eq_some hr
      obtain ⟨hge, hsome⟩ := h.of_accepts hk hf hacc
      obtain ⟨stored', hf'⟩ := Option.isSome_iff_exists.mp hsome
      have hle := hfirst id.text stored' hf' (hk.accepts hf')
      rw [hf', Option.map_some, Option.some.injEq]
      cases hcompare : compare k id.text with
      | lt => exact absurd hcompare hge
      | eq => exact Std.LawfulEqOrd.eq_of_compare hcompare
      | gt =>
        rw [Std.OrientedOrd.eq_swap, hcompare] at hle
        exact absurd rfl hle
  · intro h k stored own hf hown hequal
    have hacc := (hk.accepts_iff hf).mpr ⟨own, hown, hequal⟩
    have hsome := isSome_readKey? hf hacc
    rw [h, Option.isSome_map] at hsome
    obtain ⟨stored', hf'⟩ := Option.isSome_iff_exists.mp hsome
    rw [hf', Option.map_some] at h
    exact ⟨(readKey?_eq_some h).2 k stored hf hacc, hsome⟩

theorem Kept.aligned_of_exact (hk : Kept Value.Exact history cs) (hid : id.Exact) : cs.Aligned c id := by
  intro k stored own hf hown hequal
  obtain ⟨id', own', hexact, rfl, hown', hsame⟩ := (hk c k stored hf).id
  cases hown.symm.trans (recordId?_eq_some_iff.mp hown').1
  cases eq_of_same own id' (doubleFree_of_integral id' hexact.integral) hsame
  cases eq_of_equal own id hexact hid hequal
  exact ⟨by simp, by simp [hf]⟩

theorem isSome_readOne? : (cs.readOne? c id none).isSome ↔ (cs.readKey? c id).isSome := by
  rw [readOne?_eq]
  cases hr : cs.readKey? c id with
  | none => rfl
  | some k =>
    obtain ⟨⟨stored, hf, -⟩, -⟩ := readKey?_eq_some hr
    simp [hf]

end Collections

namespace Store

open Collections

variable {requests : List Request} {c : String} {id : Value}

theorem kept_live {handles : Supply SessionId} (h : ∀ c record session id,
      .write (.insert c record) session ∈ requests → recordId? record = some id → P id) :
    Kept P (settled [] (serve { handles } requests).1) (serve { handles } requests).2.live := by
  refine kept_empty.applyAll (Follows.served handles requests).live fun c record id hm hid => ?_
  obtain ⟨e, he, session, hr⟩ := mem_settled hm
  exact h c record session id (hr ▸ request_mem he) hid

theorem write_ok_iff {s : Store} : (∃ n, (s.write w none).1 = .ok n) ↔ ∃ r, s.live.apply w = .ok r := by
  simp only [write, writeLive]
  cases s.live.apply w <;> simp

-- Deletions and changesets under an identifier are about just the record that a read by it finds if and only if
-- the identifier is aligned with its collection, and so it is if all identifiers are exact.
theorem read_reaches_iff (handles : Supply SessionId) (requests : List Request)
    (hids : ∀ c record session id, .write (.insert c record) session ∈ requests →
      recordId? record = some id → id.Canonical) (c : String) (id : Value) :
    let s := (serve { handles } requests).2
    s.live.readOne? c id none = ((s.live.readKey? c id).bind fun k => (s.live.find? c k).map Stored.record) ∧
    ((((s.live.readOne? c id none).isSome ↔ ∃ n, (s.write (.update c id .empty) none).1 = .ok n) ∧
        ∀ k, s.live.readKey? c id = some k →
          (Write.delete c id).place? = some (c, k) ∧ ∀ changes, (Write.update c id changes).place? = some (c, k)) ↔
      s.live.Aligned c id) ∧
    (id.Exact → (∀ c record session id, .write (.insert c record) session ∈ requests →
      recordId? record = some id → id.Exact) → s.live.Aligned c id) := by
  intro s
  have hk : Kept Value.Canonical _ s.live := kept_live hids
  refine ⟨readOne?_eq, ?_, fun hid hexact => (kept_live hexact).aligned_of_exact hid⟩
  rw [isSome_readOne?, write_ok_iff, hk.update_empty_iff, hk.aligned_iff]
  simp only [Write.place?, Option.some.injEq, Prod.mk.injEq, true_and]
  cases s.live.readKey? c id with
  | none => cases s.live.find? c id.text <;> simp
  | some k =>
    cases s.live.find? c id.text with
    | none => simp
    | some stored =>
      simp only [Option.isSome_some, true_and, Option.map_some, Option.some.injEq, forall_eq']
      exact ⟨fun h => h.1.symm, fun h => ⟨h.symm, fun _ => h.symm⟩⟩

def numbered (id : Value) : Value :=
  .obj [("_id", id)]

-- Users whose identifiers look alike, one of them entered in a session, one gone, and a room of the same number.
def entrance : List Request :=
  [.write (.insert "users" (numbered (.str "1"))) none, .write (.insert "users" (numbered (.int 1))) none,
    .write (.insert "rooms" (numbered (.int 1))) none, .start, .write (.insert "users" (numbered (.int 11))) (some 0),
    .write (.delete "users" (.str "1")) (some 0), .commit 0]

theorem read_reaches_iff_entrance :
    (∀ c record session id, .write (.insert c record) session ∈ entrance → recordId? record = some id →
      id.Canonical) ∧
    let s := (serve {} entrance).2
    s.live.records "users" = [numbered (.int 1), numbered (.int 11)] ∧
    s.live.readOne? "users" (.int 1) none = some (numbered (.int 1)) ∧
    ((s.live.readOne? "users" (.int 1) none).isSome ↔ ∃ n, (s.write (.update "users" (.int 1) .empty) none).1 = .ok n) ∧
    ∀ k, s.live.readKey? "users" (.int 1) = some k → (Write.delete "users" (.int 1)).place? = some ("users", k) ∧
      ∀ changes, (Write.update "users" (.int 1) changes).place? = some ("users", k) := by
  have hexact : ∀ c record session id, .write (.insert c record) session ∈ entrance →
      recordId? record = some id → id.Exact := by
    intro c record session id hm hid
    simp only [entrance, List.mem_cons, List.not_mem_nil, or_false, Request.write.injEq, Write.insert.injEq, reduceCtorEq,
      false_or, false_and] at hm
    rcases hm with ⟨⟨rfl, rfl⟩, -⟩ | ⟨⟨rfl, rfl⟩, -⟩ | ⟨⟨rfl, rfl⟩, -⟩ | ⟨⟨rfl, rfl⟩, -⟩
    all_goals cases hid; decide
  have hids : ∀ c record session id, .write (.insert c record) session ∈ entrance →
      recordId? record = some id → id.Canonical := fun _ _ _ _ hm hid => (hexact _ _ _ _ hm hid).canonical
  obtain ⟨-, hiff, haligned⟩ := read_reaches_iff .numbers entrance hids "users" (.int 1)
  exact ⟨hids, by decide +kernel, by decide +kernel, hiff.mpr (haligned (by decide) hexact)⟩

-- The first of them is found by the identifier 1.0, under which there is nothing to write to.
theorem read_misses_write :
    let s := (serve {} entrance).2
    let one : Value := .num (.double (.ofInt 1))
    s.live.readOne? "users" one none = some (numbered (.int 1)) ∧
      (s.write (.update "users" one .empty) none).1 = .error (.notFound "users" "1.0") := by
  decide +kernel

end Store

end Dossier

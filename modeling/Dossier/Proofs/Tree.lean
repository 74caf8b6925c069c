import Dossier.Proofs.OrdMap
import Dossier.Proofs.Path
import Dossier.Value.Tree

-- A write that succeeds can be read back, one that fails changes nothing, and none touches what lies apart from
-- it.

namespace Dossier

open Entries List

namespace Value

variable {v new x : Value} {full p q rest : Path} {seg : Seg} {fs : List (String × Value)}

-- One segment

-- The fields that a write through a key starts from. Only an array takes no key; a scalar becomes an object.
def openFields? : Value → Option (List (String × Value))
  | .obj fields => some fields
  | .arr _ => none
  | _ => some []

theorem openFields?_cases (v : Value) : (∃ fs, v.openFields? = some fs) ∨ ∃ items, v = .arr items := by
  cases v <;> simp [openFields?]

theorem child?_of_openFields (h : v.openFields? = some fs) : v.child? seg = Entries.get? seg.toKey fs := by
  cases v <;> simp_all [openFields?, child?] <;> subst h <;> rfl

theorem get?_cons_of_openFields (h : v.openFields? = some fs) :
    v.get? (seg :: rest) = (Entries.get? seg.toKey fs).bind (·.get? rest) := by
  rw [get?, child?_of_openFields h]
  cases Entries.get? seg.toKey fs <;> rfl

theorem get?_index_arr (items : List Value) (i : Nat) :
    (Value.arr items).get? (.index i :: rest) = items[i]?.bind (·.get? rest) := by
  rw [get?, child?]
  cases items[i]? <;> rfl

@[simp] theorem get?_key_arr (items : List Value) (k : String) :
    (Value.arr items).get? (.key k :: rest) = none := rfl

@[simp] theorem get?_nil (v : Value) : v.get? [] = some v := by
  rw [get?]

theorem setFrom_cons_of_openFields (h : v.openFields? = some fs) :
    setFrom full new (seg :: rest) v =
      let c := setFrom full new rest ((Entries.get? seg.toKey fs).getD .null)
      (c.1, .obj (Entries.insert seg.toKey c.2 fs)) := by
  cases v <;> simp_all [openFields?, setFrom] <;> subst h <;>
    simp [Entries.get?, Entries.insert, Entries.contains, Entries.place]

-- The items after a write to one of them or to the place after the last.
def putItem (items : List Value) (i : Nat) (c : Value) : List Value :=
  if i < items.length then items.set i c else items ++ [c]

theorem setFrom_index_arr (h : i ≤ items.length) :
    setFrom full new (.index i :: rest) (.arr items) =
      let c := setFrom full new rest (items[i]?.getD .null)
      (c.1, .arr (putItem items i c.2)) := by
  simp [setFrom, putItem, Nat.not_lt.mpr h]

theorem length_putItem : items.length ≤ (putItem items i c).length := by
  simp only [putItem]
  split <;> simp

theorem getElem?_putItem (h : i ≤ items.length) : (putItem items i c)[j]? = if j = i then some c else items[j]? := by
  simp only [putItem]
  split
  · case isTrue hi =>
    rw [getElem?_set]
    by_cases hj : j = i
    · subst hj; simp [hi]
    · simp [hj, Ne.symm hj]
  · case isFalse hi =>
    have hi : i = items.length := by omega
    subst hi
    rw [getElem?_append]
    split
    · case isTrue hj => simp [Nat.ne_of_lt hj]
    · case isFalse hj =>
      by_cases he : j = items.length
      · subst he; simp
      · have : 1 ≤ j - items.length := by omega
        simp [he, getElem?_eq_none (l := [c]) (by simpa using this), Nat.not_lt.mp hj]

theorem putItem_eq_self (h : items[i]? = some c) : putItem items i c = items := by
  have hi : i < items.length := (List.getElem?_eq_some_iff.mp h).1
  apply ext_getElem?
  intro j
  rw [getElem?_putItem (Nat.le_of_lt hi)]
  split
  · case isTrue hj => rw [hj, h]
  · rfl

theorem putItem_putItem (h : i ≤ items.length) : putItem (putItem items i c) i c' = putItem items i c' := by
  apply ext_getElem?
  intro j
  rw [getElem?_putItem (Nat.le_trans h length_putItem), getElem?_putItem h, getElem?_putItem h]
  split <;> rfl

-- Whether a write can go through a segment. Only an array refuses some.
def takes : Value → Seg → Bool
  | .arr _, .key _ => false
  | .arr items, .index i => i ≤ items.length
  | _, _ => true

def putChild : Value → Seg → Value → Value
  | .arr items, .index i, c => .arr (putItem items i c)
  | .arr items, .key _, _ => .arr items
  | .obj fields, seg, c => .obj (Entries.insert seg.toKey c fields)
  | _, seg, c => .obj [(seg.toKey, c)]

theorem get?_cons : v.get? (seg :: rest) = (v.child? seg).bind (·.get? rest) := by
  rw [get?]
  cases v.child? seg <;> rfl

theorem get?_concat : v.get? (p ++ [seg]) = (v.get? p).bind (·.child? seg) := by
  simp only [get?_append, get?_cons, get?_nil, Option.bind_fun_some]

theorem get?_null (h : p ≠ []) : get? .null p = none := by
  cases p with
  | nil => exact absurd rfl h
  | cons => rfl

theorem setFrom_cons (h : v.takes seg) : setFrom full new (seg :: rest) v =
    ((setFrom full new rest ((v.child? seg).getD .null)).1,
      v.putChild seg (setFrom full new rest ((v.child? seg).getD .null)).2) := by
  cases v with
  | arr items =>
    cases seg with
    | key => cases h
    | index i => exact setFrom_index_arr (of_decide_eq_true h)
  | null | bool | num | str | obj => simp [setFrom, child?, putChild]

theorem setFrom_refused (full : Path) (new : Value) (rest : Path) (h : v.takes seg = false) :
    ∃ e, setFrom full new (seg :: rest) v = (.error e, v) := by
  cases v with
  | arr items =>
    cases seg with
    | key => exact ⟨_, rfl⟩
    | index i => exact ⟨_, if_pos (Nat.lt_of_not_le (of_decide_eq_false h))⟩
  | null | bool | num | str | obj => cases h

theorem takes_of_ok (h : (setFrom full new (seg :: rest) v).1 = .ok ()) : v.takes seg := by
  cases ht : v.takes seg with
  | true => rfl
  | false =>
    obtain ⟨e, he⟩ := setFrom_refused full new rest ht
    rw [he] at h
    cases h

theorem takes_of_child? (h : v.child? seg = some x) : v.takes seg := by
  cases v with
  | arr items =>
    cases seg with
    | key => cases h
    | index i => exact decide_eq_true (Nat.le_of_lt (List.getElem?_eq_some_iff.mp h).1)
  | null | bool | num | str | obj => rfl

theorem child?_putChild_self (h : v.takes seg) : (v.putChild seg x).child? seg = some x := by
  cases v with
  | arr items =>
    cases seg with
    | key => cases h
    | index i => exact (getElem?_putItem (of_decide_eq_true h)).trans (if_pos rfl)
  | null | bool | num | str | obj => simp [putChild, child?, Entries.get?]

-- Another segment leads to the same part only if it has the same text.
theorem child?_putChild (h : v.takes seg) (b : Seg) : (v.putChild seg x).child? b = v.child? b ∨
    seg.toKey = b.toKey ∧ (v.putChild seg x).child? b = some x ∧ v.child? b = v.child? seg := by
  cases v with
  | arr items =>
    cases seg with
    | key => cases h
    | index i =>
      cases b with
      | key => exact .inl rfl
      | index j =>
        have hget : ((arr items).putChild (.index i) x).child? (.index j) = _ := getElem?_putItem (of_decide_eq_true h)
        split at hget
        · case isTrue hij => exact .inr ⟨by rw [hij], hget, by rw [hij]⟩
        · exact .inl hget
  | null | bool | num | str | obj =>
    by_cases hk : seg.toKey = b.toKey
    · exact .inr ⟨hk, by simp [putChild, child?, Entries.get?, hk], by simp [child?, hk]⟩
    · exact .inl (by simp [putChild, child?, Entries.get?, get?_insert_ne hk, Ne.symm hk])

theorem child?_putChild_ne (h : v.takes seg) (hk : seg.toKey ≠ b.toKey) : (v.putChild seg x).child? b = v.child? b :=
  (child?_putChild h b).resolve_right fun hb => hk hb.1

theorem putChild_eq_self (h : v.child? seg = some x) : v.putChild seg x = v := by
  cases v with
  | arr items =>
    cases seg with
    | key => rfl
    | index i => exact congrArg arr (putItem_eq_self h)
  | obj fields => exact congrArg obj (insert_eq_self h)
  | null | bool | num | str => cases h

theorem setChild_eq_putChild (h : v.child? seg = some x) : v.setChild seg c = v.putChild seg c := by
  cases v with
  | arr items =>
    cases seg with
    | key => rfl
    | index i => exact congrArg arr (if_pos (List.getElem?_eq_some_iff.mp h).1).symm
  | obj fields => exact congrArg obj (if_pos (Option.isSome_of_eq_some h : (Entries.get? _ _).isSome)).symm
  | null | bool | num | str => cases h

theorem setChild_eq_self (h : v.child? seg = some x) : v.setChild seg x = v := by
  rw [setChild_eq_putChild h, putChild_eq_self h]

theorem takes_putChild (hb : v.takes b) : (v.putChild seg x).takes b := by
  cases v with
  | arr items =>
    cases b with
    | key => cases hb
    | index j =>
      cases seg with
      | key => exact hb
      | index i => exact decide_eq_true (Nat.le_trans (of_decide_eq_true hb) length_putItem)
  | null | bool | num | str | obj => rfl

theorem mem_putItem (h : v ∈ putItem items i x) : v = x ∨ v ∈ items := by
  rw [putItem] at h
  split at h
  · exact (mem_or_eq_of_mem_set h).symm
  · simpa [or_comm] using h

theorem putChild_putChild (h : v.takes seg) : (v.putChild seg x).putChild seg x' = v.putChild seg x' := by
  cases v with
  | arr items =>
    cases seg with
    | key => rfl
    | index i => exact congrArg arr (putItem_putItem (of_decide_eq_true h))
  | obj fields => exact congrArg obj insert_insert
  | null | bool | num | str => simp [putChild, Entries.insert, Entries.contains, Entries.get?, Entries.replace]

-- Writes

theorem setFrom_scalar_ok (h : v.openFields? = some []) : (setFrom full new p v).1 = .ok () := by
  induction p generalizing v with
  | nil => simp [setFrom]
  | cons seg rest ih =>
    rw [setFrom_cons_of_openFields h]
    exact ih rfl

theorem setFrom_of_error (h : (setFrom full new p v).1 = .error e) :
    (setFrom full new p v).2 = v ∧ v.get? p = none := by
  induction p generalizing v with
  | nil => simp [setFrom] at h
  | cons seg rest ih =>
    rw [get?_cons]
    cases hc : v.child? seg with
    | none =>
      refine ⟨?_, rfl⟩
      cases ht : v.takes seg with
      | true =>
        rw [setFrom_cons ht, hc, Option.getD_none, setFrom_scalar_ok rfl] at h
        cases h
      | false =>
        obtain ⟨e, he⟩ := setFrom_refused full new rest ht
        rw [he]
    | some c =>
      rw [setFrom_cons (takes_of_child? hc), hc, Option.getD_some] at h ⊢
      obtain ⟨hsame, hnone⟩ := ih h
      exact ⟨by rw [hsame, putChild_eq_self hc], hnone⟩

theorem setFrom_of_get? (h : v.get? p = some x) : setFrom full x p v = (.ok (), v) := by
  induction p generalizing v with
  | nil =>
    rw [get?_nil] at h
    cases h
    simp [setFrom]
  | cons seg rest ih =>
    rw [get?_cons] at h
    obtain ⟨c, hc, h⟩ := Option.bind_eq_some_iff.mp h
    rw [setFrom_cons (takes_of_child? hc), hc, Option.getD_some, ih h, putChild_eq_self hc]

theorem setFrom_ok_of_get? (h : v.get? p = some x) : (setFrom full new p v).1 = .ok () := by
  cases hr : (setFrom full new p v).1 with
  | ok _ => rfl
  | error e => simp [(setFrom_of_error hr).2] at h

theorem setFrom_ok_iff : (setFrom full x p v).1 = .ok () ↔ (setFrom full y p v).1 = .ok () := by
  induction p generalizing v with
  | nil => simp [setFrom]
  | cons seg rest ih =>
    cases ht : v.takes seg with
    | true =>
      rw [setFrom_cons ht, setFrom_cons ht]
      exact ih
    | false =>
      obtain ⟨e, he⟩ := setFrom_refused full x rest ht
      obtain ⟨e', he'⟩ := setFrom_refused full y rest ht
      rw [he, he']
      exact ⟨nofun, nofun⟩

theorem get?_setFrom_append (h : (setFrom full new (p ++ q) v).1 = .ok ()) : (setFrom full new (p ++ q) v).2.get? p =
      some (setFrom full new q ((v.get? p).getD .null)).2 := by
  induction p generalizing v with
  | nil => simp
  | cons seg rest ih =>
    rw [cons_append] at h ⊢
    have ht := takes_of_ok h
    rw [setFrom_cons ht] at h ⊢
    rw [get?_cons, get?_cons, child?_putChild_self ht, Option.bind_some, ih h]
    cases v.child? seg with
    | some c => rfl
    | none =>
      -- A part that is made on the way was null before, and so were its parts.
      cases rest <;> rfl

theorem get?_setFrom_self (h : (setFrom full new p v).1 = .ok ()) : (setFrom full new p v).2.get? p = some new := by
  have := get?_setFrom_append (p := p) (q := []) (by simpa using h)
  simpa [setFrom] using this

theorem setFrom_ok_of_append (h : (setFrom full new (p ++ q) v).1 = .ok ()) :
    (setFrom full new q ((v.get? p).getD .null)).1 = .ok () := by
  induction p generalizing v with
  | nil => exact h
  | cons seg rest ih =>
    rw [cons_append] at h
    rw [setFrom_cons (takes_of_ok h)] at h
    rw [get?_cons]
    cases hc : v.child? seg with
    | none => exact setFrom_scalar_ok rfl
    | some c =>
      rw [hc] at h
      exact ih h

theorem setFrom_append (h : v.get? p = some c) (hok : (setFrom full new q c).1 = .ok ()) :
    setFrom full new (p ++ q) v = setFrom full (setFrom full new q c).2 p v := by
  induction p generalizing v with
  | nil =>
    rw [get?_nil] at h
    cases h
    exact Prod.ext hok (by simp [setFrom])
  | cons seg rest ih =>
    rw [get?_cons] at h
    obtain ⟨d, hd, h⟩ := Option.bind_eq_some_iff.mp h
    have ht := takes_of_child? hd
    rw [cons_append, setFrom_cons ht, setFrom_cons ht, hd, Option.getD_some, ih h]

theorem setFrom_setFrom (h : (setFrom full x p v).1 = .ok ()) :
    setFrom full x' p (setFrom full x p v).2 = setFrom full x' p v := by
  induction p generalizing v with
  | nil => simp [setFrom]
  | cons seg rest ih =>
    have ht := takes_of_ok h
    rw [setFrom_cons ht] at h ⊢
    rw [setFrom_cons ht, setFrom_cons (takes_putChild ht), child?_putChild_self ht, Option.getD_some, ih h,
      putChild_putChild ht]

-- A write leaves what lies apart from it as it was. Paths are compared by the texts of their segments, since an
-- index is looked up in an object by its text.
theorem get?_setFrom_of_keys (h₁ : ¬ p.map Seg.toKey <+: q.map Seg.toKey) (h₂ : ¬ q.map Seg.toKey <+: p.map Seg.toKey) :
    (setFrom full new q v).2.get? p = v.get? p := by
  induction q generalizing p v with
  | nil => exact absurd nil_prefix h₂
  | cons b q ih =>
    cases p with
    | nil => exact absurd nil_prefix h₁
    | cons a p =>
      simp only [map_cons, cons_prefix_cons, not_and] at h₁ h₂
      cases ht : v.takes b with
      | false =>
        obtain ⟨e, he⟩ := setFrom_refused full new q ht
        rw [he]
      | true =>
        rw [setFrom_cons ht, get?_cons, get?_cons]
        rcases child?_putChild ht a with hsame | ⟨hk, hnew, hold⟩
        · rw [hsame]
        · rw [hnew, hold, Option.bind_some, ih (h₁ hk.symm) (h₂ hk)]
          cases v.child? b with
          | some c => rfl
          | none => exact get?_null (by rintro rfl; exact h₁ hk.symm nil_prefix)

-- Writes are lenses: a failed one changes nothing, a later one to the same path wins, and what is apart by the
-- texts of its segments stays.
theorem set_lens (d : Value) (p : Path) (v w : Value) :
    (∀ e, (d.set p v).1 = .error e → (d.set p v).2 = d) ∧
    ((d.set p v).1 = .ok () → (d.set p v).2.get? p = some v ∧ (d.set p v).2.set p w = d.set p w ∧
      ∀ q : Path, ¬ q.map Seg.toKey <+: p.map Seg.toKey → ¬ p.map Seg.toKey <+: q.map Seg.toKey →
        (d.set p v).2.get? q = d.get? q) ∧
    (d.get? p = some v → d.set p v = (.ok (), d)) := by
  refine ⟨fun e he => (setFrom_of_error he).1, fun hok => ?_, setFrom_of_get?⟩
  exact ⟨get?_setFrom_self hok, setFrom_setFrom hok, fun q => get?_setFrom_of_keys⟩

theorem set_lens_rows : let d : Value := .obj [("rows", .arr [.bool true])]
    let row (i : Nat) : Path := [.key "rows", .index i]
    (d.set (row 2 ++ [.key "open"]) .null).2 = d ∧
    ((d.set (row 1) .null).2.get? (row 1) = some .null ∧ (d.set (row 1) .null).2.get? (row 0) = d.get? (row 0)) ∧
    d.set (row 0) (.bool true) = (.ok (), d) := by
  intro d row
  obtain ⟨hfail, -, -⟩ := set_lens d (row 2 ++ [.key "open"]) .null .null
  obtain ⟨-, hok, -⟩ := set_lens d (row 1) .null .null
  obtain ⟨-, -, hsame⟩ := set_lens d (row 0) (.bool true) .null
  obtain ⟨hget, -, hframe⟩ := hok rfl
  exact ⟨hfail _ rfl, ⟨hget, hframe (row 0) (by decide) (by decide)⟩, hsame rfl⟩

end Value

namespace Path

theorem Apart.keys {p : Path} (h : p.Apart q) (hp : p.Spelled) (hq : q.Spelled) :
    ¬ p.map Seg.toKey <+: q.map Seg.toKey := by
  induction p generalizing q with
  | nil => exact absurd (nil_covers q) h.1
  | cons a p ih =>
    cases q with
    | nil => simp
    | cons b q =>
      simp only [spelled_cons] at hp hq
      simp only [map_cons, cons_prefix_cons, not_and]
      intro hk
      cases hp.1.toKey_injective hq.1 hk
      exact ih ((cons_apart_cons.mp h).resolve_left (absurd rfl)) hp.2 hq.2

end Path

namespace Value

variable {v new x : Value} {full p q rest : Path} {seg : Seg}

theorem get?_setFrom_apart (h : p.Apart q) (hp : p.Spelled) (hq : q.Spelled) :
    (setFrom full new q v).2.get? p = v.get? p :=
  get?_setFrom_of_keys (h.keys hp hq) (h.symm.keys hq hp)

theorem get?_of_covers (h : v.get? p = none) (hc : p.covers q) : v.get? q = none := by
  obtain ⟨r, rfl⟩ := Path.covers_iff.mp hc
  rw [get?_append, h, Option.bind_none]

theorem get?_isSome_of_covers (h : (v.get? q).isSome) (hc : p.covers q) : (v.get? p).isSome := by
  cases hp : v.get? p with
  | some _ => rfl
  | none => simp [get?_of_covers hp hc] at h

theorem put_eq_setFrom (full : Path) (h : v.get? p = some x) : v.put p new = (setFrom full new p v).2 := by
  induction p generalizing v with
  | nil => simp [put, setFrom]
  | cons seg rest ih =>
    rw [get?_cons] at h
    obtain ⟨c, hc, h⟩ := Option.bind_eq_some_iff.mp h
    rw [put, hc, setFrom_cons (takes_of_child? hc), hc, Option.getD_some, ← ih h]
    exact setChild_eq_putChild hc

theorem remove_of_get?_none (h : v.get? p = none) : (v.remove p).2 = v := by
  fun_induction remove v p with
  | case1 => rfl
  | case2 fields seg =>
    rw [get?_cons_of_openFields rfl] at h
    cases hc : Entries.get? seg.toKey fields with
    | none => simp [erase_eq_self hc]
    | some c => simp [hc] at h
  | case3 items i =>
    rw [get?_index_arr] at h
    cases hc : items[i]? with
    | none => simp [eraseIdx_of_length_le (getElem?_eq_none_iff.mp hc)]
    | some c => simp [hc] at h
  | case4 => rfl
  | case5 v seg rest _ _ _ c hc r c' heq ih =>
    rw [get?, hc] at h
    have := ih h
    rw [heq] at this
    cases this
    exact setChild_eq_self hc
  | case6 => rfl

-- Objects stay objects

theorem set_object (hp : p ≠ []) : ∃ fields', ((obj fields).set p new).2 = obj fields' := by
  match p with
  | seg :: rest =>
    rw [set, setFrom_cons_of_openFields rfl]
    exact ⟨_, rfl⟩

theorem remove_object : ∃ fields', ((obj fields).remove p).2 = obj fields' := by
  match p with
  | [] => exact ⟨fields, rfl⟩
  | [seg] => exact ⟨_, rfl⟩
  | seg :: seg' :: rest =>
    rw [remove]
    · split
      · exact ⟨_, rfl⟩
      · exact ⟨fields, rfl⟩
    all_goals simp

theorem arr_of_setFrom_cons (h : (setFrom full new (seg :: rest) v).1 = .ok ()) :
    (∃ xs, (setFrom full new (seg :: rest) v).2 = .arr xs) ↔ ∃ xs, v = .arr xs := by
  rw [setFrom_cons (takes_of_ok h)]
  cases v <;> cases seg <;> simp [putChild]

theorem arr_of_setFrom_below (h : p.isAbove q) :
    (∃ xs, (setFrom full new q v).2.get? p = some (.arr xs)) ↔ ∃ xs, v.get? p = some (.arr xs) := by
  obtain ⟨r, hr, rfl⟩ := Path.isAbove_iff.mp h
  cases hok : (setFrom full new (p ++ r) v).1 with
  | error e => rw [(setFrom_of_error hok).1]
  | ok =>
    match r, hr with
    | seg :: rest, _ =>
      have hbelow := arr_of_setFrom_cons (setFrom_ok_of_append hok)
      simp only [get?_setFrom_append hok, Option.some.injEq, hbelow]
      cases v.get? p <;> simp

-- The items that values can be appended to; null and an absent value count as none.
def items? : Option Value → Option (List Value)
  | none | some .null => some []
  | some (.arr items) => some items
  | some _ => none

end Value
end Dossier

import Dossier.Proofs.Equality
import Dossier.Schema.Basic

-- A value grows when fields are added to its objects: scalars stay, and so do the lengths of arrays.

namespace Dossier

open Path List

namespace Value

-- Positions

-- A path as a value has it: keys lead into objects, and indices into arrays.
inductive Has : Value → Path → Prop
  | here {v} : Has v []
  | field {fs k c p} : Entries.get? k fs = some c → Has c p → Has (.obj fs) (.key k :: p)
  | item {xs i c p} : xs[i]? = some c → Has c p → Has (.arr xs) (.index i :: p)

variable {u v c : Value} {p : Path} {fs : List (String × Value)} {xs : List Value}

-- A segment of the kind that leads into a value, and not beyond the end of an array.
def fits : Value → Seg → Bool
  | .obj _, .key _ => true
  | .arr xs, .index i => i < xs.length
  | _, _ => false

theorem fits_cases (h : v.fits seg) : (∃ fs k, v = .obj fs ∧ seg = .key k) ∨
    ∃ xs i, v = .arr xs ∧ seg = .index i ∧ i < xs.length := by
  cases v with
  | obj => cases seg with
    | key => exact .inl ⟨_, _, rfl, rfl⟩
    | index => cases h
  | arr => cases seg with
    | key => cases h
    | index => exact .inr ⟨_, _, rfl, rfl, of_decide_eq_true h⟩
  | null | bool | num | str => cases seg <;> cases h

theorem takes_of_fits (h : v.fits seg) : v.takes seg := by
  obtain ⟨_, _, rfl, rfl⟩ | ⟨_, _, rfl, rfl, hi⟩ := fits_cases h
  · rfl
  · exact decide_eq_true (Nat.le_of_lt hi)

theorem object_of_fits (h : v.fits seg) (hseg : seg.index? = none) : ∃ fs, v = .obj fs := by
  obtain ⟨fs, _, rfl, -⟩ | ⟨_, _, -, rfl, -⟩ := fits_cases h
  · exact ⟨fs, rfl⟩
  · cases hseg

theorem eq_of_fits (h : v.fits seg) (hb : v.fits b) (hk : seg.toKey = b.toKey) : seg = b := by
  obtain ⟨_, _, rfl, rfl⟩ | ⟨_, _, rfl, rfl, -⟩ := fits_cases h
  all_goals obtain ⟨_, _, ⟨⟩, rfl⟩ | ⟨_, _, ⟨⟩, rfl, -⟩ := fits_cases hb
  · exact congrArg Seg.key hk
  · rw [Seg.index_toKey_injective hk]

theorem get?_cons_of_child? (h : v.child? seg = some c) : v.get? (seg :: p) = c.get? p := by
  rw [get?_cons, h, Option.bind_some]

theorem get?_field (h : Entries.get? k fs = some c) : (Value.obj fs).get? (.key k :: p) = c.get? p :=
  get?_cons_of_child? (v := .obj fs) h

theorem get?_item (h : xs[i]? = some c) : (Value.arr xs).get? (.index i :: p) = c.get? p :=
  get?_cons_of_child? (v := .arr xs) h

theorem has_cons : v.Has (seg :: p) ↔ v.fits seg ∧ ∃ c, v.child? seg = some c ∧ c.Has p := by
  constructor
  · intro h
    cases h with
    | field hc h => exact ⟨rfl, _, hc, h⟩
    | item hc h => exact ⟨decide_eq_true (List.getElem?_eq_some_iff.mp hc).1, _, hc, h⟩
  · rintro ⟨hf, c, hc, h⟩
    obtain ⟨_, _, rfl, rfl⟩ | ⟨_, _, rfl, rfl, -⟩ := fits_cases hf
    · exact .field hc h
    · exact .item hc h

theorem get?_insert_apart (h : k ≠ l) :
    (Value.obj (Entries.insert k x fs)).get? (.key l :: p) = (Value.obj fs).get? (.key l :: p) := by
  rw [get?_cons_of_openFields rfl, get?_cons_of_openFields rfl, Seg.toKey, Entries.get?_insert_ne h]

theorem has_insert (h : (Value.obj (Entries.insert k x fs)).Has p) :
    p = [] ∨ (∃ q, p = .key k :: q ∧ x.Has q) ∨ ∃ l q, p = .key l :: q ∧ k ≠ l ∧ (Value.obj fs).Has p := by
  cases h with
  | here => exact .inl rfl
  | @field _ l c q hc hq =>
    by_cases hk : k = l
    · subst hk
      rw [Entries.get?_insert_self] at hc
      cases hc
      exact .inr (.inl ⟨q, rfl, hq⟩)
    · rw [Entries.get?_insert_ne hk] at hc
      exact .inr (.inr ⟨l, q, rfl, hk, .field hc hq⟩)

theorem Has.isSome (h : v.Has p) : (v.get? p).isSome := by
  induction h with
  | here => simp
  | field hc _ ih => rwa [get?_field hc]
  | item hc _ ih => rwa [get?_item hc]

theorem has_append : v.Has (p ++ q) ↔ v.Has p ∧ ∃ c, v.get? p = some c ∧ c.Has q := by
  induction p generalizing v with
  | nil => simp [Has.here]
  | cons seg p ih =>
    rw [cons_append, has_cons, has_cons]
    constructor
    · rintro ⟨hf, c, hc, h⟩
      rw [get?_cons_of_child? hc]
      exact (ih.mp h).imp_left (⟨hf, c, hc, ·⟩)
    · rintro ⟨⟨hf, c, hc, h⟩, hq⟩
      rw [get?_cons_of_child? hc] at hq
      exact ⟨hf, c, hc, ih.mpr ⟨h, hq⟩⟩

theorem Has.of_covers (h : v.Has q) (hc : p.covers q) : v.Has p := by
  obtain ⟨r, rfl⟩ := covers_iff.mp hc
  exact (has_append.mp h).1

theorem has_of_keys (hk : ∀ seg ∈ p, seg.index? = none) (h : (v.get? p).isSome) : v.Has p := by
  induction p generalizing v with
  | nil => exact .here
  | cons seg p ih =>
    obtain ⟨hseg, hp⟩ := forall_mem_cons.mp hk
    cases seg with
    | index i => cases hseg
    | key k =>
      cases v with
      | obj fs =>
        cases hc : Entries.get? k fs with
        | none => rw [get?_cons_of_openFields rfl, Seg.toKey, hc] at h; cases h
        | some c => rw [get?_field hc] at h; exact .field hc (ih hp h)
      | arr | null | bool | num | str => cases h

-- Growth

-- Values that can be told apart at most by their parts.
inductive Kin : Value → Value → Prop
  | same {v : Value} : Kin v v
  | obj {fs gs : List (String × Value)} : Kin (.obj fs) (.obj gs)
  | arr {xs ys : List Value} : xs.length = ys.length → Kin (.arr xs) (.arr ys)

theorem Kin.trans (h : Kin u v) (h' : Kin v w) : Kin u w := by
  cases h with
  | same => exact h'
  | obj =>
    cases h' with
    | same | obj => exact .obj
  | arr hl =>
    cases h' with
    | same => exact .arr hl
    | arr hl' => exact .arr (hl.trans hl')

theorem Kin.symm (h : v.Kin w) : w.Kin v := by
  cases h with
  | same => exact .same
  | obj => exact .obj
  | arr hl => exact .arr hl.symm

theorem Kin.takes (h : v.Kin w) : v.takes seg = w.takes seg := by
  cases h with
  | same | obj => rfl
  | arr hl => cases seg <;> simp [Value.takes, hl]

theorem Kin.fits (h : v.Kin w) : v.fits seg = w.fits seg := by
  cases h with
  | same => rfl
  | obj => cases seg <;> rfl
  | arr hl => cases seg <;> simp [Value.fits, hl]

theorem kin_putChild (h : v.fits seg) : v.Kin (v.putChild seg c) := by
  obtain ⟨_, _, rfl, rfl⟩ | ⟨_, _, rfl, rfl, hi⟩ := fits_cases h
  · exact .obj
  · exact .arr (by rw [putItem, if_pos hi, length_set])

theorem child?_putChild_of_fits (h : v.fits seg) (hb : v.fits b) :
    (v.putChild seg x).child? b = if b = seg then some x else v.child? b := by
  split
  · case isTrue he =>
    subst he
    exact child?_putChild_self (takes_of_fits h)
  · case isFalse hne => exact child?_putChild_ne (takes_of_fits h) fun hk => hne (eq_of_fits h hb hk).symm

-- Everything in a value is also in the other one, and of the same kind.
def Grows (v w : Value) : Prop :=
  ∀ p x, v.get? p = some x → ∃ y, w.get? p = some y ∧ x.Kin y

theorem Grows.refl (v : Value) : v.Grows v :=
  fun _ x hx => ⟨x, hx, .same⟩

theorem Grows.trans (h : u.Grows v) (h' : v.Grows w) : u.Grows w := by
  intro p x hx
  obtain ⟨y, hy, hxy⟩ := h p x hx
  obtain ⟨z, hz, hyz⟩ := h' p y hy
  exact ⟨z, hz, hxy.trans hyz⟩

theorem Grows.kin (h : v.Grows w) : v.Kin w := by
  obtain ⟨y, hy, hk⟩ := h [] v (get?_nil v)
  cases hy
  exact hk

theorem Grows.part (h : v.Grows w) (hx : v.get? p = some x) : ∃ y, w.get? p = some y ∧ x.Grows y := by
  obtain ⟨y, hy, -⟩ := h p x hx
  refine ⟨y, hy, fun q z hz => ?_⟩
  have := h (p ++ q) z
  rw [get?_append, get?_append, hx, hy] at this
  exact this hz

theorem Grows.child (h : v.Grows w) (hx : v.child? seg = some x) : ∃ y, w.child? seg = some y ∧ x.Grows y := by
  obtain ⟨y, hy, hxy⟩ := h.part (p := [seg]) (x := x) (by rw [get?_cons, hx]; rfl)
  rw [get?_cons] at hy
  obtain ⟨c, hc, ⟨⟩⟩ := Option.bind_eq_some_iff.mp hy
  exact ⟨_, hc, hxy⟩

theorem grows_of_children (hk : v.Kin w)
    (h : ∀ seg x, v.fits seg → v.child? seg = some x → ∃ y, w.child? seg = some y ∧ x.Grows y) : v.Grows w := by
  intro p z hz
  cases p with
  | nil => cases hz; exact ⟨w, get?_nil w, hk⟩
  | cons seg p =>
    rw [get?_cons] at hz
    obtain ⟨x, hx, hz⟩ := Option.bind_eq_some_iff.mp hz
    obtain ⟨y, hy, hxy⟩ : ∃ y, w.child? seg = some y ∧ x.Grows y := by
      cases hk with
      | same => exact ⟨x, hx, .refl x⟩
      | obj => exact h (.key seg.toKey) x rfl hx
      | arr => cases seg with
        | key => cases hx
        | index i => exact h (.index i) x (decide_eq_true (List.getElem?_eq_some_iff.mp hx).1) hx
    rw [get?_cons, hy]
    exact hxy p z hz

theorem grows_obj (h : ∀ k x, Entries.get? k fs = some x → ∃ y : Value, Entries.get? k gs = some y ∧ x.Grows y) :
    (Value.obj fs).Grows (.obj gs) :=
  grows_of_children .obj fun seg x _ => h seg.toKey x

-- It is enough to compare values where they have a path.
theorem grows_of_has (h : ∀ p x, v.Has p → v.get? p = some x → ∃ y, w.get? p = some y ∧ x.Kin y) : v.Grows w := by
  induction v using child_induction generalizing w with
  | h v ih =>
    obtain ⟨_, ⟨⟩, hk⟩ := h [] v .here (get?_nil v)
    refine grows_of_children hk fun seg x hf hx => ?_
    have hpart := fun p z (hp : x.Has p) (hz : x.get? p = some z) =>
      h (seg :: p) z (has_cons.mpr ⟨hf, x, hx, hp⟩) (by rw [get?_cons_of_child? hx, hz])
    obtain ⟨y, hy, -⟩ := hpart [] x .here (get?_nil x)
    rw [get?_cons] at hy
    obtain ⟨y, hy, -⟩ := Option.bind_eq_some_iff.mp hy
    simp only [get?_cons_of_child? hy] at hpart
    exact ⟨y, hy, ih seg x hx hpart⟩

theorem Grows.has (h : v.Grows w) (hp : v.Has p) : w.Has p := by
  induction p generalizing v w with
  | nil => exact .here
  | cons seg p ih =>
    obtain ⟨hf, x, hx, hp⟩ := has_cons.mp hp
    obtain ⟨y, hy, hxy⟩ := h.child hx
    exact has_cons.mpr ⟨h.kin.fits ▸ hf, y, hy, ih hxy hp⟩

theorem grows_putChild (h : v.fits seg) (hc : ∀ x, v.child? seg = some x → x.Grows c) : v.Grows (v.putChild seg c) := by
  refine grows_of_children (kin_putChild h) fun b x hb hx => ?_
  rw [child?_putChild_of_fits h hb]
  split
  · case isTrue he => exact ⟨c, rfl, hc x (he ▸ hx)⟩
  · exact ⟨x, hx, .refl x⟩

theorem Grows.putChild (h : v.Grows w) (hf : v.fits seg) (hy : w.child? seg = some y) (hc : c.Grows y) :
    (v.putChild seg c).Grows w := by
  have hk : v.Kin (v.putChild seg c) := kin_putChild hf
  refine grows_of_children (hk.symm.trans h.kin) fun b x hb hx => ?_
  rw [child?_putChild_of_fits hf (hk.fits ▸ hb)] at hx
  split at hx
  · case isTrue he =>
    cases hx
    exact ⟨y, he ▸ hy, hc⟩
  · exact h.child hx

-- Writing where nothing is

-- Nothing is at a path, and the way to it ends at an object.
inductive Room : Value → Path → Prop
  | here {fs : List (String × Value)} {k : String} {p : Path} :
    Entries.get? k fs = none → (∀ seg ∈ p, seg.index? = none) → Room (.obj fs) (.key k :: p)
  | field {fs : List (String × Value)} {k : String} {c : Value} {p : Path} :
    Entries.get? k fs = some c → Room c p → Room (.obj fs) (.key k :: p)
  | item {xs : List Value} {i : Nat} {c : Value} {p : Path} :
    xs[i]? = some c → Room c p → Room (.arr xs) (.index i :: p)

theorem room_cons : v.Room (seg :: p) ↔ v.fits seg ∧
    (v.child? seg = none ∧ (∀ s ∈ p, s.index? = none) ∨ ∃ c, v.child? seg = some c ∧ c.Room p) := by
  constructor
  · intro h
    cases h with
    | here hk hp => exact ⟨rfl, .inl ⟨hk, hp⟩⟩
    | field hc h => exact ⟨rfl, .inr ⟨_, hc, h⟩⟩
    | item hc h => exact ⟨decide_eq_true (List.getElem?_eq_some_iff.mp hc).1, .inr ⟨_, hc, h⟩⟩
  · rintro ⟨hf, h⟩
    obtain ⟨_, _, rfl, rfl⟩ | ⟨_, _, rfl, rfl, hi⟩ := fits_cases hf
    · exact h.elim (fun h => .here h.1 h.2) fun ⟨_, hc, h⟩ => .field hc h
    · exact h.elim (fun h => absurd hi (Nat.not_lt.mpr (getElem?_eq_none_iff.mp h.1))) fun ⟨_, hc, h⟩ => .item hc h

theorem Room.ok (h : v.Room q) : (setFrom full x q v).1 = .ok () := by
  induction q generalizing v with
  | nil => cases h
  | cons seg q ih =>
    obtain ⟨hf, ⟨hn, -⟩ | ⟨c, hc, h⟩⟩ := room_cons.mp h
    · rw [setFrom_cons (takes_of_fits hf), hn]
      exact setFrom_scalar_ok rfl
    · rw [setFrom_cons (takes_of_fits hf), hc]
      exact ih h

theorem Room.grows (h : v.Room q) : v.Grows (setFrom full x q v).2 := by
  induction q generalizing v with
  | nil => cases h
  | cons seg q ih =>
    obtain ⟨hf, h⟩ := room_cons.mp h
    rw [setFrom_cons (takes_of_fits hf)]
    refine grows_putChild hf fun y hy => ?_
    rcases h with ⟨hn, -⟩ | ⟨c, hc, h⟩
    · rw [hn] at hy
      cases hy
    · rw [hc] at hy ⊢
      cases hy
      exact ih h

-- A path is at or below another one, or above it with something more.
theorem cons_covers_or_above (h : q.covers p ∨ p.isAbove q ∧ A) :
    Path.covers (seg :: q) (seg :: p) ∨ Path.isAbove (seg :: p) (seg :: q) ∧ A :=
  h.imp (fun h => cons_covers_cons.mpr ⟨rfl, h⟩) fun h => ⟨cons_isAbove_cons.mpr ⟨rfl, h.1⟩, h.2⟩

theorem fits_putChild (h : v.takes seg) (hseg : seg.index? = none) : (v.putChild seg x).fits seg := by
  cases seg with
  | index => cases hseg
  | key => cases v with
    | arr => cases h
    | null | bool | num | str | obj => rfl

-- A part of a value after a write was there before, or it is the one that was written.
theorem fits_putChild_cases (h : v.takes seg) (hb : (v.putChild seg x).fits b)
    (hc : (v.putChild seg x).child? b = some c) : v.fits b ∧ v.child? b = some c ∧ seg.toKey ≠ b.toKey ∨
      seg.toKey = b.toKey ∧ c = x ∧ ∀ y, v.child? seg = some y → v.fits b ∧ v.child? b = some y := by
  have hold : ∀ {y}, v.child? b = some y → v.fits b := by
    intro y hy
    cases v with
    | obj => cases b with
      | key => rfl
      | index => cases hb
    | arr => cases b with
      | key => cases hy
      | index => exact decide_eq_true (List.getElem?_eq_some_iff.mp hy).1
    | null | bool | num | str => cases hy
  by_cases hk : seg.toKey = b.toKey
  · have hboth : (v.putChild seg x).child? b = (v.putChild seg x).child? seg ∧ v.child? b = v.child? seg := by
      cases v with
      | arr => cases seg with
        | key => cases h
        | index => cases b with
          | key => cases hb
          | index => rw [Seg.index_toKey_injective hk]; exact ⟨rfl, rfl⟩
      | null | bool | num | str | obj => simp [Value.putChild, child?, hk]
    rw [hboth.1, child?_putChild_self h] at hc
    cases hc
    exact .inr ⟨hk, rfl, fun y hy => ⟨hold (hboth.2.trans hy), hboth.2.trans hy⟩⟩
  · rw [child?_putChild_ne h hk] at hc
    exact .inl ⟨hold hc, hc, hk⟩

theorem has_setFrom_null (hq : ∀ seg ∈ q, seg.index? = none) (hp : (setFrom full x q .null).2.Has p) :
    q.covers p ∨ p.isAbove q ∧ ∃ fs, (setFrom full x q .null).2.get? p = some (.obj fs) := by
  induction q generalizing p with
  | nil => exact .inl (nil_covers p)
  | cons seg q ih =>
    obtain ⟨hseg, hrest⟩ := forall_mem_cons.mp hq
    rw [setFrom_cons rfl] at hp ⊢
    cases p with
    | nil => exact .inr ⟨nil_isAbove_cons, _, get?_nil _⟩
    | cons b p =>
      obtain ⟨hb, c, hc, hp⟩ := has_cons.mp hp
      rw [get?_cons_of_child? hc]
      rcases child?_putChild (v := .null) rfl b with hsame | ⟨hk, hnew, -⟩
      · rw [hsame] at hc
        cases hc
      · obtain rfl := eq_of_fits (fits_putChild (v := .null) rfl hseg) hb hk
        cases hnew.symm.trans hc
        exact cons_covers_or_above (ih hrest hp)

theorem has_setFrom_null_self (hq : ∀ seg ∈ q, seg.index? = none) : (setFrom full x q .null).2.Has q := by
  induction q with
  | nil => exact .here
  | cons seg q ih =>
    obtain ⟨hseg, hrest⟩ := forall_mem_cons.mp hq
    rw [setFrom_cons rfl]
    exact has_cons.mpr ⟨fits_putChild (v := .null) rfl hseg, _, child?_putChild_self (v := .null) rfl, ih hrest⟩

theorem has_putChild (hf : v.fits seg) (hp : x.Has p) : (v.putChild seg x).Has (seg :: p) :=
  has_cons.mpr ⟨(kin_putChild hf).fits ▸ hf, x, child?_putChild_self (takes_of_fits hf), hp⟩

theorem Room.has_self (h : v.Room q) : (setFrom full x q v).2.Has q := by
  induction q generalizing v with
  | nil => cases h
  | cons seg q ih =>
    obtain ⟨hf, h⟩ := room_cons.mp h
    rw [setFrom_cons (takes_of_fits hf)]
    refine has_putChild hf ?_
    rcases h with ⟨hn, hq⟩ | ⟨c, hc, h⟩
    · rw [hn]
      exact has_setFrom_null_self hq
    · rw [hc]
      exact ih h

-- What is new after a write is at or below its path, or an object above it.
theorem Room.has_setFrom (h : v.Room q) (hp : (setFrom full x q v).2.Has p) (hnew : ¬ v.Has p) :
    q.covers p ∨ p.isAbove q ∧ ∃ fs, (setFrom full x q v).2.get? p = some (.obj fs) := by
  induction q generalizing v p with
  | nil => cases h
  | cons seg q ih =>
    obtain ⟨hf, h⟩ := room_cons.mp h
    rw [setFrom_cons (takes_of_fits hf)] at hp ⊢
    cases p with
    | nil => exact absurd .here hnew
    | cons b p =>
      obtain ⟨hb, d, hd, hp⟩ := has_cons.mp hp
      rw [← (kin_putChild hf).fits] at hb
      rw [get?_cons_of_child? hd]
      rw [child?_putChild_of_fits hf hb] at hd
      split at hd
      · case isTrue he =>
        subst he
        cases hd
        refine cons_covers_or_above ?_
        rcases h with ⟨hn, hq⟩ | ⟨c, hc, h⟩
        · rw [hn] at hp ⊢
          exact has_setFrom_null hq hp
        · rw [hc] at hp ⊢
          exact ih h hp fun hp => hnew (has_cons.mpr ⟨hf, c, hc, hp⟩)
      · exact absurd (has_cons.mpr ⟨hb, d, hd, hp⟩) hnew

theorem Room.append (h : v.Has p) (hc : v.get? p = some c) (hq : c.Room q) : v.Room (p ++ q) := by
  induction p generalizing v with
  | nil => cases hc; exact hq
  | cons seg p ih =>
    obtain ⟨hf, d, hd, h⟩ := has_cons.mp h
    rw [get?_cons_of_child? hd] at hc
    exact room_cons.mpr ⟨hf, .inr ⟨d, hd, ih h hc⟩⟩

theorem room_of_keys (hk : ∀ seg ∈ q, seg.index? = none) (hnone : (Value.obj fs).get? q = none)
    (hb : ¬ (Value.obj fs).blocks q) : (Value.obj fs).Room q := by
  replace hb : ∀ a : Path, a ≠ [] → a.isAbove q → ∀ w, (Value.obj fs).get? a = some w → ∃ gs, w = .obj gs := by
    intro a ha haq w hw
    have := fun h => hb (any_eq_true.mpr ⟨a, mem_ancestors_iff.mpr ⟨ha, haq⟩, h⟩)
    rw [hw] at this
    cases w with
    | obj gs => exact ⟨gs, rfl⟩
    | arr | null | bool | num | str => exact absurd rfl this
  induction q generalizing fs with
  | nil => cases hnone
  | cons seg q ih =>
    obtain ⟨hseg, hq⟩ := forall_mem_cons.mp hk
    cases seg with
    | index i => cases hseg
    | key k =>
      cases hc : Entries.get? k fs with
      | none => exact .here hc hq
      | some c =>
        rw [get?_field hc] at hnone
        have hne : q ≠ [] := by
          rintro rfl
          cases hnone
        obtain ⟨gs, rfl⟩ := hb [.key k] (by simp) (isAbove_iff.mpr ⟨q, hne, rfl⟩) c
          (by rw [get?_field hc, get?_nil])
        refine .field hc (ih hq hnone fun a ha haq w hw => ?_)
        exact hb (.key k :: a) (by simp) (cons_isAbove_cons.mpr ⟨rfl, haq⟩) w (by rwa [get?_field hc])

-- Writing what will be there

theorem Has.keys (h : v.Has q) (hobj : ∀ a : Path, a.isAbove q → ∃ gs, v.get? a = some (.obj gs)) :
    ∀ seg ∈ q, seg.index? = none := by
  induction h with
  | here => simp
  | field hc _ ih =>
    refine forall_mem_cons.mpr ⟨rfl, ih fun a ha => ?_⟩
    have := hobj (_ :: a) (cons_isAbove_cons.mpr ⟨rfl, ha⟩)
    rwa [get?_field hc] at this
  | item =>
    obtain ⟨gs, hgs⟩ := hobj [] nil_isAbove_cons
    cases hgs

theorem setFrom_null_grows (hq : v.Has q) (hy : v.get? q = some y)
    (hobj : ∀ a : Path, a.isAbove q → ∃ gs, v.get? a = some (.obj gs)) : (setFrom full y q .null).2.Grows v := by
  induction q generalizing v with
  | nil => cases hy; exact .refl _
  | cons seg q ih =>
    obtain ⟨gs, ⟨⟩⟩ := hobj [] nil_isAbove_cons
    obtain ⟨hf, c, hc, hq⟩ := has_cons.mp hq
    rw [get?_cons_of_child? hc] at hy
    rw [setFrom_cons rfl]
    have hempty : (Value.obj []).Grows (.obj gs) := grows_obj fun k x hx => by cases hx
    refine hempty.putChild (hempty.kin.fits ▸ hf) hc (ih hq hy fun a ha => ?_)
    have := hobj (seg :: a) (cons_isAbove_cons.mpr ⟨rfl, ha⟩)
    rwa [get?_cons_of_child? hc] at this

theorem Grows.setFrom (h : v.Grows w) (hq : w.Has q) (hy : w.get? q = some y)
    (hobj : ∀ a : Path, a.isAbove q → ¬ v.Has a → ∃ gs, w.get? a = some (.obj gs)) :
    (setFrom full y q v).1 = .ok () ∧ (setFrom full y q v).2.Has q ∧
      v.Grows (setFrom full y q v).2 ∧ (setFrom full y q v).2.Grows w := by
  induction q generalizing v w with
  | nil =>
    cases hy
    rw [Value.setFrom]
    exact ⟨rfl, .here, h, .refl _⟩
  | cons seg q ih =>
    obtain ⟨hf, c, hc, hq⟩ := has_cons.mp hq
    rw [← h.kin.fits] at hf
    rw [get?_cons_of_child? hc] at hy
    have hbelow : ∀ a : Path, a.isAbove q → ¬ v.Has (seg :: a) → ∃ gs, c.get? a = some (.obj gs) := by
      intro a ha hn
      have := hobj (seg :: a) (cons_isAbove_cons.mpr ⟨rfl, ha⟩) hn
      rwa [get?_cons_of_child? hc] at this
    rw [setFrom_cons (takes_of_fits hf)]
    cases hk : v.child? seg with
    | some c₀ =>
      obtain ⟨y', hy', hg⟩ := h.child hk
      rw [hc] at hy'
      cases hy'
      obtain ⟨hok, hself, hgrows, hwithin⟩ := ih hg hq hy fun a ha hn => hbelow a ha fun hs => by
        obtain ⟨-, d, hd, hs⟩ := has_cons.mp hs
        rw [hk] at hd
        cases hd
        exact hn hs
      refine ⟨hok, has_putChild hf hself, grows_putChild hf fun x hx => ?_, h.putChild hf hc hwithin⟩
      rw [hk] at hx
      cases hx
      exact hgrows
    | none =>
      have hnone : ∀ {x}, v.child? seg ≠ some x := by simp [hk]
      have hobj : ∀ a : Path, a.isAbove q → ∃ gs, c.get? a = some (.obj gs) := fun a ha => hbelow a ha fun hs => by
        obtain ⟨-, _, hd, -⟩ := has_cons.mp hs
        exact hnone hd
      exact ⟨setFrom_scalar_ok rfl, has_putChild hf (has_setFrom_null_self (hq.keys hobj)),
        grows_putChild hf fun x hx => absurd hx hnone, h.putChild hf hc (setFrom_null_grows hq hy hobj)⟩

-- Grown up

theorem Grows.symm (h : v.Grows w) (hhas : ∀ p, w.Has p → v.Has p) : w.Grows v := by
  refine grows_of_has fun p x hp hx => ?_
  obtain ⟨y, hy⟩ := Option.isSome_iff_exists.mp (hhas p hp).isSome
  obtain ⟨x', hx', hk⟩ := h p y hy
  rw [hx] at hx'
  cases hx'
  exact ⟨y, hy, hk.symm⟩

theorem Kin.eq_of_children (hk : v.Kin w) (hv : v.Canonical) (hw : w.Canonical)
    (h : ∀ seg, v.child? seg = w.child? seg) : v = w := by
  cases hk with
  | same => rfl
  | arr => exact congrArg Value.arr (ext_getElem? fun i => h (.index i))
  | obj =>
    exact congrArg Value.obj (Entries.sorted_ext (hereditary_canonical.obj.mp hv).1 (hereditary_canonical.obj.mp hw).1
      fun k => h (.key k))

theorem Grows.antisymm (h : v.Grows w) (h' : w.Grows v) (hv : v.Canonical) (hw : w.Canonical) : v = w := by
  induction w using child_induction generalizing v with
  | h w ih =>
    refine h.kin.eq_of_children hv hw fun seg => Option.ext fun z => ?_
    have hsame : ∀ {x y}, v.child? seg = some x → w.child? seg = some y → x.Grows y → y.Grows x → x = y :=
      fun hx hy hxy hyx => ih seg _ hy hxy hyx (hereditary_canonical.child hv hx) (hereditary_canonical.child hw hy)
    constructor
    · intro hx
      obtain ⟨y, hy, hxy⟩ := h.child hx
      obtain ⟨x, hx', hyx⟩ := h'.child hy
      cases hx.symm.trans hx'
      rw [hy, hsame hx hy hxy hyx]
    · intro hy
      obtain ⟨x, hx, hyx⟩ := h'.child hy
      obtain ⟨y, hy', hxy⟩ := h.child hx
      cases hy.symm.trans hy'
      rw [hx, hsame hx hy hxy hyx]

end Value
end Dossier

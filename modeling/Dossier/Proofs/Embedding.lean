import Dossier.Proofs.Attach
import Dossier.Proofs.Growth

-- Attaching makes a scope for each embedded document in a value, and no others.

namespace Dossier

open Value List

-- Where embedded documents are

namespace FieldType

-- A document that is the value of a field, or an item of it: its place, its schema and its value.
inductive Holds : FieldType → Path → Option Value → Path → Schema → Value → Prop
  | embedded {sub : SubSchema} {root : Path} {fs : List (String × Value)} :
    Holds (.embedded sub) root (some (.obj fs)) root (sub.selectOrBase (some (.obj fs))) (.obj fs)
  | item {sub : SubSchema} {root : Path} {items : List Value} {i : Nat} {fs : List (String × Value)} :
    items[i]? = some (.obj fs) → Holds (.documentArray sub) root (some (.arr items)) (root.index i)
      (sub.selectOrBase (some (.obj fs))) (.obj fs)

-- An embedded document in the value of a field, also one inside others.
inductive Embeds : FieldType → Path → Option Value → Path → Schema → Value → Prop
  | here {t : FieldType} {root r : Path} {v : Option Value} {s : Schema} {w : Value} :
    t.Holds root v r s w → Embeds t root v r s w
  | inner {t : FieldType} {root r r' p : Path} {v : Option Value} {s s' : Schema} {w w' : Value} {f : Field} :
    t.Holds root v r s w → (p, f) ∈ s.fields → Embeds f.type (r ++ p) (w.get? p) r' s' w' →
      Embeds t root v r' s' w'

variable {t : FieldType} {root : Path}

theorem Holds.sub? (h : t.Holds root v r s w) : ∃ sub, t.sub? = some sub ∧ s = sub.selectOrBase (some w) := by
  cases h with
  | embedded | item => exact ⟨_, rfl, rfl⟩

theorem Holds.isSome (h : t.Holds root v r s w) : v.isSome := by
  cases h with
  | embedded | item => rfl

theorem Embeds.isSome (h : t.Embeds root v r s w) : v.isSome := by
  cases h with
  | here hh | inner hh => exact hh.isSome

theorem meets_sub (h : t.Meets law) (hs : t.sub? = some sub) : sub.Meets law := by
  cases t with
  | embedded => cases hs; exact Meets.sub (.inl h)
  | documentArray => cases hs; exact Meets.sub (.inr h)
  | string | number | boolean | date | id | mixed | array | map => cases hs

theorem Holds.meets (h : t.Holds root v r s w) (ht : t.Meets law) : s.Meets law := by
  obtain ⟨sub, hsub, rfl⟩ := h.sub?
  exact (meets_sub ht hsub).selectOrBase

theorem Embeds.meets (h : t.Embeds root v r s w) (ht : t.Meets law) : s.Meets law := by
  induction h with
  | here hh => exact hh.meets ht
  | inner hh hf _ ih => exact ih ((hh.meets ht).field hf).type

end FieldType

def Schema.Embeds (schema : Schema) (v : Value) (r : Path) (s : Schema) (w : Value) : Prop :=
  ∃ p f, (p, f) ∈ schema.fields ∧ f.type.Embeds p (v.get? p) r s w

section

variable {t : FieldType} {root : Path} {s schema : Schema}

theorem Schema.Meets.keyed (h : s.Meets .keyed) (hf : (p, f) ∈ s.fields) : p ≠ [] ∧ ∀ seg ∈ p, seg.index? = none :=
  h.paths p (mem_map_of_mem hf)

def Value.ObjectAt (v : Option Value) (root r : Path) (w : Value) : Prop :=
  ∃ q x, r = root ++ q ∧ v = some x ∧ x.Has q ∧ x.get? q = some w ∧ ∃ fs, w = .obj fs

theorem FieldType.Holds.objectAt (h : t.Holds root v r s w) : Value.ObjectAt v root r w := by
  cases h with
  | embedded => exact ⟨[], _, by simp, rfl, .here, get?_nil _, _, rfl⟩
  | item hi => exact ⟨_, _, rfl, rfl, .item hi .here, by rw [get?_item hi, get?_nil], _, rfl⟩

theorem FieldType.Embeds.objectAt (h : t.Embeds root v r s w) (ht : t.Meets .keyed) : Value.ObjectAt v root r w := by
  induction h with
  | here hh => exact hh.objectAt
  | @inner _ _ _ _ p _ _ _ _ _ _ hh hf _ ih =>
    have hs := hh.meets ht
    obtain ⟨q, x, rfl, rfl, hhas, hget, -⟩ := hh.objectAt
    obtain ⟨q', x', rfl, hx', hhas', hget', hobj⟩ := ih (hs.field hf).type
    have hp := has_of_keys (hs.keyed hf).2 (by rw [hx']; rfl)
    refine ⟨q ++ (p ++ q'), x, by simp, rfl, has_append.mpr ⟨hhas, _, hget, ?_⟩, ?_, hobj⟩
    · exact has_append.mpr ⟨hp, x', hx', hhas'⟩
    · rw [get?_append, hget, Option.bind_some, get?_append, hx', Option.bind_some, hget']

theorem Schema.Embeds.objectAt (h : schema.Embeds x r s w) (hs : schema.Meets .keyed) :
    x.Has r ∧ x.get? r = some w ∧ ∃ fs, w = .obj fs := by
  obtain ⟨p, f, hf, h⟩ := h
  obtain ⟨q, y, rfl, hy, hhas, hget, hobj⟩ := h.objectAt (hs.field hf).type
  have hp := has_of_keys (hs.keyed hf).2 (by rw [hy]; rfl)
  exact ⟨has_append.mpr ⟨hp, y, hy, hhas⟩, by rw [get?_append, hy, Option.bind_some, hget], hobj⟩

theorem Schema.Embeds.meets (h : schema.Embeds x r s w) (hs : schema.Meets law) : s.Meets law := by
  obtain ⟨p, f, hf, h⟩ := h
  exact h.meets (hs.field hf).type

end

-- The ways to embedded documents

theorem Cursor.foldl_embedded {p : Path} (hf : f.type = .embedded sub) (hp : p ≠ []) :
    p.foldl Cursor.step (.field f v) = p.foldl Cursor.step (.schema (sub.selectOrBase v) Path.root v) := by
  cases p with
  | nil => exact absurd rfl hp
  | cons seg p =>
    rw [foldl_cons, foldl_cons]
    simp only [Cursor.step, Cursor.stepField, hf]

section

variable {t : FieldType} {root : Path} {schema : Schema}

theorem FieldType.Holds.walk (h : t.Holds root v r s w) (ht : f.type = t) : ∃ q g sub, r = root ++ q ∧
    q.foldl Cursor.step (.field f v) = .field g (some w) ∧ g.type = .embedded sub ∧ s = sub.selectOrBase (some w) := by
  cases h with
  | embedded => exact ⟨[], f, _, by simp, rfl, ht, rfl⟩
  | @item sub _ items i fs hi =>
    refine ⟨[.index i], .ofSub sub, sub, rfl, ?_, rfl, rfl⟩
    simp only [foldl_cons, foldl_nil, Cursor.step, Cursor.stepField, ht, Seg.index?, Option.isSome_some,
      if_true, Option.bind_some, Value.child?, hi]

theorem FieldType.Embeds.walk (h : t.Embeds root v r s w) (ht : f.type = t) (hw : t.Meets .wellFormed) :
    ∃ q g sub, r = root ++ q ∧ q.foldl Cursor.step (.field f v) = .field g (some w) ∧ g.type = .embedded sub ∧
      s = sub.selectOrBase (some w) := by
  induction h generalizing f with
  | here hh => exact hh.walk ht
  | @inner _ _ _ _ p _ _ _ w _ _ hh hf _ ih =>
    have hs := hh.meets hw
    obtain ⟨q, g, sub, rfl, hq, hg, rfl⟩ := hh.walk ht
    obtain ⟨q', g', sub', rfl, hq', hg', rfl⟩ := ih rfl (hs.field hf).type
    refine ⟨q ++ (p ++ q'), g', sub', by simp, ?_, hg', rfl⟩
    have hp := (hs.declared hf).1
    rw [foldl_append, hq, foldl_append, Cursor.foldl_embedded hg hp, Schema.foldl_declared hs.apart hf,
      Option.bind_some, hq']

theorem FieldType.Embeds.covers (h : t.Embeds root v r s w) (hw : t.Meets .wellFormed) : root.covers r := by
  obtain ⟨q, -, -, rfl, -⟩ := h.walk (f := .plain t) rfl hw
  exact Path.covers_append root q

theorem FieldType.Embeds.unique (h : t.Embeds root v r s w) (h' : t.Embeds root v r s' w') (hw : t.Meets .wellFormed) :
    s = s' ∧ w = w' := by
  obtain ⟨q, g, sub, rfl, hq, hg, rfl⟩ := h.walk (f := .plain t) rfl hw
  obtain ⟨q', g', sub', hr, hq', hg', rfl⟩ := h'.walk (f := .plain t) rfl hw
  obtain rfl := append_cancel_left hr
  rw [hq] at hq'
  cases hq'
  rw [hg] at hg'
  cases hg'
  exact ⟨rfl, rfl⟩

theorem Schema.Embeds.resolve (h : schema.Embeds x r s w) (hw : schema.Meets .wellFormed) (hf : (p, f) ∈ s.fields) :
    schema.resolve x (r ++ p) = .field f := by
  have hs := h.meets hw
  obtain ⟨p₀, f₀, hf₀, h⟩ := h
  obtain ⟨q, g, sub, rfl, hq, hg, rfl⟩ := h.walk rfl (hw.field hf₀).type
  have hp := (hs.declared hf).1
  rw [Schema.resolve, foldl_append, foldl_append, Schema.foldl_declared hw.apart hf₀, Option.bind_some, hq,
    Cursor.foldl_embedded hg hp, Schema.foldl_declared hs.apart hf]
  rfl

end

-- Adding scopes

namespace Scopes

variable {s : Scopes}

inductive Adds (P : Scope → Prop) : Scopes → Scopes → Prop
  | none {s : Scopes} : Adds P s s
  | insert {s s' : Scopes} {scope : Scope} : P scope → Adds P (s.insert scope).2 s' → Adds P s s'

theorem Adds.trans (h : Adds P s s') (h' : Adds P s' s'') : Adds P s s'' := by
  induction h with
  | none => exact h'
  | insert hp _ ih => exact .insert hp (ih h')

theorem Adds.tidy (h : Adds P s s') (ht : s.Tidy) : s'.Tidy := by
  induction h with
  | none => exact ht
  | insert _ _ ih => exact ih ht.insert

theorem Adds.all (h : Adds P s s') (ht : s.Tidy) (hall : s.All Q) (hq : ∀ scope, P scope → Q scope) : s'.All Q := by
  induction h with
  | none => exact hall
  | insert hp _ ih => exact ih ht.insert (hall.insert ht (hq _ hp))

def At (P : Scope → Prop) (s : Scopes) (r : Path) : Prop :=
  ∃ k scope, s.keyAt? r = some k ∧ s.get? k = some scope ∧ scope.root = r ∧ P scope

theorem at_insert_self (ht : s.Tidy) (hp : P scope) : At P (s.insert scope).2 scope.root :=
  ⟨_, scope, by rw [keyAt?_insert, if_pos rfl], by rw [get?_insert ht, if_pos rfl], rfl, hp⟩

theorem At.insert_ne (h : At P s r) (ht : s.Tidy) (hr : scope.root ≠ r) : At P (s.insert scope).2 r := by
  obtain ⟨k, scope', hk, hs, hroot⟩ := h
  refine ⟨k, scope', by rw [keyAt?_insert, if_neg hr, hk], ?_, hroot⟩
  rw [get?_insert ht, if_neg, hs]
  rintro rfl
  rw [get?_insert_key ht] at hs
  cases hs

theorem At.insert (h : At P s r) (ht : s.Tidy) (hp : P scope) : At P (s.insert scope).2 r := by
  by_cases hr : scope.root = r
  · exact hr ▸ at_insert_self ht hp
  · exact h.insert_ne ht hr

theorem At.adds_ne (h : At P s r) (ht : s.Tidy) (ha : Adds Q s s') (hr : ∀ scope, Q scope → scope.root ≠ r) :
    At P s' r := by
  induction ha with
  | none => exact h
  | insert hq _ ih => exact ih (h.insert_ne ht (hr _ hq)) ht.insert

theorem At.adds (h : At P s r) (ht : s.Tidy) (ha : Adds P s s') : At P s' r := by
  induction ha with
  | none => exact h
  | insert hp _ ih => exact ih (h.insert ht hp) ht.insert

-- Scopes that fulfil a condition were added, and there are such scopes at certain roots.
structure Gains (P : Scope → Prop) (R : Path → Prop) (s s' : Scopes) : Prop where
  adds : Adds P s s'
  has  : ∀ r, R r → At P s' r

theorem gains_none (h : ∀ r, ¬ R r) : Gains P R s s :=
  ⟨.none, fun r hr => absurd hr (h r)⟩

theorem Gains.mono (h : Gains P R s s') (hR : ∀ r, R' r → R r) : Gains P R' s s' :=
  ⟨h.adds, fun r hr => h.has r (hR r hr)⟩

theorem Gains.trans (h : Gains P R s s') (h' : Gains P R' s' s'') (ht : s.Tidy) : Gains P (fun r => R r ∨ R' r) s s'' :=
  ⟨h.adds.trans h'.adds, fun r hr => hr.elim (fun hr => (h.has r hr).adds (h.adds.tidy ht) h'.adds) (h'.has r)⟩

theorem gains_forDocuments {attach : Scopes → Path → Value → Scopes} {R : Nat → Path → Prop}
    (h : ∀ s j fs, vs[j]? = some (.obj fs) → s.Tidy → Gains P (R (i + j)) s (attach s (root.index (i + j)) (.obj fs)))
    (ht : s.Tidy) :
    Gains P (fun r => ∃ j fs, vs[j]? = some (.obj fs) ∧ R (i + j) r) s (forDocuments attach root s i vs) := by
  induction vs generalizing s i with
  | nil => exact gains_none fun r => by simp
  | cons v vs ih =>
    have htail : ∀ s j fs, vs[j]? = some (.obj fs) → s.Tidy →
        Gains P (R (i + 1 + j)) s (attach s (root.index (i + 1 + j)) (.obj fs)) := by
      intro s j fs hj
      rw [Nat.add_right_comm i 1 j]
      exact h s (j + 1) fs hj
    rw [forDocuments]
    cases v with
    | obj gs =>
      have hhead := h s 0 gs rfl ht
      refine (hhead.trans (ih htail (hhead.adds.tidy ht)) ht).mono fun r => ?_
      rintro ⟨j, fs, hj, hr⟩
      cases j with
      | zero => exact .inl hr
      | succ j => exact .inr ⟨j, fs, hj, by rwa [Nat.add_right_comm i 1 j]⟩
    | arr | null | bool | num | str =>
      refine (ih htail ht).mono fun r => ?_
      rintro ⟨j, fs, hj, hr⟩
      cases j with
      | zero => cases hj
      | succ j => exact ⟨j, fs, hj, by rwa [Nat.add_right_comm i 1 j]⟩

end Scopes

-- Attaching

open Scopes

section

theorem Schema.attachFields_gains {fields : List (Path × Field)} {R : Path × Field → Path → Prop}
    (h : ∀ e ∈ fields, ∀ s, s.Tidy → Gains P (R e) s (e.2.attach parent origin (root ++ e.1) (value.get? e.1) s))
    (ht : s.Tidy) :
    Gains P (fun r => ∃ e ∈ fields, R e r) s (Schema.attachFields parent origin root value s fields) := by
  induction fields generalizing s with
  | nil =>
    rw [Schema.attachFields]
    exact gains_none fun r => by simp
  | cons e fields ih =>
    obtain ⟨hhead, htail⟩ := forall_mem_cons.mp h
    have hfirst := hhead s ht
    rw [Schema.attachFields]
    refine (hfirst.trans (ih htail (hfirst.adds.tidy ht)) ht).mono fun r => ?_
    rintro ⟨e', he', hr⟩
    rcases mem_cons.mp he' with rfl | he'
    · exact .inl hr
    · exact .inr ⟨e', he', hr⟩

theorem Schema.attach_gains {schema : Schema} {R : Path × Field → Path → Prop}
    (hfields : ∀ e ∈ schema.fields, ∀ parent s, s.Tidy →
      Gains P (R e) s (e.2.attach parent origin (root ++ e.1) (value.get? e.1) s))
    (hp : P (.made origin parent root schema value)) (ht : s.Tidy) :
    Gains P (fun r => r = root ∨ ∃ e ∈ schema.fields, R e r) s (schema.attach parent origin root value s) := by
  rw [Schema.attach_eq]
  have hself : Gains P (· = root) s (s.insert (.made origin parent root schema value)).2 :=
    ⟨.insert hp .none, fun r hr => by subst hr; exact at_insert_self ht hp⟩
  exact hself.trans (attachFields_gains (fun e he => hfields e he _) ht.insert) ht

namespace FieldType

variable {t : FieldType} {root : Path}

theorem Embeds.cases (h : t.Embeds root v r s w) : t.Holds root v r s w ∨ ∃ r' s' w', t.Holds root v r' s' w' ∧
    ∃ e ∈ s'.fields, e.2.type.Embeds (r' ++ e.1) (w'.get? e.1) r s w := by
  cases h with
  | here hh => exact .inl hh
  | inner hh hf he => exact .inr ⟨_, _, _, hh, _, hf, he⟩

theorem attach_gains (t : FieldType) {parent : Option ScopeKey} {v : Option Value} {s : Scopes}
    (hP : ∀ {r schema w parent}, t.Embeds root v r schema w → P (.made origin parent r schema w)) (ht : s.Tidy) :
    Gains P (fun r => ∃ schema w, t.Embeds root v r schema w) s (t.attach parent origin root v s) := by
  induction hn : sizeOf t using Nat.strongRecOn generalizing t parent root v s with
  | _ n ih =>
    -- A document that the value holds is attached with those in its fields.
    have hdoc : ∀ {sub r w s}, t.sub? = some sub → t.Holds root v r (sub.selectOrBase (some w)) w → s.Tidy →
        Gains P (fun r' => r' = r ∨ ∃ e ∈ (sub.selectOrBase (some w)).fields, ∃ schema' w',
          e.2.type.Embeds (r ++ e.1) (w.get? e.1) r' schema' w') s (sub.attach parent origin r w s) := by
      intro sub r w s hsub hh ht
      rw [SubSchema.attach_eq]
      refine Schema.attach_gains (fun e he parent s ht => ?_) (hP (.here hh)) ht
      rw [Field.attach_eq]
      exact ih _ (hn ▸ sizeOf_field hsub he) _ (fun h => hP (.inner hh he h)) ht rfl
    cases t with
    | embedded sub =>
      unfold FieldType.attach
      split
      · refine (hdoc rfl .embedded ht).mono fun r => ?_
        rintro ⟨schema, w, h⟩
        rcases h.cases with hh | ⟨_, _, _, hh, he⟩
        · cases hh; exact .inl rfl
        · cases hh
          obtain ⟨e, he, h⟩ := he
          exact .inr ⟨e, he, _, _, h⟩
      · case _ hv =>
        refine gains_none fun r => ?_
        rintro ⟨schema, w, h⟩
        rcases h.cases with hh | ⟨_, _, _, hh, -⟩ <;> cases hh <;> exact hv _ rfl
    | documentArray sub =>
      unfold FieldType.attach
      split
      · case _ items =>
        refine (gains_forDocuments (R := fun i r' => ∃ fs, items[i]? = some (.obj fs) ∧ (r' = root.index i ∨
          ∃ e ∈ (sub.selectOrBase (some (.obj fs))).fields, ∃ schema' w',
            e.2.type.Embeds (root.index i ++ e.1) ((Value.obj fs).get? e.1) r' schema' w')) (fun s j fs hj ht => ?_)
          ht).mono fun r => ?_
        · rw [Nat.zero_add]
          refine (hdoc rfl (.item hj) ht).mono fun r => ?_
          rintro ⟨fs', hj', hr⟩
          rw [hj] at hj'
          cases hj'
          exact hr
        · rintro ⟨schema, w, h⟩
          rcases h.cases with hh | ⟨_, _, _, hh, he⟩
          · cases hh with
            | item hi => exact ⟨_, _, hi, by rw [Nat.zero_add]; exact ⟨_, hi, .inl rfl⟩⟩
          · cases hh with
            | item hi =>
              obtain ⟨e, he, h⟩ := he
              exact ⟨_, _, hi, by rw [Nat.zero_add]; exact ⟨_, hi, .inr ⟨e, he, _, _, h⟩⟩⟩
      · case _ hv =>
        refine gains_none fun r => ?_
        rintro ⟨schema, w, h⟩
        rcases h.cases with hh | ⟨_, _, _, hh, -⟩ <;> cases hh <;> exact hv _ rfl
    | string | number | boolean | date | id | mixed | array | map =>
      simp only [FieldType.attach]
      refine gains_none fun r => ?_
      rintro ⟨schema, w, h⟩
      rcases h.cases with hh | ⟨_, _, _, hh, -⟩ <;> cases hh

end FieldType

theorem Scopes.attachField_gains {s : Scopes}
    (hP : ∀ {r schema w parent}, f.type.Embeds root v r schema w → P (.made origin parent r schema w)) (ht : s.Tidy) :
    Gains P (fun r => ∃ schema w, f.type.Embeds root v r schema w) s (s.attachField f root v parent origin) := by
  rw [attachField, Field.attach_eq]
  exact f.type.attach_gains hP ht

end

end Dossier

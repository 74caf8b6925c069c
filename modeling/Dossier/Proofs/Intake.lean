import Dossier.Proofs.Attended
import Dossier.Proofs.Filling

-- An object is given to a document key by key: values are cast and written to their fields, and groups of fields
-- are entered.

namespace Dossier

open Path Entries List

-- Lists of writes

theorem Path.distinct_keys {place : Path} (hkl : k ≠ l) (hp : (place.key k).covers p) (hq : (place.key l).covers q) :
    p.Distinct q := by
  obtain ⟨a, rfl⟩ := covers_iff.mp hp
  obtain ⟨b, rfl⟩ := covers_iff.mp hq
  simp [Distinct, key, Seg.toKey, hkl, Ne.symm hkl]

namespace Value

variable {v x : Value}

inductive Sets : Value → List (Path × Value) → Value → Prop
  | nil {v : Value} : Sets v [] v
  | cons {v v' w y : Value} {p : Path} {ws : List (Path × Value)} :
    v.set p y = (.ok (), v') → Sets v' ws w → Sets v ((p, y) :: ws) w

theorem Sets.append (h : Sets u ws v) (h' : Sets v ws' w) : Sets u (ws ++ ws') w := by
  induction h with
  | nil => exact h'
  | cons hset _ ih => exact .cons hset (ih h')

theorem Sets.split (h : Sets u (ws ++ ws') w) : ∃ v, Sets u ws v ∧ Sets v ws' w := by
  induction ws generalizing u with
  | nil => exact ⟨u, .nil, h⟩
  | cons a ws ih =>
    cases h with
    | cons hset h =>
      obtain ⟨v, hv, hv'⟩ := ih h
      exact ⟨v, .cons hset hv, hv'⟩

theorem Sets.get?_distinct (h : Sets v ws w) (hq : ∀ a ∈ ws, a.1.Distinct q) : w.get? q = v.get? q := by
  induction h with
  | nil => rfl
  | @cons v v' w y p ws hset _ ih =>
    obtain ⟨hp, hws⟩ := forall_mem_cons.mp hq
    have hv' : v' = (v.set p y).2 := by rw [hset]
    rw [ih hws, hv', get?_set_distinct hp]

theorem Sets.rec_on_writes {I : Value → Prop} (h : Sets v ws w) (hv : I v)
    (hstep : ∀ u u' p y, (p, y) ∈ ws → u.set p y = (.ok (), u') → I u → I u') : I w := by
  induction h with
  | nil => exact hv
  | @cons v v' w y p ws hset _ ih =>
    exact ih (hstep v v' p y mem_cons_self hset hv) fun u u' p y hm =>
      hstep u u' p y (mem_cons_of_mem _ hm)

theorem has_setFrom_keys {full : Path} (hq : ∀ seg ∈ q, seg.index? = none) (hp : (setFrom full y q v).2.Has p) :
    q.covers p ∨ (p.isAbove q ∧ ∃ fs, (setFrom full y q v).2.get? p = some (.obj fs)) ∨
      v.Has p ∧ (setFrom full y q v).2.get? p = v.get? p := by
  induction q generalizing v p with
  | nil => exact .inl (nil_covers p)
  | cons seg q ih =>
    obtain ⟨hseg, hrest⟩ := forall_mem_cons.mp hq
    cases ht : v.takes seg with
    | false =>
      obtain ⟨e, he⟩ := setFrom_refused full y q ht
      rw [he] at hp ⊢
      exact .inr (.inr ⟨hp, rfl⟩)
    | true =>
      rw [setFrom_cons ht] at hp ⊢
      have hfits := fits_putChild (x := (setFrom full y q ((v.child? seg).getD .null)).2) ht hseg
      cases p with
      | nil =>
        obtain ⟨fs, hfs⟩ := object_of_fits hfits hseg
        exact .inr (.inl ⟨nil_isAbove_cons, fs, by rw [get?_nil, hfs]⟩)
      | cons b p =>
        obtain ⟨hb, c, hc, hin⟩ := has_cons.mp hp
        rw [get?_cons_of_child? hc]
        rcases fits_putChild_cases ht hb hc with ⟨hb', hc', -⟩ | ⟨hk, rfl, hold⟩
        · exact .inr (.inr ⟨has_cons.mpr ⟨hb', c, hc', hin⟩, (get?_cons_of_child? hc').symm⟩)
        · obtain rfl := eq_of_fits hfits hb hk
          cases hx : v.child? seg with
          | none =>
            rw [hx] at hin
            exact (cons_covers_or_above (has_setFrom_null hrest hin)).imp_right .inl
          | some x =>
            rw [hx] at hin
            rcases ih hrest hin with h | h | ⟨h, hget⟩
            · exact .inl (cons_covers_cons.mpr ⟨rfl, h⟩)
            · exact .inr (.inl ⟨cons_isAbove_cons.mpr ⟨rfl, h.1⟩, h.2⟩)
            · exact .inr (.inr ⟨has_cons.mpr ⟨(hold x hx).1, x, hx, h⟩, hget.trans (get?_cons_of_child? hx).symm⟩)

theorem set_self (h : v.set p y = (.ok (), w)) : w.get? p = some y := by
  have hok : (v.set p y).1 = .ok () := by rw [h]
  have := get?_setFrom_self hok
  rwa [show (setFrom p y p v).2 = w from congrArg Prod.snd h] at this

end Value

-- The writes that give the keys of an object, which is at a place, to a document: fields are cast, groups are
-- entered. If it is said so they are opened with an empty object first, and everything has to be declared;
-- otherwise what is not declared is kept or dropped.
inductive Schema.Writes (s : Schema) (opens : Bool) : List (String × Value) → Path → List (Path × Value) → Prop
  | nil {place : Path} : Writes s opens [] place []
  | field {place : Path} {k : String} {v y : Value} {f : Field} {rest : List (String × Value)}
      {ws : List (Path × Value)} : (place.key k, f) ∈ s.fields → f.cast? v = some y → Writes s opens rest place ws →
    Writes s opens ((k, v) :: rest) place ((place.key k, y) :: ws)
  | group {place : Path} {k : String} {inner rest : List (String × Value)} {ws' ws : List (Path × Value)} :
    s.isNested (place.key k) → Writes s opens inner (place.key k) ws' → Writes s opens rest place ws →
    Writes s opens ((k, .obj inner) :: rest) place
      ((if opens then [(place.key k, .obj [])] else []) ++ ws' ++ ws)
  | empty {place : Path} {k : String} {rest : List (String × Value)} {ws : List (Path × Value)} :
    s.isNested (place.key k) → Writes s opens rest place ws →
    Writes s opens ((k, .null) :: rest) place ((place.key k, .null) :: ws)
  | kept {place : Path} {k : String} {v : Value} {rest : List (String × Value)} {ws : List (Path × Value)} :
    opens = false → s.field? (place.key k) = none → ¬ s.isNested (place.key k) → Writes s opens rest place ws →
    Writes s opens ((k, v) :: rest) place ((place.key k, v) :: ws)
  | dropped {place : Path} {k : String} {v : Value} {rest : List (String × Value)} {ws : List (Path × Value)} :
    opens = false → s.field? (place.key k) = none → ¬ s.isNested (place.key k) → Writes s opens rest place ws →
    Writes s opens ((k, v) :: rest) place ws

namespace Schema.Writes

open Value

variable {s : Schema} {fields : List (String × Value)} {place : Path} {x : Value}

theorem covers (h : s.Writes opens fields place ws) : ∀ a ∈ ws, ∃ k ∈ fields.map (·.1), (place.key k).covers a.1 := by
  induction h with
  | nil => simp
  | field _ _ _ ih | empty _ _ ih | kept _ _ _ _ ih =>
    refine forall_mem_cons.mpr ⟨⟨_, mem_cons_self, covers_refl _⟩, fun a ha => ?_⟩
    obtain ⟨k, hk, hc⟩ := ih a ha
    exact ⟨k, mem_cons_of_mem _ hk, hc⟩
  | dropped _ _ _ _ ih =>
    intro a ha
    obtain ⟨k, hk, hc⟩ := ih a ha
    exact ⟨k, mem_cons_of_mem _ hk, hc⟩
  | @group place k _ _ _ _ _ _ _ ih' ih =>
    intro a ha
    rcases mem_append.mp ha with ha | ha
    · refine ⟨k, mem_cons_self, ?_⟩
      rcases mem_append.mp ha with ha | ha
      · split at ha
        · obtain rfl := mem_singleton.mp ha
          exact covers_refl _
        · cases ha
      · obtain ⟨l, -, hc⟩ := ih' a ha
        exact covers_trans (covers_append _ _) hc
    · obtain ⟨l, hl, hc⟩ := ih a ha
      exact ⟨l, mem_cons_of_mem _ hl, hc⟩

theorem distinct (h : s.Writes opens fields place ws) (hk : Entries.get? k fields = none)
    (hq : (place.key k).covers q) : ∀ a ∈ ws, a.1.Distinct q := by
  intro a ha
  obtain ⟨l, hl, hc⟩ := h.covers a ha
  obtain ⟨e, he, rfl⟩ := mem_map.mp hl
  refine distinct_keys ?_ hc hq
  rintro rfl
  exact get?_eq_none_iff.mp hk e he rfl

end Schema.Writes

namespace Schema

variable {s : Schema}

section

variable (hw : s.Meets .wellFormed) (hf : (p, f) ∈ s.fields)

include hw hf

theorem not_isNested_of_mem : ¬ s.isNested p := by
  intro hn
  obtain ⟨e, he, ha⟩ := any_eq_true.mp (Bool.and_eq_true_iff.mp hn).2
  have := field?_eq_none_of_isAbove hw.apart he ha
  rw [field?_of_mem hw.apart hf] at this
  cases this

theorem eq_of_covers_declared (hg : (q, g) ∈ s.fields) (hc : p.covers q) : p = q := by
  by_contra hne
  exact (apart_of_mem hw hf hg hne).1 hc

theorem eq_nil_of_covers_declared {t : Path} (ht : ∃ e ∈ s.fields, (p ++ t).covers e.1) : t = [] := by
  obtain ⟨e, he, hcov⟩ := ht
  obtain ⟨r, hr⟩ := covers_iff.mp hcov
  rw [← eq_of_covers_declared hw hf he (covers_trans (covers_append _ t) hcov)] at hr
  have hnil : t = [] ∧ r = [] := by simpa using hr
  exact hnil.1

end

theorem undeclared {place : Path} (hw : s.Meets .wellFormed) (hf : s.field? (place.key k) = none)
    (hn : ¬ s.isNested (place.key k)) : ¬ ∃ e ∈ s.fields, (place.key k ++ t).covers e.1 := by
  rintro ⟨e, he, hcov⟩
  rcases eq_or_isAbove_of_covers (covers_trans (covers_append _ t) hcov) with heq | ha
  · rw [heq, field?_of_mem hw.apart he] at hf
    cases hf
  · exact hn (isNested_of_isAbove he ha (by simp [Path.key]))

-- What a document has at a path of its schema after a value was given to it there.
structure Lands (s : Schema) (p : Path) (x : Value) (o : Option Value) : Prop where
  field : ∀ f, (p, f) ∈ s.fields → ∃ y, f.cast? x = some y ∧ o = some y
  group : s.isNested p → (∃ gs, x = .obj gs) ∨ x = .null ∧ o = some .null

end Schema

namespace Schema.Writes

open Value

variable {s : Schema} {fields : List (String × Value)} {place : Path} {v x : Value} {k : String}

theorem canonical_tail {e : String × Value} (h : (Value.obj (e :: rest)).Canonical) :
    (Value.obj rest).Canonical ∧ e.2.Canonical ∧ Entries.get? e.1 rest = none := by
  obtain ⟨hsorted, hparts⟩ := hereditary_canonical.obj.mp h
  obtain ⟨he, hrest⟩ := forall_mem_cons.mp hparts
  exact ⟨hereditary_canonical.obj.mpr ⟨hsorted.tail, hrest⟩, he, Entries.Sorted.get?_tail hsorted⟩

theorem first_or_rest (h : Entries.get? k ((l, x) :: rest) = some v) :
    l = k ∧ x = v ∨ Entries.get? k rest = some v := by
  by_cases hk : l = k
  · subst hk
    rw [get?_cons_self] at h
    cases h
    exact .inl ⟨rfl, rfl⟩
  · exact .inr ((get?_cons_ne hk).symm.trans h)

theorem get?_after (h : s.Writes opens fields place ws) (hsets : Sets out ws out') (hk : Entries.get? k fields = none) :
    out'.get? (place.key k ++ t) = out.get? (place.key k ++ t) :=
  hsets.get?_distinct (h.distinct hk (covers_append _ t))

theorem get?_key_after (h : s.Writes opens fields place ws) (hsets : Sets out ws out')
    (hk : Entries.get? k fields = none) : out'.get? (place.key k) = out.get? (place.key k) :=
  hsets.get?_distinct (h.distinct hk (covers_refl _))

-- Whatever is declared at or below a path, its value arrives there.
theorem lands (hw : s.Meets .wellFormed) (h : s.Writes opens fields place ws) (hsets : Sets out ws out')
    (hc : (Value.obj fields).Canonical) (hp : ∃ e ∈ s.fields, (place.key k ++ t).covers e.1)
    (hk : Entries.get? k fields = some v) (hx : v.get? t = some x) :
    s.Lands (place.key k ++ t) x (out'.get? (place.key k ++ t)) := by
  induction h generalizing out out' t k v with
  | nil => cases hk
  | @field place k₁ v₁ y₁ f₁ rest ws hf hy hrest ih =>
    obtain ⟨hc, -, hnone⟩ := canonical_tail hc
    cases hsets with
    | cons hset hsets =>
      rcases first_or_rest hk with ⟨rfl, rfl⟩ | hk
      · obtain rfl := eq_nil_of_covers_declared hw hf hp
        cases hx
        rw [hrest.get?_after hsets hnone, append_nil]
        refine ⟨fun f hf' => ⟨y₁, ?_, set_self hset⟩, fun hn => absurd hn (not_isNested_of_mem hw hf)⟩
        have hff := field?_of_mem hw.apart hf
        rw [field?_of_mem hw.apart hf'] at hff
        cases hff
        exact hy
      · exact ih hsets hc hp hk hx
  | @group place k₁ inner rest ws' ws hn hinner hrest ih' ih =>
    obtain ⟨hc, hcinner, hnone⟩ := canonical_tail hc
    obtain ⟨u, hsets', hsets⟩ := hsets.split
    obtain ⟨u', -, hsets'⟩ := hsets'.split
    rcases first_or_rest hk with ⟨rfl, rfl⟩ | hk
    · rw [hrest.get?_after hsets hnone]
      cases t with
      | nil =>
        cases hx
        rw [append_nil]
        exact ⟨fun f hf => absurd hn (not_isNested_of_mem hw hf), fun _ => .inl ⟨inner, rfl⟩⟩
      | cons seg t =>
        obtain ⟨e, he, hcov⟩ := hp
        have hseg : seg.index? = none := by
          obtain ⟨r, hr⟩ := covers_iff.mp hcov
          exact (hw.declared he).2.2 seg (by rw [hr]; simp)
        cases seg with
        | index => cases hseg
        | key l =>
          rw [get?_cons_of_openFields rfl] at hx
          obtain ⟨v', hv', hx⟩ := Option.bind_eq_some_iff.mp hx
          have hpath : place.key k₁ ++ .key l :: t = (place.key k₁).key l ++ t := by simp [Path.key]
          rw [hpath] at hcov ⊢
          exact ih' hsets' hcinner ⟨e, he, hcov⟩ hv' hx
    · exact ih hsets hc hp hk hx
  | @empty place k₁ rest ws hn hrest ih =>
    obtain ⟨hc, -, hnone⟩ := canonical_tail hc
    cases hsets with
    | cons hset hsets =>
      rcases first_or_rest hk with ⟨rfl, rfl⟩ | hk
      · cases t with
        | cons => cases hx
        | nil =>
          cases hx
          rw [hrest.get?_after hsets hnone, append_nil]
          exact ⟨fun f hf => absurd hn (not_isNested_of_mem hw hf), fun _ => .inr ⟨rfl, set_self hset⟩⟩
      · exact ih hsets hc hp hk hx
  | @kept place k₁ v₁ rest ws _ hnf hnn hrest ih =>
    cases hsets with
    | cons hset hsets =>
      rcases first_or_rest hk with ⟨rfl, rfl⟩ | hk
      · exact absurd hp (undeclared hw hnf hnn)
      · exact ih hsets (canonical_tail hc).1 hp hk hx
  | @dropped place k₁ v₁ rest ws _ hnf hnn hrest ih =>
    rcases first_or_rest hk with ⟨rfl, rfl⟩ | hk
    · exact absurd hp (undeclared hw hnf hnn)
    · exact ih hsets (canonical_tail hc).1 hp hk hx

theorem given {entries : List (String × Value)} (h : s.Writes opens fields place ws)
    (hc : (Value.obj fields).Canonical) (hplace : v.Has place) (hkeys : ∀ seg ∈ place, seg.index? = none)
    (hentries : v.get? place = some (.obj entries)) (hfields : ∀ e ∈ fields, Entries.get? e.1 entries = some e.2) :
    ∀ a ∈ ws, a.1 ≠ [] ∧ (∀ seg ∈ a.1, seg.index? = none) ∧ v.Has a.1 ∧ ∃ x, v.get? a.1 = some x ∧
      ((∃ f, (a.1, f) ∈ s.fields) ∨ a.2 = x ∨ a.2 = .obj [] ∧ ∃ gs, x = .obj gs) := by
  -- What is under a key of the object is at the path of the key.
  have hat : ∀ {place : Path} {entries : List (String × Value)} {k : String} {x : Value}, v.Has place →
      (∀ seg ∈ place, seg.index? = none) → v.get? place = some (.obj entries) → Entries.get? k entries = some x →
      place.key k ≠ [] ∧ (∀ seg ∈ place.key k, seg.index? = none) ∧ v.Has (place.key k) ∧
        v.get? (place.key k) = some x := by
    intro place entries k x hplace hkeys hentries hk
    refine ⟨by simp [Path.key], fun seg hseg => ?_, has_append.mpr ⟨hplace, _, hentries, .field hk .here⟩, ?_⟩
    · rcases mem_append.mp hseg with hseg | hseg
      · exact hkeys seg hseg
      · obtain rfl := mem_singleton.mp hseg
        rfl
    · rw [Path.key, get?_append, hentries, Option.bind_some, get?_field hk, get?_nil]
  induction h generalizing entries with
  | nil => simp
  | field hf _ _ ih =>
    obtain ⟨hk, hrest⟩ := forall_mem_cons.mp hfields
    obtain ⟨hne, hkeyed, hhas, hx⟩ := hat hplace hkeys hentries hk
    exact forall_mem_cons.mpr ⟨⟨hne, hkeyed, hhas, _, hx, .inl ⟨_, hf⟩⟩,
      ih (canonical_tail hc).1 hplace hkeys hentries hrest⟩
  | empty _ _ ih | kept _ _ _ _ ih =>
    obtain ⟨hk, hrest⟩ := forall_mem_cons.mp hfields
    obtain ⟨hne, hkeyed, hhas, hx⟩ := hat hplace hkeys hentries hk
    exact forall_mem_cons.mpr ⟨⟨hne, hkeyed, hhas, _, hx, .inr (.inl rfl)⟩,
      ih (canonical_tail hc).1 hplace hkeys hentries hrest⟩
  | dropped _ _ _ _ ih => exact ih (canonical_tail hc).1 hplace hkeys hentries (forall_mem_cons.mp hfields).2
  | @group place k inner rest ws' ws hn _ _ ih' ih =>
    obtain ⟨hk, hrest⟩ := forall_mem_cons.mp hfields
    obtain ⟨hne, hkeyed, hhas, hx⟩ := hat hplace hkeys hentries hk
    intro a ha
    rcases mem_append.mp ha with ha | ha
    · rcases mem_append.mp ha with ha | ha
      · split at ha
        · obtain rfl := mem_singleton.mp ha
          exact ⟨hne, hkeyed, hhas, _, hx, .inr (.inr ⟨rfl, inner, rfl⟩)⟩
        · cases ha
      · have hcinner := (canonical_tail hc).2.1
        exact ih' hcinner hhas hkeyed hx (fun e he =>
          get?_of_mem (hereditary_canonical.obj.mp hcinner).1 he) a ha
    · exact ih (canonical_tail hc).1 hplace hkeys hentries hrest a ha

theorem canonical (h : s.Writes opens fields place ws) (hp : s.Meets .passive) (hc : (Value.obj fields).Canonical) :
    ∀ a ∈ ws, a.2.Canonical := by
  induction h with
  | nil => simp
  | field hf hy _ ih =>
    obtain ⟨hrest, hv, -⟩ := canonical_tail hc
    exact forall_mem_cons.mpr ⟨Field.canonical_cast? (hp.field hf) hv hy, ih hrest⟩
  | empty _ _ ih => exact forall_mem_cons.mpr ⟨trivial, ih (canonical_tail hc).1⟩
  | kept _ _ _ _ ih => exact forall_mem_cons.mpr ⟨(canonical_tail hc).2.1, ih (canonical_tail hc).1⟩
  | dropped _ _ _ _ ih => exact ih (canonical_tail hc).1
  | group _ _ _ ih' ih =>
    obtain ⟨hrest, hinner, -⟩ := canonical_tail hc
    refine forall_mem_append.mpr ⟨forall_mem_append.mpr ⟨fun a ha => ?_, ih' hinner⟩, ih hrest⟩
    split at ha
    · obtain rfl := mem_singleton.mp ha
      exact hereditary_canonical.obj.mpr ⟨.nil, by simp⟩
    · cases ha

end Schema.Writes

namespace Value

variable {u : Value}

theorem object_set {q : Path} (hu : u.get? p = some (.obj gs)) (hq : q ≠ []) (hset : u.set (p ++ q) y = (.ok (), w)) :
    ∃ gs', w.get? p = some (.obj gs') := by
  have hok : (setFrom (p ++ q) y (p ++ q) u).1 = .ok () := congrArg Prod.fst hset
  have hget := get?_setFrom_append hok
  rw [show (setFrom (p ++ q) y (p ++ q) u).2 = w from congrArg Prod.snd hset, hu] at hget
  cases q with
  | nil => exact absurd rfl hq
  | cons seg q =>
    rw [Option.getD_some, setFrom_cons_of_openFields rfl] at hget
    exact ⟨_, hget⟩

end Value

namespace Schema.Writes

open Value

variable {s : Schema} {fields : List (String × Value)} {place : Path} {raw : Value}

-- If casts only let values grow, a document that opens groups has all that was given to it.
theorem grows (h : s.Writes true fields place ws) (hsets : Sets out ws out') (hc : (Value.obj fields).Canonical)
    (hgiven : ∀ e ∈ fields, raw.get? (place.key e.1) = some e.2)
    (hgrow : ∀ e ∈ s.fields, ∀ x y, raw.get? e.1 = some x → e.2.cast? x = some y → x.Grows y) :
    ∀ k x, Entries.get? k fields = some x → ∃ y, out'.get? (place.key k) = some y ∧ x.Grows y := by
  induction h generalizing out out' with
  | nil =>
    intro k x hk
    cases hk
  | @field place k₁ v₁ y₁ f₁ rest ws hf hy hrest ih =>
    intro k x hk
    obtain ⟨hc, -, hnone⟩ := canonical_tail hc
    obtain ⟨hx, hgiven⟩ := forall_mem_cons.mp hgiven
    cases hsets with
    | cons hset hsets =>
      rcases first_or_rest hk with ⟨rfl, rfl⟩ | hk
      · have hafter := hrest.get?_key_after hsets hnone
        exact ⟨y₁, by rw [hafter, set_self hset], hgrow _ hf _ _ hx hy⟩
      · exact ih hsets hc hgiven k x hk
  | @group place k₁ inner rest ws' ws hn hinner hrest ih' ih =>
    intro k x hk
    obtain ⟨hc, hcinner, hnone⟩ := canonical_tail hc
    obtain ⟨hx, hgiven⟩ := forall_mem_cons.mp hgiven
    obtain ⟨u, hsets', hsets⟩ := hsets.split
    rcases first_or_rest hk with ⟨rfl, rfl⟩ | hk
    · have hafter := hrest.get?_key_after hsets hnone
      cases hsets' with
      | @cons _ u₀ _ _ _ _ hset hsets' =>
        obtain ⟨gs, hgs⟩ : ∃ gs, u.get? (place.key k₁) = some (.obj gs) := by
          refine hsets'.rec_on_writes (I := fun u => ∃ gs, u.get? (place.key k₁) = some (.obj gs)) ⟨[], set_self hset⟩ ?_
          rintro u u' p y hm hset ⟨gs, hgs⟩
          obtain ⟨l, -, hcov⟩ := hinner.covers _ hm
          obtain ⟨r, rfl⟩ := covers_iff.mp hcov
          rw [Path.key, append_assoc] at hset
          exact object_set hgs (by simp) hset
        have hinside : ∀ e ∈ inner, raw.get? ((place.key k₁).key e.1) = some e.2 := fun e he => by
          rw [Path.key, get?_append, hx, Option.bind_some,
            get?_field (get?_of_mem (hereditary_canonical.obj.mp hcinner).1 he), get?_nil]
        refine ⟨_, by rw [hafter, hgs], grows_obj fun l z hz => ?_⟩
        obtain ⟨y, hy, hzy⟩ := ih' hsets' hcinner hinside l z hz
        rw [Path.key, get?_append, hgs, Option.bind_some, get?_cons_of_openFields rfl] at hy
        obtain ⟨y', hy', hyy⟩ := Option.bind_eq_some_iff.mp hy
        cases hyy
        exact ⟨y, hy', hzy⟩
    · exact ih hsets hc hgiven k x hk
  | @empty place k₁ rest ws hn hrest ih =>
    intro k x hk
    obtain ⟨hc, -, hnone⟩ := canonical_tail hc
    obtain ⟨hx, hgiven⟩ := forall_mem_cons.mp hgiven
    cases hsets with
    | cons hset hsets =>
      rcases first_or_rest hk with ⟨rfl, rfl⟩ | hk
      · have hafter := hrest.get?_key_after hsets hnone
        exact ⟨_, by rw [hafter, set_self hset], .refl _⟩
      · exact ih hsets hc hgiven k x hk
  | kept h | dropped h => cases h

end Schema.Writes

-- Taking an object

namespace Schema

open Value

variable {s : Schema} {fields : List (String × Value)}

-- All that a document has belongs to the value of a field that was given, or is of a kind with what was given.
def Within (s : Schema) (v out : Value) : Prop :=
  ∀ p, out.Has p → (∃ e ∈ s.fields, (v.get? e.1).isSome ∧ e.1.covers p) ∨
    v.Has p ∧ ∃ x z, v.get? p = some x ∧ out.get? p = some z ∧ z.Kin x

theorem Within.set (h : s.Within v u) (hset : u.set q y = (.ok (), u')) (hkeys : ∀ seg ∈ q, seg.index? = none)
    (hq : v.Has q) (hx : v.get? q = some x) (hy : (∃ f, (q, f) ∈ s.fields) ∨ y = x ∨ y = .obj [] ∧ ∃ gs, x = .obj gs) :
    s.Within v u' := by
  intro p hp
  have hu' : u' = (setFrom q y q u).2 := (congrArg Prod.snd hset).symm
  rw [hu'] at hp
  rcases has_setFrom_keys hkeys hp with hcov | ⟨ha, gs, hgs⟩ | ⟨hold, hsame⟩
  all_goals rw [← hu'] at hp
  · -- The value itself was declared, or given as it is.
    obtain ⟨t, rfl⟩ := covers_iff.mp hcov
    obtain ⟨-, z, hz, ht⟩ := has_append.mp hp
    rw [set_self hset] at hz
    cases hz
    have hself : u'.get? (q ++ t) = y.get? t := by rw [get?_append, set_self hset, Option.bind_some]
    rcases hy with ⟨f, hf⟩ | rfl | ⟨rfl, gs, rfl⟩
    · exact .inl ⟨_, hf, by rw [hx]; rfl, hcov⟩
    · obtain ⟨z, hz⟩ := Option.isSome_iff_exists.mp ht.isSome
      exact .inr ⟨has_append.mpr ⟨hq, _, hx, ht⟩, z, z, by rw [get?_append, hx, Option.bind_some, hz],
        by rw [hself, hz], .same⟩
    · cases ht with
      | here =>
        rw [append_nil, get?_nil] at *
        exact .inr ⟨hq, _, _, hx, hself, .obj⟩
      | field hk => cases hk
  · -- Objects lead to what was given.
    have hp' := hq.of_covers (covers_of_isAbove ha)
    obtain ⟨r, hr, rfl⟩ := isAbove_iff.mp ha
    obtain ⟨-, z, hz, hzr⟩ := has_append.mp hq
    obtain ⟨fs, rfl⟩ : ∃ fs, z = .obj fs := by
      cases hzr with
      | here => exact absurd rfl hr
      | field => exact ⟨_, rfl⟩
      | @item _ i => cases hkeys (.index i) (by simp)
    exact .inr ⟨hp', _, _, hz, hu' ▸ hgs, .obj⟩
  · rcases h p hold with hdeclared | ⟨hv, x, z, hx, hz, hkin⟩
    · exact .inl hdeclared
    · exact .inr ⟨hv, x, z, hx, by rw [hu', hsame, hz], hkin⟩

theorem within_of_writes (h : s.Writes opens fields [] ws) (hc : (Value.obj fields).Canonical)
    (hsets : Sets (.obj []) ws out) : s.Within (.obj fields) out := by
  have hgiven := h.given hc .here (by simp) (get?_nil _) fun e he =>
    get?_of_mem (hereditary_canonical.obj.mp hc).1 he
  refine hsets.rec_on_writes (I := s.Within (.obj fields)) (fun p hp => ?_) fun u u' q y hm hset hu => ?_
  · cases hp with
    | here => exact .inr ⟨.here, _, _, get?_nil _, get?_nil _, .obj⟩
    | field hk => cases hk
  · obtain ⟨-, hkeys, hhas, x, hx, hy⟩ := hgiven _ hm
    exact hu.set hset hkeys hhas hx hy

-- A document has taken what an object has for its schema.
structure Takes (s : Schema) (v out : Value) : Prop where
  given  : ∃ fs, v = .obj fs
  object : ∃ fs, out = .obj fs
  lands  : ∀ (p : Path) x, p ≠ [] → (∃ e ∈ s.fields, p.covers e.1) → v.get? p = some x → s.Lands p x (out.get? p)
  within : s.Within v out

theorem takes_of_writes (hw : s.Meets .wellFormed) (h : s.Writes opens fields [] ws)
    (hc : (Value.obj fields).Canonical) (hsets : Sets (.obj []) ws out) : s.Takes (.obj fields) out where
  given := ⟨fields, rfl⟩
  object := by
    have hgiven := h.given hc .here (by simp) (get?_nil _) fun e he =>
      get?_of_mem (hereditary_canonical.obj.mp hc).1 he
    refine hsets.rec_on_writes (I := fun out => ∃ fs, out = .obj fs) ⟨[], rfl⟩ fun u u' q y hm hset hu => ?_
    obtain ⟨fs, rfl⟩ := hu
    have hobj : ∃ gs, ((Value.obj fs).set q y).2 = .obj gs := set_object (hgiven _ hm).1
    rwa [hset] at hobj
  lands p x hne hp hx := by
    obtain ⟨e, he, hcov⟩ := hp
    cases p with
    | nil => exact absurd rfl hne
    | cons seg t =>
      have hseg : seg.index? = none := by
        obtain ⟨r, hr⟩ := covers_iff.mp hcov
        exact (hw.declared he).2.2 seg (by rw [hr]; simp)
      cases seg with
      | index => cases hseg
      | key k =>
        rw [get?_cons_of_openFields rfl] at hx
        obtain ⟨v, hv, hx⟩ := Option.bind_eq_some_iff.mp hx
        exact h.lands hw hsets hc ⟨e, he, hcov⟩ hv hx
  within := within_of_writes h hc hsets

namespace Takes

theorem cast (h : s.Takes v out) (hw : s.Meets .wellFormed) (hf : (p, f) ∈ s.fields) (hx : v.get? p = some x) :
    ∃ y, f.cast? x = some y ∧ out.get? p = some y :=
  (h.lands p x (hw.declared hf).1 ⟨_, hf, covers_refl p⟩ hx).field f hf

theorem room_iff (h : s.Takes v out) (hw : s.Meets .wellFormed) (hf : (p, f) ∈ s.fields) : out.Room p ↔ v.Room p := by
  obtain ⟨fs, rfl⟩ := h.given
  obtain ⟨gs, rfl⟩ := h.object
  have hkeys := (hw.declared hf).2.2
  have hup : ∀ {a : Path}, a.isAbove p → ∀ seg ∈ a, seg.index? = none := fun ha seg hseg => by
    obtain ⟨r, -, hr⟩ := isAbove_iff.mp ha
    exact hkeys seg (by rw [hr]; exact mem_append_left _ hseg)
  constructor
  · intro hroom
    refine room_of_keys hkeys ?_ fun hb => ?_
    · cases hx : (Value.obj fs).get? p with
      | none => rfl
      | some x =>
        obtain ⟨y, -, hy⟩ := h.cast hw hf hx
        rw [hroom.get?_eq_none] at hy
        cases hy
    · obtain ⟨a, ha, hb⟩ := any_eq_true.mp hb
      obtain ⟨hne, ha⟩ := mem_ancestors_iff.mp ha
      cases hx : (Value.obj fs).get? a with
      | none => rw [hx] at hb; cases hb
      | some x =>
        have hlands := h.lands a x hne ⟨_, hf, covers_of_isAbove ha⟩ hx
        rcases hlands.group (isNested_of_isAbove hf ha hne) with ⟨_, rfl⟩ | ⟨rfl, hnull⟩
        · rw [hx] at hb; cases hb
        · obtain ⟨_, hobj⟩ := hroom.object_of_isAbove hkeys ha hnull
          cases hobj
  · intro hroom
    -- Nothing declared covers what is at or above the path.
    have hfree : ∀ {a : Path}, a.covers p → (Value.obj gs).Has a → (Value.obj fs).Has a ∧ ∃ x z,
        (Value.obj fs).get? a = some x ∧ (Value.obj gs).get? a = some z ∧ z.Kin x := by
      intro a ha hhas
      refine (h.within a hhas).resolve_left ?_
      rintro ⟨e, he, hsome, hcov⟩
      have heq := eq_of_covers_declared hw he hf (covers_trans hcov ha)
      rw [heq, hroom.get?_eq_none] at hsome
      cases hsome
    refine room_of_keys hkeys ?_ fun hb => ?_
    · cases hy : (Value.obj gs).get? p with
      | none => rfl
      | some y => exact absurd (hfree (covers_refl p) (has_of_keys hkeys (by rw [hy]; rfl))).1 hroom.not_has
    · obtain ⟨a, ha, hb⟩ := any_eq_true.mp hb
      obtain ⟨hne, ha⟩ := mem_ancestors_iff.mp ha
      cases hz : (Value.obj gs).get? a with
      | none => rw [hz] at hb; cases hb
      | some z =>
        obtain ⟨-, x, z', hx, hz', hkin⟩ := hfree (covers_of_isAbove ha) (has_of_keys (hup ha) (by rw [hz]; rfl))
        rw [hz] at hz' hb
        cases hz'
        obtain ⟨_, rfl⟩ := hroom.object_of_isAbove hkeys ha hx
        cases hkin with
        | same | obj => cases hb

end Takes

end Schema

-- Casting the keys of an embedded document

namespace Cast

open Value

variable {s : Schema}

theorem keys_gives_writes (hp : s.Meets .passive) (hctx : ctx.strict = none) :
    (fields : List (String × Value)) → (place : Path) → (out : Value) →
    Gives (keys (Schema.casters s.fields) s.options.strict ctx fields place out) fun out' =>
      ∃ ws, s.Writes false fields place ws ∧ Sets out ws out'
  | [], _, _ => by
    rw [keys]
    exact gives_pure ⟨[], .nil, .nil⟩
  | (k, v) :: rest, place, out => by
    have next := fun out => keys_gives_writes hp hctx rest place out
    have hany : ((Schema.casters s.fields).any fun c => Path.isAbove (place.key k) c.path) = s.isNested (place.key k) := by
      rw [Schema.casters_eq, any_map, Schema.isNested]
      simp [Path.key, Function.comp_def]
    unfold keys
    dsimp only
    split
    · case _ c hc =>
      obtain ⟨e, he, rfl⟩ := mem_map.mp (Schema.casters_eq ▸ mem_of_find?_eq_some hc)
      have hpath : e.1 = place.key k := by simpa using find?_some hc
      rw [Caster.accept_eq (c := ⟨e.1, e.2, fun ctx v => e.2.cast ctx v⟩) (hp.field he).rules.1]
      refine (Field.settles_cast (hp.field he) (by exact hctx)).gives.bind fun y hy => writePart_gives.bind fun u hu =>
        (next u).mono fun out' => ?_
      rintro ⟨ws, hws, hsets⟩
      exact ⟨_, .field (hpath ▸ he) hy hws, .cons hu hsets⟩
    · case _ hnone =>
      rw [hany]
      split
      · case isTrue hn =>
        split
        · case _ inner =>
          refine (keys_gives_writes hp hctx inner _ out).bind fun u hu => (next u).mono fun out' => ?_
          obtain ⟨ws', hws', hsets'⟩ := hu
          rintro ⟨ws, hws, hsets⟩
          exact ⟨_, .group hn hws' hws, hsets'.append hsets⟩
        · refine writePart_gives.bind fun u hu => (next u).mono fun out' => ?_
          rintro ⟨ws, hws, hsets⟩
          exact ⟨_, .empty hn hws, .cons hu hsets⟩
        · exact (gives_fail (P := fun _ => False)).bind fun _ h => h.elim
      · case isFalse hn =>
        have hfield : s.field? (place.key k) = none := by
          rw [Schema.field?, Option.map_eq_none_iff, find?_eq_none]
          intro e he
          rw [Schema.casters_eq, find?_map, Option.map_eq_none_iff, find?_eq_none] at hnone
          exact hnone e he
        split
        · refine writePart_gives.bind fun u hu => (next u).mono fun out' => ?_
          rintro ⟨ws, hws, hsets⟩
          exact ⟨_, .kept rfl hfield hn hws, .cons hu hsets⟩
        · refine (next out).mono fun out' => ?_
          rintro ⟨ws, hws, hsets⟩
          exact ⟨ws, .dropped rfl hfield hn hws, hsets⟩
        · exact (gives_throw (P := fun _ => False)).bind fun _ h => h.elim

theorem keys_gives_takes (hw : s.Meets .wellFormed) (hp : s.Meets .passive) (hctx : ctx.strict = none)
    (hc : (Value.obj fields).Canonical) :
    Gives (keys (Schema.casters s.fields) s.options.strict ctx fields Path.root (.obj [])) (s.Takes (.obj fields)) := by
  refine (keys_gives_writes hp hctx fields _ _).mono fun out => ?_
  rintro ⟨ws, hws, hsets⟩
  exact Schema.takes_of_writes hw hws hc hsets

end Cast

-- Setting the keys of a new document

-- An object is declared as it is: no key of it is undeclared, and groups of fields are objects or null.
def Schema.Suits (schema : Schema) (v : Value) : Prop :=
  ∀ (p : Path) x, p ≠ [] → v.Has p → v.get? p = some x →
    (∃ e ∈ schema.fields, e.1.covers p) ∨ schema.isNested p ∧ (x = .null ∨ ∃ fs, x = .obj fs)

namespace Edit

open Value

variable {s : Desk}

theorem storeField_absent_ok (hok : (storeField p f none y opts).outcome s = (.ok (), s')) :
    s.doc.value.set p y = (.ok (), s'.doc.value) := by
  rw [outcome_storeField] at hok
  dsimp only at hok
  rw [if_neg (by simp), if_neg (by simp [Value.equalOpt]), Document.write_eq] at hok
  have hvalue : (if f.type.isStructural then s.doc.detached p else s.doc).value = s.doc.value := by
    split <;> rfl
  rw [hvalue] at hok
  rcases hset : s.doc.value.set p y with ⟨_ | _, w⟩
  all_goals rw [hset] at hok
  · cases hok
  · cases hok
    rw [Document.value_settled]

theorem setPath_field_ok (hw : s.doc.schema.Meets .wellFormed) (hp : s.doc.schema.Meets .passive)
    (hf : (p, f) ∈ s.doc.schema.fields) (hy : f.cast? v = some y) (habsent : s.doc.get? p = none)
    (hopts : opts.strict = none) (hok : (setPath v p opts).outcome s = (.ok (), s')) :
    s.doc.value.set p y = (.ok (), s'.doc.value) := by
  rw [outcome_setPath (hw.declared hf).1, Document.resolve_declared hw hf] at hok
  split at hok
  · cases hok
  · dsimp only at hok
    rw [outcome_setField, habsent] at hok
    have haccept : (f.accept (castContext s.doc p opts) v).Settles (f.cast? v) := Field.settles_accept (hp.field hf) hopts
    have hsettles := (haccept s.effects).2
    rw [hy] at hsettles
    split at hok
    · case _ he => rw [he] at hsettles; cases hsettles
    · case _ he => rw [he] at hsettles; cases hsettles
    · case _ w effects he =>
      rw [he] at hsettles
      cases hsettles
      exact storeField_absent_ok (s := { s with effects }) hok

theorem resolve_nested (hw : s.doc.schema.Meets .wellFormed) (hn : s.doc.schema.isNested p) :
    p ≠ [] ∧ s.doc.resolve p = .nested := by
  obtain ⟨hne, hany⟩ := Bool.and_eq_true_iff.mp hn
  obtain ⟨e, he, ha⟩ := any_eq_true.mp hany
  have hne : p ≠ [] := by simpa using hne
  exact ⟨hne, Schema.resolve_of_isAbove hw.apart he ha hne⟩

theorem setPath_null_ok (hw : s.doc.schema.Meets .wellFormed) (hn : s.doc.schema.isNested p)
    (hok : (setPath .null p opts).outcome s = (.ok (), s')) : s.doc.value.set p .null = (.ok (), s'.doc.value) := by
  obtain ⟨hne, hresolve⟩ := resolve_nested hw hn
  rw [outcome_setPath hne, hresolve] at hok
  split at hok
  · cases hok
  · dsimp only at hok
    rw [setGroup, outcome_setNestedNull, Document.write_eq, show (s.doc.detached p).value = s.doc.value from rfl] at hok
    rcases hset : s.doc.value.set p .null with ⟨_ | _, w⟩
    all_goals rw [hset] at hok
    · cases hok
    · cases hok
      rw [Document.value_markValid]
      split <;> rfl

theorem setPath_group_ok (hs : s.doc.Housed schema) (hw : schema.Meets .wellFormed) (hn : schema.isNested p)
    (hok : (setPath (.obj fields) p opts).outcome s = (.ok (), s')) :
    ∃ s₀ s₁ : Desk, s.doc.value.set p (.obj []) = (.ok (), s₀.doc.value) ∧ s₀.doc.Housed schema ∧
      (setKeys fields p { opts with silent := true }).outcome s₀ = (.ok (), s₁) ∧ s'.doc.value = s₁.doc.value := by
  rw [← hs.schema] at hn hw
  obtain ⟨hne, hresolve⟩ := resolve_nested hw hn
  rw [outcome_setPath hne, hresolve] at hok
  split at hok
  · cases hok
  · dsimp only at hok
    obtain ⟨hset, s₁, hkeys, rfl⟩ := setGroup_ok hok
    refine ⟨_, s₁, ?_, (hs.detached (hs.schema ▸ hw)).write hne, hkeys, ?_⟩
    · rw [Document.write_eq, ← hset]
      rfl
    · dsimp only
      rw [Document.value_markValid]
      split <;> rfl

-- The keys of an object, or of a group of fields in it, are about to be given to a document that has none of them.
structure Enters (schema : Schema) (raw : Value) (fields : List (String × Value)) (place : Path) (d : Document) : Prop where
  canonical : (Value.obj fields).Canonical
  group     : place = [] ∨ schema.isNested place
  given     : ∀ e ∈ fields, raw.Has (place.key e.1) ∧ raw.get? (place.key e.1) = some e.2
  housed    : d.Housed schema
  absent    : ∀ e ∈ fields, d.get? (place.key e.1) = none

namespace Enters

variable {place : Path}

theorem head (h : Enters schema raw ((k, v) :: rest) place d) (hw : schema.Meets .wellFormed) (hs : schema.Suits raw)
    (hcast : ∀ e ∈ schema.fields, ∀ x, raw.get? e.1 = some x → (e.2.cast? x).isSome) :
    (∃ f y, (place.key k, f) ∈ schema.fields ∧ f.cast? v = some y) ∨
      schema.isNested (place.key k) ∧ (v = .null ∨ ∃ inner, v = .obj inner) := by
  obtain ⟨hhas, hget⟩ := h.given _ mem_cons_self
  refine (hs _ v (by simp [Path.key]) hhas hget).imp_left ?_
  rintro ⟨e, he, hc⟩
  have heq : e.1 = place.key k := by
    refine (eq_or_isAbove_of_covers hc).resolve_right fun ha => ?_
    have hplace : e.1.covers place := isAbove_append_iff.mp ha
    rcases h.group with rfl | hn
    · exact (hw.declared he).1 (covers_nil.mp hplace)
    · obtain ⟨e', he', ha'⟩ := any_eq_true.mp (Bool.and_eq_true_iff.mp hn).2
      have habove := isAbove_of_covers_isAbove hplace ha'
      exact ne_of_isAbove habove (Schema.eq_of_covers_declared hw he he' (covers_of_isAbove habove))
  obtain ⟨y, hy⟩ := Option.isSome_iff_exists.mp (hcast e he v (heq ▸ hget))
  exact ⟨e.2, y, heq ▸ he, hy⟩

theorem tail (h : Enters schema raw ((k, v) :: rest) place s.doc) (hw : schema.Meets .wellFormed)
    (hok : (setPath v (place.key k) opts).outcome s = (.ok (), s')) : Enters schema raw rest place s'.doc := by
  obtain ⟨hc, -, hnone⟩ := Schema.Writes.canonical_tail h.canonical
  refine ⟨hc, h.group, (forall_mem_cons.mp h.given).2, h.housed.setPath hw hok, fun e he => ?_⟩
  have hne : k ≠ e.1 := fun hk => get?_eq_none_iff.mp hnone e he hk.symm
  have hd : (place.key k).Distinct (place.key e.1) := distinct_keys hne (covers_refl _) (covers_refl _)
  have hget := Document.heeds_get?.keeps_setPath v (place.key k)
    ((opens_of_ne_nil (by simp [Path.key])).mpr hd) opts s ((forall_mem_cons.mp h.absent).2 e he)
  rwa [hok] at hget

theorem enter {inner : List (String × Value)} (h : Enters schema raw ((k, .obj inner) :: rest) place d)
    (hn : schema.isNested (place.key k)) (hd : d'.Housed schema) (hopen : d'.get? (place.key k) = some (.obj [])) :
    Enters schema raw inner (place.key k) d' := by
  obtain ⟨-, hc, -⟩ := Schema.Writes.canonical_tail h.canonical
  obtain ⟨hhas, hget⟩ := h.given _ mem_cons_self
  refine ⟨hc, .inr hn, fun e he => ?_, hd, fun e _ => ?_⟩
  · have hk := get?_of_mem (hereditary_canonical.obj.mp hc).1 he
    exact ⟨has_append.mpr ⟨hhas, _, hget, .field hk .here⟩,
      by rw [Path.key, get?_append, hget, Option.bind_some, get?_field hk, get?_nil]⟩
  · rw [Path.key, Document.get?, get?_append, ← Document.get?, hopen]
    rfl

end Enters

theorem setKeys_writes (hw : schema.Meets .wellFormed) (hp : schema.Meets .passive)
    (hs : schema.Suits raw) (hcast : ∀ e ∈ schema.fields, ∀ x, raw.get? e.1 = some x → (e.2.cast? x).isSome) :
    (fields : List (String × Value)) → (place : Path) → (opts : SetOptions) → opts.strict = none → ∀ {s s' : Desk},
    Enters schema raw fields place s.doc → (setKeys fields place opts).outcome s = (.ok (), s') →
    ∃ ws, schema.Writes true fields place ws ∧ Sets s.doc.value ws s'.doc.value
  | [], _, _, _, s, s', _, hok => by
    rw [setKeys, outcome_pure] at hok
    cases hok
    exact ⟨[], .nil, .nil⟩
  | (k, v) :: rest, place, opts, hopts, s, s', h, hok => by
    rw [setKeys] at hok
    obtain ⟨_, s₁, hpath, hok⟩ := ok_of_bind_ok hok
    obtain ⟨ws, hws, hsets⟩ := setKeys_writes hw hp hs hcast rest place opts hopts (h.tail hw hpath) hok
    have hschema := h.housed.schema
    rcases h.head hw hs hcast with ⟨f, y, hf, hy⟩ | ⟨hn, rfl | ⟨inner, rfl⟩⟩
    · have hset := setPath_field_ok (hschema ▸ hw) (hschema ▸ hp) (hschema ▸ hf) hy
        (h.absent _ mem_cons_self) hopts hpath
      exact ⟨_, .field hf hy hws, .cons hset hsets⟩
    · exact ⟨_, .empty hn hws, .cons (setPath_null_ok (hschema ▸ hw) (hschema ▸ hn) hpath) hsets⟩
    · obtain ⟨s₂, s₃, hopen, hhoused, hkeys, hvalue⟩ := setPath_group_ok h.housed hw hn hpath
      obtain ⟨ws', hws', hsets'⟩ := setKeys_writes hw hp hs hcast inner (place.key k) { opts with silent := true } hopts
        (h.enter hn hhoused (set_self hopen)) hkeys
      rw [hvalue] at hsets
      exact ⟨_, .group hn hws' hws, (Sets.cons hopen hsets').append hsets⟩

end Edit

end Dossier

import Dossier.Proofs.Schema
import Dossier.Schema.Cast

-- What holds of casts of single values, of putting parts together and of writes into an embedded document holds of
-- all casts.

namespace Dossier

open Value List

-- Outcomes

namespace Cast

def outcome (c : Cast α) (e : Effects) : Except CastFailure α × Effects :=
  c.run.run e

def Gives (c : Cast α) (P : α → Prop) : Prop :=
  ∀ e, (c.outcome e).2.queue = e.queue ∧ ∀ a, (c.outcome e).1 = .ok a → P a

variable {α β : Type} {f : α → Cast β} {e : Effects}

@[simp] theorem outcome_pure {a : α} : (pure a : Cast α).outcome e = (.ok a, e) := rfl

theorem outcome_bind : (c >>= f).outcome e = match c.outcome e with
    | (.ok a, e') => (f a).outcome e'
    | (.error x, e') => (.error x, e') := by
  simp only [outcome, ExceptT.run_bind, StateT.run_bind]
  rcases StateT.run c.run e with ⟨_ | _, _⟩ <;> rfl

theorem outcome_tryCatch {h : CastFailure → Cast α} : (tryCatch c h).outcome e = match c.outcome e with
    | (.ok a, e') => (.ok a, e')
    | (.error x, e') => (h x).outcome e' := by
  simp only [outcome, tryCatch, tryCatchThe, MonadExceptOf.tryCatch, ExceptT.tryCatch, ExceptT.run_mk,
    StateT.run_bind]
  change Id.run _ = _
  rcases hr : StateT.run c.run e with ⟨_ | _, _⟩ <;> simp only [ExceptT.run] at hr <;>
    simp only [ExceptT.run, hr] <;> rfl

-- All results fulfil a condition, and so does whatever is asked to be written.
def Yields (E : Path × Value → Prop) (c : Cast α) (P : α → Prop) : Prop :=
  ∀ e, (∃ asked, (c.outcome e).2.queue = e.queue ++ asked ∧ ∀ a ∈ asked, E a) ∧ ∀ a, (c.outcome e).1 = .ok a → P a

theorem Gives.yields (h : Gives c P) : Yields E c P :=
  fun e => ⟨⟨[], by rw [(h e).1, append_nil], by simp⟩, (h e).2⟩

theorem gives_iff : Gives c P ↔ Yields (fun _ => False) c P := by
  refine ⟨Gives.yields, fun h e => ?_⟩
  obtain ⟨⟨asked, hq, ha⟩, hp⟩ := h e
  rw [eq_nil_iff_forall_not_mem.mpr ha, append_nil] at hq
  exact ⟨hq, hp⟩

theorem gives_pure {a : α} (h : P a) : Gives (pure a) P := by
  intro e
  refine ⟨rfl, fun b hb => ?_⟩
  cases hb
  exact h

theorem gives_throw {x : CastFailure} : Gives (throw x) P :=
  fun _ => ⟨rfl, fun a ha => by cases ha⟩

theorem gives_fail {path : Path} {target : CastTarget} : Gives (fail path target v r) P :=
  gives_throw

theorem Yields.bind (h : Yields E c P) (hf : ∀ a, P a → Yields E (f a) Q) : Yields E (c >>= f) Q := by
  intro e
  obtain ⟨⟨asked, hq, ha⟩, hp⟩ := h e
  rw [outcome_bind]
  rcases hr : c.outcome e with ⟨_ | a, e'⟩
  all_goals rw [hr] at hq hp
  · exact ⟨⟨asked, hq, ha⟩, fun b hb => by cases hb⟩
  · obtain ⟨⟨asked', hq', ha'⟩, hp'⟩ := hf a (hp a rfl) e'
    refine ⟨⟨asked ++ asked', ?_, forall_mem_append.mpr ⟨ha, ha'⟩⟩, hp'⟩
    dsimp only at hq ⊢
    rw [hq', hq, append_assoc]

theorem Yields.queue (h : Yields E c P) (hq : ∀ a ∈ e.queue, E a) : ∀ a ∈ (c.outcome e).2.queue, E a := by
  obtain ⟨⟨asked, hasked, ha⟩, -⟩ := h e
  rw [hasked]
  exact forall_mem_append.mpr ⟨hq, ha⟩

theorem Yields.mono (h : Yields E c P) (hp : ∀ a, P a → P' a) : Yields E c P' :=
  fun e => ⟨(h e).1, fun a ha => hp a ((h e).2 a ha)⟩

theorem Yields.wrapItem {ctx : CastContext} {whole : Value} (h : Yields E c P) : Yields E (wrapItem ctx whole c) P := by
  intro e
  obtain ⟨hq, hp⟩ := h e
  rw [Cast.wrapItem, outcome_tryCatch]
  rcases hr : c.outcome e with ⟨x | a, e'⟩
  all_goals rw [hr] at hq hp
  · cases x <;> exact ⟨hq, fun a ha => by cases ha⟩
  · exact ⟨hq, hp⟩

theorem Gives.bind (h : Gives c P) (hf : ∀ a, P a → Gives (f a) Q) : Gives (c >>= f) Q :=
  gives_iff.mpr (h.yields.bind fun a ha => (hf a ha).yields)

theorem Gives.mono (h : Gives c P) (hp : ∀ a, P a → P' a) : Gives c P' :=
  fun e => ⟨(h e).1, fun a ha => hp a ((h e).2 a ha)⟩

-- Statements about casts

-- The rules of a statement about two casts and a condition on their common result.
structure Logic (J : ∀ {α : Type}, (α → Prop) → Cast α → Cast α → Prop) : Prop where
  result {α : Type} {P : α → Prop} {a : α} : P a → J P (pure a) (pure a)
  cast {α : Type} {P : α → Prop} {e e' : CastError} : J P (throw (.cast e)) (throw (.cast e'))
  strict {α : Type} {P : α → Prop} {e e' : StrictError} : J P (throw (.strict e)) (throw (.strict e'))
  bind {α β : Type} {P : α → Prop} {Q : β → Prop} {c c' : Cast α} {f f' : α → Cast β} :
    J P c c' → (∀ a, P a → J Q (f a) (f' a)) → J Q (c >>= f) (c' >>= f')
  item {α : Type} {P : α → Prop} {c c' : Cast α} {ctx ctx' : CastContext} {whole : Value} :
    J P c c' → J P (wrapItem ctx whole c) (wrapItem ctx' whole c')

theorem logic_yields {E : Path × Value → Prop} : Logic fun P c _ => Yields E c P where
  result h := (gives_pure h).yields
  cast := gives_throw.yields
  strict := gives_throw.yields
  bind := Yields.bind
  item := Yields.wrapItem

theorem logic_gives : Logic fun P c _ => Gives c P where
  result := gives_pure
  cast := gives_throw
  strict := gives_throw
  bind := Gives.bind
  item h := gives_iff.mpr h.yields.wrapItem

theorem Logic.mono {J : ∀ {α : Type}, (α → Prop) → Cast α → Cast α → Prop} (hJ : Logic J) (h : J P c c')
    (hp : ∀ a, P a → P' a) : J P' c c' := by
  have := hJ.bind h fun a ha => hJ.result (hp a ha)
  rwa [bind_pure, bind_pure] at this

theorem Logic.write_part {J : ∀ {α : Type}, (α → Prop) → Cast α → Cast α → Prop} (hJ : Logic J) {out : Value}
    {target : CastTarget} (path path' : Path) : J (fun out' => out.set rel v = (.ok (), out'))
      (writePart out rel v path target) (writePart out rel v path' target) := by
  rw [writePart, writePart]
  split
  · case _ hset => exact hJ.result hset
  · exact hJ.cast

theorem writePart_gives {out v : Value} {target : CastTarget} :
    Gives (writePart out rel v path target) fun out' => out.set rel v = (.ok (), out') :=
  logic_gives.write_part path path

theorem setters_eq_pure {rules : Rules} (h : rules.setters = []) {ctx : CastContext} :
    setters rules ctx v = pure v := by
  rw [setters, h]
  rfl

theorem setters_yields {E : Path × Value → Prop} {W : Value → Prop} {v : Value}
    (h : ∀ setter ∈ rules.setters, ∀ v, W v → W (setter ⟨ctx.path, ctx.prior, ctx.isInit⟩ v).value ∧
      ∀ e ∈ (setter ⟨ctx.path, ctx.prior, ctx.isInit⟩ v).siblings, E (ctx.root ++ e.1, e.2)) (hv : W v) :
    Yields E (setters rules ctx v) W := by
  have h := fun setter hm => h setter (mem_reverse.mp hm)
  rw [setters]
  generalize rules.setters.reverse = fs at h
  induction fs generalizing v with
  | nil => exact (gives_pure hv).yields
  | cons setter fs ih =>
    obtain ⟨hsetter, h⟩ := forall_mem_cons.mp h
    obtain ⟨hvalue, hasked⟩ := hsetter v hv
    rw [foldlM_cons]
    refine Yields.bind (P := W) (fun e => ⟨⟨_, rfl, fun a ha => ?_⟩, fun w hw => ?_⟩) fun w hw => ih hw h
    · obtain ⟨b, hb, rfl⟩ := mem_map.mp ha
      exact hasked b hb
    · cases hw
      exact hvalue

theorem rawDefault_gives {W : Value → Prop} {f : Field} (hliteral : ∀ v, f.rules.default = some (.literal v) → W v)
    (hmade : ∀ g v, f.rules.default = some (.generate g) → g view = .ok v → W v)
    (hid : ∀ s : IdSupply, W (.str s.next)) : Gives (rawDefault f view ctx) fun o => ∀ x, o = some x → W x := by
  rw [rawDefault]
  split
  · exact gives_pure (by simp)
  · case _ v hd => exact gives_pure fun x hx => Option.some.inj hx ▸ hliteral v hd
  · intro e
    refine ⟨rfl, fun o ho x hx => ?_⟩
    cases ho
    cases hx
    exact hid _
  · case _ g hd =>
    split
    · case _ v hv => exact gives_pure fun x hx => Option.some.inj hx ▸ hmade g v hd hv
    · exact gives_fail

end Cast

-- What casts are given

namespace Value

-- What a value has at a path of keys.
inductive Offers : Value → Path → Value → Prop
  | here {v : Value} : Offers v [] v
  | key {fields : List (String × Value)} {k : String} {u x : Value} {p : Path} :
    (k, u) ∈ fields → Offers u p x → Offers (.obj fields) (.key k :: p) x

-- The items of an array. Any other value counts as its only item.
def asItems : Value → List Value
  | .arr vs => vs
  | v => [v]

def isReference : Value → Bool
  | .str _ | .num _ => true
  | .obj fields => Entries.contains idKey fields
  | _ => false

theorem Offers.inside {v : Value} {p : Path} (h : v.Offers p (.obj fields)) (he : e ∈ fields) :
    v.Offers (p.key e.1) e.2 := by
  generalize hx : Value.obj fields = x at h
  induction h with
  | here =>
    subst hx
    exact .key he .here
  | key hmem _ ih => exact .key hmem (ih hx)

theorem Offers.keys {v x : Value} (h : v.Offers p x) : ∀ seg ∈ p, seg.index? = none := by
  induction h with
  | here => simp
  | key _ _ ih => exact forall_mem_cons.mpr ⟨rfl, ih⟩

theorem Offers.part {W : Value → Prop} (hW : ∀ fields, W (.obj fields) → ∀ e ∈ fields, W e.2) {v : Value}
    (h : v.Offers p x) (hv : W v) : W x := by
  induction h with
  | here => exact hv
  | key hmem _ ih => exact ih (hW _ hv _ hmem)

end Value

-- What is read for a value that is not null, where the type has no parts.
inductive FieldType.Reads : FieldType → Value → Value → Prop
  | string {v : Value} {s : String} : FieldType.Reads .string v (.str s)
  | number {v : Value} {n : Number} : FieldType.Reads .number v (.num n)
  | blank {s : String} : trimChars s.toList = [] → FieldType.Reads .number (.str s) .null
  | boolean {v : Value} {b : Bool} : FieldType.Reads .boolean v (.bool b)
  | date {v : Value} {i : Instant} : FieldType.Reads .date v (.str i.text)
  | id {target : Option String} {v : Value} : v.isReference → FieldType.Reads (.id target) v v
  | mixed {v : Value} : FieldType.Reads .mixed v v

theorem FieldType.Reads.kept {t : FieldType} {v : Value} (h : t.Reads v w) : w = v ∨ ∀ seg, w.child? seg = none := by
  cases h with
  | string | number | blank | boolean | date => exact .inr fun _ => rfl
  | id | mixed => exact .inl rfl

theorem FieldType.cast_single {t : FieldType} (ht : t.isStructural = false) (v : Value) :
    (∃ w, t.Reads v w ∧ ∀ ctx, t.cast ctx v = pure w) ∨ ∀ ctx, ∃ e, t.cast ctx v = throw (.cast e) := by
  cases t with
  | array | map | embedded | documentArray => cases ht
  | mixed => exact .inl ⟨v, .mixed, fun ctx => by rw [FieldType.cast]⟩
  | string =>
    cases v with
    | str | num | bool => exact .inl ⟨_, .string, fun ctx => by rw [FieldType.cast]; rfl⟩
    | null | arr | obj => exact .inr fun ctx => ⟨_, by rw [FieldType.cast]; rfl⟩
  | number =>
    cases v with
    | num | bool => exact .inl ⟨_, .number, fun ctx => by rw [FieldType.cast]; rfl⟩
    | null | arr | obj => exact .inr fun ctx => ⟨_, by rw [FieldType.cast]; rfl⟩
    | str s =>
      simp only [FieldType.cast, Cast.number]
      split
      · case isTrue hs => exact .inl ⟨_, .blank (isEmpty_iff.mp hs), fun _ => rfl⟩
      · split
        · exact .inl ⟨_, .number, fun _ => rfl⟩
        · exact .inr fun _ => ⟨_, rfl⟩
  | boolean =>
    simp only [FieldType.cast, Cast.boolean]
    split
    · exact .inl ⟨_, .boolean, fun _ => rfl⟩
    · exact .inr fun _ => ⟨_, rfl⟩
  | date =>
    simp only [FieldType.cast, Cast.date]
    split
    · exact .inl ⟨_, .date, fun _ => rfl⟩
    · exact .inr fun _ => ⟨_, rfl⟩
  | id =>
    cases v with
    | str | num => exact .inl ⟨_, .id rfl, fun ctx => by rw [FieldType.cast]; rfl⟩
    | null | bool | arr => exact .inr fun ctx => ⟨_, by rw [FieldType.cast]; rfl⟩
    | obj fields =>
      simp only [FieldType.cast, Cast.id]
      split
      · case isTrue h => exact .inl ⟨_, .id h, fun _ => rfl⟩
      · exact .inr fun _ => ⟨_, rfl⟩

-- Embedded documents

theorem Schema.casters_eq {fields : List (Path × Field)} : Schema.casters fields =
    fields.map fun e => { path := e.1, field := e.2, cast := fun ctx v => e.2.cast ctx v } := by
  induction fields with
  | nil => rw [Schema.casters]; rfl
  | cons e fields ih => rw [show e = (e.1, e.2) from rfl, Schema.casters, ih]; rfl

theorem Schema.castVariant_eq {s : Schema} {ctx : CastContext} {fields : List (String × Value)}
    (h : Entries.get? name variants = some s) : Schema.castVariant variants name ctx fields = s.cast ctx fields := by
  induction variants with
  | nil => cases h
  | cons e variants ih =>
    obtain ⟨k, s'⟩ := e
    rw [Schema.castVariant]
    rw [Entries.get?] at h
    split at h
    · case isTrue hc => cases h; rw [if_pos hc]
    · case isFalse hc => rw [if_neg hc, ih h]

theorem SubSchema.cast_eq (sub : SubSchema) (fields : List (String × Value)) :
    (∃ s, sub.select (some (.obj fields)) = .ok s ∧ (s = sub.base ∨ ∃ name, (name, s) ∈ sub.variants) ∧
      ∀ ctx, sub.cast ctx (.obj fields) = (do
        let out ← s.cast { ctx with root := ctx.path, prior := none } fields
        return (Value.obj fields).keepName sub.discriminatorKey out)) ∨
    ∀ ctx, ∃ e, sub.cast ctx (.obj fields) = throw (.cast e) := by
  obtain ⟨base, variants⟩ := sub
  cases hv : SubSchema.variant? ⟨base, variants⟩ (some (.obj fields)) with
  | error reason =>
    refine .inr fun ctx => ?_
    unfold SubSchema.cast
    simp only [hv]
    exact ⟨_, rfl⟩
  | ok name =>
    refine .inl ⟨named ⟨base, variants⟩ name, by rw [select, hv], ?_⟩
    cases name with
    | none =>
      refine ⟨.inl rfl, fun ctx => ?_⟩
      unfold SubSchema.cast
      simp only [hv]
      rfl
    | some name =>
      obtain ⟨s, hs⟩ := Option.isSome_iff_exists.mp (SubSchema.variant?_isSome hv)
      rw [show named ⟨base, variants⟩ (some name) = s by simp only [named, Option.bind_some, hs]]
      refine ⟨.inr ⟨name, Entries.mem_of_get? hs⟩, fun ctx => ?_⟩
      unfold SubSchema.cast
      simp only [hv, Schema.castVariant_eq hs]

-- What becomes of a value that is given to a field: null stays null, and anything else is cast to the type.
def Field.Casts (T : FieldType → Value → Value → Prop) (f : Field) (v w : Value) : Prop :=
  v = .null ∧ f.rules.nullable ∧ w = .null ∨ v ≠ .null ∧ T f.type v w

theorem forall_of_zip {R : α × β → Prop} {Q : β → Prop} {as : List α} (hlen : bs.length = as.length)
    (h : ∀ e ∈ as.zip bs, R e) (hQ : ∀ e, R e → Q e.2) : ∀ b ∈ bs, Q b := by
  intro b hb
  rw [← map_snd_zip (Nat.le_of_eq hlen)] at hb
  obtain ⟨e, he, rfl⟩ := mem_map.mp hb
  exact hQ e (h e he)

theorem FieldType.Meets.item {t : FieldType} {el : Field} (h : t.Meets law) (hr : law (.rules {}))
    (he : (Field.plain t).element? = some el) : el.Meets law :=
  (Field.meets_iff.mpr ⟨hr, h⟩ : (Field.plain t).Meets law).element hr he

-- An embedded document that is to be cast, and the schema that it selects.
structure SubSchema.Takes (law : SchemaLaw) (W : Value → Prop) (sub : SubSchema) (s : Schema) (given : Value) : Prop where
  whole   : sub.Meets law
  selects : sub.select (some given) = .ok s
  known   : W given
  meets   : s.Meets law

namespace Cast

-- What is to be shown for a statement about all casts along schemas of a kind. Of given values, `W` is known. The
-- cast to a type makes of them what `T` says, and `D` holds of an embedded document while its fields are being
-- cast.
structure Study (J : ∀ {α : Type}, (α → Prop) → Cast α → Cast α → Prop) (K : CastContext → CastContext → Prop)
    (law : SchemaLaw) (W : Value → Prop) (T : FieldType → Value → Value → Prop)
    (D : SubSchema → Schema → Value → Value → Prop) : Prop where
  logic : Logic J
  -- The contexts of parts.
  mode {ctx ctx' : CastContext} : K ctx ctx' → ctx.strict = ctx'.strict
  part {ctx ctx' : CastContext} (r : Path) : K ctx ctx' →
    K { ctx with path := ctx.path ++ r, prior := none } { ctx' with path := ctx'.path ++ r, prior := none }
  inner {ctx ctx' : CastContext} : K ctx ctx' →
    K { ctx with root := ctx.path, prior := none } { ctx' with root := ctx'.path, prior := none }
  -- Given values and their parts.
  items {vs : List Value} : W (.arr vs) → ∀ v ∈ vs, W v
  fields {fields : List (String × Value)} : W (.obj fields) → ∀ e ∈ fields, W e.2
  -- Rules of fields.
  setters {f : Field} {ctx ctx' : CastContext} {v : Value} : law (.rules f.rules) → K ctx ctx' → W v →
    J W (setters f.rules ctx v) (setters f.rules ctx' v)
  raw {sub : SubSchema} {s : Schema} {given out : Value} {f : Field} {ctx ctx' : CastContext} : law (.rules f.rules) →
    K ctx ctx' → D sub s given out → J (fun o => ∀ x, o = some x → W x)
      (rawDefault f { value := out, isNew := true } ctx) (rawDefault f { value := out, isNew := true } ctx')
  -- Types.
  single {t : FieldType} {v w : Value} : W v → v ≠ .null → t.Reads v w → T t v w
  array {t : FieldType} {el : Field} {v : Value} {ws : List Value} : t.Meets law → t.isArray →
    (Field.plain t).element? = some el → W v → ws.length = v.asItems.length →
    (∀ e ∈ v.asItems.zip ws, el.Casts T e.1 e.2) → T t v (.arr ws)
  map {el : Field} {fields es : List (String × Value)} : el.Meets law → W (.obj fields) →
    es.map (·.1) = fields.map (·.1) → (∀ e ∈ fields.zip es, el.Casts T e.1.2 e.2.2) → T (.map el) (.obj fields) (.obj es)
  embedded {sub : SubSchema} {s : Schema} {given out : Value} : sub.Takes law W s given → D sub s given out →
    T (.embedded sub) given (given.keepName sub.discriminatorKey out)
  -- Writes into an embedded document.
  empty {sub : SubSchema} {s : Schema} {given : Value} : sub.Takes law W s given → D sub s given (.obj [])
  write {sub : SubSchema} {s : Schema} {given out out' x x' y : Value} {rel : Path} {f : Field} :
    sub.Takes law W s given → D sub s given out → (rel, f) ∈ s.fields → out.set rel y = (.ok (), out') →
    given.Offers rel x ∨ f.rules.hasDefault → (f.rules.setters = [] → x' = x) → W x' → f.Casts T x' y →
    D sub s given out'
  null {sub : SubSchema} {s : Schema} {given out out' : Value} {rel : Path} {e : Path × Field} :
    sub.Takes law W s given → D sub s given out → rel ≠ [] → e ∈ s.fields → rel.isAbove e.1 →
    given.Offers rel .null → out.set rel .null = (.ok (), out') → D sub s given out'
  loose {sub : SubSchema} {s : Schema} {given out out' x : Value} {ctx ctx' : CastContext} {place : Path} {k : String} :
    sub.Takes law W s given → D sub s given out → K ctx ctx' → ctx.strict.getD s.options.strict = .keep →
    (place = [] ∨ ∃ e ∈ s.fields, place.isAbove e.1) → (∀ e ∈ s.fields, ¬ (place.key k).covers e.1) →
    given.Offers (place.key k) x → W x → out.set (place.key k) x = (.ok (), out') → D sub s given out'

namespace Study

variable {J : ∀ {α : Type}, (α → Prop) → Cast α → Cast α → Prop} 
    
   {R : Value → Value → Prop}
  {cast : CastContext → Value → Cast Value}    

-- Parts of values

section

variable (h : Study J K law W T D) (hcast : ∀ ctx ctx' v, K ctx ctx' → W v → J (R v) (cast ctx v) (cast ctx' v))
  (hctx : K ctx ctx')

include h hcast hctx

theorem items_cast {vs : List Value} (hvs : ∀ v ∈ vs, W v) {i : Nat} :
    J (fun ws => ws.length = vs.length ∧ ∀ e ∈ vs.zip ws, R e.1 e.2) (Cast.items cast ctx whole i vs)
      (Cast.items cast ctx' whole i vs) := by
  induction vs generalizing i with
  | nil => exact h.logic.result ⟨rfl, by simp⟩
  | cons v vs ih =>
    obtain ⟨hv, hvs⟩ := forall_mem_cons.mp hvs
    rw [Cast.items, Cast.items]
    refine h.logic.bind (h.logic.item (hcast _ _ v (h.part [.index i] hctx) hv)) fun w hw =>
      h.logic.bind (ih hvs) fun ws hws => h.logic.result ?_
    exact ⟨congrArg (· + 1) hws.1, forall_mem_cons.mpr ⟨hw, hws.2⟩⟩

theorem array_cast (hv : W v) : J (fun w => ∃ ws, w = .arr ws ∧ ws.length = v.asItems.length ∧
      ∀ e ∈ v.asItems.zip ws, R e.1 e.2) (Cast.array cast ctx v) (Cast.array cast ctx' v) := by
  have hitems : ∀ x ∈ v.asItems, W x := by
    cases v with
    | arr => exact h.items hv
    | null | bool | num | str | obj => exact forall_mem_singleton.mpr hv
  cases v <;> exact h.logic.bind (h.items_cast hcast hctx hitems) fun ws hws => h.logic.result ⟨ws, rfl, hws⟩

theorem entries_cast {fields : List (String × Value)} (hf : ∀ e ∈ fields, W e.2) :
    J (fun es => es.map (·.1) = fields.map (·.1) ∧ ∀ e ∈ fields.zip es, R e.1.2 e.2.2) (entries cast ctx fields)
      (entries cast ctx' fields) := by
  induction fields with
  | nil => exact h.logic.result ⟨rfl, by simp⟩
  | cons e fields ih =>
    obtain ⟨he, hf⟩ := forall_mem_cons.mp hf
    rw [entries, entries]
    refine h.logic.bind (hcast _ _ e.2 (h.part [.key e.1] hctx) he) fun w hw =>
      h.logic.bind (ih hf) fun es hes => h.logic.result ⟨?_, ?_⟩
    · rw [map_cons, map_cons, hes.1]
    · exact forall_mem_cons.mpr ⟨hw, hes.2⟩

end

-- Values of fields

def Holds (J : ∀ {α : Type}, (α → Prop) → Cast α → Cast α → Prop) (K : CastContext → CastContext → Prop)
    (W : Value → Prop) (T : FieldType → Value → Value → Prop) (f : Field) : Prop :=
  ∀ ctx ctx' v, K ctx ctx' → W v → J (f.Casts T v) (f.cast ctx v) (f.cast ctx' v)

theorem accept_cast (h : Study J K law W T D) (hr : law (.rules f.rules)) (hf : Holds J K W T f) (hctx : K ctx ctx')
    (hx : W x) : J (fun y => ∃ x', (f.rules.setters = [] → x' = x) ∧ W x' ∧ f.Casts T x' y)
      (Caster.accept ⟨p, f, fun ctx v => f.cast ctx v⟩ ctx x) (Caster.accept ⟨p', f, fun ctx v => f.cast ctx v⟩ ctx' x) := by
  have hset : J (fun x' => (f.rules.setters = [] → x' = x) ∧ W x') (Cast.setters f.rules ctx x)
      (Cast.setters f.rules ctx' x) := by
    by_cases hs : f.rules.setters = []
    · rw [setters_eq_pure hs, setters_eq_pure hs]
      exact h.logic.result ⟨fun _ => rfl, hx⟩
    · exact h.logic.mono (h.setters hr hctx hx) fun x' hx' => ⟨fun he => absurd he hs, hx'⟩
  exact h.logic.bind hset fun x' hx' => h.logic.mono (hf _ _ x' hctx hx'.2) fun y hy => ⟨x', hx'.1, hx'.2, hy⟩

theorem default_cast (h : Study J K law W T D) (hr : law (.rules f.rules)) (hf : Holds J K W T f) (hctx : K ctx ctx')
    {view view' : View} (hraw : J (fun o => ∀ x, o = some x → W x) (rawDefault f view ctx) (rawDefault f view' ctx')) :
    J (fun o => ∀ y, o = some y → ∃ x, W x ∧ f.Casts T x y) (Caster.default? ⟨p, f, fun ctx v => f.cast ctx v⟩ view ctx)
      (Caster.default? ⟨p', f, fun ctx v => f.cast ctx v⟩ view' ctx') := by
  refine h.logic.bind hraw fun o ho => ?_
  cases o with
  | none => exact h.logic.result (by simp)
  | some x =>
    dsimp only
    rw [← bind_pure_comp, ← bind_pure_comp]
    refine h.logic.bind (h.accept_cast hr hf hctx (ho x rfl)) ?_
    rintro y ⟨x', -, hx', hy⟩
    refine h.logic.result ?_
    rintro _ ⟨⟩
    exact ⟨x', hx', hy⟩

-- Keys and defaults

theorem keys_cast (h : Study J K law W T D) (ht : sub.Takes law W s given) (hf : ∀ e ∈ s.fields, Holds J K W T e.2)
    (hctx : K ctx ctx') : (fields : List (String × Value)) → (place : Path) → (out : Value) →
    (∀ e ∈ fields, given.Offers (place.key e.1) e.2) → (place = [] ∨ ∃ e ∈ s.fields, place.isAbove e.1) →
    D sub s given out → J (D sub s given) (keys (Schema.casters s.fields) s.options.strict ctx fields place out)
      (keys (Schema.casters s.fields) s.options.strict ctx' fields place out)
  | [], _, _, _, _, ho => by
    rw [keys, keys]
    exact h.logic.result ho
  | (k, v) :: rest, place, out, hgiven, hplace, ho => by
    obtain ⟨hoffer, hrest⟩ := forall_mem_cons.mp hgiven
    have hv : W v := hoffer.part (fun _ => h.fields) ht.known
    have hne : place.key k ≠ [] := by simp [Path.key]
    have next : ∀ out, D sub s given out →
        J (D sub s given) (keys (Schema.casters s.fields) s.options.strict ctx rest place out)
          (keys (Schema.casters s.fields) s.options.strict ctx' rest place out) :=
      fun out ho => keys_cast h ht hf hctx rest place out hrest hplace ho
    unfold keys
    dsimp only
    split
    · case _ c hc =>
      obtain ⟨e, he, rfl⟩ := mem_map.mp (Schema.casters_eq ▸ mem_of_find?_eq_some hc)
      have hpath : e.1 = place.key k := by simpa using find?_some hc
      refine h.logic.bind (h.accept_cast (ht.meets.field he).rules (hf e he) (h.part _ hctx) hv) ?_
      rintro y ⟨x', hx', hW, hy⟩
      exact h.logic.bind (h.logic.write_part _ _) fun out' hout =>
        next out' (h.write ht ho (hpath ▸ he) hout (.inl hoffer) hx' hW hy)
    · case _ hnone =>
      split
      · case isTrue hn =>
        rw [Schema.casters_eq, any_map, any_eq_true] at hn
        obtain ⟨e, he, ha⟩ := hn
        split
        · case _ inner =>
          exact h.logic.bind (keys_cast h ht hf hctx inner (place.key k) out (fun e he => hoffer.inside he)
            (.inr ⟨e, he, ha⟩) ho) next
        · exact h.logic.bind (h.logic.write_part _ _) fun out' hout => next out' (h.null ht ho hne he ha hoffer hout)
        · exact h.logic.bind h.logic.cast next
      · case isFalse hn =>
        have hfresh : ∀ e ∈ s.fields, ¬ (place.key k).covers e.1 := by
          rw [Schema.casters_eq, find?_map, Option.map_eq_none_iff, find?_eq_none] at hnone
          rw [Schema.casters_eq, any_map, any_eq_true] at hn
          intro e he hc
          rcases Path.eq_or_isAbove_of_covers hc with heq | ha
          · exact hnone e he (by simp [heq])
          · exact hn ⟨e, he, ha⟩
        rw [← h.mode hctx]
        split
        · case _ hkeep =>
          exact h.logic.bind (h.logic.write_part _ _) fun out' hout =>
            next out' (h.loose ht ho hctx hkeep hplace hfresh hoffer hv hout)
        · exact h.logic.bind (h.logic.result ho) next
        · exact h.logic.bind h.logic.strict next

theorem defaults_cast (h : Study J K law W T D) (ht : sub.Takes law W s given) (hf : ∀ e ∈ s.fields, Holds J K W T e.2)
    (hctx : K ctx ctx') {es : List (Path × Field)} (hes : ∀ e ∈ es, e ∈ s.fields) (ho : D sub s given out) :
    J (D sub s given) (defaults ctx (Schema.casters es) out) (defaults ctx' (Schema.casters es) out) := by
  rw [Schema.casters_eq]
  induction es generalizing out with
  | nil => exact h.logic.result ho
  | cons e es ih =>
    obtain ⟨he, hes⟩ := forall_mem_cons.mp hes
    have hr := (ht.meets.field he).rules
    -- The fields of an embedded document have it for their root.
    have hchild := h.part e.1 (h.inner hctx)
    rw [map_cons, defaults, defaults]
    split
    · exact ih hes ho
    · case isFalse hdue =>
      have hdefault : e.2.rules.hasDefault := Decidable.not_not.mp fun hno => hdue (.inl hno)
      refine h.logic.bind (h.default_cast hr (hf e he) hchild (h.raw hr hchild ho)) fun o hmade => ?_
      cases o with
      | none => exact ih hes ho
      | some y =>
        obtain ⟨x, hx, hy⟩ := hmade y rfl
        exact h.logic.bind (h.logic.write_part _ _) fun out' hout =>
          ih hes (h.write ht ho he hout (.inr hdefault) (fun _ => rfl) hx hy)

def HoldsAlong (J : ∀ {α : Type}, (α → Prop) → Cast α → Cast α → Prop) (K : CastContext → CastContext → Prop)
    (law : SchemaLaw) (W : Value → Prop) (D : SubSchema → Schema → Value → Value → Prop) (s : Schema) : Prop :=
  ∀ sub ctx ctx' fields, sub.Takes law W s (.obj fields) → K ctx ctx' →
    J (D sub s (.obj fields)) (s.cast ctx fields) (s.cast ctx' fields)

theorem sub_cast (h : Study J K law W T D) (hs : sub.Meets law) (hb : HoldsAlong J K law W D sub.base)
    (hvs : ∀ e ∈ sub.variants, HoldsAlong J K law W D e.2) (hctx : K ctx ctx') (hv : W v) :
    J (T (.embedded sub) v) (sub.cast ctx v) (sub.cast ctx' v) := by
  cases v with
  | null | bool | num | str | arr =>
    cases sub
    unfold SubSchema.cast
    exact h.logic.cast
  | obj fields =>
    rcases sub.cast_eq fields with ⟨s, hselect, hmem, heq⟩ | hfail
    · have hmeets : s.Meets law := by
        rcases hmem with rfl | ⟨name, hname⟩
        · exact hs.base
        · exact hs.variant hname
      have ht : sub.Takes law W s (.obj fields) := ⟨hs, hselect, hv, hmeets⟩
      have halong : HoldsAlong J K law W D s := by
        rcases hmem with rfl | ⟨name, hname⟩
        · exact hb
        · exact hvs _ hname
      rw [heq, heq]
      exact h.logic.bind (halong sub _ _ fields ht (h.inner hctx)) fun out hout => h.logic.result (h.embedded ht hout)
    · obtain ⟨e, he⟩ := hfail ctx
      obtain ⟨e', he'⟩ := hfail ctx'
      rw [he, he']
      exact h.logic.cast

theorem field_cast (h : Study J K law W T D)
    (ht : ∀ ctx ctx' v, K ctx ctx' → W v → v ≠ .null → J (T f.type v) (f.type.cast ctx v) (f.type.cast ctx' v)) :
    Holds J K W T f := by
  intro ctx ctx' v hctx hv
  obtain ⟨type, rules⟩ := f
  rw [Field.cast, Field.cast]
  split
  · case isTrue hnull =>
    obtain rfl : v = .null := by cases v <;> first | rfl | cases hnull
    split
    · case isTrue hn => exact h.logic.result (.inl ⟨rfl, hn, rfl⟩)
    · exact h.logic.cast
  · case isFalse hnull =>
    have hne : v ≠ .null := by
      rintro rfl
      exact hnull rfl
    exact h.logic.mono (ht ctx ctx' v hctx hv hne) fun w hw => .inr ⟨hne, hw⟩

theorem single_cast (h : Study J K law W T D) {t : FieldType} (ht : t.isStructural = false) (hv : W v)
    (hne : v ≠ .null) : J (T t v) (t.cast ctx v) (t.cast ctx' v) := by
  rcases t.cast_single ht v with ⟨w, hw, heq⟩ | hfail
  · rw [heq, heq]
    exact h.logic.result (h.single hv hne hw)
  · obtain ⟨e, he⟩ := hfail ctx
    obtain ⟨e', he'⟩ := hfail ctx'
    rw [he, he']
    exact h.logic.cast

end Study

end Cast

open Cast Cast.Study

section Casts

variable {J : ∀ {α : Type}, (α → Prop) → Cast α → Cast α → Prop} 
    
  

mutual

theorem FieldType.study_cast (h : Study J K law W T D) :
    (t : FieldType) → t.Meets law → ∀ ctx ctx' v, K ctx ctx' → W v →
    v ≠ .null → J (T t v) (t.cast ctx v) (t.cast ctx' v)
  | .string, _, _, _, _, _, hv, hne | .number, _, _, _, _, _, hv, hne | .boolean, _, _, _, _, _, hv, hne
  | .date, _, _, _, _, _, hv, hne | .id _, _, _, _, _, _, hv, hne | .mixed, _, _, _, _, _, hv, hne =>
    h.single_cast rfl hv hne
  | .array el, ht, ctx, ctx', v, hctx, hv, _ => by
    rw [FieldType.cast, FieldType.cast]
    refine h.logic.mono (h.array_cast (el.study_cast h (FieldType.Meets.element (.inl ht))) hctx hv) ?_
    rintro _ ⟨ws, rfl, hlen, hws⟩
    exact h.array ht rfl rfl hv hlen hws
  | .map el, ht, ctx, ctx', v, hctx, hv, _ => by
    rw [FieldType.cast, FieldType.cast]
    cases v with
    | obj fields =>
      refine h.logic.bind (h.entries_cast (el.study_cast h (FieldType.Meets.element (.inr ht))) hctx (h.fields hv)) ?_
      exact fun es hes => h.logic.result (h.map (FieldType.Meets.element (.inr ht)) hv hes.1 hes.2)
    | null | bool | num | str | arr => exact h.logic.cast
  | .embedded sub, ht, ctx, ctx', v, hctx, hv, _ => by
    rw [FieldType.cast, FieldType.cast]
    exact sub.study_cast h (FieldType.Meets.sub (.inl ht)) ctx ctx' v hctx hv
  | .documentArray sub, ht, ctx, ctx', v, hctx, hv, _ => by
    rw [FieldType.cast, FieldType.cast]
    have hitem : ∀ ctx ctx' v, K ctx ctx' → W v → J ((Field.ofSub sub).Casts T v)
        (if v.isNull then pure .null else sub.cast ctx v) (if v.isNull then pure .null else sub.cast ctx' v) := by
      have hfield : Holds J K W T (Field.ofSub sub) := h.field_cast fun ctx ctx' v hctx hv _ => by
        rw [Field.ofSub, Field.plain, FieldType.cast, FieldType.cast]
        exact sub.study_cast h (FieldType.Meets.sub (.inr ht)) ctx ctx' v hctx hv
      simp only [Holds, Field.ofSub, Field.plain, Field.cast, FieldType.cast] at hfield
      exact hfield
    refine h.logic.mono (h.array_cast hitem hctx hv) ?_
    rintro _ ⟨ws, rfl, hlen, hws⟩
    exact h.array ht rfl rfl hv hlen hws

theorem Field.study_cast (h : Study J K law W T D) : (f : Field) → f.Meets law → Holds J K W T f
  | ⟨type, _⟩, hf => h.field_cast (type.study_cast h hf.type)

theorem SubSchema.study_cast (h : Study J K law W T D) : (sub : SubSchema) → sub.Meets law → ∀ ctx ctx' v, K ctx ctx' →
    W v → J (T (.embedded sub) v) (sub.cast ctx v) (sub.cast ctx' v)
  | ⟨base, variants⟩, hs, _, _, _, hctx, hv =>
    h.sub_cast hs (base.study_cast h hs.base) (Schema.study_variants h variants fun _ he => hs.variant he) hctx hv

theorem Schema.study_variants (h : Study J K law W T D) : (variants : List (String × Schema)) →
    (∀ e ∈ variants, e.2.Meets law) → ∀ e ∈ variants, HoldsAlong J K law W D e.2
  | [], _ => fun _ he => absurd he not_mem_nil
  | (_, s) :: rest, hs => by
    obtain ⟨hs, hrest⟩ := forall_mem_cons.mp hs
    exact forall_mem_cons.mpr ⟨s.study_cast h hs, Schema.study_variants h rest hrest⟩

theorem Schema.study_cast (h : Study J K law W T D) : (s : Schema) → s.Meets law → HoldsAlong J K law W D s
  | ⟨options, declared, virtuals⟩, hs => by
    intro sub ctx ctx' fields ht hctx
    have hf := Schema.study_fields h declared fun e he => hs.field he
    rw [Schema.cast, Schema.cast]
    exact h.logic.bind (h.keys_cast ht hf hctx fields Path.root _ (fun e he => Offers.here.inside he) (.inl rfl) (h.empty ht))
      fun out hout => h.defaults_cast ht hf hctx (fun e he => he) hout

theorem Schema.study_fields (h : Study J K law W T D) : (declared : List (Path × Field)) →
    (∀ e ∈ declared, e.2.Meets law) → ∀ e ∈ declared, Holds J K W T e.2
  | [], _ => fun _ he => absurd he not_mem_nil
  | (_, f) :: rest, hd => by
    obtain ⟨hf, hrest⟩ := forall_mem_cons.mp hd
    exact forall_mem_cons.mpr ⟨f.study_cast h hf, Schema.study_fields h rest hrest⟩

end

variable {f : Field}

theorem Field.study_accept (h : Study J K law W T D) (hf : f.Meets law) (hctx : K ctx ctx') (hv : W v) :
    J (fun w => ∃ v', (f.rules.setters = [] → v' = v) ∧ W v' ∧ f.Casts T v' w) (f.accept ctx v) (f.accept ctx' v) :=
  h.accept_cast hf.rules (f.study_cast h hf) hctx hv

theorem Field.study_default (h : Study J K law W T D) (hf : f.Meets law) (hctx : K ctx ctx') (view view' : View)
    (hraw : J (fun o => ∀ x, o = some x → W x) (rawDefault f view ctx) (rawDefault f view' ctx')) :
    J (fun o => ∀ y, o = some y → ∃ x, W x ∧ f.Casts T x y) (f.default? view ctx) (f.default? view' ctx') :=
  h.default_cast hf.rules (f.study_cast h hf) hctx hraw

end Casts

theorem Value.keepName_of_unnamed {input : Value} (h : ¬ ∃ name, input.field? key = some (.str name)) :
    input.keepName key out = out := by
  unfold Value.keepName
  split
  · case _ hname => exact absurd ⟨_, hname⟩ h
  · rfl

theorem Value.canonical_keepName {input : Value} (h : out.Canonical) : (input.keepName key out).Canonical := by
  unfold Value.keepName
  split
  · case _ name fields _ =>
    have hset : (Value.setFrom [] (.str name) [.key key] (.obj fields)).2.Canonical :=
      hereditary_canonical.setFrom h trivial
    rwa [setFrom_cons_of_openFields rfl] at hset
  · exact h

theorem Field.Casts.canonical {C : Prop} {f : Field} {w : Value} (h : f.Casts (fun _ _ w => C → w.Canonical) v w) :
    C → w.Canonical := by
  rcases h with ⟨-, -, rfl⟩ | ⟨-, h⟩
  · exact fun _ => trivial
  · exact h

-- It suffices to look at setters and defaults. If `C` holds, the keys of objects are given in order, and stay so.
theorem Cast.study_of_logic {J : ∀ {α : Type}, (α → Prop) → Cast α → Cast α → Prop} {law : SchemaLaw} (C : Prop)
    (hJ : Logic J) (hmode : ∀ {ctx ctx'}, K ctx ctx' → ctx.strict = ctx'.strict)
    (hpart : ∀ {ctx ctx'} (r : Path), K ctx ctx' →
      K { ctx with path := ctx.path ++ r, prior := none } { ctx' with path := ctx'.path ++ r, prior := none })
    (hinner : ∀ {ctx ctx'}, K ctx ctx' →
      K { ctx with root := ctx.path, prior := none } { ctx' with root := ctx'.path, prior := none })
    (hset : ∀ {f : Field} {ctx ctx' v}, law (.rules f.rules) → K ctx ctx' → (C → v.Canonical) →
      J (fun w => C → w.Canonical) (setters f.rules ctx v) (setters f.rules ctx' v))
    (hraw : ∀ {f : Field} (view : View) {ctx ctx'}, law (.rules f.rules) → K ctx ctx' → (C → view.value.Canonical) →
      J (fun o => ∀ x, o = some x → C → x.Canonical) (rawDefault f view ctx) (rawDefault f view ctx')) :
    Study J K law (fun v => C → v.Canonical) (fun _ _ w => C → w.Canonical) (fun _ _ _ out => C → out.Canonical) :=
  have written {out out' y : Value} {rel : Path} (ho : C → out.Canonical) (hy : C → y.Canonical)
      (hset : out.set rel y = (.ok (), out')) : C → out'.Canonical := fun hC => by
    rw [show out' = (out.set rel y).2 by rw [hset]]
    exact hereditary_canonical.setFrom (ho hC) (hy hC)
  { logic := hJ
    mode := hmode
    part := hpart
    inner := hinner
    items := fun h v hv hC => hereditary_canonical.arr.mp (h hC) v hv
    fields := fun h e he hC => (hereditary_canonical.obj.mp (h hC)).2 e he
    setters := hset
    raw := hraw { value := _, isNew := true }
    single := fun hv _ hr hC => by
      cases hr with
      | string | number | blank | boolean | date => trivial
      | id | mixed => exact hv hC
    array := fun _ _ _ _ hlen hws hC =>
      hereditary_canonical.arr.mpr (forall_of_zip hlen hws fun _ he => he.canonical hC)
    map := fun {_ _ es} _ hv hkeys hes hC => by
      obtain ⟨hsorted, -⟩ := hereditary_canonical.obj.mp (hv hC)
      have hsorted' : (es.map (·.1)).Pairwise (compare · · = .lt) := hkeys ▸ pairwise_map.mpr hsorted
      refine hereditary_canonical.obj.mpr ⟨pairwise_map.mp hsorted', ?_⟩
      exact forall_of_zip (by simpa using congrArg List.length hkeys) hes fun _ he => he.canonical hC
    embedded := fun _ ho hC => canonical_keepName (ho hC)
    empty := fun _ _ => hereditary_canonical.obj.mpr ⟨.nil, by simp⟩
    write := fun _ ho _ hset _ _ _ hy => written ho hy.canonical hset
    null := fun _ ho _ _ _ _ hset => written ho (fun _ => hereditary_canonical.null) hset
    loose := fun _ ho _ _ _ _ _ hx hset => written ho hx hset }

-- What setters ask for

-- Whatever a setter is given, it names siblings of one kind.
def SchemaLaw.siblings (A : Path → Prop) : SchemaLaw
  | .rules r => ∀ setter ∈ r.setters, ∀ input v, ∀ e ∈ (setter input v).siblings, A e.1
  | _ => True

theorem SchemaLaw.siblings_of_noSetters {part : SchemaPart} (h : noSetters part) : siblings A part := by
  cases part with
  | rules r =>
    have hr : r.setters = [] := h
    simp [siblings, hr]
  | variants | paths => trivial

-- In a context, siblings of the kind `A` are at paths of the kind `Q`, also those that belong to the parts
-- of the value.
structure CastContext.Leads (ctx : CastContext) (A Q : Path → Prop) : Prop where
  root : ∀ q, A q → Q (ctx.root ++ q)
  path : ∀ r q, A q → Q (ctx.path ++ r ++ q)

theorem CastContext.Leads.part {ctx : CastContext} (h : ctx.Leads A Q) (r : Path) :
    { ctx with path := ctx.path ++ r, prior := none }.Leads A Q where
  root := h.root
  path r' q hq := by
    rw [append_assoc ctx.path]
    exact h.path (r ++ r') q hq

theorem CastContext.Leads.inner {ctx : CastContext} (h : ctx.Leads A Q) :
    { ctx with root := ctx.path, prior := none }.Leads A Q where
  root q hq := by simpa using h.path [] q hq
  path := h.path

namespace Cast

theorem study_asks {A : Path → Prop} : Study (fun P c _ => Yields (fun a => Q a.1) c P)
    (fun ctx ctx' => ctx = ctx' ∧ ctx.Leads A Q) (.siblings A) (fun v => False → v.Canonical)
    (fun _ _ w => False → w.Canonical) (fun _ _ _ out => False → out.Canonical) :=
  study_of_logic False logic_yields (fun h => h.1 ▸ rfl) (fun r h => ⟨h.1 ▸ rfl, h.2.part r⟩)
    (fun h => ⟨h.1 ▸ rfl, h.2.inner⟩)
    (fun hr h => setters_yields (W := fun w => False → w.Canonical) fun setter hm v _ =>
      ⟨False.elim, fun e he => h.2.root _ (hr setter hm _ v e he)⟩)
    fun _ _ _ _ _ _ => (rawDefault_gives (fun _ _ => False.elim) (fun _ _ _ _ => False.elim) fun _ => False.elim).yields

end Cast

section Asked

namespace Field

variable {f : Field}

theorem cast_yields (h : f.Meets (.siblings A)) (hc : ctx.Leads A Q) :
    Yields (fun a => Q a.1) (f.cast ctx v) fun _ => True :=
  (f.study_cast study_asks h ctx ctx v ⟨rfl, hc⟩ False.elim).mono fun _ _ => trivial

theorem accept_yields (h : f.Meets (.siblings A)) (hc : ctx.Leads A Q) :
    Yields (fun a => Q a.1) (f.accept ctx v) fun _ => True :=
  (f.study_accept study_asks h ⟨rfl, hc⟩ False.elim).mono fun _ _ => trivial

theorem accept_eq_cast (h : f.rules.setters = []) : f.accept ctx v = f.cast ctx v := by
  rw [accept, Caster.accept, caster, setters_eq_pure h, pure_bind]

theorem siblings_of_noSetters (h : f.Meets .noSetters) : f.Meets (.siblings fun _ => False) :=
  fun part hp => SchemaLaw.siblings_of_noSetters (h part hp)

theorem cast_quiet (h : f.Meets .noSetters) (ctx : CastContext) (v : Value) : Gives (f.cast ctx v) fun _ => True :=
  gives_iff.mpr (cast_yields (Q := fun _ => False) (siblings_of_noSetters h) ⟨by simp, by simp⟩)

theorem accept_quiet (h : f.Meets .noSetters) (e : Effects) : ((f.accept ctx v).outcome e).2.queue = e.queue :=
  (gives_iff.mpr (accept_yields (v := v) (Q := fun _ => False) (siblings_of_noSetters h) ⟨by simp, by simp⟩) e).1

theorem cast_appends (f : Field) (ctx : CastContext) (v : Value) :
    Yields (fun _ => True) (f.cast ctx v) fun _ => True := by
  have hf : f.Meets (.siblings fun _ => True) := fun part _ => by cases part <;> simp [SchemaLaw.siblings]
  exact cast_yields (Q := fun _ => True) hf ⟨fun _ _ => trivial, fun _ _ _ => trivial⟩

end Field

end Asked

end Dossier

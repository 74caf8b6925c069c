import Dossier.Proofs.Schema
import Dossier.Proofs.Scopes

-- Attaching adds scopes one after the other, outer ones first, each with a link to the scope around it.

namespace Dossier

open Path List

-- Embedded documents

def Scope.made (origin : Origin) (parent : Option ScopeKey) (root : Path) (schema : Schema) (value : Value) : Scope where
  root := root
  schema := schema
  parent := parent
  tracker := schema.seedTracker value origin.state
  isNew := origin.isNew

section

variable {parent : Option ScopeKey} {root : Path} {s : Scopes}

theorem Schema.attachVariant_eq {name : String} :
    Schema.attachVariant parent origin root value s name vs =
      match Entries.get? name vs with
      | some schema => schema.attach parent origin root value s
      | none => s := by
  induction vs with
  | nil => rw [Schema.attachVariant]; rfl
  | cons e vs ih =>
    obtain ⟨k, schema⟩ := e
    rw [Schema.attachVariant, ih, Entries.get?]
    split <;> rfl

theorem SubSchema.attach_eq {sub : SubSchema} : sub.attach parent origin root value s =
    (sub.selectOrBase (some value)).attach parent origin root value s := by
  obtain ⟨base, variants⟩ := sub
  rw [SubSchema.attach, SubSchema.selectOrBase, SubSchema.select]
  cases hv : variant? ⟨base, variants⟩ (some value) with
  | error => rfl
  | ok name =>
    cases name with
    | none => rfl
    | some name =>
      have hsome := variant?_isSome hv
      dsimp only
      rw [Schema.attachVariant_eq]
      cases hg : Entries.get? name variants with
      | some schema => simp only [named, Option.bind_some, hg]
      | none => rw [hg] at hsome; cases hsome

theorem Schema.attach_eq {schema : Schema} : schema.attach parent origin root value s =
    Schema.attachFields (some (s.insert (.made origin parent root schema value)).1) origin root value
      (s.insert (.made origin parent root schema value)).2 schema.fields := by
  obtain ⟨options, fields, virtuals⟩ := schema
  rw [Schema.attach]
  rfl

theorem Field.attach_eq {f : Field} : f.attach parent origin root v s = f.type.attach parent origin root v s := by
  obtain ⟨type, rules⟩ := f
  rw [Field.attach]

end

theorem FieldType.sizeOf_field {t : FieldType} {v : Option Value} (hs : t.sub? = some sub)
    (hf : (p, f) ∈ (sub.selectOrBase v).fields) : sizeOf f.type < sizeOf t := by
  have hsub : sizeOf sub < sizeOf t := by
    cases t with
    | embedded | documentArray => cases hs; simp
    | string | number | boolean | date | id | mixed | array | map => cases hs
  have hschema : sizeOf (sub.selectOrBase v) < sizeOf sub := by
    rcases sub.selectOrBase_cases v with he | ⟨name, hm⟩
    · rw [he]
      cases sub
      simp only [SubSchema.mk.sizeOf_spec]
      omega
    · have := sizeOf_lt_of_mem hm
      cases sub
      simp only [SubSchema.mk.sizeOf_spec, Prod.mk.sizeOf_spec] at *
      omega
  have hfield : sizeOf f < sizeOf (sub.selectOrBase v) := by
    have := sizeOf_lt_of_mem hf
    generalize sub.selectOrBase v = schema at *
    cases schema
    simp only [Schema.mk.sizeOf_spec, Prod.mk.sizeOf_spec] at *
    omega
  have htype : sizeOf f.type < sizeOf f := by
    cases f
    simp only [Field.mk.sizeOf_spec]
    omega
  omega

-- What attaching keeps

namespace Scopes

-- A property `J` of scopes that adding one keeps, provided that its root and parent are `Ok` and its root has a
-- field of embedded documents. `Fits` says which types fields have.
structure Attachable (origin : Origin) (J : Scopes → Prop)
    (Ok : Scopes → Path → Option ScopeKey → Prop) (Fits : FieldType → Path → Prop) : Prop where
  below  : ∀ {s r q o}, Ok s r o → Ok s (r ++ q) o
  fields : ∀ {sub : SubSchema} {schema r p f}, Fits (.embedded sub) r →
    schema = sub.base ∨ (∃ name, (name, schema) ∈ sub.variants) → (p, f) ∈ schema.fields →
      Fits f.type (r ++ p)
  items  : ∀ {sub r i}, Fits (.documentArray sub) r → Fits (.embedded sub) (r.index i)
  insert : ∀ {s sub} (scope : Scope), J s → Ok s scope.root scope.parent → scope.isNew = origin.isNew →
    Fits (.embedded sub) scope.root → J (s.insert scope).2 ∧
      Ok (s.insert scope).2 scope.root (some (s.insert scope).1) ∧
      ∀ r o, Ok s r o → Ok (s.insert scope).2 r o

-- What attaching needs of a property `J` of scopes. A scope is added where this is `Ok`, and what stands `Off` its
-- root stays `Ok`. The fields of a document stand off each other, as do the items of an array. `Fits` says which
-- values of which types are at places.
structure Grafting (origin : Origin) (J : Scopes → Prop) (Ok : Scopes → Path → Option ScopeKey → Prop)
    (Fits : FieldType → Path → Option Value → Prop) (Off : Path → Path → Prop) : Prop where
  below  : ∀ {r p q}, Off r q → Off (r ++ p) q
  apart  : ∀ {r : Path} {i j}, i < j → Off (r.index i) (r.index j)
  item   : ∀ {s r o i}, Ok s r o → Ok s (r.index i) o
  items  : ∀ {sub r items i w}, Fits (.documentArray sub) r (some (.arr items)) → items[i]? = some w →
    Fits (.embedded sub) (r.index i) (some w)
  fields : ∀ {sub r w}, Fits (.embedded sub) r (some w) →
    (∀ e ∈ (sub.selectOrBase (some w)).fields, Fits e.2.type (r ++ e.1) (w.get? e.1)) ∧
      (sub.selectOrBase (some w)).fields.Pairwise fun a b => Off (r ++ a.1) (r ++ b.1)
  insert : ∀ {s sub r o w}, Fits (.embedded sub) r (some w) → J s → Ok s r o →
    let added := s.insert (.made origin o r (sub.selectOrBase (some w)) w)
    J added.2 ∧ (∀ e ∈ (sub.selectOrBase (some w)).fields, Ok added.2 (r ++ e.1) (some added.1)) ∧
      ∀ q o', Off r q → Ok s q o' → Ok added.2 q o'

-- The property holds after a step, and whatever was fine for a new scope at certain places still is.
def KeptAt (J : Scopes → Prop) (Ok : Scopes → Path → Option ScopeKey → Prop) (R : Path → Prop) (s s' : Scopes) : Prop :=
  J s' ∧ ∀ r o, R r → Ok s r o → Ok s' r o

def Kept (J : Scopes → Prop) (Ok : Scopes → Path → Option ScopeKey → Prop) (s s' : Scopes) : Prop :=
  J s' ∧ ∀ r o, Ok s r o → Ok s' r o

end Scopes

open Scopes

section

variable {origin : Origin} {J : Scopes → Prop} {Ok : Scopes → Path → Option ScopeKey → Prop} {Off : Path → Path → Prop}
  {s : Scopes} {root : Path} {parent : Option ScopeKey}

theorem Scopes.keptAt_refl (h : J s) : KeptAt J Ok R s s :=
  ⟨h, fun _ _ _ ho => ho⟩

theorem Scopes.forDocuments_keptAt {attach : Scopes → Path → Value → Scopes} {n : Nat}
    (h : ∀ s i fs, vs[i]? = some (.obj fs) → J s → Ok s (root.index (n + i)) parent →
      KeptAt J Ok (Off (root.index (n + i))) s (attach s (root.index (n + i)) (.obj fs)))
    (hoff : ∀ {i j}, i < j → Off (root.index i) (root.index j)) (hj : J s)
    (ho : ∀ i, n ≤ i → Ok s (root.index i) parent) :
    KeptAt J Ok (fun q => ∀ i, n ≤ i → Off (root.index i) q) s (forDocuments attach root s n vs) := by
  induction vs generalizing s n with
  | nil => exact keptAt_refl hj
  | cons v vs ih =>
    have htail : ∀ s i fs, vs[i]? = some (.obj fs) → J s → Ok s (root.index (n + 1 + i)) parent →
        KeptAt J Ok (Off (root.index (n + 1 + i))) s (attach s (root.index (n + 1 + i)) (.obj fs)) := by
      intro s i fs hi
      rw [Nat.add_right_comm n 1 i]
      exact h s (i + 1) fs hi
    rw [forDocuments]
    cases v with
    | obj fs =>
      have hfirst := h s 0 fs rfl hj (ho n (Nat.le_refl n))
      have hrest := ih htail hfirst.1 fun i hi => hfirst.2 _ _ (hoff hi) (ho i (Nat.le_of_lt hi))
      exact ⟨hrest.1, fun q o hq hok => hrest.2 q o (fun i hi => hq i (Nat.le_of_lt hi))
        (hfirst.2 q o (hq n (Nat.le_refl n)) hok)⟩
    | arr | null | bool | num | str =>
      have hrest := ih htail hj fun i hi => ho i (Nat.le_of_lt hi)
      exact ⟨hrest.1, fun q o hq => hrest.2 q o fun i hi => hq i (Nat.le_of_lt hi)⟩

theorem Schema.attachFields_keptAt {fields : List (Path × Field)}
    (h : ∀ e ∈ fields, ∀ s, J s → Ok s (root ++ e.1) parent →
      KeptAt J Ok (Off (root ++ e.1)) s (e.2.attach parent origin (root ++ e.1) (value.get? e.1) s))
    (hoff : fields.Pairwise fun a b => Off (root ++ a.1) (root ++ b.1)) (hj : J s)
    (ho : ∀ e ∈ fields, Ok s (root ++ e.1) parent) :
    KeptAt J Ok (fun q => ∀ e ∈ fields, Off (root ++ e.1) q) s (Schema.attachFields parent origin root value s fields) := by
  induction fields generalizing s with
  | nil =>
    rw [Schema.attachFields]
    exact keptAt_refl hj
  | cons e fields ih =>
    obtain ⟨hhead, htail⟩ := forall_mem_cons.mp h
    obtain ⟨hoff₁, hoff⟩ := pairwise_cons.mp hoff
    obtain ⟨ho₁, ho⟩ := forall_mem_cons.mp ho
    rw [Schema.attachFields]
    have hfirst := hhead s hj ho₁
    have hrest := ih htail hoff hfirst.1 fun b hb => hfirst.2 _ _ (hoff₁ b hb) (ho b hb)
    refine ⟨hrest.1, fun q o hq hok => ?_⟩
    obtain ⟨hq₁, hq⟩ := forall_mem_cons.mp hq
    exact hrest.2 q o hq (hfirst.2 q o hq₁ hok)

theorem FieldType.attach_keptAt (h : Grafting origin J Ok Fits Off) (t : FieldType) {v : Option Value}
    (hf : Fits t root v) (hj : J s) (ho : Ok s root parent) :
    KeptAt J Ok (Off root) s (t.attach parent origin root v s) := by
  induction hn : sizeOf t using Nat.strongRecOn generalizing t parent root v s with
  | _ n ih =>
    -- A document is attached with those in its fields.
    have hdoc : ∀ {sub r w s}, t.sub? = some sub → Fits (.embedded sub) r (some w) → J s → Ok s r parent →
        KeptAt J Ok (Off r) s (sub.attach parent origin r w s) := by
      intro sub r w s hsub hf hj ho
      rw [SubSchema.attach_eq, Schema.attach_eq]
      obtain ⟨hfits, hoff⟩ := h.fields hf
      obtain ⟨hj', ho', hkeep⟩ := h.insert hf hj ho
      have hrest := @Schema.attachFields_keptAt origin J Ok Off _ _ _ _ _ (fun e he s hj ho => by
        rw [Field.attach_eq]
        exact ih _ (hn ▸ sizeOf_field hsub he) _ (hfits e he) hj ho rfl) hoff hj' ho'
      exact ⟨hrest.1, fun q o hq hok => hrest.2 q o (fun _ _ => h.below hq) (hkeep q o hq hok)⟩
    cases t with
    | embedded sub =>
      unfold FieldType.attach
      split
      · exact hdoc rfl hf hj ho
      · exact keptAt_refl hj
    | documentArray sub =>
      unfold FieldType.attach
      split
      · have hitems : KeptAt J Ok _ s (forDocuments (fun s r w => sub.attach parent origin r w s) root s 0 _) :=
          forDocuments_keptAt (fun s i fs hi hj ho => hdoc rfl (by rw [Nat.zero_add]; exact h.items hf hi) hj ho)
            h.apart hj fun i _ => h.item ho
        exact ⟨hitems.1, fun q o hq => hitems.2 q o fun i _ => h.below hq⟩
      · exact keptAt_refl hj
    | string | number | boolean | date | id | mixed | array | map =>
      simp only [FieldType.attach]
      exact keptAt_refl hj

theorem Scopes.attachItems_keptAt (h : Grafting origin J Ok Fits Off) {n : Nat}
    (hf : ∀ i fs, items[i]? = some (.obj fs) → Fits (.embedded sub) (root.index (n + i)) (some (.obj fs))) (hj : J s)
    (ho : ∀ i, n ≤ i → Ok s (root.index i) parent) :
    KeptAt J Ok (fun q => ∀ i, n ≤ i → Off (root.index i) q) s (s.attachItems sub root n items parent origin) :=
  forDocuments_keptAt (fun s i fs hi hj ho => by
    simpa only [FieldType.attach] using (FieldType.embedded sub).attach_keptAt h (hf i fs hi) hj ho) h.apart hj ho

end

section

variable {s : Scopes} {root : Path} {parent : Option ScopeKey}

theorem Scopes.Attachable.grafting (h : Attachable origin J Ok Fits) :
    Grafting origin J Ok (fun t r _ => Fits t r) fun _ _ => True where
  below _ := trivial
  apart _ := trivial
  item := h.below
  items hf _ := h.items hf
  fields hf := ⟨fun _ he => h.fields hf (SubSchema.selectOrBase_cases _ _) he, pairwise_of_forall fun _ _ => trivial⟩
  insert hf hj ho :=
    have ⟨hj', ho', hkeep⟩ := h.insert (.made origin _ _ _ _) hj ho rfl hf
    ⟨hj', fun _ _ => h.below ho', fun q o _ => hkeep q o⟩

theorem Field.attach_keeps (h : Attachable origin J Ok Fits) (f : Field) (parent : Option ScopeKey) (root : Path)
    (value : Option Value) (s : Scopes) (hf : Fits f.type root) (hj : J s) (ho : Ok s root parent) :
    Kept J Ok s (f.attach parent origin root value s) := by
  rw [Field.attach_eq]
  have hkept := f.type.attach_keptAt h.grafting (v := value) hf hj ho
  exact ⟨hkept.1, fun r o => hkept.2 r o trivial⟩

theorem Scopes.attachItems_keeps (h : Attachable origin J Ok Fits) {n : Nat} (hf : Fits (.documentArray sub) root)
    (hj : J s) (ho : Ok s root parent) : Kept J Ok s (s.attachItems sub root n items parent origin) :=
  have hkept := attachItems_keptAt h.grafting (fun _ _ _ => h.items hf) hj fun _ _ => h.below ho
  ⟨hkept.1, fun r o => hkept.2 r o fun _ _ => trivial⟩

end

namespace Scopes

def All (Q : Scope → Prop) (s : Scopes) : Prop :=
  ∀ k scope, s.get? k = some scope → Q scope

theorem All.insert {s : Scopes} (h : s.All Q) (ht : s.Tidy) (hq : Q scope) : (s.insert scope).2.All Q := by
  intro k scope' hs
  rw [get?_insert ht] at hs
  split at hs
  · cases hs; exact hq
  · exact h k scope' hs

section

variable {s : Scopes} {q : Path}

-- The scopes that are attached at a path have their roots there or below.
theorem attachable_all (hq : ∀ scope : Scope, scope.isNew = origin.isNew → q.covers scope.root → Q scope) :
    Attachable origin (fun s => s.Tidy ∧ s.All Q) (fun _ _ _ => True) fun _ r => q.covers r where
  below _ := trivial
  fields h _ _ := covers_trans h (covers_append _ _)
  items h := covers_trans h (covers_append _ _)
  insert scope hj _ hn hf := ⟨⟨hj.1.insert, hj.2.insert hj.1 (hq scope hn hf)⟩, trivial, fun _ _ _ => trivial⟩

theorem all_attachField (ht : s.Tidy) (h : s.All Q)
    (hq : ∀ scope : Scope, scope.isNew = origin.isNew → q.covers scope.root → Q scope) :
    (s.attachField f q x o origin).Tidy ∧ (s.attachField f q x o origin).All Q :=
  (f.attach_keeps (attachable_all hq) o q x s (covers_refl q) ⟨ht, h⟩ trivial).1

theorem all_attachItems (ht : s.Tidy) (h : s.All Q)
    (hq : ∀ scope : Scope, scope.isNew = origin.isNew → q.covers scope.root → Q scope) :
    (s.attachItems sub q n items o origin).All Q :=
  (attachItems_keeps (attachable_all hq) (covers_refl q) ⟨ht, h⟩ trivial).1.2

end

theorem attachable_sound (origin : Origin) : Attachable origin (Sound full) (Around · full) fun _ _ => True where
  below h := h.below
  fields _ _ _ := trivial
  items _ := trivial
  insert _ hj ho _ _ := hj.insert ho

theorem Sound.innermost {s : Scopes} (h : s.Sound full) : s.Around full p (s.innermost? p) := by
  cases hk : s.innermost? p with
  | none => exact around_none
  | some k =>
    obtain ⟨a, ha, hkey⟩ := exists_of_findSome?_eq_some hk
    have habove := (mem_ancestors_iff.mp (mem_reverse.mp ha)).2
    obtain ⟨r, -, rfl⟩ := isAbove_iff.mp habove
    exact (h.linked a k hkey).below

theorem Sound.attachField {s : Scopes} (h : s.Sound full) {root : Path} (ho : s.Around full root parent) :
    (s.attachField f root value parent origin).Sound full :=
  (f.attach_keeps (attachable_sound _) parent root value s trivial h ho).1

theorem Sound.attachItems {s : Scopes} (h : s.Sound full) (ho : s.Around full path parent) :
    (s.attachItems sub path n items parent origin).Sound full :=
  (attachItems_keeps (attachable_sound _) trivial h ho).1

end Scopes
end Dossier

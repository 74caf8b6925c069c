import Dossier.Proofs.Ways

-- What schemas the scopes at roots have, and how that changes when scopes are added, removed and moved.

namespace Dossier

open Path

namespace Scopes

variable {s : Scopes} {p : Path}

-- Schemas at roots

def schemaAt? (s : Scopes) (r : Path) : Option Schema :=
  ((s.keyAt? r).bind s.get?).map (·.schema)

def Filed (s : Scopes) : Prop :=
  ∀ k scope, s.get? k = some scope → s.keyAt? scope.root = some k

theorem schemaAt?_eq_none (h : s.keyAt? r = none) : s.schemaAt? r = none := by
  rw [schemaAt?, h]
  rfl

theorem Rooted.keyAt?_eq_none (hr : s.Rooted) (h : s.schemaAt? r = none) : s.keyAt? r = none := by
  cases hk : s.keyAt? r with
  | none => rfl
  | some k =>
    obtain ⟨scope, hs, -⟩ := hr r k hk
    rw [schemaAt?, hk, Option.bind_some, hs] at h
    cases h

theorem Filed.schemaAt?_eq_some_iff (hf : s.Filed) (hr : s.Rooted) : s.schemaAt? r = some t ↔
    ∃ k scope, s.get? k = some scope ∧ scope.root = r ∧ scope.schema = t := by
  constructor
  · intro h
    cases hk : s.keyAt? r with
    | none =>
      rw [schemaAt?_eq_none hk] at h
      cases h
    | some k =>
      obtain ⟨scope, hs, hroot⟩ := hr r k hk
      rw [schemaAt?, hk, Option.bind_some, hs] at h
      cases h
      exact ⟨k, scope, hs, hroot, rfl⟩
  · rintro ⟨k, scope, hs, rfl, rfl⟩
    rw [schemaAt?, hf k scope hs, Option.bind_some, hs]
    rfl

-- Scopes that differ at most in their trackers, and in whether they are new.
structure Alike (s s' : Scopes) : Prop where
  keys   : ∀ r, s'.keyAt? r = s.keyAt? r
  scopes : ∀ k, (s'.get? k).map (fun c => (c.root, c.schema)) = (s.get? k).map fun c => (c.root, c.schema)

namespace Alike

theorem refl : Alike s s :=
  ⟨fun _ => rfl, fun _ => rfl⟩

theorem trans {s'' : Scopes} (h : Alike s s') (h' : Alike s' s'') : Alike s s'' :=
  ⟨fun r => (h'.keys r).trans (h.keys r), fun k => (h'.scopes k).trans (h.scopes k)⟩

theorem modify {g : Scope → Tracker} : Alike s (s.modify k fun scope => { scope with tracker := g scope }) := by
  refine ⟨fun r => keyAt?_modify, fun k' => ?_⟩
  rw [get?_modify]
  split
  · case isTrue he =>
    rw [he, Option.map_map]
    rfl
  · rfl

theorem mapAll {g : Scope → Scope} (hg : ∀ c, (g c).root = c.root ∧ (g c).schema = c.schema) :
    Alike s (s.mapAll g) := by
  refine ⟨fun r => rfl, fun k => ?_⟩
  rw [get?_mapAll, Option.map_map]
  congr 1
  funext c
  simp [hg c]

theorem schemaAt? (h : Alike s s') : s'.schemaAt? r = s.schemaAt? r := by
  rw [Scopes.schemaAt?, Scopes.schemaAt?, h.keys]
  cases s.keyAt? r with
  | none => rfl
  | some k =>
    have := congrArg (Option.map Prod.snd) (h.scopes k)
    simpa [Option.map_map, Function.comp_def] using this

theorem filed (h : Alike s s') (hf : s.Filed) : s'.Filed := by
  intro k scope' hs'
  have hk := h.scopes k
  rw [hs', Option.map_some] at hk
  obtain ⟨scope, hs, he⟩ := Option.map_eq_some_iff.mp hk.symm
  have hroot : scope.root = scope'.root := congrArg Prod.fst he
  rw [h.keys, ← hroot]
  exact hf k scope hs

end Alike

-- Adding scopes

theorem Rooted.get?_insert (hr : s.Rooted) (ht : s.Tidy) (hk : s.keyAt? r = some k) :
    (s.insert scope).2.get? k = s.get? k := by
  rw [Scopes.get?_insert ht, if_neg]
  rintro rfl
  obtain ⟨old, hold, -⟩ := hr r _ hk
  rw [get?_insert_key ht] at hold
  cases hold

theorem Rooted.insert (hr : s.Rooted) (ht : s.Tidy) : (s.insert scope).2.Rooted := by
  intro r k hk
  rw [keyAt?_insert] at hk
  split at hk
  · case isTrue hroot =>
    cases hk
    exact ⟨scope, by rw [Scopes.get?_insert ht, if_pos rfl], hroot⟩
  · rw [hr.get?_insert ht hk]
    exact hr r k hk

theorem schemaAt?_insert (ht : s.Tidy) (hr : s.Rooted) :
    (s.insert scope).2.schemaAt? r = if scope.root = r then some scope.schema else s.schemaAt? r := by
  rw [schemaAt?, keyAt?_insert]
  split
  · rw [Option.bind_some, get?_insert ht, if_pos rfl]
    rfl
  · cases hk : s.keyAt? r with
    | none => rw [schemaAt?_eq_none hk]; rfl
    | some k => rw [Option.bind_some, hr.get?_insert ht hk, schemaAt?, hk, Option.bind_some]

theorem Filed.insert (hf : s.Filed) (ht : s.Tidy) (hv : s.keyAt? scope.root = none) : (s.insert scope).2.Filed := by
  intro k c hc
  rw [keyAt?_insert]
  rw [get?_insert ht] at hc
  split at hc
  · case isTrue he =>
    cases hc
    rw [if_pos rfl, he]
  · have hk := hf k c hc
    rw [if_neg, hk]
    rintro he
    rw [← he, hv] at hk
    cases hk

section

theorem Adds.schemaAt? (h : Adds P s s') (ht : s.Tidy) (hr : s.Rooted) : s'.schemaAt? r = s.schemaAt? r ∨
    ∃ scope, P scope ∧ scope.root = r ∧ s'.schemaAt? r = some scope.schema := by
  induction h with
  | none => exact .inl rfl
  | @insert s s' scope hp _ ih =>
    rcases ih ht.insert (hr.insert ht) with he | hnew
    · rw [he, schemaAt?_insert ht hr]
      split
      · case isTrue hroot => exact .inr ⟨scope, hp, hroot, rfl⟩
      · exact .inl rfl
    · exact .inr hnew

theorem Gains.schemaAt?_iff {E : Path → Schema → Prop} (h : Gains P (fun r => ∃ t, E r t) s s') (ht : s.Tidy)
    (hr : s.Rooted) (hP : ∀ scope, P scope → E scope.root scope.schema) (hE : ∀ r t t', E r t → E r t' → t = t')
    (hv : ∀ r t, E r t → s.schemaAt? r = none) : s'.schemaAt? r = some t ↔ s.schemaAt? r = some t ∨ E r t := by
  rcases h.adds.schemaAt? ht hr (r := r) with he | ⟨scope, hp, rfl, he⟩
  · rw [he]
    refine ⟨.inl, fun h' => h'.elim id fun hrt => ?_⟩
    -- The root got a scope, so it had one before.
    obtain ⟨k, c, hk, hc, hroot, -⟩ := h.has r ⟨t, hrt⟩
    have hsome : s'.schemaAt? r = some c.schema := by
      rw [schemaAt?, hk, Option.bind_some, hc]
      rfl
    rw [he, hv r t hrt] at hsome
    cases hsome
  · have hrt := hP scope hp
    rw [he, hv _ _ hrt]
    constructor
    · rintro ⟨⟩
      exact .inr hrt
    · rintro (h' | h')
      · cases h'
      · exact congrArg some (hE _ _ _ hrt h')

theorem graftable_filed : Graftable origin (fun s => s.Tidy ∧ s.Filed) (fun s r _ => s.Vacant r) fun _ _ => True where
  field _ := trivial
  item h q hq := h q (covers_trans (covers_append _ _) hq)
  insert {s r o v schema} hj ho _ hw := by
    refine ⟨⟨hj.1.insert, hj.2.insert hj.1 (ho r (covers_refl r))⟩, fun e he q hq => ?_⟩
    rw [keyAt?_insert, if_neg, ho q (covers_trans (covers_append _ _) hq)]
    rintro rfl
    have hne := (hw.declared he).1
    exact not_covers_of_isAbove (isAbove_iff.mpr ⟨e.1, hne, rfl⟩) hq
  frame {s r q o scope} _ ho ha hq a hra := by
    rw [keyAt?_insert, if_neg, ho a hra]
    rintro rfl
    exact (covers_total hq hra).elim ha.1 ha.2

theorem Filed.attachField {f : Field} (hs : s.Filed) (ht : s.Tidy) (hf : f.Meets .wellFormed) (hv : s.Vacant p) :
    (s.attachField f p v parent origin).Filed :=
  (graftable_filed.attachField hf trivial ⟨ht, hs⟩ hv).2

theorem Filed.attachItems {sub : SubSchema} (hs : s.Filed) (ht : s.Tidy) (hf : sub.Meets .wellFormed)
    (hv : ∀ i, n ≤ i → s.Vacant (p.index i)) : (s.attachItems sub p n vs parent origin).Filed :=
  (graftable_filed.attachItems hf ⟨ht, hs⟩ hv).2

end

-- Removing and moving scopes

theorem schemaAt?_removeBelow (h : s.Sound false) :
    (s.removeBelow p).schemaAt? r = if p.covers r then none else s.schemaAt? r := by
  have hkey := (removeBelow_spec h.tidy h.rooted (p := p)).2.2.2 r
  by_cases hc : p.covers r
  · rw [if_pos hc, schemaAt?_eq_none (by rw [hkey, if_pos hc])]
  · rw [if_neg hc] at hkey ⊢
    rw [schemaAt?, schemaAt?, hkey]
    cases hk : s.keyAt? r with
    | none => rfl
    | some k =>
      obtain ⟨scope, hs, rfl⟩ := h.rooted r k hk
      rw [Option.bind_some, Option.bind_some, hs, get?_removeBelow h.tidy h.rooted hs fun _ => hc]

theorem Filed.removeBelow (hf : s.Filed) (h : s.Sound false) : (s.removeBelow p).Filed := by
  intro k scope hs
  have hkey := (removeBelow_spec h.tidy h.rooted (p := p)).2.2.2
  have hk := hf k scope (get?_removeBelow_of_some h.tidy h.rooted hs)
  rw [hkey]
  split
  · case isTrue hc =>
    -- The scope would have been removed.
    rw [(removeBelow_spec h.tidy h.rooted).2.2.1 k, if_pos] at hs
    · cases hs
    · exact List.mem_map.mpr ⟨(scope.root, k), List.mem_filter.mpr ⟨keyAt?_iff_mem.mp hk, hc⟩, rfl⟩
  · exact hk

section Moved

theorem schemaAt?_moved (h : s.Sound false) (hv : s.Vacant (p.index j)) (x : Path) :
    (s.rekey (p.index i) (p.index j)).schemaAt? (p.index j ++ x) = s.schemaAt? (p.index i ++ x) := by
  rw [schemaAt?, schemaAt?, keyAt?_moved h hv]
  cases hk : s.keyAt? (p.index i ++ x) with
  | none => rfl
  | some k =>
    rw [Option.bind_some, Option.bind_some, (rekey_spec h.tidy h.rooted).2.2.1 x k hk, Option.map_map]
    rfl

theorem schemaAt?_unmoved (h : s.Sound false) (hj : ¬ (p.index j).covers r) :
    (s.rekey (p.index i) (p.index j)).schemaAt? r = if (p.index i).covers r then none else s.schemaAt? r := by
  have hkey := keyAt?_unmoved h hj (i := i)
  by_cases hi : (p.index i).covers r
  · rw [if_pos hi, schemaAt?_eq_none (by rw [hkey, if_pos hi])]
  · rw [if_neg hi] at hkey ⊢
    rw [schemaAt?, schemaAt?, hkey]
    cases hk : s.keyAt? r with
    | none => rfl
    | some k =>
      rw [Option.bind_some, Option.bind_some, (rekey_spec h.tidy h.rooted).2.1 k fun r' hr' => ?_]
      rwa [h.rooted.eq_of_keyAt? hr' hk]

theorem Filed.move (hf : s.Filed) (h : s.Sound false) (hv : s.Vacant (p.index j)) :
    (s.rekey (p.index i) (p.index j)).Filed := by
  intro k scope hs
  by_cases hm : ∃ x, s.keyAt? (p.index i ++ x) = some k
  · obtain ⟨x, hx⟩ := hm
    rw [(rekey_spec h.tidy h.rooted).2.2.1 x k hx] at hs
    obtain ⟨before, -, rfl⟩ := Option.map_eq_some_iff.mp hs
    exact (keyAt?_moved h hv x).trans hx
  · have hout : ∀ r, s.keyAt? r = some k → ¬ (p.index i).covers r := by
      intro r hr hc
      obtain ⟨x, rfl⟩ := covers_iff.mp hc
      exact hm ⟨x, hr⟩
    rw [(rekey_spec h.tidy h.rooted).2.1 k hout] at hs
    have hk := hf k scope hs
    have hj : ¬ (p.index j).covers scope.root := fun hj => by
      rw [hv _ hj] at hk
      cases hk
    rw [keyAt?_unmoved h hj, if_neg (hout _ hk), hk]

end Moved
end Scopes

namespace Document

variable {schema : Schema} {d d' : Document}

-- Changes of trackers

theorem alike_eachTracker {g : Path → Tracker → Tracker} : d.scopes.Alike (d.eachTracker p g).scopes :=
  List.foldlRecOn (motive := fun s => d.scopes.Alike s) _ _ .refl fun _ h _ _ => h.trans .modify

theorem alike_markModified : d.scopes.Alike (d.markModified p).scopes := by
  refine List.foldlRecOn (motive := fun ms : Path × Scopes => d.scopes.Alike ms.2) _ _ .refl fun ms h k _ => ?_
  dsimp only
  split
  · exact h
  · exact h.trans .modify

-- Charted documents

-- Except for the paths of the kind `R`, at which nothing is known, the scopes of a document are those of the
-- documents in its value, each with the schema that its value selects.
structure ChartedBut (schema : Schema) (R : Path → Prop) (d : Document) : Prop where
  sound  : d.Sound
  filed  : d.scopes.Filed
  vacant : ∀ r, R r → d.scopes.keyAt? r = none
  scopes : ∀ r t, ¬ R r → (d.scopes.schemaAt? r = some t ↔ schema.DocumentAt d.value r t)
  schema : d.schema = schema

def Charted (schema : Schema) (d : Document) : Prop :=
  d.ChartedBut schema fun _ => False

namespace ChartedBut

section

variable (h : d.ChartedBut schema R)

include h

theorem schemaAt? (hr : R r) : d.scopes.schemaAt? r = none :=
  Scopes.schemaAt?_eq_none (h.vacant r hr)

theorem of_alike (hs : d'.Sound) (hschema : d'.schema = d.schema) (hv : d'.value = d.value)
    (ha : d.scopes.Alike d'.scopes) : d'.ChartedBut schema R where
  sound := hs
  schema := hschema.trans h.schema
  filed := ha.filed h.filed
  vacant r hr := (ha.keys r).trans (h.vacant r hr)
  scopes r t hr := by
    rw [ha.schemaAt?, hv]
    exact h.scopes r t hr

theorem congr (hR : ∀ r, (R r ↔ R' r) ∨ ∀ t, ¬ schema.DocumentAt d.value r t) : d.ChartedBut schema R' := by
  have hnone : ∀ r, (∀ t, ¬ schema.DocumentAt d.value r t) → d.scopes.schemaAt? r = none := by
    intro r hno
    by_cases hr : R r
    · exact h.schemaAt? hr
    · cases ht : d.scopes.schemaAt? r with
      | none => rfl
      | some t => exact absurd ((h.scopes r t hr).mp ht) (hno t)
  refine ⟨h.sound, h.filed, fun r hr' => ?_, fun r t hr' => ?_, h.schema⟩
  · rcases hR r with hiff | hno
    · exact h.vacant r (hiff.mpr hr')
    · exact h.sound.scopes.rooted.keyAt?_eq_none (hnone r hno)
  · rcases hR r with hiff | hno
    · exact h.scopes r t fun hr => hr' (hiff.mp hr)
    · rw [hnone r hno]
      exact iff_of_false (fun he => by cases he) (hno t)

theorem charted (hR : ∀ r t, R r → ¬ schema.DocumentAt d.value r t) : d.Charted schema := by
  refine h.congr fun r => ?_
  by_cases hr : R r
  · exact .inr fun t => hR r t hr
  · exact .inl (iff_of_false hr id)

theorem filled (hs : s.Sound false) (hf : s.Filed)
    (hscopes : ∀ r t, s.schemaAt? r = some t ↔ d.scopes.schemaAt? r = some t ∨ R r ∧ schema.DocumentAt d.value r t) :
    Charted schema { d with scopes := s } where
  sound := h.sound.withScopes hs
  schema := h.schema
  filed := hf
  vacant _ := False.elim
  scopes r t _ := by
    rw [hscopes]
    by_cases hr : R r
    · rw [h.schemaAt? hr]
      simp [hr]
    · rw [h.scopes r t hr]
      simp [hr]

end

variable (h : d.ChartedBut schema (p.covers ·)) (hw : schema.Meets .wellFormed) (ha : d.Apt p)

include h hw ha

theorem set (hp : p ≠ []) (hok : (d.value.set p x).1 = .ok ()) :
    ChartedBut schema (p.covers ·) { d with value := (d.value.set p x).2 } := by
  refine ⟨h.sound.set hp, h.filed, h.vacant, fun r t hr => ?_, h.schema⟩
  have hdoc := ha.documentAt_set (s := t) (h.schema ▸ hw) hok hr
  rw [h.schema] at hdoc
  exact (h.scopes r t hr).trans hdoc.symm

theorem write (hp : p ≠ []) (hok : (d.value.set p x).1 = .ok ()) : (d.write p x).2.ChartedBut schema (p.covers ·) := by
  refine (h.set hw ha hp hok).of_alike (h.sound.write hp) ?_ ?_ ?_ <;> rw [write_eq]
  exact .refl

theorem attachField (hf : d.resolve p = .field f)
    (hs : (d.scopes.attachField f p (d.get? p) parent origin).Sound false) :
    Charted schema { d with scopes := d.scopes.attachField f p (d.get? p) parent origin } := by
  obtain rfl := h.schema
  have hm : f.Meets .wellFormed := resolve_meets hw trivial hf
  have hiff : ∀ {r t}, p.covers r → (d.schema.DocumentAt d.value r t ↔ ∃ w, f.type.Embeds p (d.get? p) r t w) :=
    fun hc => Schema.documentAt_below_iff hw ha.bounded ha.through hf hc
  have hgains : Scopes.Gains (fun scope => ∃ w, f.type.Embeds p (d.get? p) scope.root scope.schema w)
      (fun r => ∃ t w, f.type.Embeds p (d.get? p) r t w) d.scopes
      (d.scopes.attachField f p (d.get? p) parent origin) :=
    Scopes.attachField_gains (fun he => ⟨_, he⟩) h.sound.scopes.tidy
  refine h.filled hs (h.filed.attachField h.sound.scopes.tidy hm h.vacant) fun r t => ?_
  rw [Scopes.Gains.schemaAt?_iff (E := fun r t => ∃ w, f.type.Embeds p (d.get? p) r t w) hgains h.sound.scopes.tidy
    h.sound.scopes.rooted (fun _ he => he) ?_ ?_]
  · refine or_congr_right ⟨?_, fun hr => (hiff hr.1).mp hr.2⟩
    rintro ⟨w, he⟩
    have hc := he.covers hm.type
    exact ⟨hc, (hiff hc).mpr ⟨w, he⟩⟩
  · rintro r t t' ⟨w, he⟩ ⟨w', he'⟩
    exact (he.unique he' hm.type).1
  · rintro r t ⟨w, he⟩
    exact h.schemaAt? (he.covers hm.type)

theorem written (hp : p ≠ [])
    (hno : (d.value.set p x).1 = .ok () → ∀ r t, p.covers r → ¬ schema.DocumentAt (d.value.set p x).2 r t) :
    (d.write p x).2.Charted schema := by
  have hvalue : (d.write p x).2.value = (d.value.set p x).2 := by rw [write_eq]
  cases hok : (d.value.set p x).1 with
  | ok => exact (h.write hw ha hp hok).charted (by rw [hvalue]; exact fun r t => hno hok r t)
  | error e =>
    -- The write has failed before it came to its path.
    obtain ⟨hsame, hnone⟩ := Value.setFrom_of_error hok
    have hd : (d.write p x).2.ChartedBut schema (p.covers ·) := by
      refine h.of_alike (h.sound.write hp) ?_ (hvalue.trans hsame) ?_ <;> rw [write_eq]
      exact .refl
    refine hd.charted fun r t hc => ?_
    rw [hvalue, Value.set, hsame]
    exact Schema.not_documentAt_of_none hnone hc

end ChartedBut

namespace Charted

variable (h : d.Charted schema)

include h

theorem openChanges : d.openChanges.Charted schema := by
  refine h.of_alike h.sound.openChanges ?_ ?_ ?_ <;> rw [openChanges_eq]
  exact .refl

theorem reported {issues : Option Issues} : Charted schema { d with issues } :=
  h.of_alike (stable_sound.reported h.sound) rfl rfl .refl

theorem markModified : (d.markModified p).Charted schema :=
  h.of_alike h.sound.markModified rfl rfl alike_markModified

theorem noted : (d.noteArrayOp p g).Charted schema :=
  h.of_alike h.sound.noted rfl rfl .refl

theorem detached : (d.detached p).ChartedBut schema (p.covers ·) := by
  have halike : d.scopes.Alike (d.clearTracking p).scopes := alike_eachTracker
  have hs : (d.clearTracking p).scopes.Sound false := eachTracker_scopes h.sound.scopes
  have hfiled := (halike.filed h.filed).removeBelow hs (p := p)
  refine ⟨h.sound.detached, hfiled, Scopes.vacant_removeBelow hs, fun r t hr => ?_, h.schema⟩
  have he : (d.detached p).scopes.schemaAt? r = d.scopes.schemaAt? r := by
    rw [Document.detached, Scopes.schemaAt?_removeBelow hs, if_neg hr, halike.schemaAt?]
  rw [he]
  exact h.scopes r t id

theorem cleared (hR : ∀ r t, R r → ¬ schema.DocumentAt d.value r t) : d.ChartedBut schema R := by
  refine ChartedBut.congr h fun r => ?_
  by_cases hr : R r
  · exact .inr fun t => hR r t hr
  · exact .inl (iff_of_false id hr)

end Charted

-- Writes along apt paths

open Edit

-- A charted document in which what is on the way to a path is as it was. No changes were opened.
structure Onward (schema : Schema) (p : Path) (d₀ d : Document) : Prop where
  charted : d.Charted schema
  steady  : Steady p d₀ d
  backup  : d.backup = d₀.backup

namespace Onward

theorem refl (h : d.Charted schema) : Onward schema p d d :=
  ⟨h, .refl, rfl⟩

variable (h : Onward schema p d₀ d)

include h

theorem same (hd : d'.Charted schema) (hv : d'.value = d.value) (hb : d'.backup = d.backup) : Onward schema p d₀ d' :=
  ⟨hd, h.steady.trans (.of_value (hd.schema.trans h.charted.schema.symm) hv), hb.trans h.backup⟩

theorem trans (h' : Onward schema q d d') (hc : p.covers q) : Onward schema p d₀ d' :=
  ⟨h'.charted, h.steady.trans (h'.steady.of_covers hc), h'.backup.trans h.backup⟩

theorem reported {issues : Option Issues} : Onward schema p d₀ { d with issues } :=
  h.same h.charted.reported rfl rfl

theorem markValid : Onward schema p d₀ (d.markValid q) := by
  obtain ⟨issues, he⟩ := markValid_eq d q
  exact he ▸ h.reported

theorem markModified : Onward schema p d₀ (d.markModified q) :=
  h.same h.charted.markModified rfl rfl

theorem noted {g : ArrayOps → ArrayOps} : Onward schema p d₀ (d.noteArrayOp q g) :=
  h.same h.charted.noted rfl rfl

end Onward

theorem Apt.steady_write (h : d.Apt p) : Steady p d (d.write p x).2 := by
  apply h.steady_set (x := x) <;> rw [write_eq]

theorem isStructural_of_documentAt (hw : d.schema.Meets .wellFormed) (ha : d.Apt p) (hf : d.resolve p = .field f)
    (hc : p.covers r) (h : d.schema.DocumentAt d.value r t) : f.type.isStructural := by
  obtain ⟨w, he⟩ := (Schema.documentAt_below_iff hw ha.bounded ha.through hf hc).mp h
  cases he with
  | here hh | inner hh =>
    obtain ⟨sub, hsub, -⟩ := hh.sub?
    generalize f.type = t at hsub
    cases t with
    | embedded | documentArray => rfl
    | string | number | boolean | date | id | mixed | array | map => cases hsub

section

variable (h : d.Charted schema) (hw : schema.Meets .wellFormed) (ha : d.Apt p)

include h hw ha

theorem Charted.storeField (hf : d.resolve p = .field f) :
    Onward schema p d ((Edit.storeField p f (d.get? p) x opts).outcome ⟨d, effects⟩).2.doc := by
  have hp := ne_nil_of_resolve hf
  refine storeField_rec (I := Onward schema p d) (J := fun d' =>
      d'.ChartedBut schema (p.covers ·) ∧ d'.value = d.value ∧ d'.backup = d.backup)
    (.refl h) (Onward.refl h).markValid (fun _ => ⟨h.detached, rfl, rfl⟩)
    (fun hs => ⟨h.cleared fun r t hc hdoc => ?_, rfl, rfl⟩)
    (fun {d' e} hd herr => ?_) fun {d' modifies} hd hok => ?_
  · rw [← h.schema] at hdoc hw
    exact hs (isStructural_of_documentAt hw ha hf hc hdoc)
  all_goals
    obtain ⟨hd, hv, hb⟩ := hd
    have hsame : Steady p d d' := .of_value (hd.schema.trans h.schema.symm) hv
    have ha' := ha.of_steady hsame
    have hsteady : Steady p d (d'.write p x).2 := hsame.trans ha'.steady_write
    have hbackup : (d'.write p x).2.backup = d.backup := by rw [write_eq, ← hb]
  · refine ⟨hd.written hw ha' hp fun hok => ?_, hsteady, hbackup⟩
    rw [write_eq] at herr
    rw [hok] at herr
    cases herr
  · have hset : (d'.value.set p x).1 = .ok () := by rwa [write_eq] at hok
    have hwritten := hd.write hw ha' hp hset
    have haw := ha.of_steady hsteady
    have hfw : (d'.write p x).2.resolve p = .field f := (hsteady.resolve p (covers_refl p)).trans hf
    refine settled_rec (fun _ => ?_) (fun hs => ⟨hwritten.charted fun r t hc hdoc => ?_, hsteady, hbackup⟩) (·.noted)
      (·.markModified) (·.markValid)
    · have hattached := hwritten.attachField hw haw hfw hwritten.sound.attached.scopes
      exact ⟨hattached, hsteady.trans (.of_value rfl rfl), hbackup⟩
    · rw [← hwritten.schema] at hdoc hw
      exact hs (isStructural_of_documentAt hw haw hfw hc hdoc)

theorem Charted.taken (hp : p ≠ []) (hr : d.resolve p = .inMixed ∨ d.resolve p = .undeclared) :
    Onward schema p d (d.write p x).2 := by
  have hsteady : Steady p d (d.write p x).2 := ha.steady_write
  have hno : ∀ {v}, schema.resolve v p = d.resolve p → ∀ r t, p.covers r → ¬ schema.DocumentAt v r t :=
    fun hv r t hc => Schema.not_documentAt_of_resolve hw hp (by rwa [hv]) hc
  refine ⟨(h.cleared (hno ?_)).written hw ha hp fun _ => hno ?_, hsteady, by rw [write_eq]⟩
  · rw [Document.resolve, h.schema]
  · have := hsteady.resolve p (covers_refl p)
    rw [write_eq] at this
    rw [← this, Document.resolve, ← h.schema]

theorem Charted.emptied (hp : p ≠ []) (hr : d.resolve p = .nested) (hx : x = .null ∨ x = .obj []) :
    Onward schema p d ((d.detached p).write p x).2 := by
  have hsame : Steady p d (d.detached p) := .of_value rfl rfl
  have ha' := ha.of_steady hsame
  have hsteady : Steady p d ((d.detached p).write p x).2 := hsame.trans ha'.steady_write
  refine ⟨h.detached.written hw ha' hp fun hok r t hc => ?_, hsteady, by rw [write_eq]; rfl⟩
  refine Schema.not_documentAt_of_emptied hw hp ?_ ?_ hc
  · have := hsteady.resolve p (covers_refl p)
    rw [write_eq] at this
    rw [← hr, ← this, Document.resolve, ← h.schema]
    rfl
  · have hget := Value.get?_setFrom_self hok
    exact hx.imp (fun hx => hget.trans (congrArg some hx)) fun hx => hget.trans (congrArg some hx)

end

theorem course_onward (hw : schema.Meets .wellFormed) :
    Course fun p _ s s' => s.doc.Charted schema → s.doc.Apt p → Onward schema p s.doc s'.doc where
  refl h _ := .refl h
  field hf h ha := by
    rw [outcome_setField]
    split
    · exact (Onward.refl h).reported
    · exact .refl h
    · exact h.storeField hw ha hf
  taken hp hr h ha := h.taken hw ha hp hr
  emptied hp hr hx h ha := h.emptied hw ha hp hr hx
  marked _ _ hd h ha := (hd h ha).markModified
  reported hd h ha := (hd h ha).reported
  inner {p s _ _ _ _ _} hr _ hd hin h ha := by
    have hs := hd h ha
    refine hs.trans (hin hs.charted ((ha.of_steady hs.steady).key fun f => ?_)) (covers_append p _)
    rw [hs.steady.resolve p (covers_refl p)]
    rcases hr with rfl | hr
    · exact fun hf => by cases hf
    · simp [hr]

end Document
end Dossier

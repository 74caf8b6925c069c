import Dossier.Proofs.Nesting
import Dossier.Proofs.References

-- What is written elsewhere does not change where a path leads, unless it tells which variant a document around
-- the path is.

namespace Dossier

open Path Value List

-- Ways out

namespace Scopes

variable {s s' : Scopes} {k : ScopeKey} {f r : Path}

theorem chain_succ (s : Scopes) (n : Nat) (o : Option ScopeKey) :
    s.chain (n + 1) o = s.chain n o ∨ ∃ k, s.chain (n + 1) o = s.chain n o ++ [k] := by
  induction n generalizing o with
  | zero => cases o <;> simp [chain]
  | succ n ih =>
    cases o with
    | none => simp [chain]
    | some k =>
      have hcons : ∀ n, s.chain (n + 1) (some k) = k :: s.chain n ((s.get? k).bind (·.parent)) := fun _ => rfl
      rw [hcons, hcons]
      rcases ih ((s.get? k).bind (·.parent)) with h | ⟨k', h⟩ <;> simp [h]

theorem chain_subset {m : Nat} (h : n ≤ m) : s.chain n o ⊆ s.chain m o := by
  induction h with
  | refl => exact fun _ => id
  | @step m _ ih =>
    intro k hk
    rcases s.chain_succ m o with h | ⟨k', h⟩ <;> simp [h, ih hk]

theorem mem_chain_succ {k' : ScopeKey} (hk : k ∈ s.chain n o) (hk' : (s.get? k).bind (·.parent) = some k') :
    k' ∈ s.chain (n + 1) o := by
  induction n generalizing o with
  | zero => simp [chain] at hk
  | succ n ih =>
    cases o with
    | none => simp [chain] at hk
    | some k₀ =>
      rw [chain] at hk ⊢
      rcases mem_cons.mp hk with rfl | hk
      · rw [hk']
        simp [chain]
      · exact mem_cons_of_mem _ (ih hk)

theorem chain_subset_of_closed {ks : List ScopeKey} (ho : ∀ k, o = some k → k ∈ ks)
    (hks : ∀ k ∈ ks, ∀ k', (s.get? k).bind (·.parent) = some k' → k' ∈ ks) : s.chain n o ⊆ ks := by
  induction n generalizing o with
  | zero => simp [chain]
  | succ n ih =>
    cases o with
    | none => simp [chain]
    | some k =>
      rw [chain, cons_subset]
      exact ⟨ho k rfl, ih fun k' hk' => hks k (ho k rfl) k' hk'⟩

theorem mem_owners_of_chain (h : s.Sound full) (hk : k ∈ s.chain n (s.innermost? p)) : k ∈ s.owners p := by
  by_contra hout
  -- As long as the chain misses a scope it gets longer by one that it does not have yet.
  have hgrows : ∀ m, m ≤ s.slots.length + 1 → (s.chain m (s.innermost? p)).Nodup ∧
      (s.chain m (s.innermost? p)).length = m := by
    intro m hm
    induction m with
    | zero => simp [chain]
    | succ m ih =>
      obtain ⟨hn, hl⟩ := ih (by omega)
      have hnew : ¬ s.chain (m + 1) (s.innermost? p) ⊆ s.chain m (s.innermost? p) := by
        intro hsub
        have hall : s.chain n (s.innermost? p) ⊆ s.chain m (s.innermost? p) := by
          refine chain_subset_of_closed (fun k₀ hk₀ => hsub ?_) fun a ha b hb => hsub (mem_chain_succ ha hb)
          simp [hk₀, chain]
        exact hout (chain_subset (by omega) (hall hk))
      rcases s.chain_succ m (s.innermost? p) with he | ⟨k', he⟩
      · exact absurd (he ▸ fun _ => id) hnew
      · rw [he]
        refine ⟨nodup_append.mpr ⟨hn, by simp, ?_⟩, by simp [hl]⟩
        rintro a ha b hb rfl
        rw [mem_singleton] at hb
        subst hb
        refine hnew ?_
        rw [he]
        simp [ha]
  obtain ⟨hn, hl⟩ := hgrows _ (Nat.le_refl _)
  have hle := length_le_slots hn fun k hk => by
    obtain ⟨scope, hs, -⟩ := h.innermost _ k hk
    exact ⟨scope, hs⟩
  omega

theorem exists_of_innermost? (h : s.innermost? p = some k) : ∃ r : Path, r.isAbove p ∧ s.keyAt? r = some k := by
  obtain ⟨r, hr, hk⟩ := exists_of_findSome?_eq_some h
  exact ⟨r, (mem_ancestors_iff.mp (mem_reverse.mp hr)).2, hk⟩

-- None of the scopes on the way out from a path is new.
def Aged (s : Scopes) (f : Path) : Prop :=
  ∀ n, ∀ k ∈ s.chain n (s.innermost? f), ∀ scope, s.get? k = some scope → scope.isNew = false

theorem chain_eq_of_links (h : s.Around full r o)
    (hg : ∀ k scope, s.get? k = some scope → (s.Counts full k scope → scope.root.covers r) →
      ∃ scope', s'.get? k = some scope' ∧ scope'.parent = scope.parent) : s'.chain n o = s.chain n o := by
  induction n generalizing o with
  | zero => rfl
  | succ n ih =>
    cases o with
    | none => rfl
    | some k =>
      obtain ⟨scope, hs, hc, hp⟩ := around_some_iff.mp h
      obtain ⟨scope', hs', hparent⟩ := hg k scope hs hc
      rw [chain, chain, hs, hs', Option.bind_some, Option.bind_some, hparent, ih hp]

section

variable (h : s.Aged f) (hs : s.Sound full)

include h hs

theorem Aged.of_kept (hk : ∀ r, r.isAbove f → s'.keyAt? r = s.keyAt? r)
    (hg : ∀ k scope, s.get? k = some scope → (s.keyAt? scope.root = some k → scope.root.isAbove f) → ∃ scope', s'.get? k = some scope' ∧ scope'.parent = scope.parent ∧ scope'.isNew = scope.isNew) :
    s'.Aged f := by
  intro n k hmem scope' hs'
  rw [innermost?_congr hk] at hmem
  cases ho : s.innermost? f with
  | none =>
    rw [ho] at hmem
    cases n <;> simp [chain] at hmem
  | some k₀ =>
    obtain ⟨r, hr, hkr⟩ := exists_of_innermost? ho
    have hkept := fun k scope (hs : s.get? k = some scope) (hc : s.Counts full k scope → scope.root.covers r) =>
      hg k scope hs fun hkey => isAbove_of_covers_isAbove (hc (.inl hkey)) hr
    have haround := hs.linked r k₀ hkr
    rw [ho, chain_eq_of_links haround fun k scope hs hc =>
      (hkept k scope hs hc).imp fun _ h => ⟨h.1, h.2.1⟩] at hmem
    obtain ⟨scope, hscope, hc⟩ := haround n k hmem
    obtain ⟨_, he, -, hnew⟩ := hkept k scope hscope hc
    rw [hs', Option.some_inj] at he
    rw [he, hnew]
    exact h n k (ho ▸ hmem) scope hscope

theorem Aged.modify {g : Scope → Tracker} : (s.modify k fun scope => { scope with tracker := g scope }).Aged f := by
  refine h.of_kept hs (fun _ _ => keyAt?_modify) fun k' scope hs _ => ?_
  rw [get?_modify]
  split
  · case isTrue hk =>
    rw [← hk, hs]
    exact ⟨_, rfl, rfl, rfl⟩
  · exact ⟨scope, hs, rfl, rfl⟩

theorem Aged.removeBelow (hp : ¬ p.isAbove f) : (s.removeBelow p).Aged f := by
  refine h.of_kept hs (fun r hr => ?_) fun k scope hscope hroot => ?_
  · rw [(removeBelow_spec hs.tidy hs.rooted).2.2.2, if_neg fun hc => hp (isAbove_of_covers_isAbove hc hr)]
  · exact ⟨scope, get?_removeBelow hs.tidy hs.rooted hscope fun hkey hc =>
      hp (isAbove_of_covers_isAbove hc (hroot hkey)), rfl, rfl⟩

theorem Aged.insert (hp : ¬ scope.root.isAbove f) : (s.insert scope).2.Aged f := by
  refine h.of_kept hs (fun r hr => ?_) fun k scope' hscope _ => ⟨scope', ?_, rfl, rfl⟩
  · rw [keyAt?_insert, if_neg fun he : scope.root = r => hp (he ▸ hr)]
  · have hne : k ≠ (s.insert scope).1 := by
      rintro rfl
      simp [get?_insert_key hs.tidy] at hscope
    rw [get?_insert hs.tidy, if_neg hne, hscope]

end

theorem attachable_aged (origin : Origin) : Attachable origin (fun s => s.Sound full ∧ s.Aged f)
    (fun s r o => s.Around full r o ∧ ¬ r.isAbove f) fun _ _ => True where
  below h := ⟨h.1.below, fun ha => h.2 (isAbove_of_covers_isAbove (covers_append _ _) ha)⟩
  fields _ _ _ := trivial
  items _ := trivial
  insert _ hj ho _ _ := by
    obtain ⟨hs, hkey, hkeep⟩ := hj.1.insert ho.1
    exact ⟨⟨hs, hj.2.insert hj.1 ho.2⟩, ⟨hkey, ho.2⟩, fun r o h => ⟨hkeep r o h.1, h.2⟩⟩

end Scopes

-- Documents that are not new at a path

namespace Document

variable {d : Document} {f : Path}

theorem isNewAt_eq_false_iff (h : d.scopes.Sound full) : d.isNewAt f = false ↔ d.isNew = false ∧ d.scopes.Aged f := by
  simp only [isNewAt, Bool.or_eq_false_iff, any_eq_false]
  refine and_congr_right fun _ => ⟨fun hnew n k hk scope hs => ?_, fun haged k hk => ?_⟩
  · have hk := hnew k (Scopes.mem_owners_of_chain h hk)
    rw [hs] at hk
    simpa using hk
  · split
    · case _ scope hs => simp [haged _ k hk scope hs]
    · simp

end Document
-- What resolution reads

theorem SubSchema.selectOrBase_eq {sub : SubSchema}
    (h : o.bind (·.field? sub.discriminatorKey) = o'.bind (·.field? sub.discriminatorKey)) :
    sub.selectOrBase o = sub.selectOrBase o' := by
  simp only [selectOrBase, select, variant?, h]

theorem Value.get?_key {v : Value} : v.get? (r.key k) = (v.get? r).bind (·.field? k) := by
  rw [Path.key, get?_append]
  cases v.get? r with
  | none => rfl
  | some x =>
    cases x with
    | obj fields => 
      simp only [Option.bind_some, get?, child?, field?, Seg.toKey]
      cases Entries.get? k fields <;> rfl
    | null | bool | num | str | arr => rfl

namespace Cursor

-- Places that the same way leads to in two documents. They differ in what the documents have there, which is found
-- by paths of the same text as the way.
inductive Paired (a b : Value) (x : List String) : Cursor → Cursor → Prop
  | schema {s q r} : (r ++ q).map Seg.toKey = x → Paired a b x (.schema s q (a.get? r)) (.schema s q (b.get? r))
  | field {f r} : r.map Seg.toKey = x → Paired a b x (.field f (a.get? r)) (.field f (b.get? r))
  | inMixed : Paired a b x .inMixed .inMixed
  | lost : Paired a b x .lost .lost

theorem Paired.resolution (h : Paired a b x c c') : c.resolution = c'.resolution := by
  cases h <;> rfl

theorem Paired.stepSchema (h : (r ++ q).map Seg.toKey = x) :
    Paired a b (x ++ [seg.toKey]) (stepSchema s q (a.get? r) seg) (stepSchema s q (b.get? r) seg) := by
  have hx : (r ++ q.key seg.toKey).map Seg.toKey = x ++ [seg.toKey] := by
    rw [← h]
    simp [Path.key, Seg.toKey]
  simp only [Cursor.stepSchema]
  split
  · rw [← get?_append, ← get?_append]
    exact .field hx
  · split
    · exact .schema hx
    · exact .lost

theorem Paired.step (h : Paired a b x c c')
    (hsel : ∀ f sub r, c.resolution = .field f → f.type = .embedded sub → r.map Seg.toKey = x →
      sub.selectOrBase (a.get? r) = sub.selectOrBase (b.get? r)) :
    Paired a b (x ++ [seg.toKey]) (c.step seg) (c'.step seg) := by
  cases h with
  | schema hx => exact Paired.stepSchema hx
  | inMixed => exact .inMixed
  | lost => exact .lost
  | @field f r hx =>
    refine step_field₂ (fun _ => rfl) .inMixed .lost (fun sub hs => ?_) fun el _ => ?_
    · rw [hsel f sub r rfl hs hx]
      exact Paired.stepSchema (by simpa [Path.root] using hx)
    · rw [← get?_concat, ← get?_concat]
      exact .field (by simp [hx])

end Cursor

theorem Schema.resolve_congr {schema : Schema}
    (h : ∀ y fld sub r, y.isAbove f → schema.resolve a y = .field fld → fld.type = .embedded sub →
      r.map Seg.toKey = y.map Seg.toKey → sub.selectOrBase (a.get? r) = sub.selectOrBase (b.get? r)) (hx : x.covers f) :
    schema.resolve a x = schema.resolve b x := by
  suffices h : Cursor.Paired a b (x.map Seg.toKey) (x.foldl Cursor.step (.schema schema Path.root (some a)))
      (x.foldl Cursor.step (.schema schema Path.root (some b))) from h.resolution
  induction x using List.reverseRecOn with
  | nil =>
    have hroot := Cursor.Paired.schema (a := a) (b := b) (s := schema) (q := []) (r := []) rfl
    rw [get?_nil, get?_nil] at hroot
    exact hroot
  | append_singleton x seg ih =>
    have habove : Path.isAbove x f := isAbove_of_isAbove_covers (isAbove_iff.mpr ⟨[seg], by simp, rfl⟩) hx
    rw [foldl_append, foldl_append, map_append]
    exact Cursor.Paired.step (ih (covers_of_isAbove habove)) fun g sub r hg hs hr => h x g sub r habove hg hs hr

namespace Document

variable {d : Document} {f : Path}

-- A key that tells which variant an embedded document around a path is.
def Governs (d : Document) (f g : Path) : Prop :=
  ∃ x fld sub, x.isAbove f ∧ d.resolve x = .field fld ∧ fld.type = .embedded sub ∧ sub.variants ≠ [] ∧
    g = x.key sub.discriminatorKey

theorem resolve_set (hp : ∀ g, d.Governs f g → p.Distinct g) (v : Value) {x : Path} (hx : x.covers f) :
    d.schema.resolve (d.value.set p v).2 x = d.resolve x := by
  refine (Schema.resolve_congr (fun y g sub r habove hg hs hr => ?_) hx).symm
  by_cases hv : sub.variants = []
  · simp [SubSchema.selectOrBase, SubSchema.select, SubSchema.variant?, hv]
  · refine SubSchema.selectOrBase_eq ?_
    have hd : p.Distinct (r.key sub.discriminatorKey) := by
      have hd := hp _ ⟨y, g, sub, habove, hg, hs, hv, rfl⟩
      simpa only [Path.Distinct, Path.key, map_append, hr] using hd
    rw [← get?_key, ← get?_key, get?_set_distinct hd]

end Document

-- Writes beside a path

namespace Document

variable {d : Document} {f : Path}

-- A path that is the given one or leads elsewhere, and not to a key on which the given one depends.
def Beside (d : Document) (f p : Path) : Prop :=
  (p = f ∨ p.Distinct f) ∧ ∀ g, d.Governs f g → p.Distinct g

theorem Beside.not_isAbove (h : d.Beside f p) : ¬ p.isAbove f := by
  rcases h.1 with rfl | h
  · exact isAbove_irrefl
  · exact fun ha => h.not_covers (covers_of_isAbove ha)

-- A path leads to the same field as in another document, and nothing around it is new.
structure Anchored (full : Bool) (d₀ : Document) (f : Path) (d : Document) : Prop where
  scopes  : d.scopes.Sound full
  isNew   : d.isNew = false
  aged    : d.scopes.Aged f
  resolve : ∀ x, x.covers f → d.resolve x = d₀.resolve x

namespace Anchored

variable (h : Anchored full d₀ f d)

include h

theorem isNewAt : d.isNewAt f = false :=
  (isNewAt_eq_false_iff h.scopes).mpr ⟨h.isNew, h.aged⟩

theorem governs (hg : d.Governs f g) : d₀.Governs f g := by
  obtain ⟨x, fld, sub, hx, hr, hs, hv, rfl⟩ := hg
  exact ⟨x, fld, sub, hx, h.resolve x (covers_of_isAbove hx) ▸ hr, hs, hv, rfl⟩

theorem withScopes (hs : s.Sound full ∧ s.Aged f) : Anchored full d₀ f { d with scopes := s } :=
  ⟨hs.1, h.isNew, hs.2, h.resolve⟩

theorem write (hp : d₀.Beside f p) : Anchored full d₀ f (d.write p v).2 := by
  rw [write_eq]
  exact ⟨h.scopes, h.isNew, h.aged, fun x hx =>
    (resolve_set (fun g hg => hp.2 g (h.governs hg)) v hx).trans (h.resolve x hx)⟩

theorem eachTracker : Anchored full d₀ f (d.eachTracker p g) := by
  have hs := List.foldlRecOn (motive := fun s : Scopes => s.Sound full ∧ s.Aged f) (d.scopes.owners p)
    (fun s k => s.modify k fun scope => { scope with tracker := g scope.root scope.tracker })
    ⟨h.scopes, h.aged⟩ fun s hs k _ => ⟨hs.1.modify, hs.2.modify hs.1⟩
  exact ⟨hs.1, h.isNew, hs.2, h.resolve⟩

theorem detached (hp : d₀.Beside f p) : Anchored full d₀ f (d.detached p) := by
  have hc : Anchored full d₀ f (d.eachTracker p (atPath p fun rel t => t.clearDescendants rel)) := h.eachTracker
  exact ⟨hc.scopes.removeBelow, h.isNew, hc.aged.removeBelow hc.scopes hp.not_isAbove, h.resolve⟩

theorem attachable (hp : d₀.Beside f p) : d.scopes.Around full p (d.scopes.innermost? p) ∧ ¬ p.isAbove f :=
  ⟨h.scopes.innermost, hp.not_isAbove⟩

theorem markModified : Anchored full d₀ f (d.markModified p) := by
  have hs : (passed d.scopes p).2.Sound full ∧ (passed d.scopes p).2.Aged f := by
    refine List.foldlRecOn (motive := fun ms : Path × Scopes => ms.2.Sound full ∧ ms.2.Aged f) _ _
      ⟨h.scopes, h.aged⟩ fun ms hs k _ => ?_
    rw [passMark]
    split
    · exact hs
    · exact ⟨hs.1.modify, hs.2.modify hs.1⟩
  rw [markModified_eq]
  exact ⟨hs.1, h.isNew, hs.2, h.resolve⟩

end Anchored

theorem stable_anchored : Stable (d₀.Beside f) (Anchored full d₀ f) where
  opened h := by
    rw [openChanges_eq]
    exact ⟨h.scopes, h.isNew, h.aged, h.resolve⟩
  written hp h := h.write hp
  detached hp h := h.detached hp
  attached {d p fld} hp h := h.withScopes (fld.attach_keeps (Scopes.attachable_aged _) _ p _ _ trivial
    ⟨h.scopes, h.aged⟩ (h.attachable hp)).1
  extended hp h := h.withScopes (Scopes.attachItems_keeps (Scopes.attachable_aged _) trivial
    ⟨h.scopes, h.aged⟩ (h.attachable hp)).1
  noted _ h := ⟨h.scopes, h.isNew, h.aged, h.resolve⟩
  marked _ h := h.markModified
  reported h := ⟨h.scopes, h.isNew, h.aged, h.resolve⟩

end Document
end Dossier

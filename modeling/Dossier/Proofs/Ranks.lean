import Dossier.Proofs.Reflection
import Dossier.Proofs.Upkeep

-- The links from a scope lead out of the document in finitely many steps, and the roots on the way do not get
-- longer.

namespace Dossier

open Path List

namespace Scopes

variable {s s' : Scopes} {k : ScopeKey} {scope : Scope} {p q r : Path} {o : Option ScopeKey} {m m' n n' i : Nat}

-- The links lead out in `m` steps, and no root on the way is longer than `n`.
inductive Climbs (s : Scopes) : Nat → Nat → Option ScopeKey → Prop
  | out {n : Nat} : Climbs s 0 n none
  | up {m n : Nat} {k : ScopeKey} {scope : Scope} : s.get? k = some scope → scope.root.length ≤ n →
      Climbs s m scope.root.length scope.parent → Climbs s (m + 1) n (some k)

namespace Climbs

variable (h : s.Climbs m n o)

include h

theorem mono (hn : n ≤ n') : s.Climbs m n' o := by
  cases h with
  | out => exact .out
  | up hs hl hp => exact .up hs (Nat.le_trans hl hn) hp

theorem unique (h' : s.Climbs m' n' o) : m = m' := by
  induction h generalizing m' n' with
  | out => cases h'; rfl
  | up hs _ _ ih =>
    cases h' with
    | up hs' _ hp' =>
      rw [hs] at hs'
      cases hs'
      rw [ih hp']

theorem of_mem_chain (hk : k ∈ s.chain i o) :
    ∃ scope m', s.get? k = some scope ∧ scope.root.length ≤ n ∧ s.Climbs m' n (some k) ∧ m' ≤ m := by
  induction h generalizing i with
  | out => cases i <;> simp [chain] at hk
  | @up m n k₀ scope hs hl hp ih =>
    cases i with
    | zero => simp [chain] at hk
    | succ i =>
      rw [chain, hs, Option.bind_some] at hk
      rcases mem_cons.mp hk with rfl | hk
      · exact ⟨scope, m + 1, hs, hl, .up hs hl hp, Nat.le_refl _⟩
      · obtain ⟨scope', m', hs', hl', hc, hm⟩ := ih hk
        exact ⟨scope', m', hs', Nat.le_trans hl' hl, hc.mono hl, Nat.le_succ_of_le hm⟩

theorem nodup_chain : (s.chain i o).Nodup := by
  induction h generalizing i with
  | out => cases i <;> simp [chain]
  | @up m n k scope hs hl hp ih =>
    cases i with
    | zero => simp [chain]
    | succ i =>
      rw [chain, hs, Option.bind_some]
      refine nodup_cons.mpr ⟨fun hk => ?_, ih⟩
      obtain ⟨_, m', -, -, hc, hm⟩ := hp.of_mem_chain hk
      have := hc.unique (.up hs hl hp)
      omega

theorem transfer {full : Bool} (ha : s'.Around full r o)
    (hsame : ∀ k scope scope', s.get? k = some scope → s'.get? k = some scope' → scope'.parent = scope.parent ∧ scope'.root.length = scope.root.length) :
    s'.Climbs m n o := by
  induction h with
  | out => exact .out
  | up hs hl _ ih =>
    obtain ⟨scope', hs', -, hparent⟩ := around_some_iff.mp ha
    obtain ⟨hp, hroot⟩ := hsame _ _ _ hs hs'
    refine .up hs' (hroot ▸ hl) ?_
    rw [hroot, hp]
    exact ih (hp ▸ hparent)

end Climbs

theorem same_modify {f : Scope → Tracker} (hs : s.get? k' = some scope)
    (hs' : (s.modify k fun scope => { scope with tracker := f scope }).get? k' = some scope') :
    scope'.parent = scope.parent ∧ scope'.root.length = scope.root.length := by
  rw [get?_modify] at hs'
  split at hs'
  · case isTrue he =>
    rw [← he, hs] at hs'
    cases hs'
    exact ⟨rfl, rfl⟩
  · rw [hs] at hs'
    cases hs'
    exact ⟨rfl, rfl⟩

-- The ways out of all scopes with a root are there and are climbed.
structure Ranked (s : Scopes) : Prop where
  sound  : s.Sound false
  climbs : ∀ r k, s.keyAt? r = some k → ∃ m, s.Climbs m r.length (some k)

theorem ranked_empty : Ranked {} :=
  ⟨sound_empty, fun r k h => by cases h⟩

-- A place and a parent for a new scope.
def Opens (s : Scopes) (r : Path) (o : Option ScopeKey) : Prop :=
  s.Around false r o ∧ ∃ m, s.Climbs m r.length o

theorem opens_none : s.Opens r none :=
  ⟨around_none, 0, .out⟩

theorem Opens.below (h : s.Opens r o) : s.Opens (r ++ q) o := by
  obtain ⟨ha, m, hc⟩ := h
  exact ⟨ha.below, m, hc.mono (by simp)⟩

theorem Opens.transfer (h : s.Opens r o) (ha : s'.Around false r o)
    (hsame : ∀ k scope scope', s.get? k = some scope → s'.get? k = some scope' →
      scope'.parent = scope.parent ∧ scope'.root.length = scope.root.length) : s'.Opens r o := by
  obtain ⟨-, m, hc⟩ := h
  exact ⟨ha, m, hc.transfer ha hsame⟩

namespace Ranked

variable (h : s.Ranked)

include h

theorem opens (hk : s.keyAt? r = some k) : s.Opens r (some k) :=
  ⟨h.sound.linked r k hk, h.climbs r k hk⟩

theorem innermost_climbs (p : Path) : ∃ m, s.Climbs m (p.length - 1) (s.innermost? p) := by
  cases hk : s.innermost? p with
  | none => exact ⟨0, .out⟩
  | some k =>
    obtain ⟨a, ha, hkey⟩ := exists_of_findSome?_eq_some hk
    obtain ⟨x, hx, rfl⟩ := isAbove_iff.mp (mem_ancestors_iff.mp (mem_reverse.mp ha)).2
    obtain ⟨m, hc⟩ := h.climbs a k hkey
    have := length_pos_iff.mpr hx
    exact ⟨m, hc.mono (by rw [length_append]; omega)⟩

theorem opens_innermost : s.Opens p (s.innermost? p) := by
  obtain ⟨m, hc⟩ := h.innermost_climbs p
  exact ⟨h.sound.innermost, m, hc.mono (Nat.sub_le _ _)⟩

theorem nodup_owners : (s.owners p).Nodup := by
  obtain ⟨m, hc⟩ := h.innermost_climbs p
  exact hc.nodup_chain

theorem owner_shorter (hk : k ∈ s.owners p) (hs : s.get? k = some scope) : scope.root.length < p.length := by
  have hp : p ≠ [] := by
    rintro rfl
    simp [owners, innermost?, Path.ancestors, chain] at hk
  obtain ⟨m, hc⟩ := h.innermost_climbs p
  obtain ⟨scope', -, hs', hl, -, -⟩ := hc.of_mem_chain hk
  rw [hs] at hs'
  cases hs'
  have := length_pos_iff.mpr hp
  omega

theorem of_get? (hs : s'.Sound false)
    (hkey : ∀ r k, s'.keyAt? r = some k → ∃ r', s.keyAt? r' = some k ∧ r'.length = r.length)
    (hsame : ∀ k scope scope', s.get? k = some scope → s'.get? k = some scope' →
      scope'.parent = scope.parent ∧ scope'.root.length = scope.root.length) :
    s'.Ranked := by
  refine ⟨hs, fun r k hk => ?_⟩
  obtain ⟨r', hk', hlen⟩ := hkey r k hk
  obtain ⟨m, hc⟩ := h.climbs r' k hk'
  exact ⟨m, hlen ▸ hc.transfer (hs.linked r k hk) hsame⟩

theorem insert (ho : s.Opens scope.root scope.parent) :
    (s.insert scope).2.Ranked ∧ (s.insert scope).2.Opens scope.root (some (s.insert scope).1) ∧
      ∀ r o, s.Opens r o → (s.insert scope).2.Opens r o := by
  have hnew : s.get? (s.insert scope).1 = none := get?_insert_key h.sound.tidy
  obtain ⟨hsound, haround, hkeep⟩ := h.sound.insert ho.1
  have hsame : ∀ k old new, s.get? k = some old → (s.insert scope).2.get? k = some new →
      new.parent = old.parent ∧ new.root.length = old.root.length := by
    intro k old new hold hget
    have hne : k ≠ (s.insert scope).1 := by
      rintro rfl
      rw [hnew] at hold
      cases hold
    rw [get?_insert h.sound.tidy, if_neg hne, hold] at hget
    cases hget
    exact ⟨rfl, rfl⟩
  have hopens : ∀ r o, s.Opens r o → (s.insert scope).2.Opens r o := fun r o ho =>
    ho.transfer (hkeep r o ho.1) hsame
  have hat : (s.insert scope).2.Opens scope.root (some (s.insert scope).1) := by
    obtain ⟨-, m, hc⟩ := hopens _ _ ho
    have hget : (s.insert scope).2.get? (s.insert scope).1 = some scope := by
      rw [get?_insert h.sound.tidy, if_pos rfl]
    exact ⟨haround, m + 1, .up hget (Nat.le_refl _) hc⟩
  refine ⟨⟨hsound, fun r k hk => ?_⟩, hat, hopens⟩
  rw [keyAt?_insert] at hk
  split at hk
  · case isTrue hr =>
    cases hk
    exact hr ▸ hat.2
  · exact (hopens _ _ (h.opens hk)).2

theorem modify {f : Scope → Tracker} : (s.modify k fun scope => { scope with tracker := f scope }).Ranked :=
  h.of_get? h.sound.modify (fun r _ hk => ⟨r, keyAt?_modify ▸ hk, rfl⟩) fun _ _ _ => same_modify

theorem removeBelow : (s.removeBelow p).Ranked := by
  have hkey := (removeBelow_spec h.sound.tidy h.sound.rooted (p := p)).2.2.2
  refine h.of_get? h.sound.removeBelow (fun r k hk => ⟨r, ?_, rfl⟩) fun k scope scope' hs hs' => ?_
  · rw [hkey] at hk
    split at hk
    · cases hk
    · exact hk
  · rw [get?_removeBelow_of_some h.sound.tidy h.sound.rooted hs'] at hs
    cases hs
    exact ⟨rfl, rfl⟩

theorem rekey {old : Path} (hs : (s.rekey old new).Sound false) (hlen : new.length = old.length) :
    (s.rekey old new).Ranked := by
  obtain ⟨-, hstay, hmove, hkey⟩ := @rekey_spec s old new h.sound.tidy h.sound.rooted
  refine h.of_get? hs (fun r k hk => ?_) fun k scope scope' hget hget' => ?_
  · rcases hkey r k hk with ⟨x, rfl, hx⟩ | ⟨-, hr⟩
    · exact ⟨old ++ x, hx, by simp [hlen]⟩
    · exact ⟨r, hr, rfl⟩
  · by_cases hx : ∃ x, s.keyAt? (old ++ x) = some k
    · obtain ⟨x, hx⟩ := hx
      have hroot := h.sound.rooted.root_eq hx hget
      rw [hmove x k hx, hget] at hget'
      cases hget'
      exact ⟨rfl, by simp [hroot, hlen]⟩
    · rw [hstay k fun r hr hc => hx ?_, hget] at hget'
      · cases hget'
        exact ⟨rfl, rfl⟩
      · obtain ⟨x, rfl⟩ := covers_iff.mp hc
        exact ⟨x, hr⟩

theorem moveItem {j : Nat} : (s.rekey (p.index i) (p.index j)).Ranked := by
  refine h.rekey (h.sound.rekey fun a ha => ?_) (by simp [Path.index])
  exact covers_trans (isAbove_append_iff.mp ha) (covers_append p _)

theorem mapAll {f : Scope → Scope} (hs : (s.mapAll f).Sound false) (hroot : ∀ scope, (f scope).root = scope.root)
    (hparent : ∀ scope, (f scope).parent = scope.parent) : (s.mapAll f).Ranked := by
  refine h.of_get? hs (fun r k hk => ⟨r, hk, rfl⟩) fun k scope scope' hget hget' => ?_
  rw [get?_mapAll, hget] at hget'
  cases hget'
  exact ⟨hparent scope, by rw [hroot]⟩

end Ranked

theorem attachable_ranked (origin : Origin) : Attachable origin Ranked Opens fun _ _ => True where
  below h := h.below
  fields _ _ _ := trivial
  items _ := trivial
  insert _ hj ho _ _ := hj.insert ho

theorem Ranked.attachField (h : s.Ranked) (ho : s.Opens p o) : (s.attachField f p value o origin).Ranked :=
  (f.attach_keeps (attachable_ranked origin) o p value s trivial h ho).1

theorem Ranked.attachItems (h : s.Ranked) (ho : s.Opens p o) : (s.attachItems sub p n items o origin).Ranked :=
  (attachItems_keeps (attachable_ranked origin) trivial h ho).1

theorem upheld_ranked : Upheld (fun _ _ => True) Ranked where
  modified h := h.modify
  committed hs h := h.mapAll (hs.mapAll (fun _ => rfl) (fun _ => rfl) (by simp)) (fun _ => rfl) fun _ => rfl
  removed _ h := h.removeBelow
  moved _ h := h.moveItem
  attached _ _ ho h := h.attachField (ho.elim (fun ho => ho ▸ opens_none) fun ho => ho ▸ h.opens_innermost)
  extended _ _ _ h := h.attachItems h.opens_innermost

end Scopes

namespace Document

open Edit

variable {d : Document} {p : Path} {schema : Schema}

theorem eachTracker_ranked (h : d.scopes.Ranked) : (d.eachTracker p f).scopes.Ranked :=
  upheld_eachTracker Scopes.upheld_ranked h

theorem moveItem_ranked (h : d.scopes.Ranked) : (d.moveItem p i j).scopes.Ranked :=
  eachTracker_ranked h.moveItem

-- Loaded documents

-- The scopes whose defaults are yet to be filled in are open for scopes inside them.
def Awaiting (es : List (ScopeKey × Scope)) (d : Document) : Prop :=
  d.scopes.Ranked ∧ ∀ e ∈ es, d.scopes.Opens e.2.root (some e.1)

theorem awaiting_of_ranked (h : d.scopes.Ranked) : d.Awaiting (d.scopes.toList.filter fun e => ¬ e.2.isNew) :=
  ⟨h, fun _ he => h.opens (h.sound.rooted.keyAt?_of_mem_toList (mem_filter.mp he).1)⟩

theorem Awaiting.filledIn (h : d.Awaiting es) (he : e ∈ es) : (d.filledIn e.1 rel (e.2.root ++ rel) f).Awaiting es := by
  have hopens : ∀ r o, d.scopes.Opens r o → (d.scopes.modify e.1 fun scope =>
      { scope with tracker := scope.tracker.transition rel .default }).Opens r o := fun r o ho =>
    ho.transfer ho.1.modify fun _ _ _ => Scopes.same_modify
  have hkept := f.attach_keeps (Scopes.attachable_ranked .created) (some e.1) (e.2.root ++ rel)
    (d.get? (e.2.root ++ rel)) _ trivial h.1.modify (hopens _ _ (h.2 e he)).below
  exact ⟨hkept.1, fun e' he' => hkept.2 _ _ (hopens _ _ (h.2 e' he'))⟩

theorem ranked_of_load {projection : Option Projection} (h : (load schema record projection effects).1 = .ok d) :
    d.scopes.Ranked :=
  load_of_keeps h (keeps_loadEdit (J := Awaiting) (fun _ _ hd => hd)
    (fun _ _ _ _ _ _ _ hd => hd.attachField Scopes.opens_none) (fun _ hd => awaiting_of_ranked hd) (fun _ _ _ hd => hd)
    (fun _ _ _ _ _ _ he _ _ _ hd => Awaiting.filledIn hd he) (fun _ _ hd => hd.1)
    fun _ hd => by rwa [scopes_seedRequired.1]) fun _ _ =>
      List.foldlRecOn (motive := Scopes.Ranked) _ _ Scopes.ranked_empty fun _ hs _ _ => hs.attachField Scopes.opens_none

theorem Reached.ranked (h : d.Reached) : d.scopes.Ranked :=
  (Reached.upholds Scopes.upheld_ranked (fun _ _ => trivial) (fun _ => trivial) Scopes.ranked_empty ranked_of_load h
    rfl).scopes

end Document
end Dossier

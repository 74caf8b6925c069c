import Dossier.Proofs.Mirrored
import Dossier.Proofs.Pull
import Dossier.Proofs.Ranks

-- What the document and the scopes around an array know of its items, and the scopes of the items, go with them
-- when others are removed.

namespace Dossier

open Path List

-- Scopes down to a depth

theorem Path.length_index {p : Path} : (p.index i).length = p.length + 1 := by
  rw [Path.index, length_append, length_singleton]

theorem Path.length_le_of_covers {p : Path} (h : p.covers q) : p.length ≤ q.length := by
  obtain ⟨x, rfl⟩ := covers_iff.mp h
  simp

namespace Scopes

variable {s s' : Scopes} {k : ScopeKey} {scope : Scope} {p : Path} {n : Nat}

theorem length_modify {f : Scope → Scope} : (s.modify k f).slots.length = s.slots.length := by
  rw [modify]
  split
  · exact length_set
  · rfl

theorem length_remove : (s.remove k).slots.length = s.slots.length := by
  rw [remove]
  split
  · exact length_set
  · rfl

theorem length_removeBelow : (s.removeBelow p).slots.length = s.slots.length :=
  List.foldlRecOn (motive := fun s' : Scopes => s'.slots.length = s.slots.length) _ _ rfl
    fun _ h _ _ => length_remove.trans h

theorem length_rekey {old : Path} : (s.rekey old new).slots.length = s.slots.length := by
  refine List.foldlRecOn (motive := fun s' : Scopes => s'.slots.length = s.slots.length) _ _ rfl fun s' h e _ => ?_
  dsimp only
  split
  · exact length_modify.trans h
  · exact h

theorem length_eachOwner : (s.eachOwner p g).slots.length = s.slots.length :=
  List.foldlRecOn (motive := fun s' : Scopes => s'.slots.length = s.slots.length) _ _ rfl
    fun _ h _ _ => length_modify.trans h

-- Of the scopes with roots of the length `n` or less nothing but trackers has changed.
structure SameTo (n : Nat) (s s' : Scopes) : Prop where
  slots : s'.slots.length = s.slots.length
  roots : ∀ a : Path, a.length ≤ n → s'.keyAt? a = s.keyAt? a
  kept  : ∀ {k scope}, s.get? k = some scope → scope.root.length ≤ n → ∃ t, s'.get? k = some { scope with tracker := t }

theorem SameTo.trans (h : SameTo n s s') (h' : SameTo n s' s'') : SameTo n s s'' where
  slots := h'.slots.trans h.slots
  roots a ha := (h'.roots a ha).trans (h.roots a ha)
  kept hs hl := by
    obtain ⟨t, ht⟩ := h.kept hs hl
    obtain ⟨t', ht'⟩ := h'.kept ht hl
    exact ⟨t', ht'⟩

theorem SameTo.chain_eq (h : SameTo n s s') {o : Option ScopeKey} (hc : s.Climbs m l o) (hl : l ≤ n) :
    s'.chain i o = s.chain i o := by
  induction hc generalizing i with
  | out => cases i <;> rfl
  | up hs hroot _ ih =>
    cases i with
    | zero => rfl
    | succ i =>
      obtain ⟨t, ht⟩ := h.kept hs (Nat.le_trans hroot hl)
      rw [chain, chain, hs, ht, Option.bind_some, Option.bind_some, ih (Nat.le_trans hroot hl)]

theorem SameTo.owners_eq (h : SameTo n s s') (hs : s.Ranked) (hp : p.length ≤ n + 1) : s'.owners p = s.owners p := by
  have hinner : s'.innermost? p = s.innermost? p := by
    refine innermost?_congr fun a ha => h.roots a ?_
    obtain ⟨x, hx, rfl⟩ := isAbove_iff.mp ha
    have := length_pos_iff.mpr hx
    rw [length_append] at hp
    omega
  obtain ⟨m, hc⟩ := hs.innermost_climbs p
  rw [owners, owners, hinner, h.slots]
  exact h.chain_eq hc (by omega)

variable (h : s.Ranked)

include h

theorem Ranked.get?_removed (hs : s.get? k = some scope) (hl : scope.root.length < q.length) :
    (s.removeBelow q).get? k = some scope := by
  refine get?_removeBelow h.sound.tidy h.sound.rooted hs fun _ hc => ?_
  have := length_le_of_covers hc
  omega

theorem Ranked.get?_rekeyed {old : Path} (hs : s.get? k = some scope) (hl : scope.root.length < old.length) :
    (s.rekey old new).get? k = some scope := by
  rw [(rekey_spec h.sound.tidy h.sound.rooted).2.1 k fun r hr hc => ?_, hs]
  have := length_le_of_covers hc
  rw [h.sound.rooted.root_eq hr hs] at hl
  omega

theorem Ranked.sameTo_removeBelow (hn : n < q.length) : SameTo n s (s.removeBelow q) := by
  have hkey := (removeBelow_spec h.sound.tidy h.sound.rooted (p := q)).2.2.2
  refine ⟨length_removeBelow, fun a ha => ?_, fun hs hl => ⟨_, h.get?_removed hs (Nat.lt_of_le_of_lt hl hn)⟩⟩
  rw [hkey, if_neg fun hc => ?_]
  have := length_le_of_covers hc
  omega

theorem Ranked.sameTo_rekey (ho : n < old.length) (hn : n < new.length) : SameTo n s (s.rekey old new) := by
  refine ⟨length_rekey, fun a ha => ?_, fun hs hl => ⟨_, h.get?_rekeyed hs (Nat.lt_of_le_of_lt hl ho)⟩⟩
  rw [(keyAt?_rekey h.sound.tidy h.sound.rooted).2 a fun x _ _ he => ?_, if_neg fun hc => ?_]
  · have := length_le_of_covers hc
    omega
  · rw [← he, length_append] at ha
    omega

theorem Ranked.get?_eachOwner : (s.eachOwner p g).get? k =
    if k ∈ s.owners p then (s.get? k).map fun scope => { scope with tracker := g scope.root scope.tracker }
    else s.get? k :=
  (foldl_modify h.nodup_owners).2 k

theorem Ranked.keyAt?_eachOwner : (s.eachOwner p g).keyAt? r = s.keyAt? r :=
  (foldl_modify h.nodup_owners).1 r

theorem Ranked.sameTo_eachOwner : SameTo n s (s.eachOwner p g) := by
  refine ⟨length_eachOwner, fun a _ => h.keyAt?_eachOwner, fun {k scope} hget _ => ?_⟩
  rw [h.get?_eachOwner, hget]
  split
  · exact ⟨_, rfl⟩
  · exact ⟨_, rfl⟩

end Scopes

-- What goes with an item

namespace Tracker

variable {t : Tracker} {p x : Path} {i j m : Nat}

theorem stateOf?_dropped : ((t.forget (p.index i)).clearDescendants (p.index i)).stateOf? (p.index m ++ x) =
    if m = i then none else t.stateOf? (p.index m ++ x) := by
  rw [stateOf?_clearDescendants, stateOf?_forget]
  by_cases hm : m = i
  · rw [if_pos hm]
    have hc : (p.index i).covers (p.index m ++ x) := index_covers_index_append.mpr hm
    rcases eq_or_isAbove_of_covers hc with he | ha
    · rw [if_pos he, ite_self]
    · rw [if_pos ha]
  · have hc : ¬ (p.index i).covers (p.index m ++ x) := fun hc => hm (index_covers_index_append.mp hc)
    have hne : p.index i ≠ p.index m ++ x := fun he => hc (he ▸ covers_refl _)
    rw [if_neg fun ha => hc (covers_of_isAbove ha), if_neg hne, if_neg hm]

theorem stateOf?_moved (hij : i ≠ j) (hv : ∀ x, t.stateOf? (p.index j ++ x) = none) :
    (t.rekey (p.index i) (p.index j)).stateOf? (p.index m ++ x) =
      if m = j then t.stateOf? (p.index i ++ x) else if m = i then none else t.stateOf? (p.index m ++ x) := by
  have hne : p.index i ≠ p.index j := by
    intro he
    have ha := index_apart (p := p) hij
    rw [he] at ha
    exact ha.1 (covers_refl _)
  obtain ⟨hmoved, hother⟩ := stateOf?_rekey (t := t) hne
  by_cases hm : m = j
  · subst hm
    rw [if_pos rfl]
    cases hs : t.stateOf? (p.index i ++ x) with
    | some s => exact hmoved x s hs
    | none =>
      rw [hother _ fun y s hy he => ?_, hv, ite_self]
      cases append_cancel_left he
      rw [hs] at hy
      cases hy
  · rw [if_neg hm, hother _ fun y s _ he => hm ?_]
    · simp only [index_covers_index_append]
    · exact index_covers_index_append.mp (he ▸ covers_append (p.index j) y)

end Tracker

namespace Scopes

-- The scope at a root with its key, but for the root.
def placed? (s : Scopes) (r : Path) : Option (ScopeKey × Scope) :=
  (s.keyAt? r).bind fun k => (s.get? k).map fun scope => (k, { scope with root := [] })

variable {s : Scopes} {k : ScopeKey} {p x : Path} {i j m : Nat}

theorem placed?_eq_none_iff (h : s.Rooted) : s.placed? r = none ↔ s.keyAt? r = none := by
  rw [placed?]
  cases hk : s.keyAt? r with
  | none => simp
  | some k =>
    obtain ⟨scope, hs, -⟩ := h r k hk
    simp [hs]

theorem Ranked.not_owner (h : s.Ranked) (hk : s.keyAt? (p.index m ++ x) = some k) :
    k ∉ s.owners p ∧ ∀ i, k ∉ s.owners (p.index i) := by
  obtain ⟨scope, hs, hroot⟩ := h.sound.rooted _ _ hk
  have hlen : ∀ q : Path, q.length ≤ p.length + 1 → k ∉ s.owners q := fun q hq ho => by
    have hlt := h.owner_shorter ho hs
    rw [hroot, Path.index, length_append, length_append, length_singleton] at hlt
    omega
  exact ⟨hlen p (Nat.le_succ _), fun i => hlen _ (Nat.le_of_eq length_index)⟩

theorem Ranked.placed?_eachOwner (h : s.Ranked) (hq : q = p ∨ ∃ i, q = p.index i) :
    (s.eachOwner q g).placed? (p.index m ++ x) = s.placed? (p.index m ++ x) := by
  rw [placed?, placed?, h.keyAt?_eachOwner]
  cases hk : s.keyAt? (p.index m ++ x) with
  | none => rfl
  | some k =>
    obtain ⟨hout, hitems⟩ := h.not_owner hk
    have hno : k ∉ s.owners q := by
      rcases hq with rfl | ⟨i, rfl⟩
      · exact hout
      · exact hitems i
    rw [Option.bind_some, Option.bind_some, h.get?_eachOwner, if_neg hno]

theorem Ranked.placed?_removed (h : s.Ranked) : (s.removeBelow (p.index i)).placed? (p.index m ++ x) =
    if m = i then none else s.placed? (p.index m ++ x) := by
  rw [placed?, (removeBelow_spec h.sound.tidy h.sound.rooted).2.2.2]
  simp only [index_covers_index_append]
  split
  · rfl
  · case isFalse hm =>
    rw [placed?]
    cases hk : s.keyAt? (p.index m ++ x) with
    | none => rfl
    | some k =>
      obtain ⟨scope, hs, hroot⟩ := h.sound.rooted _ _ hk
      rw [Option.bind_some, Option.bind_some, hs, get?_removeBelow h.sound.tidy h.sound.rooted hs fun _ hc => hm ?_]
      rw [hroot] at hc
      exact index_covers_index_append.mp hc

theorem Ranked.placed?_moved (h : s.Ranked) (hij : i ≠ j) (hv : ∀ x, s.placed? (p.index j ++ x) = none) :
    (s.rekey (p.index i) (p.index j)).placed? (p.index m ++ x) =
      if m = j then s.placed? (p.index i ++ x) else if m = i then none else s.placed? (p.index m ++ x) := by
  have hvacant : s.Vacant (p.index j) := fun q hq => by
    obtain ⟨y, rfl⟩ := covers_iff.mp hq
    exact (placed?_eq_none_iff h.sound.rooted).mp (hv y)
  obtain ⟨-, hstay, hmove, -⟩ := @rekey_spec s (p.index i) (p.index j) h.sound.tidy h.sound.rooted
  rw [placed?]
  by_cases hm : m = j
  · subst hm
    rw [if_pos rfl, keyAt?_moved h.sound hvacant, placed?]
    cases hk : s.keyAt? (p.index i ++ x) with
    | none => rfl
    | some k =>
      rw [Option.bind_some, Option.bind_some, hmove x k hk, Option.map_map]
      rfl
  · have hj : ¬ (p.index j).covers (p.index m ++ x) := fun hc => hm (index_covers_index_append.mp hc)
    rw [if_neg hm, keyAt?_unmoved h.sound hj]
    simp only [index_covers_index_append]
    split
    · rfl
    · case isFalse hi =>
      rw [placed?]
      cases hk : s.keyAt? (p.index m ++ x) with
      | none => rfl
      | some k =>
        rw [Option.bind_some, Option.bind_some, hstay k fun r hr hc => hi ?_]
        rw [h.sound.rooted.eq_of_keyAt? hr hk] at hc
        exact index_covers_index_append.mp hc

theorem owners_index : s.owners (p.index i) = s.owners (p.index j) := by
  rw [owners, owners, Path.index, Path.index, innermost?_append, innermost?_append]

theorem owners_index_of_none (hp : p ≠ []) (h : s.keyAt? p = none) : s.owners (p.index i) = s.owners p := by
  rw [owners, Path.index, innermost?_append, if_neg hp, h, Option.none_or, owners]

-- The mark of a path is no longer than the path, so it is not that of an item.
theorem foldl_passMark_short {ks : List ScopeKey} (hc : c.length ≤ n)
    (hks : ∀ k ∈ ks, ∀ scope, s.get? k = some scope → scope.root.length ≤ n) (hs : s.get? k = some scope) :
    ∃ t, (ks.foldl Document.passMark (c, s)).2.get? k = some { scope with tracker := t } ∧
      ∀ q, n < scope.root.length + q.length → t.stateOf? q = scope.tracker.stateOf? q := by
  induction ks generalizing c s scope with
  | nil => exact ⟨_, hs, fun _ _ => rfl⟩
  | cons k₀ ks ih =>
    obtain ⟨hk₀, hks⟩ := forall_mem_cons.mp hks
    rw [foldl_cons, Document.passMark]
    split
    · exact ih hc hks hs
    · case _ scope₀ hs₀ =>
      dsimp only at hs₀ ⊢
      have hshort : (if scope₀.isNew then scope₀.root else c).length ≤ n := by
        split
        · exact hk₀ _ hs₀
        · exact hc
      generalize hmark : (fun scope : Scope => { scope with
        tracker := Document.atPath c (fun rel t => t.transition rel .modify) scope.root scope.tracker }) = mark
      have hks' : ∀ k ∈ ks, ∀ scope, (s.modify k₀ mark).get? k = some scope → scope.root.length ≤ n := by
        subst hmark
        intro k hk scope' hs'
        rw [get?_modify] at hs'
        split at hs'
        · rw [hs₀] at hs'
          cases hs'
          have hlen := hk₀ scope₀ hs₀
          exact hlen
        · exact hks k hk scope' hs'
      by_cases hk : k = k₀
      · subst hk
        rw [hs] at hs₀
        cases hs₀
        obtain ⟨t, ht, hstates⟩ := ih hshort hks' (by rw [get?_modify, if_pos rfl, hs, Option.map_some])
        subst hmark
        refine ⟨t, ht, fun q hq => (hstates q hq).trans ?_⟩
        dsimp only
        rw [Document.atPath]
        split
        · case _ rel hrel =>
          rw [Tracker.stateOf?_transition, if_neg]
          rintro rfl
          rw [below?_eq_some_iff.mp hrel, length_append] at hc
          omega
        · rfl
      · exact ih hshort hks' (by rw [get?_modify, if_neg hk, hs])

theorem Ranked.get?_passed (h : s.Ranked) (hs : s.get? k = some scope) :
    ∃ t, (Document.passed s p).2.get? k = some { scope with tracker := t } ∧
      ∀ q, p.length < scope.root.length + q.length → t.stateOf? q = scope.tracker.stateOf? q := by
  refine foldl_passMark_short (Nat.le_refl _) (fun k hk scope hs => ?_) hs
  exact Nat.le_of_lt (h.owner_shorter hk hs)

theorem Ranked.placed?_passed (h : s.Ranked) :
    (Document.passed s p).2.placed? (p.index m ++ x) = s.placed? (p.index m ++ x) := by
  rw [placed?, placed?, keyAt?_passed]
  cases hk : s.keyAt? (p.index m ++ x) with
  | none => rfl
  | some k =>
    rw [Option.bind_some, Option.bind_some, Document.passed, foldl_passMark_get? (h.not_owner hk).1]

end Scopes

namespace Document

variable {d d' : Document} {p rel : Path} {k : ScopeKey} {i j m : Nat} {v : Value}

theorem itemLaw_states : ItemLaw p (fun _ => True) fun d m x => d.stateOf? (p.index m ++ x) where
  dropped _ := ⟨trivial, fun m x => by
    rw [stateOf?, dropItem_tracker, Tracker.stateOf?_dropped]
    rfl⟩
  moved _ hij hv := ⟨trivial, fun m x => by
    rw [stateOf?, moveItem_tracker, Tracker.stateOf?_moved hij hv]
    rfl⟩

theorem itemLaw_scopes : ItemLaw p (·.scopes.Ranked) fun d m x => d.scopes.placed? (p.index m ++ x) where
  dropped h := ⟨eachTracker_ranked h.removeBelow, fun m x => by
    rw [dropItem_scopes, h.removeBelow.placed?_eachOwner (.inr ⟨_, rfl⟩), h.placed?_removed]⟩
  moved h hij hv := ⟨moveItem_ranked h, fun m x => by
    rw [moveItem_scopes, h.moveItem.placed?_eachOwner (.inl rfl), h.placed?_moved hij hv]⟩

-- A scope is around an array and around its items, and is what it was but for its tracker.
structure Owned (p : Path) (base : Scope) (k : ScopeKey) (d : Document) : Prop where
  ranked : d.scopes.Ranked
  outer  : k ∈ d.scopes.owners p
  inner  : ∀ i, k ∈ d.scopes.owners (p.index i)
  kept   : ∃ t, d.scopes.get? k = some { base with tracker := t }

theorem Owned.length_lt (h : d.Owned p base k) : base.root.length < p.length := by
  obtain ⟨t, hs⟩ := h.kept
  have hlt := h.ranked.owner_shorter h.outer hs
  exact hlt

theorem Owned.of_sameTo (h : d.Owned p base k) (hr : d'.scopes.Ranked)
    (hs : Scopes.SameTo p.length d.scopes d'.scopes) : d'.Owned p base k := by
  refine ⟨hr, ?_, fun i => ?_, ?_⟩
  · rw [hs.owners_eq h.ranked (Nat.le_succ _)]
    exact h.outer
  · rw [hs.owners_eq h.ranked (Nat.le_of_eq length_index)]
    exact h.inner i
  · obtain ⟨t, hget⟩ := h.kept
    obtain ⟨t', hget'⟩ := hs.kept hget (Nat.le_of_lt h.length_lt)
    exact ⟨t', hget'⟩

theorem itemLaw_owner (hp : p = base.root ++ rel) : ItemLaw p (Owned p base k)
    fun d m x => (d.scopes.get? k).bind (·.tracker.stateOf? (rel.index m ++ x)) where
  dropped {d i} h := by
    have hlt := h.length_lt
    obtain ⟨t, hs⟩ := h.kept
    have hsame : Scopes.SameTo p.length d.scopes (d.scopes.removeBelow (p.index i)) :=
      h.ranked.sameTo_removeBelow (by rw [length_index]; omega)
    have hget := h.ranked.get?_removed (q := p.index i) hs (by rw [length_index]; exact Nat.lt_succ_of_lt hlt)
    have hmem : k ∈ (d.scopes.removeBelow (p.index i)).owners (p.index i) := by
      rw [hsame.owners_eq h.ranked (Nat.le_of_eq length_index)]
      exact h.inner i
    have hbelow : (p.index i).below? base.root = some (rel.index i) := by
      rw [hp]
      exact below?_eq_some_iff.mpr (append_assoc ..)
    refine ⟨h.of_sameTo (eachTracker_ranked h.ranked.removeBelow) ?_, fun m x => ?_⟩
    · exact hsame.trans h.ranked.removeBelow.sameTo_eachOwner
    · rw [dropItem_scopes, h.ranked.removeBelow.get?_eachOwner, if_pos hmem, hget, hs, Option.map_some,
        Option.bind_some, Option.bind_some, atPath, hbelow, Tracker.stateOf?_dropped]
  moved {d i j} h hij hv := by
    have hlt := h.length_lt
    obtain ⟨t, hs⟩ := h.kept
    have hsame : Scopes.SameTo p.length d.scopes (d.scopes.rekey (p.index i) (p.index j)) :=
      h.ranked.sameTo_rekey (by rw [length_index]; omega) (by rw [length_index]; omega)
    have hget : (d.scopes.rekey (p.index i) (p.index j)).get? k = some { base with tracker := t } :=
      h.ranked.get?_rekeyed hs (by rw [length_index]; exact Nat.lt_succ_of_lt hlt)
    have hmem : k ∈ (d.scopes.rekey (p.index i) (p.index j)).owners p := by
      rw [hsame.owners_eq h.ranked (Nat.le_succ _)]
      exact h.outer
    have hmove : Scopes.moveStates p i j base.root t = t.rekey (rel.index i) (rel.index j) := by
      rw [hp, Scopes.moveStates_append]
    refine ⟨h.of_sameTo (moveItem_ranked h.ranked) ?_, fun m x => ?_⟩
    · rw [moveItem_scopes]
      exact hsame.trans h.ranked.moveItem.sameTo_eachOwner
    · simp only [hs, Option.bind_some] at hv ⊢
      rw [moveItem_scopes, h.ranked.moveItem.get?_eachOwner, if_pos hmem, hget, Option.map_some, Option.bind_some,
        hmove, Tracker.stateOf?_moved hij hv]

theorem stateOf?_markModified_item (h : d.scopes.Ranked) :
    (d.markModified p).stateOf? (p.index m ++ x) = d.stateOf? (p.index m ++ x) := by
  rw [markModified_eq, stateOf?, Tracker.stateOf?_transition, if_neg]
  · rfl
  intro he
  have hlen : (passed d.scopes p).1.length ≤ p.length := by
    rcases passed_mark d.scopes p with hmark | ⟨k, hk, scope, hs, -, hroot⟩
    · exact Nat.le_of_eq (congrArg List.length hmark)
    · rw [← hroot]
      exact Nat.le_of_lt (h.owner_shorter hk hs)
  rw [he, length_append, length_index] at hlen
  omega

theorem withdrawn_shifts (h : d.scopes.Ranked) (removed : List Bool) :
    Shifts (spared 0 removed) removed.length (fun i x => d.stateOf? (p.index i ++ x))
      (fun j x => (d.withdrawn p v removed).stateOf? (p.index j ++ x)) ∧
    Shifts (spared 0 removed) removed.length (fun i x => d.scopes.placed? (p.index i ++ x))
      (fun j x => (d.withdrawn p v removed).scopes.placed? (p.index j ++ x)) := by
  obtain ⟨-, hstates, -⟩ := itemLaw_states (p := p).reindex (d := d) trivial removed
  obtain ⟨hranked, hscopes, -⟩ := itemLaw_scopes.reindex h removed (p := p)
  refine ⟨⟨fun hj x => ?_, fun hl hu x => ?_⟩, fun hj x => ?_, fun hl hu x => ?_⟩
  · exact (stateOf?_markModified_item hranked).trans (hstates.moved hj x)
  · exact (stateOf?_markModified_item hranked).trans (hstates.gone hl hu x)
  · exact hranked.placed?_passed.trans (hscopes.moved hj x)
  · exact hranked.placed?_passed.trans (hscopes.gone hl hu x)

theorem withdrawn_shifts_owner (hp : p = base.root ++ rel) (h : d.Owned p base k) (hs : d.scopes.get? k = some base)
    (removed : List Bool) : ∃ t, (d.withdrawn p v removed).scopes.get? k = some { base with tracker := t } ∧
      Shifts (spared 0 removed) removed.length (fun i x => base.tracker.stateOf? (rel.index i ++ x))
        (fun j x => t.stateOf? (rel.index j ++ x)) := by
  obtain ⟨howned, hshifts, -⟩ := (itemLaw_owner hp).reindex h removed
  obtain ⟨t, ht⟩ := howned.kept
  obtain ⟨t', ht', hstates⟩ := howned.ranked.get?_passed (p := p) ht
  have hitem : ∀ m x, t'.stateOf? (rel.index m ++ x) = t.stateOf? (rel.index m ++ x) := fun m x => by
    refine hstates _ ?_
    rw [hp, length_append, length_append, length_index]
    dsimp only
    omega
  refine ⟨t', ht', fun {j i} hj x => ?_, fun {m} hl hu x => ?_⟩
  · have := hshifts.moved hj x
    simp only [hs, ht, Option.bind_some] at this
    rw [hitem, this]
  · have := hshifts.gone hl hu x
    simp only [ht, Option.bind_some] at this
    rw [hitem, this]

end Document

theorem Edit.outcome_pull
    (hf : s.doc.arrayField? p = some f) (hget : s.doc.get? p = some (.arr items))
    (hany : items.any (Change.selects · v)) : (Edit.pull p v).outcome s = (.ok (), { s with
      doc := (s.doc.openChanges.write p (.arr (items.filter fun x => ¬ Change.selects x v))).2.withdrawn
        p v (items.map (Change.selects · v)) }) := by
  have hok : (s.doc.openChanges.write p (.arr (items.filter fun x => ¬ Change.selects x v))).1 = .ok () := by
    rw [Document.write_eq, Document.openChanges_eq]
    exact Value.setFrom_ok_of_get? hget
  have hany' : (items.map (Change.selects · v)).any id := by simpa using hany
  rw [Edit.pull, outcome_bind, outcome_doc]
  dsimp only
  rw [hf]
  dsimp only
  rw [hget]
  simp only [hany', if_true, outcome_bind, outcome_change, outcome_write, hok]
  rfl

namespace Document

variable {d : Document} {p : Path} {f : Field} {v : Value} {items : List Value} {effects : Effects}

-- A removal leaves the items that the value does not select. What the document and the scopes around the array and
-- its items know of an item goes with it to its new index, as do its scopes, and nothing remains at the indices
-- that are no longer there.
theorem removal_shifts (hd : d.Reached) (hf : d.arrayField? p = some f) (hget : d.get? p = some (.arr items))
    (hany : items.any (Change.selects · v)) (effects : Effects) :
    let left := items.filter fun x => ¬ Change.selects x v
    let kept := spared 0 (items.map (Change.selects · v))
    let s' := ((Edit.pull p v).outcome ⟨d, effects⟩)
    let after := s'.2.doc
    s'.1 = .ok () ∧ after.get? p = some (.arr left) ∧ kept.map (items[·]?) = left.map some ∧
    Shifts kept items.length (fun i x => d.stateOf? (p.index i ++ x)) (fun j x => after.stateOf? (p.index j ++ x)) ∧
    Shifts kept items.length (fun i x => d.scopes.placed? (p.index i ++ x))
      (fun j x => after.scopes.placed? (p.index j ++ x)) ∧
    (∀ k ∈ d.scopes.owners p, k ∈ d.scopes.owners (p.index 0) → ∀ scope rel, d.scopes.get? k = some scope →
      p = scope.root ++ rel → ∃ t, after.scopes.get? k = some { scope with tracker := t } ∧
        Shifts kept items.length (fun i x => scope.tracker.stateOf? (rel.index i ++ x))
          (fun j x => t.stateOf? (rel.index j ++ x))) ∧
    (d.scopes.keyAt? p = none → d.scopes.owners (p.index 0) = d.scopes.owners p) := by
  intro left kept s' after
  have hne := ne_nil_of_resolve (arrayField?_eq_some_iff.mp hf).1
  have hout : s' = _ := Edit.outcome_pull (s := ⟨d, effects⟩) hf hget hany
  obtain ⟨written, hw, hscopes, htracker, hvalue⟩ : ∃ written : Document, after =
      written.withdrawn p v (items.map (Change.selects · v)) ∧ written.scopes = d.scopes ∧
      written.tracker = d.tracker ∧ written.value = (d.value.set p (.arr left)).2 := by
    refine ⟨_, congrArg (fun s => s.2.doc) hout, ?_⟩
    rw [write_eq, openChanges_eq]
    exact ⟨rfl, rfl, rfl⟩
  have hranked : written.scopes.Ranked := hscopes ▸ hd.ranked
  obtain ⟨hstates, hplaced⟩ := withdrawn_shifts (p := p) (v := v) hranked (items.map (Change.selects · v))
  rw [← hw, List.length_map] at hstates hplaced
  refine ⟨congrArg Prod.fst hout, ?_, map_spared, ?_, ?_, ?_, Scopes.owners_index_of_none hne⟩
  · have hkeeps : after.value = written.value := by
      rw [hw]
      exact value_reindex
    rw [Document.get?, hkeeps, hvalue]
    exact Value.get?_setFrom_self (Value.setFrom_ok_of_get? hget)
  · simpa only [stateOf?, htracker] using hstates
  · simpa only [hscopes] using hplaced
  · intro k hk hk₀ scope rel hs hp
    have howned : written.Owned p scope k := ⟨hranked, by rwa [hscopes], fun i => by
      rwa [hscopes, Scopes.owners_index], scope.tracker, by rwa [hscopes]⟩
    have := withdrawn_shifts_owner (v := v) hp howned (by rwa [hscopes]) (items.map (Change.selects · v))
    rwa [← hw, List.length_map] at this

-- A row has a part or a list of parts, and a page has rows or anything in their place.
def kinded (fields : List (Path × Field)) : Schema :=
  ⟨{ id := false }, ([.key "kind"], .plain .string) :: fields, []⟩

def piece : SubSchema :=
  ⟨kinded [([.key "name"], .plain .string)], []⟩

def row : SubSchema :=
  ⟨kinded [], [("part", kinded [([.key "x"], .plain (.embedded piece))]),
    ("parts", kinded [([.key "x"], .plain (.documentArray piece))])]⟩

def page : SubSchema :=
  ⟨kinded [], [("any", kinded [([.key "rows"], .plain .mixed)]),
    ("rows", kinded [([.key "rows"], .plain (.documentArray row))])]⟩

def book : Schema :=
  ⟨{ id := false }, [([.key "e"], .plain (.embedded page))], []⟩

def pageOf (rows : List Value) : Value :=
  .obj [("e", .obj [("kind", .str "rows"), ("rows", .arr rows)])]

def partRow : Value :=
  .obj [("kind", .str "part"), ("x", .obj [])]

def partsRow : Value :=
  .obj [("kind", .str "parts"), ("x", .arr [])]

-- The second row is the first one afterwards, and its scope goes with it.
theorem row_shifts : ∃ d, (load book (pageOf [partRow, partsRow]) none {}).1 = .ok d ∧
    let p : Path := [.key "e", .key "rows"]
    let after := ((Edit.pull p partRow).outcome ⟨d, {}⟩).2.doc
    after.get? p = some (.arr [partsRow]) ∧ after.scopes.placed? (p.index 0) = d.scopes.placed? (p.index 1) ∧
    (d.scopes.placed? (p.index 1)).isSome ∧ after.scopes.placed? (p.index 1) = none := by
  have hshifts {d : Document} (hload : (load book (pageOf [partRow, partsRow]) none {}).1 = .ok d) {f : Field}
      (hf : d.arrayField? [.key "e", .key "rows"] = some f)
      (hget : d.get? [.key "e", .key "rows"] = some (.arr [partRow, partsRow])) :=
    removal_shifts (v := partRow) (.loaded hload) hf hget (by decide +kernel) {}
  refine ⟨_, rfl, ?_⟩
  obtain ⟨-, hget, -, -, hplaced, -⟩ := hshifts rfl rfl rfl
  have hmoved := hplaced.moved (j := 0) (i := 1) (by decide +kernel) []
  have hgone := hplaced.gone (m := 1) (by decide +kernel) (by decide) []
  simp only [List.append_nil] at hmoved hgone
  exact ⟨hget, hmoved, rfl, hgone⟩

-- The rows are replaced as anything, so the scope of the part stays; the next row has a list in its place.
def replaceRow : List Call := [
  .set [.key "e", .key "kind"] (.str "any") {},
  .set [.key "e", .key "rows"] (.arr []) {},
  .set [.key "e", .key "kind"] (.str "rows") {},
  .push [.key "e", .key "rows"] [.obj []],
  .set [.key "e", .key "rows", .index 0, .key "kind"] (.str "parts") {},
  .push [.key "e", .key "rows", .index 0, .key "x"] [.obj []],
  .commit,
  .set [.key "e", .key "rows", .index 0, .key "x", .index 0, .key "name"] (.str "n") {}]

def namedPart : Value :=
  .obj [("name", .str "n")]

-- The scope of the row is around its list, but not around the parts in it, and keeps the state of one that is gone.
theorem removed_item_tracked : ∃ start, (load book (pageOf [partRow]) none {}).1 = .ok start ∧
    let d := (Call.runAll replaceRow ⟨start, {}⟩).doc
    let rowPath : Path := [.key "e", .key "rows", .index 0]
    let rel : Path := [.key "x"]
    let after := ((Edit.pull (rowPath ++ rel) namedPart).outcome ⟨d, {}⟩).2.doc
    d.Reached ∧ (d.arrayField? (rowPath ++ rel)).isSome ∧ d.get? (rowPath ++ rel) = some (.arr [namedPart]) ∧
    after.get? (rowPath ++ rel) = some (.arr []) ∧
    ∃ k ∈ d.scopes.owners (rowPath ++ rel), (after.scopes.get? k).map (fun scope =>
      (scope.root, scope.tracker.stateOf? (rel.index 0 ++ [.key "name"]))) = some (rowPath, some .modify) := by
  have hreached {start : Document} (hload : (load book (pageOf [partRow]) none {}).1 = .ok start) :
      (Call.runAll replaceRow ⟨start, {}⟩).doc.Reached :=
    .runAll (.loaded hload) _
  refine ⟨_, rfl, hreached rfl, ?_, ?_, ?_, ⟨3, 0⟩, ?_, ?_⟩
  all_goals decide +kernel

end Document
end Dossier

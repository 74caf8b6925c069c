import Dossier.Proofs.Charting
import Dossier.Proofs.Exclusion
import Dossier.Proofs.Inclusion
import Dossier.Proofs.Interleaving
import Dossier.Proofs.Respelling

-- A document knows nothing of the parts that a projection left out, as long as nothing is written at them, around
-- them or inside of them.

namespace Dossier

open Path Entries Value List

-- Values without a part

namespace Value

variable {v : Value} {p q : Path}

-- An object with its keys in order that has nothing at a path.
structure Omits (v : Value) (p : Path) : Prop where
  sorted : ∃ fs, v = .obj fs ∧ Entries.Sorted fs
  absent : v.get? p = none

theorem Omits.ne_nil (h : v.Omits p) : p ≠ [] := by
  rintro rfl
  cases h.absent

theorem Omits.set (h : v.Omits p) (hq : q.Distinct p) : (v.set q x).2.Omits p := by
  refine ⟨Ordered.set h.sorted ?_, ?_⟩
  · rintro rfl
    exact hq.1 nil_prefix
  · rw [get?_set_distinct hq, h.absent]

-- Nothing is where nothing was, and nothing is at the path that was removed or below it.
theorem get?_remove_none (hv : v.Canonical) (hp : ∀ seg ∈ p, seg.index? = none)
    (h : v.get? p = none ∨ q ≠ [] ∧ q.covers p) : (v.remove q).2.get? p = none := by
  induction p generalizing v q with
  | nil =>
    rcases h with h | ⟨hq, hc⟩
    · cases h
    · exact absurd (covers_nil.mp hc) hq
  | cons seg p ih =>
    obtain ⟨hseg, hrest⟩ := forall_mem_cons.mp hp
    cases q with
    | nil =>
      rw [remove]
      exact h.resolve_right fun h => h.1 rfl
    | cons seg' r =>
      cases v with
      | obj fs =>
        rw [remove_obj, get?_cons_of_openFields rfl]
        by_cases hk : seg'.toKey = seg.toKey
        · rw [hk, get?_alterField_self (hereditary_canonical.obj.mp hv).1]
          cases hc : Entries.get? seg.toKey fs with
          | none => rfl
          | some c =>
            cases r with
            | nil => rfl
            | cons =>
              refine ih (hereditary_canonical.child (v := .obj fs) hv hc) hrest (h.imp (fun h => ?_) fun h => ?_)
              · rwa [get?_cons_of_openFields rfl, hc] at h
              · exact ⟨cons_ne_nil _ _, (cons_covers_cons.mp h.2).2⟩
        · rw [get?_alterField_ne hk]
          have h := h.resolve_right fun h => hk (congrArg Seg.toKey (cons_covers_cons.mp h.2).1)
          rwa [get?_cons_of_openFields rfl] at h
      | arr items =>
        cases seg with
        | index => cases hseg
        | key =>
          cases seg' with
          | key => rw [remove_of_get?_none (get?_key_arr _ _), get?_key_arr]
          | index => rw [remove_index_arr, get?_key_arr]
      | null | bool | num | str => rw [remove_of_get?_none rfl]; rfl

theorem Hereditary.setChild {c : Value} (hC : Hereditary C) (h : C v) (hc : C c) : C (v.setChild seg c) := by
  fun_cases Value.setChild v seg c with
  | case1 fields =>
    obtain ⟨hs, hfields⟩ := hC.obj.mp h
    refine hC.obj.mpr ⟨replace_sorted hs, fun e he => ?_⟩
    rcases snd_of_mem_replace he with heq | he
    · exact heq ▸ hc
    · exact hfields e he
  | case2 items i =>
    refine hC.arr.mpr fun x hx => ?_
    rcases mem_or_eq_of_mem_set hx with hx | rfl
    · exact hC.arr.mp h x hx
    · exact hc
  | case3 => exact h

theorem Hereditary.remove (hC : Hereditary C) (h : C v) : C (v.remove q).2 := by
  fun_induction Value.remove v q with
  | case1 => exact h
  | case2 fields seg =>
    obtain ⟨hs, hfields⟩ := hC.obj.mp h
    exact hC.obj.mpr ⟨erase_sorted hs, fun e he => hfields e ((erase_sublist _ _).subset he)⟩
  | case3 items i => exact hC.arr.mpr fun x hx => hC.arr.mp h x (mem_of_mem_eraseIdx hx)
  | case4 => exact h
  | case5 v seg rest _ _ _ c hc r c' heq ih =>
    have hrec := ih (hC.child h hc)
    rw [heq] at hrec
    exact hC.setChild h hrec
  | case6 => exact h

end Value

-- Projections

-- The text of a spelled key tells it from any other segment.
theorem Path.Apart.distinct_of_bounded {q : Path} (h : q.Apart p) (hp : p.Spelled)
    (hkeys : ∀ seg ∈ p, seg.index? = none) (hq : q.Bounded) : q.Distinct p := by
  induction q generalizing p with
  | nil => exact absurd (nil_covers p) h.1
  | cons seg' q ih =>
    cases p with
    | nil => exact absurd (nil_covers _) h.2
    | cons seg p =>
      obtain ⟨hseg, hrest⟩ := forall_mem_cons.mp hkeys
      obtain ⟨hseg', hrest'⟩ := forall_mem_cons.mp hq
      obtain ⟨hspelled, htail⟩ := spelled_cons.mp hp
      rw [cons_distinct_cons]
      by_cases hk : seg'.toKey = seg.toKey
      · cases seg with
        | index => cases hseg
        | key k =>
          cases Seg.eq_key_of_toKey hspelled hseg' hk
          exact .inr (ih ((cons_apart_cons.mp h).resolve_left (absurd rfl)) htail hrest hrest')
      · exact .inl hk

namespace Projection

variable {projection : Projection} {p q : Path} {raw : Value}

def paths : Projection → List Path
  | .including paths | .excluding paths => paths.keys

-- The paths of a projection lead somewhere, and their indices are below the bound that texts have.
def Proper (projection : Projection) : Prop :=
  ∀ q ∈ projection.paths, q ≠ [] ∧ q.Bounded

instance : Decidable projection.Proper :=
  inferInstanceAs (Decidable (∀ q ∈ projection.paths, q ≠ [] ∧ q.Bounded))

theorem selects_of_covers (h : projection.selects p = false) (hp : p ≠ []) (hc : p.covers q) :
    projection.selects q = false := by
  obtain ⟨r, rfl⟩ := covers_iff.mp hc
  cases projection with
  | including paths =>
    obtain ⟨seg, rest, rfl⟩ := exists_cons_of_ne_nil hp
    have hid := not_idPath_of_not_selects h
    simp only [cons_append, selects, Bool.or_eq_false_iff, any_eq_false, beq_eq_false_iff_ne,
      Bool.not_eq_true]
    refine ⟨hid, fun q hq => ?_⟩
    have hapart := apart_of_not_selects h hq
    simp only [← Bool.not_eq_true]
    refine ⟨fun hcov => ?_, fun ha => hapart.2 ?_⟩
    · exact (covers_total hcov (covers_append (seg :: rest) r)).elim hapart.1 hapart.2
    · exact covers_trans (covers_append (seg :: rest) r) (covers_of_isAbove ha)
  | excluding paths =>
    simp only [selects, decide_eq_false_iff_not, not_not, any_eq_true] at h ⊢
    obtain ⟨x, hx, hcov⟩ := h
    exact ⟨x, hx, covers_trans hcov (covers_append p r)⟩

theorem canonical_apply (hraw : raw.Canonical) : (projection.apply raw).Canonical := by
  cases projection with
  | including paths =>
    have hempty : (Value.obj []).Canonical := by decide
    refine List.foldlRecOn _ _ hempty fun out hout q _ => ?_
    rw [copy]
    split
    · case _ v hv =>
      exact hereditary_canonical.setFrom hout (hereditary_canonical.get? hraw hv)
    · exact hout
  | excluding paths => exact List.foldlRecOn _ _ hraw fun _ hout _ _ => hereditary_canonical.remove hout

theorem get?_apply (hp : p.Spelled) (hkeys : ∀ seg ∈ p, seg.index? = none) (hne : p ≠ []) (hproper : projection.Proper)
    (hraw : raw.Canonical) (h : projection.selects p = false) : (projection.apply raw).get? p = none := by
  cases projection with
  | including paths =>
    exact get?_including_none hne h fun q hq ha => ha.distinct_of_bounded hp hkeys (hproper q hq).2
  | excluding paths =>
    simp only [selects, decide_eq_false_iff_not, not_not, any_eq_true] at h
    obtain ⟨x, hx, hcov⟩ := h
    obtain ⟨before, after, hsplit⟩ := append_of_mem hx
    have hcanonical : (before.foldl (fun out q => (out.remove q).2) raw).Canonical :=
      List.foldlRecOn _ _ hraw fun _ hout _ _ => hereditary_canonical.remove hout
    rw [apply, hsplit, foldl_append, foldl_cons]
    generalize before.foldl (fun out q => (out.remove q).2) raw = out at hcanonical
    have hremoved : (out.remove x).2.Canonical ∧ (out.remove x).2.get? p = none :=
      ⟨hereditary_canonical.remove hcanonical,
        get?_remove_none hcanonical hkeys (.inr ⟨(hproper x hx).1, hcov⟩)⟩
    refine (List.foldlRecOn (motive := fun out : Value => out.Canonical ∧ out.get? p = none) _ _ hremoved
      fun out hout q _ => ?_).2
    exact ⟨hereditary_canonical.remove hout.1, get?_remove_none hout.1 hkeys (.inl hout.2)⟩

end Projection

-- Documents that know nothing of a path

namespace Tracker

variable {t t' : Tracker} {schema : Schema} {p q : Path}

-- The states of paths that something is known of.
def known : List PathState :=
  [.init, .modify, .default]

-- Nothing is known of a path or of what is inside of it, and no group of fields around it is tracked.
def Skips (t : Tracker) (schema : Schema) (p : Path) : Prop :=
  ∀ q s, t.stateOf? q = some s →
    ¬ (q.isAbove p ∧ ∃ e ∈ schema.fields, q.isAbove e.1) ∧ (s ∈ known → ¬ p.covers q)

namespace Skips

variable (h : t.Skips schema p)

include h

theorem of_states
    (hs : ∀ q s, t'.stateOf? q = some s → q.Apart p ∨ ∃ s', t.stateOf? q = some s' ∧ (s ∈ known → s' ∈ known)) :
    t'.Skips schema p := by
  intro q s hq
  rcases hs q s hq with ha | ⟨s', hs', hknown⟩
  · exact ⟨fun hn => ha.1 (covers_of_isAbove hn.1), fun _ => ha.2⟩
  · exact ⟨(h q s' hs').1, fun hm => (h q s' hs').2 (hknown hm)⟩

theorem track (hgroup : ¬ (q.isAbove p ∧ ∃ e ∈ schema.fields, q.isAbove e.1)) (hknown : s ∈ known → ¬ p.covers q) :
    (t.transition q s).Skips schema p := by
  intro r s' hr
  rw [stateOf?_transition] at hr
  split at hr
  · case isTrue he =>
    cases hr
    exact he ▸ ⟨hgroup, hknown⟩
  · exact h r s' hr

theorem transition (hq : q.Apart p) : (t.transition q s).Skips schema p :=
  h.track (fun hn => hq.1 (covers_of_isAbove hn.1)) fun _ => hq.2

theorem clearDescendants : (t.clearDescendants q).Skips schema p := by
  refine h.of_states fun r s' hr => ?_
  rw [stateOf?_clearDescendants] at hr
  split at hr
  · cases hr
  · exact .inr ⟨s', hr, id⟩

theorem forget : (t.forget q).Skips schema p := by
  refine h.of_states fun r s' hr => ?_
  rw [stateOf?_forget] at hr
  split at hr
  · cases hr
  · exact .inr ⟨s', hr, id⟩

theorem rekey {new : Path} (hnew : new.Apart p) : (t.rekey old new).Skips schema p := by
  refine h.of_states fun r s' hr => (stateOf?_of_rekey hr).imp (fun hc => ?_) fun hr => ⟨s', hr, id⟩
  exact Path.Apart.below hnew hc

theorem moveAll (ht : t.Consistent) (hs : s ∈ known) : (t.moveAll s s').Skips schema p := by
  refine h.of_states fun r s₁ hr => .inr ?_
  rw [stateOf?_moveAll ht] at hr
  split at hr
  · case isTrue he => exact ⟨s, he, fun _ => hs⟩
  · exact ⟨s₁, hr, id⟩

theorem commit (ht : t.Consistent) : (Document.commitTracker t).Skips schema p :=
  (h.moveAll ht (by decide)).moveAll ht.moveAll (by decide)

end Skips
end Tracker

namespace Path

variable {p q : Path}

theorem Distinct.apart (h : q.Distinct p) : q.Apart p :=
  ⟨h.not_covers, h.symm.not_covers⟩

theorem Distinct.ne_nil (h : q.Distinct p) : q ≠ [] := by
  rintro rfl
  exact h.1 nil_prefix

end Path

namespace Scopes

variable {p q : Path}

theorem static_apart : Static fun scope : Scope => scope.root.Apart p :=
  fun _ _ h => h

end Scopes

namespace Document

open Edit

variable {schema : Schema} {d : Document} {p q : Path} {f : Field}

-- A path was not loaded, and neither the document nor what it goes back to when changes are undone knows of it.
structure Unloaded (schema : Schema) (p : Path) (d : Document) : Prop where
  sound   : d.Sound
  hidden  : d.isSelected p = false
  absent  : d.value.Omits p
  tracker : d.tracker.Skips schema p
  scopes  : d.scopes.All (·.root.Apart p)
  kept    : ∀ q o, d.snapshot.get? q = some o → ∀ v, v.Omits p → (restoreTop v (q, o)).Omits p
  backup  : ∀ b, d.backup = some b → b.tracker.Skips schema p ∧ b.scopes.All (·.root.Apart p)
  schema  : d.schema = schema

theorem omits_restoreTop {w : Value} (hw : w.Omits p) (hv : v.Omits p) :
    (restoreTop v ([seg], w.get? [seg])).Omits p := by
  obtain ⟨seg', rest, rfl⟩ := exists_cons_of_ne_nil hv.ne_nil
  obtain ⟨⟨fs, rfl, hs⟩, hv⟩ := hv
  obtain ⟨⟨gs, rfl, -⟩, hw⟩ := hw
  rw [get?_cons_of_openFields rfl] at hv hw
  rw [get?_top, Restores.restoreTop_obj]
  by_cases hk : seg.toKey = seg'.toKey
  · rw [← hk] at hw
    cases hg : Entries.get? seg.toKey gs with
    | some c =>
      rw [hg] at hw
      refine ⟨⟨_, rfl, insert_sorted hs⟩, ?_⟩
      rw [get?_cons_of_openFields rfl, ← hk, get?_insert_self]
      exact hw
    | none =>
      refine ⟨⟨_, rfl, erase_sorted hs⟩, ?_⟩
      rw [get?_cons_of_openFields rfl, ← hk, get?_erase_self hs]
      rfl
  · cases Entries.get? seg.toKey gs with
    | some c =>
      refine ⟨⟨_, rfl, insert_sorted hs⟩, ?_⟩
      rw [get?_cons_of_openFields rfl, get?_insert_ne hk]
      exact hv
    | none =>
      refine ⟨⟨_, rfl, erase_sorted hs⟩, ?_⟩
      rw [get?_cons_of_openFields rfl, get?_erase_ne hk]
      exact hv

namespace Unloaded

theorem openChanges (h : d.Unloaded schema p) : d.openChanges.Unloaded schema p := by
  have hs := h.sound.openChanges
  rw [Document.openChanges] at hs ⊢
  split
  · exact h
  · case _ hb =>
    rw [hb] at hs
    exact { h with
      sound := hs
      backup := by
        rintro b ⟨⟩
        exact ⟨h.tracker, h.scopes⟩ }

theorem write (h : d.Unloaded schema p) (hq : q.Distinct p) : (d.write q v).2.Unloaded schema p := by
  have hs := h.sound.write (v := v) hq.ne_nil
  rw [write_eq] at hs ⊢
  refine { h with
    sound := hs
    absent := h.absent.set hq
    kept := fun r o hr w hw => ?_ }
  dsimp only at hr
  rw [keepTop] at hr
  split at hr
  · rw [OrdMap.get?_insert] at hr
    split at hr
    · case isTrue he =>
      cases hr
      obtain ⟨seg, rest, rfl⟩ := exists_cons_of_ne_nil hq.ne_nil
      rw [← he]
      exact omits_restoreTop h.absent hw
    · exact h.kept r o hr w hw
  · exact h.kept r o hr w hw

theorem markModified (h : d.Unloaded schema p) (hq : q.Apart p) : (d.markModified q).Unloaded schema p := by
  obtain ⟨c, ht, hc⟩ := exists_owner_mark d q
  have hapart : c.Apart p := by
    rcases hc with rfl | ⟨k, -, scope, hs, -, rfl⟩
    · exact hq
    · exact h.scopes k scope hs
  exact { h with
    sound := h.sound.markModified
    tracker := ht ▸ h.tracker.transition hapart
    scopes := markModified_all h.scopes Scopes.static_apart }

theorem stable : Stable (·.Distinct p) (Unloaded schema p) where
  opened h := h.openChanges
  written hq h := h.write hq
  detached _ h := { h with
    sound := h.sound.detached
    tracker := detached_tracker ▸ h.tracker.clearDescendants
    scopes := (eachTracker_all h.scopes Scopes.static_apart).removeBelow (eachTracker_scopes h.sound.scopes) }
  attached hq h := { h with
    sound := h.sound.attached
    scopes := (Scopes.all_attachField h.sound.scopes.tidy h.scopes fun _ _ => hq.apart.below).2 }
  extended hq h := { h with
    sound := stable_sound.extended hq.ne_nil h.sound
    scopes := Scopes.all_attachItems h.sound.scopes.tidy h.scopes fun _ _ => hq.apart.below }
  noted _ h := { h with sound := h.sound.noted }
  marked hq h := h.markModified hq.apart
  reported h := { h with sound := stable_sound.reported h.sound }

variable (h : d.Unloaded schema p)

include h

theorem dropItem : (d.dropItem q).Unloaded schema p := { h with
  sound := h.sound.dropItem
  tracker := by
    simp only [Document.dropItem, eachTracker, atPath, below?_root]
    exact h.tracker.forget.clearDescendants
  scopes := eachTracker_all (h.scopes.removeBelow h.sound.scopes) Scopes.static_apart }

theorem moveItem (hq : q.Distinct p) {j : Nat} : (d.moveItem q i j).Unloaded schema p := { h with
  sound := h.sound.moveItem
  tracker := by
    simp only [Document.moveItem, eachTracker, below?_root]
    exact h.tracker.rekey (hq.inside _).apart
  scopes := by
    refine eachTracker_all (h.scopes.rekey h.sound.scopes fun scope x _ => ?_) Scopes.static_apart
    exact (hq.inside _).apart.below (covers_append _ _) }

theorem unmarkModified (hq : q.Apart p) : (d.unmarkModified q).Unloaded schema p := { h with
  sound := h.sound.unmarkModified
  tracker := by
    simp only [Document.unmarkModified, eachTracker, atPath, below?_root]
    split
    · exact h.tracker.transition hq
    · exact h.tracker
  scopes := eachTracker_all h.scopes Scopes.static_apart }

theorem commit : d.commit.Unloaded schema p := { h with
  sound := h.sound.commit
  tracker := h.tracker.commit h.sound.tracker
  scopes := fun k scope hs => by
    rw [Document.commit, Scopes.get?_mapAll] at hs
    obtain ⟨old, hold, rfl⟩ := Option.map_eq_some_iff.mp hs
    exact h.scopes k old hold
  kept := by simp [Document.commit]
  backup := by simp [Document.commit] }

theorem rollback : d.rollback.Unloaded schema p := by
  have hs := h.sound.rollback
  rw [Document.rollback] at hs ⊢
  split
  · exact h
  · case _ b hb =>
    rw [hb] at hs
    obtain ⟨htracker, hscopes⟩ := h.backup b hb
    exact { h with
      sound := hs
      absent := List.foldlRecOn (motive := (Value.Omits · p)) _ _ h.absent fun v hv e he =>
        h.kept e.1 e.2 (OrdMap.mem_entries_iff.mp he) v hv
      tracker := htracker
      scopes := hscopes
      kept := by simp
      backup := by simp }

end Unloaded

theorem Stable.push (h : Stable P I)
    (hP : ∀ p k, P p → P (p ++ [.key k])) (hq : P q)
    (hr : ∀ s', Appends q vs s s' → Rounds (Path.Opens P) {} maxRounds s') (hs : I s.doc) :
    I ((Edit.push q vs).outcome s).2.doc :=
  push_rec hs (fun _ => h.reported (h.opened hs)) (fun _ _ => h.written hq (h.opened hs)) fun ha hw =>
    (h.heeds hP).settle (hr _ (ha.appends hw)) (h.appended hq (h.written hq (h.opened hs)))

end Document

namespace Call

open Edit Document

variable {schema : Schema} {p : Path}

-- A call writes nothing at a path, around it or inside of it, and neither do the setters that it calls.
def Avoids (p : Path) (s : Desk) : Call → Prop
  | set q v opts => q.Opens (·.Distinct p) v ∧ Rounds (Path.Opens (·.Distinct p)) opts maxRounds (begun q v opts s)
  | push q vs => q.Distinct p ∧ ∀ s', Appends q vs s s' → Rounds (Path.Opens (·.Distinct p)) {} maxRounds s'
  | pull q _ | mark q | unmark q | populate q _ | depopulate q => q.Distinct p
  | report .. | commit | rollback => True

def AllAvoid (p : Path) : List Call → Desk → Prop
  | [], _ => True
  | c :: calls, s => c.Avoids p s ∧ AllAvoid p calls (c.run s)

theorem unloaded_run {c : Call} (h : s.doc.Unloaded schema p) (hc : c.Avoids p s) :
    (c.run s).doc.Unloaded schema p := by
  have hinner : ∀ (q : Path) (k : String), q.Distinct p → Path.Distinct (q ++ [.key k]) p :=
    fun _ k hq => hq.inside (.key k)
  cases c with
  | set q v opts => exact (Unloaded.stable.heeds hinner).set hc.1 hc.2 h
  | push q vs => exact Unloaded.stable.push hinner hc.1 hc.2 h
  | pull q v =>
    exact pull_rec h (fun _ => h.openChanges.write hc) fun _ hd =>
      Unloaded.stable.marked hc (Unloaded.stable.noted hc (Unloaded.stable.reported
        (reindex_rec (fun _ _ hd => hd.dropItem) (fun _ _ _ hd => hd.moveItem hc) hd)))
  | mark q => exact h.openChanges.markModified hc.apart
  | unmark q => exact h.unmarkModified hc.apart
  | populate q v =>
    exact populate_rec h (fun _ hd => hd.write hc) fun _ hd => { hd with sound := hd.sound.stood hc.ne_nil }
  | depopulate q =>
    exact depopulate_rec h (fun hd => { hd with sound := hd.sound.vacated }) fun _ hd => hd.write hc
  | report issues validating => exact { h with sound := keeps_call_sound (.report issues validating) s h.sound }
  | commit => exact h.commit
  | rollback => exact h.rollback

theorem unloaded_runAll {calls : List Call} (h : s.doc.Unloaded schema p) (hc : AllAvoid p calls s) :
    (runAll calls s).doc.Unloaded schema p := by
  induction calls generalizing s with
  | nil => exact h
  | cons c calls ih => exact ih (unloaded_run h hc.1) hc.2

end Call

-- Loading

namespace Document

open Edit

variable {schema : Schema} {projection : Projection} {d : Document} {p q : Path} {f : Field} {raw : Value}

theorem not_group (hw : SchemaLaw.wellFormed (.paths (schema.fields.map (·.1)))) (hf : (q, f) ∈ schema.fields) :
    ¬ ∃ e ∈ schema.fields, q.isAbove e.1 := by
  rintro ⟨⟨r, g⟩, hg, ha⟩
  exact (Schema.apart_of_pairwise hw.2 hf hg (ne_of_isAbove ha)).1 (covers_of_isAbove ha)

-- What is known of a path that a projection does not select while a record is completed.
structure Reading (schema : Schema) (projection : Projection) (p : Path) (d : Document) : Prop where
  tidy       : d.scopes.Tidy
  inside     : d.scopes.All fun scope => ∀ e ∈ schema.fields, ¬ scope.root.isAbove e.1
  tracker    : d.tracker.Skips schema p
  sorted     : ∃ fs, d.value = .obj fs ∧ Entries.Sorted fs
  -- No default brings a declared path that was not loaded, nor a document around it.
  declared   : (∃ f, (p, f) ∈ schema.fields) → d.scopes.All (·.root.Distinct p) ∧ d.get? p = none
  projection : d.projection = some projection
  schema     : d.schema = schema

namespace Reading

variable {key : ScopeKey} {scope : Scope}

section

variable (h : d.Reading schema projection p)

include h

theorem not_covers (hp : p ≠ []) (hsel : projection.selects p = false) (hq : d.isSelected q) : ¬ p.covers q := by
  intro hc
  rw [isSelected, h.projection, Projection.selectsOpt, Projection.selects_of_covers hsel hp hc] at hq
  cases hq

theorem filled (hw : SchemaLaw.wellFormed (.paths (schema.fields.map (·.1)))) (hp : p ≠ [])
    (hsel : projection.selects p = false) (hf : (q, f) ∈ schema.fields) (hl : d.Lacks [] q f) :
    (Document.filled { d with value := (d.value.set q v).2 } q f).Reading schema projection p := by
  obtain ⟨hne, hspelled, -⟩ := hw.1 q (mem_map_of_mem hf)
  have hq : ¬ p.covers q := h.not_covers hp hsel hl.selected
  have hinside (scope : Scope) (hc : q.covers scope.root) : ∀ e ∈ schema.fields, ¬ scope.root.isAbove e.1 :=
    fun e he ha => not_group hw hf ⟨e, he, isAbove_of_covers_isAbove hc ha⟩
  exact {
    tidy := (Scopes.all_attachField h.tidy h.inside fun s _ => hinside s).1
    inside := (Scopes.all_attachField h.tidy h.inside fun s _ => hinside s).2
    tracker := h.tracker.track (fun hn => not_group hw hf hn.2) fun _ => hq
    sorted := Value.Ordered.set h.sorted hne
    declared := by
      rintro ⟨g, hg⟩
      obtain ⟨hscopes, hnone⟩ := h.declared ⟨g, hg⟩
      have hpq : q ≠ p := by
        rintro rfl
        exact hq (covers_refl q)
      have hdistinct : q.Distinct p := (Schema.apart_of_pairwise hw.2 hf hg hpq).distinct hspelled
        (hw.1 p (mem_map_of_mem hg)).2.1
      refine ⟨(Scopes.all_attachField h.tidy hscopes fun _ _ => hdistinct.of_covers).2, ?_⟩
      exact (get?_set_distinct hdistinct).trans hnone
    projection := h.projection
    schema := h.schema }

theorem filledIn (hp : p ≠ []) (hsel : projection.selects p = false)
    (hroot : (∀ e ∈ schema.fields, ¬ scope.root.isAbove e.1) ∧ ((∃ f, (p, f) ∈ schema.fields) → scope.root.Distinct p))
    (hl : d.Lacks scope.root rel f) :
    (Document.filledIn { d with value := (d.value.set (scope.root ++ rel) v).2 } key rel (scope.root ++ rel) f).Reading
      schema projection p := by
  have hcov : scope.root.covers (scope.root ++ rel) := covers_append _ _
  have hgroup : ¬ ∃ e ∈ schema.fields, Path.isAbove (scope.root ++ rel) e.1 := by
    rintro ⟨e, he, ha⟩
    exact hroot.1 e he (isAbove_of_covers_isAbove hcov ha)
  have hne : scope.root ++ rel ≠ [] := by
    intro hnil
    have := hl.absent
    rw [hnil] at this
    cases this
  have hinside (s : Scope) (hc : Path.covers (scope.root ++ rel) s.root) : ∀ e ∈ schema.fields, ¬ s.root.isAbove e.1 :=
    fun e he ha => hgroup ⟨e, he, isAbove_of_covers_isAbove hc ha⟩
  exact {
    tidy := (Scopes.all_attachField h.tidy.modify (h.inside.modify fun _ _ hs => hs) fun s _ => hinside s).1
    inside := (Scopes.all_attachField h.tidy.modify (h.inside.modify fun _ _ hs => hs) fun s _ => hinside s).2
    tracker := h.tracker.track (fun hn => hgroup hn.2) fun _ => h.not_covers hp hsel hl.selected
    sorted := Value.Ordered.set h.sorted hne
    declared := fun hdeclared => by
      obtain ⟨hscopes, hnone⟩ := h.declared hdeclared
      have hdistinct := (hroot.2 hdeclared).of_covers hcov
      refine ⟨(Scopes.all_attachField h.tidy.modify (hscopes.modify fun _ _ hs => hs) fun _ _ => hdistinct.of_covers).2, ?_⟩
      exact (get?_set_distinct hdistinct).trans hnone
    projection := h.projection
    schema := h.schema }

theorem seedRequired (hw : SchemaLaw.wellFormed (.paths (schema.fields.map (·.1)))) :
    d.seedRequired.Reading schema projection p := by
  have hschema := h.schema
  refine List.foldlRecOn (motive := Reading schema projection p) _ _ h fun d h e he => ?_
  dsimp only
  split
  · exact { h with tracker := h.tracker.track (fun hn => not_group hw (hschema ▸ he) hn.2) fun hs => absurd hs (by decide) }
  · exact h

end

theorem loadEdit (hw : SchemaLaw.wellFormed (.paths (schema.fields.map (·.1)))) (hp : p ≠ [])
    (hsel : projection.selects p = false) : Keeps (Reading schema projection p) (Document.loadEdit schema) :=
  keeps_loadEdit_absent
    (R := fun scope => (∀ e ∈ schema.fields, ¬ scope.root.isAbove e.1) ∧
      ((∃ f, (p, f) ∈ schema.fields) → scope.root.Distinct p))
    (fun _ _ hd => ⟨hd.tidy, hd.inside, hd.tracker, hd.sorted, hd.declared, hd.projection, hd.schema⟩)
    (fun _ _ _ _ hf hl hd => hd.filled hw hp hsel hf hl)
    (fun _ hd k scope hs => ⟨hd.inside k scope hs, fun hdeclared => (hd.declared hdeclared).1 k scope hs⟩)
    (fun _ _ _ _ _ _ hroot _ hl hd => hd.filledIn hp hsel hroot hl) fun _ hd => hd.seedRequired hw

end Reading

theorem attachField_none {s : Scopes} : s.attachField f q none o origin = s := by
  obtain ⟨type, rules⟩ := f
  rw [Scopes.attachField, Field.attach]
  cases type <;> rfl

theorem skips_trackLoaded
    (hw : SchemaLaw.wellFormed (.paths (schema.fields.map (·.1)))) (hp : p ≠ [])
    (hnone : (Value.obj fields).get? p = none) {projection : Option Projection} :
    (trackLoaded { schema, value := .obj fields, isNew := false, projection }).tracker.Skips schema p := by
  refine List.foldlRecOn (motive := (Tracker.Skips · schema p)) _ _
    (List.foldlRecOn (motive := (Tracker.Skips · schema p)) _ _ (by rintro q s ⟨⟩) fun t h e he => ?_) fun t h k hk => ?_
  · dsimp only
    split
    · case isTrue hsome =>
      refine h.track (fun hn => not_group hw he hn.2) fun _ hc => ?_
      have hsome := get?_isSome_of_covers hsome hc
      rw [hnone] at hsome
      cases hsome
    · exact h
  · dsimp only
    split
    · case isTrue hc =>
      refine h.track (fun hn => ?_) fun _ hcov => ?_
      · obtain ⟨-, e, he, ha⟩ := hn
        exact hc.2 (Schema.isNested_of_isAbove he ha (by simp))
      · obtain rfl : p = [.key k] := by
          obtain ⟨r, hr⟩ := covers_iff.mp hcov
          obtain ⟨seg, rest, rfl⟩ := exists_cons_of_ne_nil hp
          simp only [cons_append, List.cons.injEq, nil_eq, append_eq_nil_iff] at hr
          rw [hr.1, hr.2.1]
        obtain ⟨e, he, rfl⟩ := mem_map.mp hk
        rw [get?_cons_of_openFields rfl] at hnone
        cases hg : Entries.get? e.1 fields with
        | none => exact get?_eq_none_iff.mp hg e he rfl
        | some c =>
          rw [Seg.toKey, hg] at hnone
          cases hnone
    · exact h

theorem reading_attachLoaded {fields : List (String × Value)}
    (hw : SchemaLaw.wellFormed (.paths (schema.fields.map (·.1)))) (hp : p ≠ []) (hs : Entries.Sorted fields)
    (hnone : (Value.obj fields).get? p = none) :
    (trackLoaded { schema, value := .obj fields, isNew := false, projection := some projection }).attachLoaded.Reading
      schema projection p := by
  have htidy : ({} : Scopes).Tidy := (@Scopes.sound_empty true).tidy
  have hempty {Q : Scope → Prop} : ({} : Scopes).All Q := by rintro _ _ ⟨⟩
  have hinside (e : Path × Field) (he : e ∈ schema.fields) (scope : Scope) (hc : e.1.covers scope.root) :
      ∀ e ∈ schema.fields, ¬ scope.root.isAbove e.1 :=
    fun e' he' ha => not_group hw he ⟨e', he', isAbove_of_covers_isAbove hc ha⟩
  have hscopes := List.foldlRecOn
    (motive := fun s : Scopes => s.Tidy ∧ s.All fun scope => ∀ e ∈ schema.fields, ¬ scope.root.isAbove e.1)
    schema.fields (fun s e => s.attachField e.2 e.1 ((Value.obj fields).get? e.1) none .loaded) ⟨htidy, hempty⟩
    fun s h e he => Scopes.all_attachField h.1 h.2 fun scope _ => hinside e he scope
  refine ⟨hscopes.1, hscopes.2, skips_trackLoaded hw hp hnone, ⟨fields, rfl, hs⟩, ?_, rfl, rfl⟩
  rintro ⟨g, hg⟩
  refine ⟨?_, hnone⟩
  refine (List.foldlRecOn (motive := fun s : Scopes => s.Tidy ∧ s.All (·.root.Distinct p)) schema.fields _
    ⟨htidy, hempty⟩ fun s h e he => ?_).2
  by_cases hpe : e.1 = p
  · have hattach : s.attachField e.2 e.1 ((Value.obj fields).get? e.1) none .loaded = s := by
      rw [hpe, hnone, attachField_none]
    exact (congrArg (fun s : Scopes => s.Tidy ∧ s.All (·.root.Distinct p)) hattach).mpr h
  · have hdistinct : e.1.Distinct p := (Schema.apart_of_pairwise hw.2 he hg hpe).distinct
      (hw.1 e.1 (mem_map_of_mem he)).2.1 (hw.1 p (mem_map_of_mem hg)).2.1
    exact Scopes.all_attachField h.1 h.2 fun _ _ => hdistinct.of_covers

theorem keeps_loadEdit_isSome : Keeps (fun d => (d.get? p).isSome) (Document.loadEdit schema) :=
  keeps_loadEdit_absent (R := fun _ => True) (fun _ _ hd => hd)
    (fun _ _ _ _ _ hl hd => isSome_setFrom (.inl hl.absent) hd) (fun _ _ _ _ _ => trivial)
    (fun _ _ _ _ _ _ _ _ hl hd => isSome_setFrom (.inl hl.absent) hd)
    fun d hd => by rwa [get?, scopes_seedRequired.2]

theorem unloaded_of_load (hw : SchemaLaw.wellFormed (.paths (schema.fields.map (·.1)))) (hraw : raw.Canonical)
    (hproper : projection.Proper) (h : (load schema (projection.apply raw) (some projection) effects).1 = .ok d)
    (hsel : projection.selects p = false)
    (hplace : (∃ f, (p, f) ∈ schema.fields) ∨ d.get? p = none ∧ d.scopes.All (·.root.Apart p)) :
    d.Unloaded schema p := by
  have hloaded := load_loaded h
  have hcanonical : (projection.apply raw).Canonical := Projection.canonical_apply hraw
  have hp : p ≠ [] := by
    rcases hplace with ⟨f, hf⟩ | ⟨hnone, -⟩
    · exact (hw.1 p (mem_map_of_mem hf)).1
    · rintro rfl
      cases hnone
  obtain ⟨fields, -, hrecord, -⟩ := ok_of_load h
  have hnone : (projection.apply raw).get? p = none := by
    rcases hplace with ⟨f, hf⟩ | ⟨hnone, -⟩
    · obtain ⟨-, hspelled, hkeys⟩ := hw.1 p (mem_map_of_mem hf)
      exact Projection.get?_apply hspelled hkeys hp hproper hraw hsel
    · rw [← Option.not_isSome_iff_eq_none]
      intro hsome
      have := load_of_keeps h keeps_loadEdit_isSome fun _ _ => hsome
      rw [hnone] at this
      cases this
  rw [hrecord] at h hnone
  have hsorted : Entries.Sorted fields := (hereditary_canonical.obj.mp (hrecord ▸ hcanonical)).1
  have hreading := load_of_keeps h (Reading.loadEdit hw hp hsel) fun _ _ => reading_attachLoaded hw hp hsorted hnone
  obtain ⟨habsent, hscopes⟩ : d.get? p = none ∧ d.scopes.All (·.root.Apart p) := by
    rcases hplace with hf | hplace
    · obtain ⟨hscopes, habsent⟩ := hreading.declared hf
      exact ⟨habsent, fun k scope hs => (hscopes k scope hs).apart⟩
    · exact hplace
  exact {
    sound := hloaded.sound
    hidden := by rw [isSelected, hreading.projection, Projection.selectsOpt, hsel]
    absent := ⟨hreading.sorted, habsent⟩
    tracker := hreading.tracker
    scopes := hscopes
    kept := by simp [hloaded.snapshot]
    backup := by simp [hloaded.backup]
    schema := hreading.schema }

end Document

-- Validation

namespace Document

variable {schema : Schema} {d : Document} {p q c : Path} {f : Field} {opts : ValidateOptions}

theorem covers_of_mem_trackedPaths {root : Path} {top : Bool} (h : c ∈ d.trackedPaths t root top) : root.covers c := by
  rcases mem_append.mp h with h | h
  · obtain ⟨rel, -, rfl⟩ := mem_map.mp (mem_filter.mp h).1
    exact covers_append root rel
  · obtain ⟨rel, -, rfl⟩ := mem_map.mp h
    exact covers_append root rel

theorem of_mem_trackedPaths (ht : d.tracker.Consistent) (h : c ∈ d.trackedPaths d.tracker Path.root true) :
    ∃ s, d.stateOf? c = some s ∧ (s ∈ Tracker.known ∨ d.isSelected c ∨ d.isModified c) := by
  rcases mem_append.mp h with h | h
  · obtain ⟨h, hloaded⟩ := mem_filter.mp h
    obtain ⟨c, hc, rfl⟩ := mem_map.mp h
    exact ⟨.require, (ht c _).mp hc, .inr (by simpa using hloaded)⟩
  · obtain ⟨c, hc, rfl⟩ := mem_map.mp h
    obtain ⟨s, hs, hc⟩ := mem_flatMap.mp hc
    exact ⟨s, (ht c s).mp hc, .inl hs⟩

theorem isSome_of_mem_partPaths (h : p ∈ partPaths q (d.get? q)) : (d.get? p).isSome := by
  cases hv : d.get? q with
  | none =>
    rw [hv] at h
    cases h
  | some v =>
    rw [hv] at h
    cases v with
    | arr items =>
      obtain ⟨i, hi, rfl⟩ := mem_map.mp h
      rw [get?, Path.index, get?_append, ← get?, hv, Option.bind_some, get?_index_arr,
        getElem?_eq_getElem (mem_range.mp hi)]
      rfl
    | obj fields =>
      obtain ⟨e, he, rfl⟩ := mem_map.mp h
      rw [get?, Path.key, get?_append, ← get?, hv, Option.bind_some, get?_cons_of_openFields rfl]
      cases hg : Entries.get? e.1 fields with
      | none => exact absurd rfl (get?_eq_none_iff.mp hg e he)
      | some c =>
        rw [Seg.toKey, hg]
        rfl
    | null | bool | num | str => cases h

namespace Unloaded

theorem not_isModified (h : d.Unloaded schema p) : ¬ d.isModified p := by
  intro hm
  obtain ⟨q, hq, hcov⟩ := any_eq_true.mp hm
  have hstate : d.tracker.stateOf? q = some .modify := (h.sound.tracker q _).mp hq
  refine (h.tracker q .modify hstate).2 (by decide) ?_
  rcases Bool.or_eq_true_iff.mp hcov with he | ha
  · exact of_decide_eq_true he ▸ covers_refl p
  · exact covers_of_isAbove ha

theorem not_candidate (h : d.Unloaded schema p) (hopts : opts.paths = none) (hc : c ∈ d.candidates opts) :
    c ≠ p ∧ ¬ (c.isAbove p ∧ ∃ e ∈ schema.fields, c.isAbove e.1) := by
  rw [candidates, OrdSet.mem_ofKeys, hopts, Option.getD_none, append_nil, mem_append] at hc
  rcases hc with hc | hc
  · obtain ⟨s, hs, hcause⟩ := of_mem_trackedPaths h.sound.tracker hc
    obtain ⟨hgroup, hknown⟩ := h.tracker c s hs
    refine ⟨?_, hgroup⟩
    rintro rfl
    rcases hcause with hk | hsel | hm
    · exact hknown hk (covers_refl c)
    · rw [h.hidden] at hsel
      cases hsel
    · exact h.not_isModified hm
  · obtain ⟨⟨k, scope⟩, hmem, hc⟩ := mem_flatMap.mp hc
    have hscope := Scopes.get?_of_mem_toList hmem
    have hcov : scope.root.covers c := by
      rcases mem_cons.mp hc with rfl | hc
      · exact covers_refl _
      · exact covers_of_mem_trackedPaths hc
    have hapart : c.Apart p := Path.Apart.below (h.scopes k scope hscope) hcov
    refine ⟨?_, fun hn => hapart.1 (covers_of_isAbove hn.1)⟩
    rintro rfl
    exact hapart.1 (covers_refl c)

theorem not_planned (h : d.Unloaded schema p) (hopts : ∀ paths, opts.paths = some paths → ∀ q ∈ paths, ¬ q.covers p) :
    (p, f) ∉ d.plan opts := by
  intro hplan
  obtain ⟨⟨c, hc, -, hexamined⟩, hscope⟩ := mem_plan.mp hplan
  have hnone : opts.paths = none := by
    cases hp : opts.paths with
    | none => rfl
    | some paths =>
      simp only [inScope, hp, Bool.and_eq_true, any_eq_true] at hscope
      obtain ⟨⟨q, hq, hcov⟩, -⟩ := hscope
      exact absurd hcov (hopts paths hp q hq)
  obtain ⟨hne, hgroup⟩ := h.not_candidate hnone hc
  rcases hexamined with ⟨hleaf, -⟩ | ⟨q, g, -, -, hpart⟩
  · rw [leaves] at hleaf
    split at hleaf
    · exact hne (mem_singleton.mp hleaf).symm
    · obtain ⟨e, he, rfl⟩ := mem_map.mp hleaf
      obtain ⟨hdeclared, habove⟩ := mem_filter.mp he
      exact hgroup ⟨habove, e, h.schema ▸ hdeclared, habove⟩
    · cases hleaf
  · have hsome := isSome_of_mem_partPaths hpart
    rw [Document.get?, h.absent.absent] at hsome
    cases hsome

end Unloaded

theorem planned_of_report {report : Issues} (h : (d.validated hooks opts wait).result = .error (.validation report))
    (he : report.get? p = some e) : e.isCast ∨ ∃ f, (p, f) ∈ d.plan opts := by
  rw [validated_eq] at h
  have hadmits := admits_of_result h nofun nofun
  have htells : (d.check opts wait).1.settle.1.failures.Tells (d.FailsIn opts.moment wait (d.plan opts)) :=
    tells_settle
  have hoptions : (d.check opts wait).1.settle.1.options = opts := by rw [Pass.options_settle, options_check]
  rw [completePass_of_admits hadmits, ended, finishPass_eq] at h
  dsimp only at h
  generalize (d.check opts wait).1.settle.1 = pass at h htells hoptions
  obtain rfl : ({ d with validating := true }.mergeIssues pass).filter
      (fun p _ => { d with validating := true }.inScope pass.options p) = report := by
    rw [report?] at h
    split at h
    · cases h
    · cases h
      rfl
  rw [OrdMap.get?_filter, Option.filter_eq_some_iff] at he
  obtain ⟨he, hscope⟩ := he
  rw [get?_mergeIssues_of_inScope hscope, Option.or_eq_some_iff] at he
  rcases he with he | ⟨-, he⟩
  · exact .inl (Option.filter_eq_some_iff.mp he).2
  · obtain ⟨⟨i, v⟩, hfail, -⟩ := Option.map_eq_some_iff.mp he
    obtain ⟨f, hf, -⟩ := (htells.least hfail).1
    exact .inr ⟨f, hf⟩

-- A field that a projection leaves out is not reported as missing, as long as nothing was written at it, around it
-- or inside of it and no validation was asked for it by its path. Inside of embedded documents this holds if none
-- of them was loaded.
theorem unloaded_not_reported {schema : Schema} {projection : Projection} (raw : CanonicalValue) {effects₀ : Effects}
    {start : Document} (hw : SchemaLaw.wellFormed (.paths (schema.fields.map (·.1)))) (hproper : projection.Proper)
    (hload : (load schema (projection.apply raw) (some projection) effects₀).1 = .ok start)
    (hsel : projection.selects p = false)
    (hplace : (∃ f, (p, f) ∈ schema.fields) ∨ start.get? p = none ∧ start.scopes.All (·.root.Apart p))
    (calls : List Call) (effects : Effects) (hcalls : Call.AllAvoid p calls ⟨start, effects⟩)
    (hooks : Hooks) (opts : ValidateOptions) (wait : Bool)
    (hopts : ∀ paths, opts.paths = some paths → ∀ q ∈ paths, ¬ q.covers p) (report : Issues)
    (hreport : ((Call.runAll calls ⟨start, effects⟩).doc.validated hooks opts wait).result =
      .error (.validation report)) : ∀ e, report.get? p = some e → e.isCast := by
  intro e he
  have hunloaded := Call.unloaded_runAll (unloaded_of_load hw raw.2 hproper hload hsel hplace) hcalls
  rcases planned_of_report hreport he with hcast | ⟨f, hf⟩
  · exact hcast
  · exact absurd hf (hunloaded.not_planned hopts)

-- A contact has to have a name and a tag, and its address a code.
def contact : Schema :=
  let address : Schema := ⟨{ id := false }, [([.key "city"], .plain .string),
    ([.key "zip"], ⟨.string, { required := .always }⟩)], []⟩
  ⟨{ id := false }, [([.key "address"], .ofSub ⟨address, []⟩), ([.key "name"], ⟨.string, { required := .always }⟩),
    ([.key "tag"], ⟨.string, { required := .always }⟩)], []⟩

def storedContact : Value :=
  .obj [("address", .obj [("city", .str "c"), ("zip", .str "z")]), ("name", .str "n"), ("tag", .str "t")]

-- Of a contact of which only the tag was loaded, only the tag is missing when it is cleared.
theorem unloaded_not_reported_contact :
    let projection := Projection.including (.ofKeys [[.key "tag"]])
    ∃ start, (load contact (projection.apply storedContact) (some projection)).1 = .ok start ∧
      let ran := (Call.runAll [.set [.key "tag"] (.str "") {}] ⟨start, {}⟩).doc.validated {} {} false
      (∃ report, ran.result = .error (.validation report) ∧ (report.get? [.key "tag"]).isSome) ∧
      ∀ report, ran.result = .error (.validation report) →
        (∀ e, report.get? [.key "name"] = some e → e.isCast) ∧
        ∀ e, report.get? [.key "address", .key "zip"] = some e → e.isCast := by
  have hload : (load contact ((Projection.including (.ofKeys [[.key "tag"]])).apply storedContact)
      (some (.including (.ofKeys [[.key "tag"]])))).1 = .ok _ := rfl
  refine ⟨_, hload, ⟨_, rfl, rfl⟩, fun report hreport => ⟨?_, ?_⟩⟩
  · exact unloaded_not_reported ⟨storedContact, by decide⟩ (by decide) (by decide) hload rfl
      (.inl ⟨_, List.mem_cons_of_mem _ List.mem_cons_self⟩) [.set [.key "tag"] (.str "") {}] {}
      ⟨⟨(by decide : Path.Distinct [.key "tag"] [.key "name"]), Edit.rounds_of_quiet rfl⟩, trivial⟩
      {} {} false (by simp) report hreport
  · exact unloaded_not_reported ⟨storedContact, by decide⟩ (by decide) (by decide) hload rfl (.inr ⟨rfl, by rintro _ _ ⟨⟩⟩)
      [.set [.key "tag"] (.str "") {}] {}
      ⟨⟨(by decide : Path.Distinct [.key "tag"] [.key "address", .key "zip"]), Edit.rounds_of_quiet rfl⟩, trivial⟩
      {} {} false (by simp) report hreport

-- Of an address of which only the city was loaded, the code counts as missing.
theorem partly_loaded_reported :
    let projection := Projection.including (.ofKeys [[.key "address", .key "city"]])
    let p : Path := [.key "address", .key "zip"]
    projection.selects p = false ∧
    ∃ start report e, (load contact (projection.apply storedContact) (some projection)).1 = .ok start ∧
      (start.validated {} {} false).result = .error (.validation report) ∧
      report.get? p = some (.validator e) ∧ e.kind = .required := by
  refine ⟨rfl, _, _, _, rfl, rfl, rfl, rfl⟩

end Document
end Dossier

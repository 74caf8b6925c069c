import Dossier.Proofs.Changeset
import Dossier.Proofs.Mark
import Dossier.Proofs.Replay
import Dossier.Proofs.Setters

-- A removal is stored as the value that selected the items; replaying it agrees as long as no item was rewritten
-- before.

namespace Dossier

open Value Path List

namespace Value

variable {vs ws : List Value} {v : Value}

-- What is left of an array when the items that one of the values selects are removed.
def without (vs : List Value) : Value → Value
  | .arr xs => .arr (xs.filter fun x => ¬ vs.any (Change.selects x))
  | v => v

@[simp] theorem without_nil : Value.without [] = id := by
  funext v
  cases v <;> simp [without]

theorem without_append : v.without (vs ++ ws) = (v.without vs).without ws := by
  cases v with
  | arr xs =>
    simp only [without, filter_filter, any_append]
    congr 2
    funext x
    simp [Bool.and_comm]
  | null | bool | num | str | obj => rfl

end Value

namespace Call

-- The value whose items a call removes.
def pulled? : Call → Option Value
  | .pull _ v => some v
  | _ => none

-- A call that removes items from an array or writes below it.
def Within (p : Path) : Call → Prop
  | .pull q _ => q = p
  | .set q _ _ => p.isAbove q
  | _ => False

-- Every write among the calls leaves the value at a path.
def Leave (p : Path) : List Call → Desk → Prop
  | [], _ => True
  | c :: calls, s =>
    (c.pulled? = none → (c.run s).doc.get? p = s.doc.get? p) ∧ Leave p calls (c.run s)

-- No setter writes outside the array: there is none, or no item is assigned.
def Confined (schema : Schema) (calls : List Call) : Prop :=
  schema.Meets .noSetters ∨ ∀ c ∈ calls, c.pulled?.isSome

end Call

namespace Document

-- Items were removed from the array at a path, and all that was written is below it. `vs` are the
-- values that removed something.
structure Pulling (p : Path) (vs : List Value) (start d : Document) : Prop where
  sound  : d.Sound
  schema : d.schema = start.schema
  near   : ∀ q, d.stateOf? q = some .modify ∨ d.stateOf? q = some .default → p.covers q
  scopes : d.scopes.All fun scope => scope.isNew → p.covers scope.root
  pulled : (d.opsAt p).pulled = vs
  arrays : (∃ xs, d.get? p = some (.arr xs)) ↔ ∃ xs, start.get? p = some (.arr xs)
  held   : vs ≠ [] → ∃ xs, start.get? p = some (.arr xs)

variable {start d : Document} {p : Path} {vs : List Value}

theorem Untouched.pulling (h : start.Untouched) : Pulling p [] start start where
  sound := h.sound
  schema := rfl
  near q hq := by rcases hq with hq | hq <;> simp [h.states q] at hq
  scopes k scope hs hnew := absurd hnew (h.scopes k scope hs)
  pulled := by simp [opsAt, h.arrayOps]
  arrays := .rfl
  held := by simp

-- Writes below the array

theorem Pulling.marked (h : Pulling p vs start d) (hq : p.covers q) :
    Pulling p vs start (d.markModified q) := { h with
  sound := h.sound.markModified
  near := fun r hr => by
    obtain ⟨c, ht, hc⟩ := exists_owner_mark d q
    have hcov : p.covers c := by
      rcases hc with rfl | ⟨k, -, scope, hs, hnew, rfl⟩
      · exact hq
      · exact h.scopes k scope hs hnew
    simp only [stateOf?, ht, Tracker.stateOf?_transition] at hr
    split at hr
    · case isTrue he => exact he ▸ hcov
    · exact h.near r hr
  scopes := markModified_all h.scopes fun _ _ hq => hq }

theorem stable_pulling : Stable (fun w => p.isAbove w) (Pulling p vs start) where
  opened h := by
    have hs := h.sound.openChanges
    rw [openChanges_eq] at hs ⊢
    exact { h with sound := hs }
  written {d w x} hw h := by
    have hs := h.sound.write (v := x) (ne_nil_of_isAbove hw)
    rw [write_eq] at hs ⊢
    exact { h with
      sound := hs
      arrays := (arr_of_setFrom_below hw).trans h.arrays }
  detached {d w} hw h := { h with
    sound := h.sound.detached
    near := fun q hq => by
      rw [stateOf?_detached] at hq
      split at hq
      · simp at hq
      · exact h.near q hq
    scopes := (eachTracker_all h.scopes fun _ _ hq => hq).removeBelow (eachTracker_scopes h.sound.scopes)
    pulled := by
      rw [opsAt_detached, if_neg (isAbove_asymm hw)]
      exact h.pulled }
  attached {d w f} hw h := { h with
    sound := h.sound.attached
    scopes := (Scopes.all_attachField h.sound.scopes.tidy h.scopes fun _ _ hc _ =>
      covers_trans (covers_of_isAbove hw) hc).2 }
  extended {d sub w n items} hw h := { h with
    sound := stable_sound.extended (ne_nil_of_isAbove hw) h.sound
    scopes := Scopes.all_attachItems h.sound.scopes.tidy h.scopes fun _ _ hc _ =>
      covers_trans (covers_of_isAbove hw) hc }
  noted {d w g} hw h := { h with
    sound := h.sound.noted
    pulled := by
      rw [opsAt_noteArrayOp, if_neg (ne_of_isAbove hw).symm]
      exact h.pulled }
  marked {d w} hw h := h.marked (covers_of_isAbove hw)
  reported h := { h with sound := stable_sound.reported h.sound }

-- Removed items

theorem Pulling.dropItem (h : Pulling p vs start d) : Pulling p vs start (d.dropItem q) := { h with
  sound := h.sound.dropItem
  near := fun r hr => by
    simp only [stateOf?, Document.dropItem, eachTracker, atPath, below?_root,
      Tracker.stateOf?_clearDescendants, Tracker.stateOf?_forget] at hr
    split at hr
    · simp at hr
    split at hr
    · simp at hr
    · exact h.near r hr
  scopes := eachTracker_all (h.scopes.removeBelow h.sound.scopes) fun _ _ hq => hq }

theorem Pulling.moveItem (h : Pulling p vs start d) :
    Pulling p vs start (d.moveItem p i j) := { h with
  sound := h.sound.moveItem
  near := fun r hr => by
    have hmoved : ∀ s, (d.moveItem p i j).stateOf? r = some s →
        (p.index j).covers r ∨ d.stateOf? r = some s := by
      intro s hs
      simp only [stateOf?, Document.moveItem, eachTracker, below?_root] at hs
      exact Tracker.stateOf?_of_rekey hs
    have hcov : (p.index j).covers r → p.covers r := covers_trans (covers_append _ _)
    rcases hr with hr | hr
    · exact (hmoved _ hr).elim hcov fun hr => h.near r (.inl hr)
    · exact (hmoved _ hr).elim hcov fun hr => h.near r (.inr hr)
  scopes := by
    refine eachTracker_all (h.scopes.rekey h.sound.scopes fun scope x _ _ => ?_) fun _ _ hq => hq
    rw [Path.index, append_assoc]
    exact covers_append _ _ }

theorem Pulling.reindex (h : Pulling p vs start d) : Pulling p vs start (d.reindex p flags) :=
  reindex_rec (fun _ _ h => h.dropItem) (fun _ _ _ h => h.moveItem) h

theorem value_reindex : (d.reindex p flags).value = d.value :=
  reindex_rec (I := fun d' => d'.value = d.value) (fun _ _ h => h) (fun _ _ _ h => h) rfl

theorem Pulling.pull (h : Pulling p vs start s.doc) (v : Value) :
    let d := ((Edit.pull p v).outcome s).2.doc
    d = s.doc ∨ Pulling p (vs ++ [v]) start d ∧ d.get? p = (s.doc.get? p).map (without [v]) := by
  rcases Edit.pull_cases p v s with hs | ⟨items, hget, -, hp, hs⟩
  · exact .inl (congrArg Desk.doc hs)
  rw [hs]
  refine .inr ?_
  have hleft : (Value.arr items).without [v] = .arr (items.filter fun x => ¬ Change.selects x v) := by
    simp [without]
  rw [hget, Option.map_some, hleft]
  generalize (items.filter fun x => ¬ Change.selects x v) = left
  generalize items.map (Change.selects · v) = flags
  have harr := h.arrays.mp ⟨items, hget⟩
  have hopen : Pulling p vs start s.doc.openChanges := stable_pulling.opened h
  have hok : (s.doc.openChanges.value.set p (.arr left)).1 = .ok () := by
    rw [openChanges_eq]
    exact setFrom_ok_of_get? hget
  have hwrite : Pulling p vs start (s.doc.openChanges.write p (.arr left)).2 := by
    have hs := hopen.sound.write (v := .arr left) hp
    rw [write_eq] at hs ⊢
    exact { hopen with
      sound := hs
      arrays := ⟨fun _ => harr, fun _ => ⟨_, get?_setFrom_self hok⟩⟩ }
  have hindex : Pulling p vs start ((s.doc.openChanges.write p (.arr left)).2.reindex p flags) :=
    hwrite.reindex
  have hnoted : Pulling p (vs ++ [v]) start
      (((s.doc.openChanges.write p (.arr left)).2.reindex p flags).noteArrayOp p fun ops =>
        { ops with pulled := ops.pulled ++ [v] }) := { hindex with
    sound := hindex.sound.noted
    pulled := by rw [opsAt_noteArrayOp, if_pos rfl, hindex.pulled]
    held := fun _ => harr }
  have hvalue : ((s.doc.openChanges.write p (.arr left)).2.withdrawn p v flags).value =
      (s.doc.openChanges.value.set p (.arr left)).2 := by
    rw [withdrawn, write_eq]
    exact value_reindex
  refine ⟨((stable_pulling.reported hnoted).marked (covers_refl p)), ?_⟩
  rw [get?, hvalue]
  exact get?_setFrom_self hok

-- Runs

theorem Pulling.run (h : Pulling p vs start s.doc) {c : Call} (hc : c.Within p)
    (hq : start.schema.Meets .noSetters ∨ c.pulled?.isSome) :
    Pulling p vs start (c.run s).doc ∧ (c.pulled?.isSome → (c.run s).doc.get? p = s.doc.get? p) ∨
      ∃ v, c.pulled? = some v ∧ Pulling p (vs ++ [v]) start (c.run s).doc ∧
        (c.run s).doc.get? p = (s.doc.get? p).map (without [v]) := by
  cases c with
  | pull q v =>
    obtain rfl : q = p := hc
    rcases h.pull v with hs | ⟨hpulling, hget⟩
    · have hs : ((Call.pull q v).run s).doc = s.doc := hs
      rw [hs]
      exact .inl ⟨h, fun _ => rfl⟩
    · exact .inr ⟨v, rfl, hpulling, hget⟩
  | set q v opts =>
    have hq := hq.resolve_right (by simp [Call.pulled?])
    refine .inl ⟨Edit.keeps_set_calm stable_pulling hq (fun _ hd => hd.schema) ?_ hc s h,
      by simp [Call.pulled?]⟩
    exact fun w k hw => isAbove_of_isAbove_covers hw (covers_append w _)
  | push | mark | unmark | populate | depopulate | report | commit | rollback => exact hc.elim

theorem Pulling.runAll (h : Pulling p vs start s.doc) {calls : List Call} (hc : ∀ c ∈ calls, c.Within p)
    (hq : Call.Confined start.schema calls) : ∃ ws, Pulling p (vs ++ ws) start (Call.runAll calls s).doc ∧
      ws.Sublist (calls.filterMap Call.pulled?) ∧ (Call.Leave p calls s →
        (Call.runAll calls s).doc.get? p = (s.doc.get? p).map (without ws)) := by
  induction calls generalizing vs s with
  | nil => exact ⟨[], by simpa [Call.runAll] using h, .slnil, fun _ => by simp [Call.runAll]⟩
  | cons c calls ih =>
    have ⟨hc₁, hc₂⟩ := forall_mem_cons.mp hc
    have hq₂ := hq.imp_right fun hq c hc => hq c (mem_cons_of_mem _ hc)
    rcases h.run hc₁ (hq.imp_right fun hq => hq c mem_cons_self) with
      ⟨hrun, hsame⟩ | ⟨v, hv, hrun, hget⟩
    · obtain ⟨ws, hws, hsub, hleave⟩ := ih hrun hc₂ hq₂
      refine ⟨ws, hws, hsub.trans ?_, fun hl => ?_⟩
      · rw [filterMap_cons]
        split
        · exact .refl _
        · exact sublist_cons_self _ _
      · have hget : (c.run s).doc.get? p = s.doc.get? p := by
          cases hp : c.pulled? with
          | none => exact hl.1 hp
          | some v => exact hsame (by simp [hp])
        rw [← hget]
        exact hleave hl.2
    · obtain ⟨ws, hws, hsub, hleave⟩ := ih hrun hc₂ hq₂
      refine ⟨v :: ws, by simpa [Call.runAll] using hws, ?_, fun hl => ?_⟩
      · rw [filterMap_cons_some hv]
        exact hsub.cons_cons v
      · refine (hleave hl.2).trans ?_
        rw [hget, Option.map_map]
        congr 1
        funext x
        exact (@without_append [v] ws x).symm

-- Storing the removals

theorem exists_pulled (hc : c ∈ d.changeset.changes) (hop : c.op = .pull vs) :
    (d.opsAt c.path).pulled = vs ∧ vs ≠ [] ∧ ∀ m ∈ d.dirtyPaths, ¬ c.path.isAbove m := by
  obtain ⟨he, -⟩ := mem_changeset.mp hc
  rw [he, changeAt] at hop
  dsimp only at hop
  split at hop
  · case _ op hinc =>
    obtain ⟨ops, hops, -, -, hbelow, ⟨-, -, rfl⟩ | ⟨-, hne, rfl⟩⟩ := incremental?_eq_some hinc
    · cases hop
    · cases hop
      exact ⟨by rw [opsAt, hops]; rfl, hne, hbelow⟩
  · split at hop <;> cases hop

theorem Pulling.changes (h : Pulling p vs start d) (hc : c ∈ d.changeset.changes) (hpath : c.path = p)
    (hop : c.op = .pull ws) : d.changeset.changes = [c] := by
  have hbelow := (exists_pulled hc hop).2.2
  have hall : ∀ b ∈ d.changeset.changes, b = c := by
    intro b hb
    obtain ⟨hbe, hbd, -⟩ := mem_changeset.mp hb
    obtain ⟨hce, -⟩ := mem_changeset.mp hc
    have hcov : c.path.covers b.path := by
      rw [hpath]
      refine h.near _ ?_
      exact ((mem_dirtyPaths h.sound.tracker).mp hbd).imp_right And.left
    obtain he | ha := eq_or_isAbove_of_covers hcov
    · rw [hbe, hce, he]
    · exact absurd ha (hbelow _ hbd)
  have hsorted := pairwise_map.mp (changeset_sorted (d := d))
  match hcs : d.changeset.changes with
  | [] => rw [hcs] at hc; cases hc
  | [b] => rw [hall b (by simp [hcs])]
  | a :: b :: _ =>
    rw [hcs] at hsorted
    have hlt := rel_of_pairwise_cons hsorted mem_cons_self
    rw [hall a (by simp [hcs]), hall b (by simp [hcs])] at hlt
    simp at hlt

end Document

namespace Change

variable {c : Change} {vs : List Value}

theorem Turns.without (h : c.Turns old new) (hop : c.op = .pull vs) : new = old.map (Value.without vs) := by
  simp only [Turns, hop] at h
  rcases h with ⟨hn, rfl⟩ | ⟨xs, rfl, rfl⟩
  · rcases new with _ | (_ | _ | _ | _ | _ | _) <;> simp_all [isNullish, Value.isNull, Value.without]
  · rfl

theorem exists_apply_pull (hop : c.op = .pull vs) (hx : r.get? c.path = some (.arr xs)) :
    ∃ r', c.apply r = (.ok (), r') := by
  have hturns : c.Turns (r.get? c.path) (some ((Value.arr xs).without vs)) := by
    simp only [Turns, hop, hx]
    exact .inr ⟨xs, rfl, rfl⟩
  exact ⟨_, apply_eq_set hturns (Prod.ext (setFrom_ok_of_get? hx) rfl)⟩

end Change

namespace Document

variable {start d : Document} {p : Path} {vs : List Value} {c : Change}

theorem Pulling.replay (h : Pulling p vs start d) (hc : c ∈ d.changeset.changes) (hpath : c.path = p)
    (hop : c.op = .pull ws) :
    ∃ record, d.changeset.apply start.value = .ok record ∧ record.get? p = (start.get? p).map (without ws) := by
  subst hpath
  have ⟨hpulled, hne, _⟩ := exists_pulled hc hop
  obtain ⟨xs, hxs⟩ := h.held (by rwa [← h.pulled, hpulled])
  obtain ⟨record, hr⟩ := Change.exists_apply_pull hop hxs
  refine ⟨record, ?_, (Change.apply_ok (by simp [hop]) hr).1.without hop⟩
  simp only [Changeset.apply, h.changes hc rfl hop, Changeset.applyAll, hr]

-- The replay of removals leaves the stored items that none of the values selects, so it agrees with the document
-- exactly if the document holds those. It does if no item was written.
theorem pull_replays_iff (hstart : start.AtRest) (calls : List Call)
    (hcalls : ∀ c ∈ calls, c.Within p) (effects : Effects)
    (hc : c ∈ (Call.runAll calls ⟨start, effects⟩).doc.changeset.changes) (hpath : c.path = p)
    (hop : c.op = .pull vs)
    (hquiet : Call.Confined start.schema calls ∨
      ∀ c ∈ (Call.runAll calls ⟨start, effects⟩).doc.changeset.changes,
        c.path.Spelled ∧ c.op ≠ .unset) :
    let d := (Call.runAll calls ⟨start, effects⟩).doc
    ((∃ record, d.changeset.apply start.value = .ok record ∧
        equalOpt (record.get? p) (d.get? p)) ↔
      (∃ record, d.changeset.apply start.value = .ok record) ∧
        equalOpt ((start.get? p).map (without vs)) (d.get? p)) ∧
    (Call.Confined start.schema calls →
      ∃ xs ys record, start.get? p = some (.arr xs) ∧ d.get? p = some (.arr ys) ∧
        d.changeset.apply start.value = .ok record ∧
        vs.Sublist (calls.filterMap Call.pulled?) ∧
        (Call.Leave p calls ⟨start, effects⟩ → record.get? p = d.get? p)) := by
  intro d
  have hpulling := fun hq => hstart.untouched.pulling.runAll (s := ⟨start, effects⟩) hcalls hq
  have hleft : ∀ record, d.changeset.apply start.value = .ok record →
      record.get? p = (start.get? p).map (without vs) := by
    intro record hr
    rcases hquiet with hq | hpaths
    · obtain ⟨ws, hws, -⟩ := hpulling hq
      obtain ⟨record', hr', hget⟩ := hws.replay hc hpath hop
      cases hr.symm.trans hr'
      exact hget
    · have hturns := turns_of_replay (fun c hc => (hpaths c hc).2) (fun c hc => (hpaths c hc).1)
        (List.pairwise_map.mp changeset_apart) hr c hc
      rw [← hpath]
      exact hturns.without hop
  refine ⟨⟨fun ⟨record, hr, he⟩ => ⟨⟨record, hr⟩, hleft record hr ▸ he⟩,
    fun ⟨⟨record, hr⟩, he⟩ => ⟨record, hr, (hleft record hr).symm ▸ he⟩⟩, fun hq => ?_⟩
  obtain ⟨ws, hws, hsub, hleave⟩ := hpulling hq
  obtain ⟨record, hr, hget⟩ := hws.replay hc hpath hop
  have ⟨hpulled, hne, _⟩ := exists_pulled hc hop
  obtain rfl : ws = vs := by
    rw [hpath] at hpulled
    exact hws.pulled.symm.trans hpulled
  obtain ⟨xs, hxs⟩ := hws.held hne
  obtain ⟨ys, hys⟩ := hws.arrays.mpr ⟨xs, hxs⟩
  exact ⟨xs, ys, record, hxs, hys, hr, hsub, fun hl => hget.trans (hleave hl).symm⟩

def tagged : Schema :=
  ⟨{ id := false }, [([.key "tags"], .plain (.array (.plain .string)))], []⟩

def tagsIn (tags : List String) : Value :=
  .obj [("tags", .arr (tags.map .str))]

theorem tagged_meets : tagged.Meets .noSetters := by
  simp [Schema.Meets, tagged, Schema.parts, Schema.partsOfFields, Field.plain, Field.parts,
    FieldType.parts, SchemaLaw.noSetters]

-- An item that was rewritten and then removed is gone from the stored array too if another removal
-- selects its stored form.
theorem pull_replays_iff_tags : ∃ start,
    (load tagged (tagsIn ["a", "b", "a"]) none).1 = .ok start ∧
    let calls := [.set [.key "tags", .index 0] (.str "c") {}, .pull [.key "tags"] (.str "a"),
      .pull [.key "tags"] (.str "c")]
    let d := (Call.runAll calls ⟨start, {}⟩).doc
    d.get? [.key "tags"] = some (.arr [.str "b"]) ∧
    ∃ record, d.changeset.apply start.value = .ok record ∧
      equalOpt (record.get? [.key "tags"]) (d.get? [.key "tags"]) := by
  have hload : (load tagged (tagsIn ["a", "b", "a"]) none).1 = .ok _ := rfl
  have hiff := pull_replays_iff (p := [.key "tags"]) (atRest_of_load hload rfl)
    [.set [.key "tags", .index 0] (.str "c") {}, .pull [.key "tags"] (.str "a"),
      .pull [.key "tags"] (.str "c")]
    (by simp [Call.Within, Path.isAbove]; decide) {}
    (c := ⟨[.key "tags"], .pull [.str "a", .str "c"], some .array⟩) (by decide +kernel) rfl rfl
    (.inl (.inl tagged_meets))
  refine ⟨_, hload, by decide +kernel, hiff.1.mpr ⟨?_, by decide +kernel⟩⟩
  obtain ⟨-, -, record, -, -, hr, -⟩ := hiff.2 (.inl tagged_meets)
  exact ⟨record, hr⟩

-- An item that was rewritten is removed in its new form, and the replay keeps the stored one.
theorem pull_keeps_rewritten : ∃ start,
    (load tagged (tagsIn ["a", "b"]) none).1 = .ok start ∧ start.AtRest ∧
    let calls := [.set [.key "tags", .index 0] (.str "c") {}, .pull [.key "tags"] (.str "c")]
    let d := (Call.runAll calls ⟨start, {}⟩).doc
    (∀ c ∈ calls, c.Within [.key "tags"]) ∧
    d.changeset.changes = [⟨[.key "tags"], .pull [.str "c"], some .array⟩] ∧
    d.changeset.apply start.value = .ok (tagsIn ["a", "b"]) ∧ d.value = tagsIn ["b"] := by
  have hload : (load tagged (tagsIn ["a", "b"]) none).1 = .ok _ := rfl
  refine ⟨_, hload, atRest_of_load hload rfl, ?_, ?_, ?_, ?_⟩
  · simp [Call.Within]
    decide
  · decide +kernel
  · decide +kernel
  · decide +kernel

end Document
end Dossier

import Dossier.Proofs.Beside
import Dossier.Proofs.Regroup

-- The value of an immutable field is kept if it differs from what is assigned, unless a group around it was
-- emptied before.

namespace Dossier

open Path Value

namespace Document

variable {d : Document} {f p : Path} {v : Value} {fld : Field} {opts : SetOptions}

-- Immutable fields

theorem stateOf?_markModified_of_modify (h : d.stateOf? q = some .modify) :
    (d.markModified p).stateOf? q = some .modify := by
  obtain ⟨c, ht, -⟩ := exists_owner_mark d p
  rw [stateOf?, ht, Tracker.stateOf?_transition]
  split
  · rfl
  · exact h

theorem stateOf?_markValid : (d.markValid p).stateOf? q = d.stateOf? q := by
  obtain ⟨issues, he⟩ := markValid_eq d p
  rw [he]
  rfl

theorem stateOf?_settled_of_modify (h : d.stateOf? q = some .modify) :
    (d.settled p fld true).stateOf? q = some .modify := by
  simp only [settled, and_true, if_true]
  rw [stateOf?_markValid]
  refine stateOf?_markModified_of_modify ?_
  split <;> split <;> exact h

theorem stateOf?_of_modifies (hnew : d.isNewAt p = false) (he : x.equal y) (h : d.modifies p (some x) y opts) :
    d.stateOf? p = some .modify := by
  simp only [modifies, hnew, Value.equalOpt, he] at h
  by_contra hm
  simp [hm] at h

-- A path has the value `v₀`, unless it was modified; then it has one that equal ones have led to.
structure Guarded (full : Bool) (d₀ : Document) (f : Path) (v₀ : Value) (d : Document) : Prop where
  anchored : Anchored full d₀ f d
  value    : ∃ v, d.get? f = some v ∧ Relation.ReflTransGen (fun a b => Value.equal a b) v₀ v ∧
    (d.stateOf? f ≠ some .modify → v = v₀)
  clean    : full → d₀.stateOf? f ≠ some .modify → d.stateOf? f ≠ some .modify

namespace Guarded

theorem of_eq (h : Guarded full d₀ f v₀ d) (hd : Anchored full d₀ f d') (hv : d'.get? f = d.get? f)
    (hs : d'.stateOf? f = d.stateOf? f) : Guarded full d₀ f v₀ d' :=
  ⟨hd, by rw [hv, hs]; exact h.value, by rw [hs]; exact h.clean⟩

theorem markModified (h : Guarded full d₀ f v₀ d) (hp : p.Distinct f) : Guarded full d₀ f v₀ (d.markModified p) := by
  obtain ⟨c, ht, hc⟩ := exists_owner_mark d p
  have hstate : (d.markModified p).stateOf? f = if c = f then some .modify else d.stateOf? f := by
    rw [stateOf?, ht, Tracker.stateOf?_transition, stateOf?]
  obtain ⟨v, hv, hlink, hsame⟩ := h.value
  refine ⟨h.anchored.markModified, ⟨v, hv, hlink, fun hm => hsame ?_⟩, ?_⟩
  · rw [hstate] at hm
    split at hm
    · exact absurd rfl hm
    · exact hm
  · rintro rfl hm
    -- The mark is at the path or above it, and so not at the other one.
    obtain ⟨c', hcov, ht', -⟩ := exists_mark h.anchored.scopes p
    have hne : c' ≠ f := by
      rintro rfl
      exact hp.symm.not_covers hcov
    rw [stateOf?, ht', Tracker.stateOf?_transition, if_neg hne]
    exact h.clean rfl hm

theorem stable : Stable (fun p => d₀.Beside f p ∧ p.Distinct f) (Guarded full d₀ f v₀) where
  opened h := h.of_eq (stable_anchored.opened h.anchored) (by rw [openChanges_eq]; rfl)
    (by rw [openChanges_eq]; rfl)
  written {d p v} hp h := by
    refine h.of_eq (h.anchored.write hp.1) ?_ (by rw [write_eq]; rfl)
    rw [write_eq]
    exact get?_set_distinct hp.2
  detached hp h := by
    refine h.of_eq (h.anchored.detached hp.1) rfl ?_
    rw [stateOf?_detached, if_neg hp.1.not_isAbove]
  attached hp h := h.of_eq (stable_anchored.attached hp.1 h.anchored) rfl rfl
  extended hp h := h.of_eq (stable_anchored.extended hp.1 h.anchored) rfl rfl
  noted hp h := h.of_eq (stable_anchored.noted hp.1 h.anchored) rfl rfl
  marked hp h := h.markModified hp.2
  reported h := h.of_eq (stable_anchored.reported h.anchored) rfl rfl

theorem store (h : Guarded full d₀ f v₀ d) (hf : d₀.Beside f f) (himm : fld.rules.immutable) :
    Guarded full d₀ f v₀ ((Edit.storeField f fld (d.get? f) v opts).outcome ⟨d, effects⟩).2.doc := by
  obtain ⟨v', hv', hlink, hsame⟩ := h.value
  have hnew := h.anchored.isNewAt
  rw [Edit.outcome_storeField]
  simp only [hv', Value.equalOpt, himm, hnew, Option.isSome_some, true_and]
  by_cases he : v'.equal v
  · simp only [he, not_true_eq_false, false_and, if_false, true_and]
    by_cases hm : d.modifies f (some v') v opts
    · have hstate : d.stateOf? f = some .modify := stateOf?_of_modifies hnew he hm
      simp only [hm, not_true_eq_false, if_false]
      obtain ⟨hanchored, hget, hmarked⟩ : let d₁ := if fld.type.isStructural then d.detached f else d
          Anchored full d₀ f d₁ ∧ d₁.get? f = some v' ∧ d₁.stateOf? f = some .modify := by
        dsimp only
        split
        · exact ⟨h.anchored.detached hf, hv', by rw [stateOf?_detached, if_neg isAbove_irrefl, hstate]⟩
        · exact ⟨h.anchored, hv', hstate⟩
      generalize (if fld.type.isStructural then d.detached f else d) = d₁ at hanchored hget hmarked ⊢
      have hok : (d₁.value.set f v).1 = .ok () := setFrom_ok_of_get? hget
      have hanchored : Anchored full d₀ f (d₁.write f v).2 := hanchored.write hf
      have hget : (d₁.write f v).2.get? f = some v := by
        rw [write_eq]
        exact get?_setFrom_self hok
      have hmarked : (d₁.write f v).2.stateOf? f = some .modify := by
        rw [write_eq]
        exact hmarked
      have hw : d₁.write f v = (.ok (), (d₁.write f v).2) := by rw [write_eq, hok]
      rw [hw]
      generalize (d₁.write f v).2 = d₂ at hanchored hget hmarked ⊢
      refine ⟨stable_anchored.settled hf hanchored, ⟨v, ?_, hlink.tail he, ?_⟩, ?_⟩
      · rw [Document.get?, value_settled]
        exact hget
      · exact fun hm => absurd (stateOf?_settled_of_modify hmarked) hm
      · exact fun hfull hm => absurd hstate (h.clean hfull hm)
    · simp only [hm]
      exact stable.markValid h
  · simp only [he, not_false_eq_true, Bool.false_eq_true, and_self, if_true]
    split <;> exact h

theorem heeds (hf : d₀.resolve f = .field fld) (himm : fld.rules.immutable) :
    Heeds (d₀.Beside f) (Guarded full d₀ f v₀) := by
  have hfield : ∀ {d}, Guarded full d₀ f v₀ d → d.resolve f = .field fld := fun h =>
    (h.anchored.resolve f (covers_refl f)).trans hf
  have helse : ∀ {d p}, d₀.Beside f p → (∀ g, d.resolve p ≠ .field g) → Guarded full d₀ f v₀ d →
      d₀.Beside f p ∧ p.Distinct f := by
    intro d p hp hr h
    refine ⟨hp, hp.1.resolve_left ?_⟩
    rintro rfl
    exact hr fld (hfield h)
  refine {
    opened := stable.opened
    reported := stable.reported
    stored := fun {d p g v opts effects} hp hg h => ?_
    taken := fun hp hr h => stable.written (helse hp (by rcases hr with hr | hr <;> simp [hr]) h) h
    emptied := fun hp hr _ h =>
      have hp := helse hp (by simp [hr]) h
      stable.written hp (stable.detached hp h)
    marked := fun hp hr h h' => stable.marked (helse hp hr h) h'
    inner := fun {d p k} hp hr h => ?_ }
  · rcases hp.1 with rfl | hd
    · rw [hfield h] at hg
      cases hg
      exact h.store hp himm
    · exact stable.keeps_storeField ⟨hp, hd⟩ _ h
  · have hp := helse hp (by simp [hr]) h
    exact ⟨.inr (hp.2.inside _), fun g hg => (hp.1.2 g hg).inside _⟩

end Guarded

-- What is lost and what is refused

variable {effects effects' : Effects} {u w x : Value}

theorem outcome_setGroup_empty (hok : (s.doc.value.set p u).1 = .ok ()) (hu : u = .null ∨ u = .obj []) :
    ∃ d', (Edit.setGroup p prior opts u).outcome s = (.ok (), { s with doc := d' }) ∧
        d'.value = (s.doc.value.set p u).2 := by
  have hw : (s.doc.detached p).write p u = (.ok (), ((s.doc.detached p).write p u).2) := by
    rw [write_eq, ← hok]
    rfl
  have hvalue : ((s.doc.detached p).write p u).2.value = (s.doc.value.set p u).2 := by
    rw [write_eq]
    rfl
  rcases hu with rfl | rfl
  · refine ⟨_, by rw [Edit.setGroup, Edit.outcome_setNestedNull, hw], ?_⟩
    rw [value_markValid]
    split <;> exact hvalue
  · refine ⟨_, by rw [Edit.outcome_setGroup_obj, hw]; exact Edit.outcome_markNested, ?_⟩
    rw [value_markValid]
    split <;> exact hvalue

theorem set_group_loses (hp : p.isAbove f) (hr : d.resolve p = .nested) (hm : d.missingArray? p = none)
    (hv : (d.get? f).isSome) (hu : u = .null ∨ u = .obj []) :
    ((Edit.set p u opts).outcome ⟨d, effects⟩).2.doc.get? f = none := by
  obtain ⟨r, hne, rfl⟩ := isAbove_iff.mp hp
  have hp : p ≠ [] := by
    rintro rfl
    cases hr
  obtain ⟨y, hy⟩ := Option.isSome_iff_exists.mp (get?_isSome_of_covers hv (covers_append p r))
  have hok : (d.value.set p u).1 = .ok () := setFrom_ok_of_get? hy
  have hok' : (d.openChanges.value.set p u).1 = .ok () := by rwa [openChanges_eq]
  obtain ⟨d', hgroup, hvalue⟩ : ∃ d', (Edit.setGroup p (d.get? p) opts u).outcome
      ⟨d.openChanges, { effects with queue := [] }⟩ = (.ok (), ⟨d', { effects with queue := [] }⟩) ∧
        d'.value = (d.openChanges.value.set p u).2 := outcome_setGroup_empty hok' hu
  have hpath : (Edit.setPath u p opts).outcome ⟨d.openChanges, { effects with queue := [] }⟩ =
      (.ok (), ⟨d', { effects with queue := [] }⟩) := by
    rw [Edit.outcome_setPath hp, missingArray?_openChanges, hm, resolve_openChanges, hr, get?_openChanges, hgroup]
  rw [Edit.outcome_set, hpath]
  dsimp only
  rw [Edit.outcome_settle rfl, Document.get?, hvalue, get?_append, Value.set, openChanges_eq,
    get?_setFrom_self hok]
  cases r with
  | nil => exact absurd rfl hne
  | cons seg r => rcases hu with rfl | rfl <;> rfl

theorem set_immutable (hnew : d.isNewAt f = false) (hf : d.resolve f = .field fld) (himm : fld.rules.immutable)
    (hv : d.get? f = some v) (hm : d.missingArray? f = none)
    (hx : (fld.accept (Edit.castContext d f opts) w).outcome { effects with queue := [] } = (.ok x, effects'))
    (hne : ¬ v.equal x) : (Edit.set f w opts).outcome ⟨d, effects⟩ = if d.strictAt f opts = .refuse then
        (.error (.strict { path := f, violation := .immutable }), ⟨d.openChanges, effects'⟩)
      else (Edit.settle opts Edit.maxRounds).outcome ⟨d.openChanges, effects'⟩ := by
  rw [Edit.outcome_set, Edit.outcome_setPath (ne_nil_of_resolve hf), missingArray?_openChanges, hm,
    resolve_openChanges, hf]
  dsimp only
  rw [Edit.outcome_setField, castContext_openChanges, hx]
  dsimp only
  rw [Edit.outcome_storeField, get?_openChanges, hv]
  dsimp only
  rw [strictAt_openChanges, isNewAt_openChanges, hnew, if_pos (by simp [himm, Value.equalOpt, hne])]
  by_cases hr : d.strictAt f opts = .refuse
  · rw [if_pos hr, if_pos hr]
  · rw [if_neg hr, if_neg hr]

end Document

-- Calls

namespace Call

-- A path is set, and what is written then, also because setters ask for it, is written at paths of one kind.
def Writes (Q : Path → Prop) (s : Desk) : Call → Prop
  | .set p v opts => p.Opens Q v ∧ Edit.Rounds (Path.Opens Q) opts Edit.maxRounds (Edit.begun p v opts s)
  | _ => False

def AllWrite (Q : Path → Prop) : List Call → Desk → Prop
  | [], _ => True
  | c :: calls, s => c.Writes Q s ∧ AllWrite Q calls (c.run s)

end Call

namespace Document

variable {d : Document} {f : Path} {fld : Field} {v : Value}

theorem Heeds.runAll (h : Heeds P I) (hc : Call.AllWrite P calls s) (hs : I s.doc) : I (Call.runAll calls s).doc := by
  induction calls generalizing s with
  | nil => exact hs
  | cons c calls ih =>
    obtain ⟨hw, hc⟩ := hc
    refine ih hc ?_
    cases c with
    | set p v opts => exact h.set hw.1 hw.2 hs
    | _ => exact hw.elim

theorem guarded_self (hs : d.scopes.Sound full) (hnew : d.isNewAt f = false) (hv : d.get? f = some v) :
    Guarded full d f v d := by
  obtain ⟨hold, haged⟩ := (isNewAt_eq_false_iff hs).mp hnew
  exact ⟨⟨hs, hold, haged, fun _ _ => rfl⟩, ⟨v, hv, .refl, fun _ => rfl⟩, fun _ => id⟩

-- A present immutable field of what is stored keeps its value, up to equal ones if it counts as modified,
-- whatever is set at the field or beside it. A differing value is refused or dropped. A group of fields
-- around the field loses it when it is emptied.
theorem immutable_field_stays (hd : d.Reached) (hnew : d.isNewAt f = false) (hf : d.resolve f = .field fld)
    (himm : fld.rules.immutable = true) (hv : d.get? f = some v) :
    (∀ calls effects, Call.AllWrite (d.Beside f) calls ⟨d, effects⟩ →
      let d' := (Call.runAll calls ⟨d, effects⟩).doc
      ∃ w, d'.get? f = some w ∧ Relation.ReflTransGen (fun a b => Value.equal a b) v w ∧
        (d'.stateOf? f ≠ some .modify ∨ d.Persisted ∧ d.stateOf? f ≠ some .modify → w = v)) ∧
    (∀ w x opts effects effects', d.missingArray? f = none →
      (fld.accept (Edit.castContext d f opts) w).outcome { effects with queue := [] } = (.ok x, effects') →
      ¬ v.equal x →
      (Edit.set f w opts).outcome ⟨d, effects⟩ =
        if d.strictAt f opts = .refuse then
          (.error (.strict { path := f, violation := .immutable }), ⟨d.openChanges, effects'⟩)
        else (Edit.settle opts Edit.maxRounds).outcome ⟨d.openChanges, effects'⟩) ∧
    (∀ p u opts effects, p.isAbove f → d.resolve p = .nested → d.missingArray? p = none → u = .null ∨ u = .obj [] →
      ((Edit.set p u opts).outcome ⟨d, effects⟩).2.doc.get? f = none) := by
  refine ⟨fun calls effects hc => ?_, fun w x opts effects effects' hm hx hne => ?_,
    fun p u opts effects hp hr hm hu => ?_⟩
  · have hguard := (Guarded.heeds hf himm).runAll hc (guarded_self hd.sound.scopes hnew hv)
    obtain ⟨w, hw, hlink, hsame⟩ := hguard.value
    refine ⟨w, hw, hlink, ?_⟩
    rintro (hm | ⟨hp, hm⟩)
    · exact hsame hm
    · have hclean := (Guarded.heeds hf himm).runAll hc (guarded_self hp.linked.scopes hnew hv)
      exact hsame (hclean.clean rfl hm)
  · exact set_immutable hnew hf himm hv hm hx hne
  · exact set_group_loses hp hr hm (by rw [hv]; rfl) hu

-- A part that has a number if it is of the variant that does.
def part : SubSchema :=
  SubSchema.addVariant ⟨⟨{ id := false }, [([.key "note"], .plain .string)], []⟩, []⟩ "numbered"
    ⟨{ id := false }, [([.key "serial"], ⟨.string, { immutable := true }⟩)], []⟩

def parts : Schema :=
  ⟨{ id := false }, [([.key "part"], .ofSub part), ([.key "title"], .plain .string)], []⟩

def numbered (serial : String) : Value :=
  .obj [("part", .obj [("kind", .str "numbered"), ("note", .str "n"), ("serial", .str serial)])]

def serial : Path :=
  [.key "part", .key "serial"]

def renumber : List Call :=
  [.set serial (.str "b") {}, .set [.key "part", .key "note"] (.str "m") {},
    .set [] (.obj [("title", .str "t")]) {}]

theorem beside_serial (hr : d.resolve [.key "part"] = .field (.ofSub part)) (hp : p = serial ∨ p.Distinct serial)
    (hk : p.Distinct [.key "part", .key "kind"]) : d.Beside serial p := by
  refine ⟨hp, ?_⟩
  rintro g ⟨x, fld, sub, hx, hx', hs, -, rfl⟩
  have hx : x ∈ serial.ancestors := mem_ancestors_iff.mpr ⟨ne_nil_of_resolve hx', hx⟩
  obtain rfl : x = [.key "part"] := List.mem_singleton.mp hx
  rw [hr] at hx'
  cases hx'
  cases hs
  exact hk

-- The number stays when another one is assigned, also while the part and the document get other content.
theorem immutable_field_stays_embedded : ∃ start, (load parts (numbered "a") none).1 = .ok start ∧
    let d := (Call.runAll renumber ⟨start, {}⟩).doc
    d.get? [.key "part", .key "note"] = some (.str "m") ∧ d.get? [.key "title"] = some (.str "t") ∧
    d.get? serial = some (.str "a") := by
  have hload : (load parts (numbered "a") none).1 = .ok _ := rfl
  obtain ⟨hstays, -⟩ := immutable_field_stays (f := serial) (.loaded hload) (by decide +kernel) rfl rfl rfl
  obtain ⟨w, hw, -, hsame⟩ := hstays renumber {} ⟨
    ⟨beside_serial rfl (.inl rfl) (by decide), Edit.rounds_of_quiet rfl⟩,
    ⟨beside_serial rfl (.inr (by decide)) (by decide), Edit.rounds_of_quiet rfl⟩,
    ⟨List.forall_mem_singleton.mpr (beside_serial rfl (.inr (by decide)) (by decide)), Edit.rounds_of_quiet rfl⟩,
    trivial⟩
  refine ⟨_, hload, by decide +kernel, by decide +kernel, ?_⟩
  rw [hw, hsame (.inr ⟨.loaded hload, by decide +kernel⟩)]

-- A city that cannot be changed is changed with the address around it.
def housed : Schema :=
  ⟨{ id := false }, [([.key "address", .key "city"], ⟨.string, { immutable := true }⟩),
    ([.key "address", .key "zip"], .plain .string)], []⟩

def housedIn (city : String) : Value :=
  .obj [("city", .str city), ("zip", .str "1")]

theorem immutable_field_overwritten : ∃ start, (load housed (.obj [("address", housedIn "x")]) none).1 = .ok start ∧
    let f : Path := [.key "address", .key "city"]
    start.isNewAt f = false ∧ (∃ fld, start.resolve f = .field fld ∧ fld.rules.immutable = true) ∧
    ((Edit.set f (.str "y")).outcome ⟨start, {}⟩).2.doc.get? f = some (.str "x") ∧
    ((Edit.set [.key "address"] (housedIn "y")).outcome ⟨start, {}⟩).1 = .ok () ∧
    ((Edit.set [.key "address"] (housedIn "y")).outcome ⟨start, {}⟩).2.doc.get? f = some (.str "y") := by
  refine ⟨_, rfl, by decide +kernel, ⟨_, rfl, rfl⟩, ?_, rfl, ?_⟩
  all_goals decide +kernel

end Document
end Dossier

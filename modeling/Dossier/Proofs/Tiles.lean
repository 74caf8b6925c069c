import Dossier.Proofs.Charts
import Dossier.Proofs.ReferenceArrays

-- Appending to an array and removing from it keep a document charted: the scopes of the items move with them.

namespace Dossier

open Path List

-- Items

namespace FieldType

variable {t : FieldType} {root : Path}

theorem Holds.relocate (h : t.Holds root v r s w) : ∃ x, r = root ++ x ∧ ∀ root', t.Holds root' v (root' ++ x) s w := by
  cases h with
  | embedded => exact ⟨[], by simp, fun root' => by rw [append_nil]; exact .embedded⟩
  | item hi => exact ⟨[.index _], rfl, fun root' => .item hi⟩

theorem Embeds.relocate (h : t.Embeds root v r s w) :
    ∃ x, r = root ++ x ∧ ∀ root', t.Embeds root' v (root' ++ x) s w := by
  induction h with
  | here hh =>
    obtain ⟨x, hx, hall⟩ := hh.relocate
    exact ⟨x, hx, fun root' => .here (hall root')⟩
  | @inner _ _ _ _ p _ _ _ _ _ _ hh hf _ ih =>
    obtain ⟨x, rfl, hall⟩ := hh.relocate
    obtain ⟨x', rfl, hall'⟩ := ih
    refine ⟨x ++ (p ++ x'), by simp, fun root' => .inner (hall root') hf ?_⟩
    simpa only [append_assoc] using hall' (root' ++ x ++ p)

def EmbedsItem (t : FieldType) (v : Value) (x : Path) (s : Schema) : Prop :=
  ∃ sub w, t = .documentArray sub ∧ (FieldType.embedded sub).Embeds [] (some v) x s w

theorem embeds_items_iff : (∃ w, t.Embeds p (some (.arr items)) r s w) ↔
    ∃ i v x, items[i]? = some v ∧ r = p.index i ++ x ∧ t.EmbedsItem v x s := by
  constructor
  · rintro ⟨w, h⟩
    have hfirst : ∀ {r' s' w'}, t.Holds p (some (.arr items)) r' s' w' → ∃ sub i fs, t = .documentArray sub ∧
        items[i]? = some (.obj fs) ∧ r' = p.index i ∧ s' = sub.selectOrBase (some (.obj fs)) ∧ w' = .obj fs := by
      intro r' s' w' hh
      cases hh with
      | item hi => exact ⟨_, _, _, rfl, hi, rfl, rfl, rfl⟩
    cases h with
    | here hh =>
      obtain ⟨sub, i, fs, rfl, hi, rfl, rfl, rfl⟩ := hfirst hh
      exact ⟨i, _, [], hi, by simp, sub, _, rfl, .here .embedded⟩
    | @inner _ _ r' _ q _ _ _ _ _ _ hh hf he =>
      obtain ⟨sub, i, fs, rfl, hi, rfl, rfl, rfl⟩ := hfirst hh
      obtain ⟨x, rfl, hall⟩ := he.relocate
      refine ⟨i, _, q ++ x, hi, by simp, sub, w, rfl, .inner .embedded hf ?_⟩
      exact hall ([] ++ q)
  · rintro ⟨i, v, x, hi, rfl, sub, w, rfl, he⟩
    obtain ⟨x', hx, hall⟩ := he.relocate
    rw [nil_append] at hx
    subst hx
    refine ⟨w, embeds_of_item rfl (i := i) ?_⟩
    rw [hi]
    exact hall (p.index i)

end FieldType

namespace Document

variable {schema : Schema} {d : Document} {items : List Value}

structure ArrayAt (d : Document) (p : Path) (f : Field) (items : List Value) : Prop where
  apt   : d.Apt p
  field : d.resolve p = .field f
  array : f.type.isArray
  items : Value.items? (d.get? p) = some items

namespace ArrayAt

variable {d' : Document}

variable (h : d.ArrayAt p f items)

include h

theorem documentAt_below_iff (hw : d.schema.Meets .wellFormed) (hc : p.covers r) :
    d.schema.DocumentAt d.value r t ↔ ∃ i v x, items[i]? = some v ∧ r = p.index i ++ x ∧ f.type.EmbedsItem v x t := by
  refine (Schema.documentAt_below_iff hw h.apt.bounded h.apt.through h.field hc).trans ?_
  change (∃ w, f.type.Embeds p (d.get? p) r t w) ↔ _
  have hno : ∀ v : Option Value, (∀ l, v ≠ some (.arr l)) → ¬ ∃ w, f.type.Embeds p v r t w := by
    rintro v hv ⟨w, he⟩
    have hfirst : ∀ {r' s' w'}, ¬ f.type.Holds p v r' s' w' := by
      have harray := h.array
      generalize f.type = ft at harray
      intro r' s' w' hh
      cases hh with
      | embedded => cases harray
      | item => exact hv _ rfl
    cases he with
    | here hh | inner hh => exact hfirst hh
  have hitems := h.items
  generalize d.get? p = v at hitems
  rcases v with _ | v
  · cases hitems
    exact iff_of_false (hno _ (by simp)) (by simp)
  · cases v with
    | arr l =>
      cases hitems
      exact FieldType.embeds_items_iff
    | null =>
      cases hitems
      exact iff_of_false (hno _ (by simp)) (by simp)
    | bool | num | str | obj => cases hitems

theorem documentAt_item_iff (hw : d.schema.Meets .wellFormed) :
    d.schema.DocumentAt d.value (p.index i ++ x) t ↔ ∃ v, items[i]? = some v ∧ f.type.EmbedsItem v x t := by
  have hc : p.covers (p.index i ++ x) := covers_trans (covers_append p [.index i]) (covers_append _ x)
  rw [h.documentAt_below_iff hw hc]
  constructor
  · rintro ⟨i', v, x', hv, he, hx⟩
    obtain ⟨rfl, rfl⟩ : i = i' ∧ x = x' := by simpa [Path.index] using he
    exact ⟨v, hv, hx⟩
  · rintro ⟨v, hv, hx⟩
    exact ⟨i, v, x, hv, rfl, hx⟩

theorem set (hs : d'.schema = d.schema) (hv : d'.value = (d.value.set p (.arr items')).2)
    (hok : (d.value.set p (.arr items')).1 = .ok ()) : d'.ArrayAt p f items' := by
  have hsteady := h.apt.steady_set hs hv
  refine ⟨h.apt.of_steady hsteady, (hsteady.resolve p (covers_refl p)).trans h.field, h.array, ?_⟩
  rw [Document.get?, hv, Value.set, Value.get?_setFrom_self hok]
  rfl

theorem of_value (hs : d'.schema = d.schema) (hv : d'.value = d.value) : d'.ArrayAt p f items := by
  have hsteady : Steady p d d' := .of_value hs hv
  refine ⟨h.apt.of_steady hsteady, (hsteady.resolve p (covers_refl p)).trans h.field, h.array, ?_⟩
  rw [Document.get?, hv]
  exact h.items

theorem documentAt_other_iff (hw : d.schema.Meets .wellFormed) (hok : (d.value.set p (.arr items')).1 = .ok ())
    (hr : ∀ i, ¬ (p.index i).covers r) :
    d.schema.DocumentAt (d.value.set p (.arr items')).2 r t ↔ d.schema.DocumentAt d.value r t := by
  by_cases hc : p.covers r
  · have h' : ArrayAt { d with value := (d.value.set p (.arr items')).2 } p f items' := h.set rfl rfl hok
    have hno : ∀ l : List Value, ¬ ∃ i v x, l[i]? = some v ∧ r = p.index i ++ x ∧ f.type.EmbedsItem v x t := by
      rintro l ⟨i, v, x, -, rfl, -⟩
      exact hr i (covers_append _ x)
    exact ((h'.documentAt_below_iff hw hc).trans (iff_of_false (hno _) (hno _))).trans
      (h.documentAt_below_iff hw hc).symm
  · exact h.apt.documentAt_set hw hok hc

end ArrayAt

-- Tiles

-- Scopes that are not at the items of an array or below them are those of another document.
structure Tiled (p : Path) (base d : Document) : Prop where
  sound : d.Sound
  filed : d.scopes.Filed
  other : ∀ r, (∀ i, ¬ (p.index i).covers r) → d.scopes.schemaAt? r = base.scopes.schemaAt? r

theorem itemLaw_tiled : ItemLaw p (Tiled p base) fun d m x => d.scopes.schemaAt? (p.index m ++ x) where
  dropped {d i} h := by
    have hs := h.sound.scopes
    have halike : (d.scopes.removeBelow (p.index i)).Alike (d.dropItem (p.index i)).scopes :=
      alike_eachTracker (d := { d with scopes := d.scopes.removeBelow (p.index i) })
    refine ⟨⟨h.sound.dropItem, halike.filed (h.filed.removeBelow hs), fun r hr => ?_⟩, fun m x => ?_⟩
    · rw [halike.schemaAt?, Scopes.schemaAt?_removeBelow hs, if_neg (hr i), h.other r hr]
    · rw [halike.schemaAt?, Scopes.schemaAt?_removeBelow hs]
      simp only [index_covers_index_append]
  moved {d i j} h hij hv := by
    have hs := h.sound.scopes
    have hvacant : d.scopes.Vacant (p.index j) := fun r hr => by
      obtain ⟨x, rfl⟩ := covers_iff.mp hr
      exact hs.rooted.keyAt?_eq_none (hv x)
    have halike : (d.scopes.rekey (p.index i) (p.index j)).Alike (d.moveItem p i j).scopes :=
      alike_eachTracker (d := { d with scopes := d.scopes.rekey (p.index i) (p.index j) })
    refine ⟨⟨h.sound.moveItem, halike.filed (h.filed.move hs hvacant), fun r hr => ?_⟩, fun m x => ?_⟩
    · rw [halike.schemaAt?, Scopes.schemaAt?_unmoved hs (hr j), if_neg (hr i), h.other r hr]
    · rw [halike.schemaAt?]
      by_cases hm : m = j
      · rw [if_pos hm, hm, Scopes.schemaAt?_moved hs hvacant]
      · rw [if_neg hm, Scopes.schemaAt?_unmoved hs (mt index_covers_index_append.mp hm)]
        simp only [index_covers_index_append]

-- Pulls

-- The scopes of the items that are left move with them.
theorem Charted.withdrawn (h : d.Charted schema) (hw : schema.Meets .wellFormed) (ha : d.ArrayAt p f items)
    (hok : (d.value.set p (.arr (items.filter fun x => ¬ Change.selects x v))).1 = .ok ()) :
    ((d.write p (.arr (items.filter fun x => ¬ Change.selects x v))).2.withdrawn p v
      (items.map (Change.selects · v))).Charted schema := by
  obtain rfl := h.schema
  generalize hleft : items.filter (fun x => ¬ Change.selects x v) = left at hok
  have hp := ne_nil_of_resolve ha.field
  have ha' : (d.write p (.arr left)).2.ArrayAt p f left :=
    ha.set (by rw [write_eq]) (by rw [write_eq]) hok
  have hscopes : (d.write p (.arr left)).2.scopes = d.scopes := by rw [write_eq]
  have htiled : Tiled p d (d.write p (.arr left)).2 :=
    ⟨h.sound.write hp, hscopes ▸ h.filed, fun r _ => by rw [hscopes]⟩
  obtain ⟨hmoved, hshifts, hrest⟩ := itemLaw_tiled.reindex htiled (items.map (Change.selects · v))
  rw [length_map] at hshifts hrest
  have hitems := hshifts.items_iff hrest (E := f.type.EmbedsItem) fun i x t => by
    rw [hscopes, ← ha.documentAt_item_iff hw]
    exact h.scopes _ t id
  rw [hleft] at hitems
  have hcharted : ((d.write p (.arr left)).2.reindex p (items.map (Change.selects · v))).Charted d.schema := by
    obtain ⟨hschema, hvalue, -⟩ :=
      frame_reindex (p := p) (d := (d.write p (.arr left)).2) (items.map (Change.selects · v))
    have hset : (d.write p (.arr left)).2.schema = d.schema ∧
        (d.write p (.arr left)).2.value = (d.value.set p (.arr left)).2 := by
      rw [write_eq]
      exact ⟨rfl, rfl⟩
    refine ⟨hmoved.sound, hmoved.filed, fun r => False.elim, fun r t _ => ?_, hschema.trans hset.1⟩
    rw [hvalue]
    by_cases hr : ∃ i, (p.index i).covers r
    · obtain ⟨i, hi⟩ := hr
      obtain ⟨x, rfl⟩ := covers_iff.mp hi
      rw [hitems, ← hset.1, ha'.documentAt_item_iff (hset.1.symm ▸ hw)]
    · have hr' : ∀ i, ¬ (p.index i).covers r := fun i hi => hr ⟨i, hi⟩
      rw [hmoved.other r hr', hset.2, ha.documentAt_other_iff hw hok hr']
      exact h.scopes r t id
  exact hcharted.reported.noted.markModified

-- Pushes

theorem attachItems_gains (ht : s.Tidy) :
    Scopes.Gains (fun scope => ∃ j v x, pushed[j]? = some v ∧ scope.root = p.index (n + j) ++ x ∧
        (FieldType.documentArray sub).EmbedsItem v x scope.schema)
      (fun r => ∃ t j v x, pushed[j]? = some v ∧ r = p.index (n + j) ++ x ∧
        (FieldType.documentArray sub).EmbedsItem v x t) s (s.attachItems sub p n pushed parent origin) := by
  refine (Scopes.gains_forDocuments (R := fun i r => ∃ j fs t w, i = n + j ∧ pushed[j]? = some (.obj fs) ∧
    (FieldType.embedded sub).Embeds (p.index i) (some (.obj fs)) r t w) (fun s j fs hj ht => ?_) ht).mono fun r => ?_
  · have hattach : sub.attach parent origin (p.index (n + j)) (.obj fs) s =
        (FieldType.embedded sub).attach parent origin (p.index (n + j)) (some (.obj fs)) s := by
      rw [FieldType.attach]
    rw [hattach]
    refine (FieldType.attach_gains _ (fun {r t w parent} he => ?_) ht).mono fun r => ?_
    · obtain ⟨x, hx, hall⟩ := he.relocate
      exact ⟨j, _, x, hj, hx, sub, w, rfl, hall []⟩
    · rintro ⟨j', fs', t, w, he, hj', hemb⟩
      obtain rfl : j' = j := by omega
      rw [hj] at hj'
      cases hj'
      exact ⟨t, w, hemb⟩
  · rintro ⟨t, j, v, x, hj, rfl, sub', w, he, hemb⟩
    cases he
    obtain ⟨fs, rfl⟩ : ∃ fs, v = .obj fs := by
      cases hemb with
      | here hh | inner hh => cases hh; exact ⟨_, rfl⟩
    obtain ⟨x', hx, hall⟩ := hemb.relocate
    rw [nil_append] at hx
    subst hx
    exact ⟨j, fs, hj, j, fs, t, w, rfl, hj, hall _⟩

theorem Charted.lengthened (h : d.Charted schema) (hw : schema.Meets .wellFormed) (ha : d.ArrayAt p f items)
    (hok : (d.value.set p (.arr (items ++ pushed))).1 = .ok ()) :
    (d.write p (.arr (items ++ pushed))).2.ChartedBut schema fun r => ∃ j, (p.index (items.length + j)).covers r := by
  obtain rfl := h.schema
  have hp := ne_nil_of_resolve ha.field
  have ha' : ArrayAt { d with value := (d.value.set p (.arr (items ++ pushed))).2 } p f (items ++ pushed) :=
    ha.set rfl rfl hok
  have hbut : ChartedBut d.schema (fun r => ∃ j, (p.index (items.length + j)).covers r)
      { d with value := (d.value.set p (.arr (items ++ pushed))).2 } := by
    refine ⟨h.sound.set hp, h.filed, ?_, fun r t hr => (h.scopes r t id).trans ?_, rfl⟩
    · rintro r ⟨j, hj⟩
      obtain ⟨x, rfl⟩ := covers_iff.mp hj
      refine h.sound.scopes.rooted.keyAt?_eq_none (Option.eq_none_iff_forall_ne_some.mpr fun t ht => ?_)
      obtain ⟨v, hv, -⟩ := (ha.documentAt_item_iff hw).mp ((h.scopes _ t id).mp ht)
      rw [getElem?_eq_none (by omega)] at hv
      cases hv
    · by_cases hi : ∃ i, (p.index i).covers r
      · obtain ⟨i, hi⟩ := hi
        obtain ⟨x, rfl⟩ := covers_iff.mp hi
        have hlt : i < items.length := by
          by_contra hle
          refine hr ⟨i - items.length, ?_⟩
          rwa [Nat.add_sub_cancel' (by omega)]
        rw [ha.documentAt_item_iff hw]
        refine Iff.trans ?_ (ha'.documentAt_item_iff hw).symm
        rw [getElem?_append_left hlt]
      · exact (ha.documentAt_other_iff hw hok fun i hc => hi ⟨i, hc⟩).symm
  refine hbut.of_alike (h.sound.write hp) ?_ ?_ ?_ <;> rw [write_eq]
  exact .refl

theorem Charted.appended (h : d.Charted schema) (hw : schema.Meets .wellFormed) (ha : d.ArrayAt p f items)
    (hok : (d.value.set p (.arr (items ++ pushed))).1 = .ok ()) :
    ((d.write p (.arr (items ++ pushed))).2.appended p f items.length pushed).Charted schema := by
  have hbut := h.lengthened hw ha hok
  have ha' : (d.write p (.arr (items ++ pushed))).2.ArrayAt p f (items ++ pushed) :=
    ha.set (by rw [write_eq]) (by rw [write_eq]) hok
  generalize (d.write p (.arr (items ++ pushed))).2 = d' at hbut ha'
  obtain rfl := hbut.schema
  -- A document in what is missing is in an item that was appended.
  have hnew : ∀ {r t}, (∃ j, (p.index (items.length + j)).covers r) ∧ d'.schema.DocumentAt d'.value r t ↔
      ∃ j v x, pushed[j]? = some v ∧ r = p.index (items.length + j) ++ x ∧ f.type.EmbedsItem v x t := by
    intro r t
    constructor
    · rintro ⟨⟨j, hj⟩, hdoc⟩
      obtain ⟨x, rfl⟩ := covers_iff.mp hj
      obtain ⟨v, hv, hx⟩ := (ha'.documentAt_item_iff hw).mp hdoc
      rw [getElem?_append_right (by omega), Nat.add_sub_cancel_left] at hv
      exact ⟨j, v, x, hv, rfl, hx⟩
    · rintro ⟨j, v, x, hv, rfl, hx⟩
      refine ⟨⟨j, covers_append _ x⟩, (ha'.documentAt_item_iff hw).mpr ⟨v, ?_, hx⟩⟩
      rwa [getElem?_append_right (by omega), Nat.add_sub_cancel_left]
  rw [Document.appended]
  refine Charted.markModified (Charted.noted ?_)
  split
  · case _ sub ht =>
    have hm : f.Meets .wellFormed := resolve_meets hw trivial ha'.field
    have hsub : sub.Meets .wellFormed := by
      have := hm.type
      rw [ht] at this
      exact this
    have hs := hbut.sound.scopes
    rw [ht] at hnew
    have hvacant : ∀ i, items.length ≤ i → d'.scopes.Vacant (p.index i) := by
      intro i hi r hr
      refine hbut.vacant r ⟨i - items.length, ?_⟩
      rwa [Nat.add_sub_cancel' hi]
    refine hbut.filled (hs.attachItems hs.innermost) (hbut.filed.attachItems hs.tidy hsub hvacant) fun r t => ?_
    rw [(attachItems_gains hs.tidy).schemaAt?_iff hs.tidy hs.rooted (fun _ he => he) ?_ ?_, hnew]
    · intro r t t' he he'
      exact (hnew.mpr he).2.unique (hnew.mpr he').2 hw
    · intro r t he
      exact hbut.schemaAt? (hnew.mpr he).1
  · case _ ht =>
    refine hbut.charted fun r t hr hdoc => ?_
    obtain ⟨-, -, -, -, -, sub, -, he, -⟩ := hnew.mp ⟨hr, hdoc⟩
    exact ht sub he

end Document
end Dossier

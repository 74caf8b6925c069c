import Dossier.Proofs.Edit

-- A pass comes to the tracked paths and to the fields of the groups among them.

namespace Dossier

open List

theorem OrdMap.get?_insertIfNew {κ : Type} [Ord κ] [Std.LawfulEqOrd κ] [Std.TransOrd κ] [DecidableEq κ] {m : OrdMap κ α}
    {k k' : κ} : (m.insertIfNew k a).get? k' = if k = k' then some ((m.get? k).getD a) else m.get? k' := by
  rw [insertIfNew, contains_eq_isSome]
  cases h : m.get? k with
  | none => simp [get?_insert]
  | some b =>
    by_cases hk : k = k'
    · subst hk
      simp [h]
    · simp [hk]

def Field.HasPart (f el : Field) : Prop :=
  f.type = .array el ∨ f.type = .map el

theorem Field.HasPart.canFail {f : Field} (h : f.HasPart el) (hel : el.canFail) : f.canFail := by
  obtain ⟨type, rules⟩ := f
  rcases h with h | h <;> simp only at h <;> simp [h, Field.canFail, FieldType.partsCanFail, hel]

theorem Field.HasPart.unique {f el' : Field} (h : f.HasPart el) (h' : f.HasPart el') : el = el' := by
  rcases h with h | h <;> rcases h' with h' | h' <;> rw [h] at h' <;> cases h' <;> rfl

namespace Document

variable {d : Document}

theorem mem_partPaths {v : Option Value} (h : p ∈ partPaths q v) : ∃ seg, p = q ++ [seg] := by
  match v with
  | some (.arr items) =>
    obtain ⟨i, -, rfl⟩ := mem_map.mp h
    exact ⟨.index i, rfl⟩
  | some (.obj fields) =>
    obtain ⟨e, -, rfl⟩ := mem_map.mp h
    exact ⟨.key e.1, rfl⟩

theorem cursor_of_resolve (h : d.resolve p = .field f) :
    ∃ x, p.foldl Cursor.step (.schema d.schema Path.root (some d.value)) = .field f x := by
  rw [resolve, Schema.resolve] at h
  generalize p.foldl Cursor.step (.schema d.schema Path.root (some d.value)) = cur at h
  cases cur with
  | field f' x => cases h; exact ⟨x, rfl⟩
  | schema s q x =>
    simp only [Cursor.resolution] at h
    split at h <;> cases h
  | inMixed | lost => cases h

theorem resolve_part {seg : Seg} (h : d.resolve q = .field g) (hp : g.HasPart el)
    (hf : d.resolve (q ++ [seg]) = .field f) : f = el := by
  obtain ⟨x, hx⟩ := cursor_of_resolve h
  rw [resolve, Schema.resolve, foldl_append, hx] at hf
  simp only [foldl_cons, foldl_nil, Cursor.step, Cursor.stepField] at hf
  rcases hp with hp | hp
  · rw [hp] at hf
    simp only at hf
    split at hf
    · cases hf; rfl
    · cases hf
  · rw [hp] at hf
    cases hf
    rfl

-- What a candidate leads to

-- The paths that a candidate leads to: itself, or the fields of a group.
def leaves (d : Document) (c : Path) : List Path :=
  match d.resolve c with
  | .field _ => [c]
  | .nested => (d.schema.fieldsBelow c).map (·.1)
  | _ => []

def Reaches (d : Document) (c p : Path) (f : Field) : Prop :=
  p ∈ d.leaves c ∧ d.resolve p = .field f

-- A path that is checked because of a candidate: one that is reached, or a part of one.
def Examines (d : Document) (c p : Path) (f : Field) : Prop :=
  f.canFail ∧ (d.Reaches c p f ∨ ∃ q g, d.Reaches c q g ∧ g.HasPart f ∧ p ∈ partPaths q (d.get? q))

theorem Examines.unique (h : d.Examines c p f) (h' : d.Examines c' p g) : f = g := by
  have hpart : ∀ {a a' f g}, d.Reaches a p f →
      (∃ q k, d.Reaches a' q k ∧ k.HasPart g ∧ p ∈ partPaths q (d.get? q)) → f = g := by
    rintro a a' f g ⟨-, hf⟩ ⟨q, k, ⟨-, hk⟩, hg, hp⟩
    obtain ⟨seg, rfl⟩ := mem_partPaths hp
    exact resolve_part hk hg hf
  rcases h.2 with hr | hr <;> rcases h'.2 with hr' | hr'
  · exact Resolution.field.inj (hr.2.symm.trans hr'.2)
  · exact hpart hr hr'
  · exact (hpart hr' hr).symm
  · obtain ⟨q, k, ⟨-, hk⟩, hf, hp⟩ := hr
    obtain ⟨q', k', ⟨-, hk'⟩, hg, hp'⟩ := hr'
    obtain ⟨seg, rfl⟩ := mem_partPaths hp
    obtain ⟨seg', hq⟩ := mem_partPaths hp'
    obtain ⟨rfl, -⟩ := append_inj' hq rfl
    cases hk.symm.trans hk'
    exact hf.unique hg

theorem Examines.meets {law : SchemaLaw} (h : d.Examines c p f) (hs : d.schema.Meets law) (hr : law (.rules {})) :
    f.Meets law := by
  rcases h.2 with ⟨-, hf⟩ | ⟨q, g, ⟨-, hg⟩, hf, -⟩
  · exact resolve_meets hs hr hf
  · have hg := (resolve_meets hs hr hg).type
    rcases hf with hf | hf <;> rw [hf] at hg
    · exact FieldType.Meets.element (.inl hg)
    · exact FieldType.Meets.element (.inr hg)

-- Filling the plan

theorem planField_of_part (hp : f.HasPart el) (hel : el.canFail) : d.planField m p f =
    ((partPaths p (d.get? p)).foldl (fun m q => OrdMap.insertIfNew m q el) m).insert p f := by
  rw [planField, if_pos (hp.canFail hel)]
  rcases hp with hp | hp <;> simp only [hp, if_pos hel]

theorem planField_of_whole (hf : f.canFail) (hel : ∀ el, f.HasPart el → ¬ el.canFail) :
    d.planField m p f = m.insert p f := by
  rw [planField, if_pos hf]
  split
  · case _ el h => rw [if_neg (hel el (.inl h))]
  · case _ el h => rw [if_neg (hel el (.inr h))]
  · rfl

theorem planField_of_sure (hf : ¬ f.canFail) : d.planField m p f = m := by
  rw [planField, if_neg hf]

def Lists (m : OrdMap Path Field) (R : Path → Field → Prop) : Prop :=
  ∀ p f, m.get? p = some f ↔ R p f

section

theorem Lists.congr (h : Lists m R) (hR : ∀ p f, R p f ↔ R' p f) : Lists m R' :=
  fun p f => (h p f).trans (hR p f)

theorem Lists.insert (h : Lists m R) (hR : ∀ g, R p g → g = f) :
    Lists (m.insert p f) fun q g => R q g ∨ q = p ∧ g = f := by
  intro q g
  rw [OrdMap.get?_insert]
  by_cases hq : p = q
  · subst hq
    simp only [if_pos, Option.some.injEq, true_and]
    exact ⟨fun e => .inr e.symm, fun e => (e.elim (hR g) id).symm⟩
  · simp only [if_neg hq, h q g, Ne.symm hq, false_and, or_false]

theorem Lists.insertIfNew (h : Lists m R) (hR : ∀ g, R p g → g = f) :
    Lists (m.insertIfNew p f) fun q g => R q g ∨ q = p ∧ g = f := by
  have hf : (m.get? p).getD f = f := by
    cases hm : m.get? p with
    | none => rfl
    | some f' => exact hR f' ((h p f').mp hm)
  intro q g
  rw [OrdMap.get?_insertIfNew, hf, ← OrdMap.get?_insert]
  exact h.insert hR q g

theorem Lists.parts {ps : List Path} (h : Lists m R) (hR : ∀ p ∈ ps, ∀ g, R p g → g = f) :
    Lists (ps.foldl (fun m p => OrdMap.insertIfNew m p f) m) fun q g => R q g ∨ q ∈ ps ∧ g = f := by
  induction ps generalizing m R with
  | nil => simpa using h
  | cons p ps ih =>
    obtain ⟨hp, hps⟩ := forall_mem_cons.mp hR
    refine (ih (h.insertIfNew hp) fun q hq g hg => hg.elim (hps q hq g) (·.2)).congr fun q g => ?_
    rw [mem_cons, or_assoc, ← or_and_right]

-- What the plan lists so far is what candidates lead to, so that nothing is listed again with another field.
theorem Lists.planField (h : Lists m R) (hR : ∀ q g, R q g → ∃ c, d.Examines c q g) (hc : d.Reaches c p f) :
    Lists (d.planField m p f) fun q g => R q g ∨
      g.canFail ∧ (q = p ∧ g = f ∨ f.HasPart g ∧ q ∈ partPaths p (d.get? p)) := by
  have huniq : ∀ {q g g'}, d.Examines c q g → R q g' → g' = g := by
    intro q g g' hg hg'
    obtain ⟨c', hc'⟩ := hR q g' hg'
    exact hc'.unique hg
  have hself : f.canFail → d.Examines c p f := fun hf => ⟨hf, .inl hc⟩
  by_cases hel : ∃ el, f.HasPart el ∧ el.canFail
  · obtain ⟨el, hpart, hel⟩ := hel
    have hf := hpart.canFail hel
    have hex : ∀ q ∈ partPaths p (d.get? p), d.Examines c q el := fun q hq =>
      ⟨hel, .inr ⟨p, f, hc, hpart, hq⟩⟩
    rw [planField_of_part hpart hel]
    refine ((h.parts fun q hq g => huniq (hex q hq)).insert fun g hg => ?_).congr fun q g => ?_
    · exact hg.elim (huniq (hself hf)) fun hg => hg.2 ▸ (hex p hg.1).unique (hself hf)
    · rw [or_assoc]
      refine or_congr_right ⟨?_, ?_⟩
      · rintro (⟨hq, rfl⟩ | ⟨rfl, rfl⟩)
        · exact ⟨hel, .inr ⟨hpart, hq⟩⟩
        · exact ⟨hf, .inl ⟨rfl, rfl⟩⟩
      · rintro ⟨hg, ⟨rfl, rfl⟩ | ⟨hg', hq⟩⟩
        · exact .inr ⟨rfl, rfl⟩
        · exact .inl ⟨hq, hg'.unique hpart⟩
  · have hel : ∀ g, g.canFail → ¬ f.HasPart g := fun g hg hp => hel ⟨g, hp, hg⟩
    by_cases hf : f.canFail
    · rw [planField_of_whole hf fun g hp hg => hel g hg hp]
      refine (h.insert fun g => huniq (hself hf)).congr fun q g => or_congr_right ⟨?_, ?_⟩
      · rintro ⟨rfl, rfl⟩
        exact ⟨hf, .inl ⟨rfl, rfl⟩⟩
      · rintro ⟨hg, ⟨rfl, rfl⟩ | ⟨hg', -⟩⟩
        · exact ⟨rfl, rfl⟩
        · exact absurd hg' (hel g hg)
    · rw [planField_of_sure hf]
      refine h.congr fun q g => (or_iff_left ?_).symm
      rintro ⟨hg, ⟨rfl, rfl⟩ | ⟨hg', -⟩⟩
      · exact hf hg
      · exact hel g hg hg'

def planLeaf (d : Document) (m : OrdMap Path Field) (q : Path) : OrdMap Path Field :=
  match d.resolve q with
  | .field f => d.planField m q f
  | _ => m

theorem planPath_eq : d.planPath m c = (d.leaves c).foldl d.planLeaf m := by
  rw [planPath, leaves]
  cases h : d.resolve c with
  | field f => simp only [foldl_cons, foldl_nil, planLeaf, h]
  | nested => rw [foldl_map]; rfl
  | inMixed | undeclared => rfl

theorem Lists.leaves {ls : List Path} (hls : ∀ p ∈ ls, p ∈ d.leaves c) (h : Lists m R)
    (hR : ∀ q g, R q g → ∃ c, d.Examines c q g) :
    Lists (ls.foldl d.planLeaf m) fun q g => R q g ∨ g.canFail ∧ ∃ p ∈ ls, ∃ f, d.resolve p = .field f ∧
      (q = p ∧ g = f ∨ f.HasPart g ∧ q ∈ partPaths p (d.get? p)) := by
  induction ls generalizing m R with
  | nil => exact h.congr fun q g => by simp
  | cons p ls ih =>
    obtain ⟨hp, hls⟩ := forall_mem_cons.mp hls
    rw [foldl_cons, planLeaf]
    cases hf : d.resolve p with
    | field f =>
      refine (ih hls (h.planField hR ⟨hp, hf⟩) ?_).congr fun q g => ?_
      · rintro q g (hg | ⟨hg, ⟨rfl, rfl⟩ | ⟨hg', hq⟩⟩)
        · exact hR q g hg
        · exact ⟨c, hg, .inl ⟨hp, hf⟩⟩
        · exact ⟨c, hg, .inr ⟨p, f, ⟨hp, hf⟩, hg', hq⟩⟩
      · simp [or_assoc, hf, ← and_or_left]
    | nested | inMixed | undeclared => exact (ih hls h hR).congr fun q g => by simp [hf]

theorem Lists.planPath (h : Lists m R) (hR : ∀ q g, R q g → ∃ c, d.Examines c q g) :
    Lists (d.planPath m c) fun q g => R q g ∨ d.Examines c q g := by
  rw [planPath_eq]
  refine (h.leaves (fun _ hp => hp) hR).congr fun q g => or_congr_right (and_congr_right fun _ => ⟨?_, ?_⟩)
  · rintro ⟨p, hp, f, hf, ⟨rfl, rfl⟩ | ⟨hg, hq⟩⟩
    · exact .inl ⟨hp, hf⟩
    · exact .inr ⟨p, f, ⟨hp, hf⟩, hg, hq⟩
  · rintro (⟨hq, hg⟩ | ⟨p, f, ⟨hp, hf⟩, hg, hq⟩)
    · exact ⟨q, hq, g, hg, .inl ⟨rfl, rfl⟩⟩
    · exact ⟨p, hp, f, hf, .inr ⟨hg, hq⟩⟩

theorem Lists.candidates {cs : List Path} (h : Lists m R) (hR : ∀ q g, R q g → ∃ c, d.Examines c q g) :
    Lists (cs.foldl d.planPath m) fun q g => R q g ∨ ∃ c ∈ cs, d.Examines c q g := by
  induction cs generalizing m R with
  | nil => exact h.congr fun q g => by simp
  | cons c cs ih =>
    refine (ih (h.planPath hR) ?_).congr fun q g => by simp [or_assoc]
    rintro q g (hg | hg)
    · exact hR q g hg
    · exact ⟨c, hg⟩

end

theorem mem_plan : (p, f) ∈ d.plan opts ↔ (∃ c ∈ d.candidates opts, d.Examines c p f) ∧ d.inScope opts p := by
  have hempty : Lists ∅ fun _ _ => False := fun p f => by simp
  have hall : Lists ((d.candidates opts).foldl d.planPath ∅) fun q g => ∃ c ∈ d.candidates opts, d.Examines c q g :=
    (hempty.candidates (by simp)).congr fun q g => or_iff_right id
  rw [plan, mem_filter, OrdMap.mem_entries_iff, hall p f]

theorem field_of_mem_plan (h : (p, f) ∈ d.plan opts) (h' : (p, g) ∈ d.plan opts) : f = g := by
  obtain ⟨⟨c, -, hc⟩, -⟩ := mem_plan.mp h
  obtain ⟨⟨c', -, hc'⟩, -⟩ := mem_plan.mp h'
  exact hc.unique hc'

theorem meets_of_mem_plan (h : (p, f) ∈ d.plan opts) (hs : d.schema.Meets law) (hr : law (.rules {})) :
    f.Meets law := by
  obtain ⟨⟨c, -, hc⟩, -⟩ := mem_plan.mp h
  exact hc.meets hs hr

end Document
end Dossier

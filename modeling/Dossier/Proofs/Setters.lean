import Dossier.Proofs.Writes

-- Where the siblings that setters name are of one kind, so are the writes that casts and edits ask for.

namespace Dossier

open Cast

-- Edits

open Document (Stable)

-- Writes to paths of the kind `P` keep a property of documents, and so do the writes that setters ask for
-- on the way: they name siblings of the kind `A`, and those are at paths of the kind `Q`.
structure Document.Guided (P A Q : Path → Prop) (I : Document → Prop) : Prop where
  stable : Stable P I
  key    : ∀ p k, P p → P (p ++ [.key k])
  schema : ∀ d, I d → d.schema.Meets (.siblings A)
  leads  : ∀ d p opts, I d → P p → (Edit.castContext d p opts).Leads A Q
  asked  : ∀ p, Q p → (p ≠ [] → P p) ∧ ∀ k, P (p ++ [.key k])

namespace Document.Guided

open Edit

-- The property holds of the document on the desk, and only writes of one kind are asked for.
def Runs (I : Document → Prop) (Q : Path → Prop) (s : Desk) : Prop :=
  I s.doc ∧ ∀ a ∈ s.effects.queue, Q a.1

variable (h : Guided P A Q I)

include h

theorem course : Course fun p _ s s' => (p ≠ [] → P p) → (∀ k, P (p ++ [.key k])) →
    Runs I Q s → Runs I Q s' where
  refl _ _ hs := hs
  field {p v s f opts} hr hp _ hs := by
    have hp := hp (ne_nil_of_resolve hr)
    have hf : f.Meets (.siblings A) := resolve_meets (h.schema _ hs.1) (by simp [SchemaLaw.siblings]) hr
    refine ⟨(h.stable.heeds h.key).setField hp hr hs.1, ?_⟩
    rw [effects_setField]
    exact (Field.accept_yields hf (h.leads s.doc p opts hs.1 hp)).queue hs.2
  taken hne _ hp _ hs := ⟨h.stable.written (hp hne) hs.1, hs.2⟩
  emptied hne _ _ hp _ hs := ⟨h.stable.written (hp hne) (h.stable.detached (hp hne) hs.1), hs.2⟩
  marked hne _ hd hp hk hs := ⟨h.stable.marked (hp hne) (hd hp hk hs).1, (hd hp hk hs).2⟩
  reported hd hp hk hs := ⟨h.stable.reported (hd hp hk hs).1, (hd hp hk hs).2⟩
  inner _ _ hd hin hp hk hs := hin (fun _ => hk _) (fun _ => h.key _ _ (hk _)) (hd hp hk hs)

theorem settle (hs : Runs I Q s) : Runs I Q ((Edit.settle opts n).outcome s).2 :=
  settle_rec (C := fun a => Q a.1) (fun _ hs => ⟨hs.1, by simp⟩) (fun _ hs => hs.2)
    (fun a s ha hs => h.course.setPath a.2 a.1 opts s (h.asked _ ha).1 (h.asked _ ha).2 hs) hs

theorem keeps_set {p : Path} (hp : p ≠ [] → P p) (hk : ∀ k, P (p ++ [.key k])) :
    Keeps I (Edit.set p v opts) := fun s hs =>
  (set_rec (M := Runs I Q) (C := fun a => Q a.1) (fun _ hs => ⟨hs.1, by simp⟩) (fun _ hs => hs.2)
    (fun a s ha hs => h.course.setPath a.2 a.1 opts s (h.asked _ ha).1 (h.asked _ ha).2 hs)
    (h.course.setPath v p opts _ hp hk ⟨h.stable.opened hs, by simp⟩)).1

theorem runs_appending {p : Path} {items : List Value} (hp : p ≠ [] → P p) (hs : I s.doc)
    (ha : Appending p vs s f el items pushed s') : P p ∧ Runs I Q s' := by
  have hp := hp ha.ne_nil
  have hel := (resolve_meets (h.schema _ hs) (by simp [SchemaLaw.siblings]) ha.resolve).element
    (by simp [SchemaLaw.siblings]) ha.element
  have hleads := h.leads _ p {} (h.stable.opened hs) hp
  obtain ⟨hdoc, hasked, -⟩ := ha.spec fun i _ _ => Field.cast_yields hel ⟨hleads.root, (hleads.part [.index i]).path⟩
  exact ⟨hp, hdoc ▸ h.stable.opened hs, hasked⟩

theorem keeps_push {p : Path} (hp : p ≠ [] → P p) : Keeps I (Edit.push p vs) := by
  intro s hs
  have hopened := h.stable.opened hs
  refine push_rec hs (fun _ => h.stable.reported hopened)
    (fun ha _ => h.stable.written (h.runs_appending hp hs ha).1 hopened) fun ha _ => ?_
  obtain ⟨hp, hruns⟩ := h.runs_appending hp hs ha
  exact (h.settle (s := ⟨_, _⟩) ⟨h.stable.appended hp (h.stable.written hp hopened), hruns.2⟩).1

end Document.Guided

theorem Edit.keeps_set_calm (h : Stable P I) (hS : S.Meets .noSetters) (hschema : ∀ d, I d → d.schema = S)
    (hP : ∀ p k, P p → P (p ++ [.key k])) (hp : P p) : Keeps I (set p v opts) := by
  have hguided : Document.Guided P (fun _ => False) (fun _ => False) I := {
    stable := h
    key := hP
    schema := fun d hd part hpart => SchemaLaw.siblings_of_noSetters (hS part (hschema d hd ▸ hpart))
    leads := fun _ _ _ _ _ => ⟨fun _ => False.elim, fun _ _ => False.elim⟩
    asked := fun _ => False.elim }
  exact hguided.keeps_set (fun _ => hp) fun k => hP p k hp

end Dossier

import Dossier.Proofs.History
import Dossier.Proofs.Mark

-- What neither attaching, moving and removing scopes nor changes of their path states break holds whatever is done
-- to a document.

namespace Dossier

-- A property of scopes that everything keeps which is done to them. `C` tells the fields whose values get scopes.
structure Scopes.Upheld (C : Path → Field → Prop) (K : Scopes → Prop) : Prop where
  modified  : ∀ {s k} {g : Scope → Tracker}, K s → K (s.modify k fun scope => { scope with tracker := g scope })
  committed : ∀ {s} {g : Scope → Tracker}, s.Sound false → K s →
    K (s.mapAll fun scope => { scope with tracker := g scope, isNew := false })
  removed   : ∀ {s p}, s.Sound false → K s → K (s.removeBelow p)
  moved     : ∀ {s} {p : Path} {i j}, s.Sound false → K s → K (s.rekey (p.index i) (p.index j))
  attached  : ∀ {s p f v o}, C p f → s.Sound false → o = none ∨ o = s.innermost? p → K s →
    K (s.attachField f p v o .created)
  extended  : ∀ {s p f sub n items}, C p f → f.type = .documentArray sub → s.Sound false → K s →
    K (s.attachItems sub p n items (s.innermost? p) .created)

namespace Document

open Edit Scopes

variable {schema : Schema} {C : Path → Field → Prop} {K : Scopes → Prop} {d d' : Document} {s : Desk} {p : Path}
  {f : Field} {v : Value}

-- A property holds of the scopes of a document, now and when its open changes began.
structure Upholds (schema : Schema) (K : Scopes → Prop) (d : Document) : Prop where
  sound  : d.Sound
  scopes : K d.scopes
  backup : ∀ b, d.backup = some b → K b.scopes
  schema : d.schema = schema

namespace Upholds

variable (h : d.Upholds schema K)

include h

theorem with_scopes (hs : d'.Sound) (hschema : d'.schema = d.schema) (hbackup : d'.backup = d.backup)
    (hscopes : K d'.scopes) : d'.Upholds schema K :=
  ⟨hs, hscopes, fun b hb => h.backup b (hbackup ▸ hb), hschema.trans h.schema⟩

theorem openChanges : d.openChanges.Upholds schema K := by
  have hs := h.sound.openChanges
  rw [Document.openChanges] at hs ⊢
  split at hs
  · exact h
  · exact ⟨hs, h.scopes, by rintro b ⟨⟩; exact h.scopes, h.schema⟩

theorem rollback : d.rollback.Upholds schema K := by
  have hs := h.sound.rollback
  rw [Document.rollback] at hs ⊢
  split at hs
  · exact h
  · case _ b hb => exact ⟨hs, h.backup b hb, by simp, h.schema⟩

theorem reported {issues : Option Issues} : Upholds schema K { d with issues } :=
  h.with_scopes (stable_sound.reported h.sound) rfl rfl h.scopes

theorem markValid : (d.markValid p).Upholds schema K := by
  obtain ⟨issues, he⟩ := markValid_eq d p
  exact he ▸ h.reported

theorem write (hp : p ≠ []) : (d.write p v).2.Upholds schema K := by
  refine h.with_scopes (h.sound.write hp) ?_ ?_ ?_ <;> rw [write_eq]
  exact h.scopes

theorem noted {g : ArrayOps → ArrayOps} : (d.noteArrayOp p g).Upholds schema K :=
  h.with_scopes h.sound.noted rfl rfl h.scopes

theorem seedRequired : d.seedRequired.Upholds schema K :=
  seedRequired_rec h fun _ hd => hd.with_scopes (hd.sound.withTracker hd.sound.tracker.transition) rfl rfl hd.scopes

end Upholds

-- Schemas

theorem lasting_schema : Lasting (· ≠ []) fun d => d.schema = schema :=
  .of_core (fun he => (congrArg Document.schema he).trans) (fun h => by rwa [openChanges_eq]) fun _ h => by rwa [write_eq]

theorem lasting_isNew {b : Bool} : Lasting (· ≠ []) fun d => d.isNew = b :=
  .of_core (fun he => (congrArg Document.isNew he).trans) (fun h => by rwa [openChanges_eq]) fun _ h => by rwa [write_eq]

theorem schema_of_create {initial : Value} {effects : Effects} (h : (create schema initial effects).1 = .ok d) :
    d.schema = schema :=
  create_of_keeps lasting_schema.toStable (fun _ _ _ _ _ hd => hd)
    (fun _ hd => seedRequired_rec (I := fun d => d.schema = schema) hd fun _ hd => hd) rfl h

theorem Sound.schema_run (h : d.Sound) (c : Call) (effects : Effects) : (c.run ⟨d, effects⟩).doc.schema = d.schema := by
  have hrollback : ∀ d' : Document, d'.rollback.schema = d'.schema := by
    intro d'
    rw [Document.rollback]
    split <;> rfl
  exact (keeps_call_of_sound lasting_schema (fun _ _ _ hd => hd) (fun _ hd => hd)
    (fun _ hd => (hrollback _).trans hd) c ⟨d, effects⟩ ⟨h, rfl⟩).2

-- Scopes that change

section

variable (hK : Upheld C K)

include hK

theorem upheld_eachTracker {g : Path → Tracker → Tracker} (h : K d.scopes) : K (d.eachTracker p g).scopes :=
  List.foldlRecOn _ _ h fun _ h _ _ => hK.modified h

namespace Upholds

variable (h : d.Upholds schema K)

include h

theorem markModified : (d.markModified p).Upholds schema K := by
  refine h.with_scopes h.sound.markModified rfl rfl ?_
  refine List.foldlRecOn (motive := fun ms : Path × Scopes => K ms.2) _ _ h.scopes fun ms h k _ => ?_
  dsimp only
  split
  · exact h
  · exact hK.modified h

theorem unmarkModified : (d.unmarkModified p).Upholds schema K :=
  h.with_scopes h.sound.unmarkModified rfl rfl (upheld_eachTracker hK h.scopes)

theorem detached : (d.detached p).Upholds schema K :=
  h.with_scopes h.sound.detached rfl rfl
    (hK.removed (eachTracker_scopes h.sound.scopes) (upheld_eachTracker hK h.scopes))

theorem attached (hf : C p f) : (d.attached p f).Upholds schema K :=
  h.with_scopes h.sound.attached rfl rfl (hK.attached hf h.sound.scopes (.inr rfl) h.scopes)

theorem settled (hf : C p f) {modifies : Bool} : (d.settled p f modifies).Upholds schema K :=
  settled_rec (fun _ => h.attached hK hf) (fun _ => h) (·.noted) (·.markModified hK) markValid

theorem appended (hp : p ≠ []) (hf : C p f) : (d.appended p f n pushed).Upholds schema K := by
  rw [Document.appended]
  refine markModified hK (noted ?_)
  split
  · case _ ht =>
    exact h.with_scopes (stable_sound.extended hp h.sound) rfl rfl (hK.extended hf ht h.sound.scopes h.scopes)
  · exact h

theorem dropItem : (d.dropItem p).Upholds schema K :=
  h.with_scopes h.sound.dropItem rfl rfl
    (upheld_eachTracker (d := { d with scopes := d.scopes.removeBelow p }) hK (hK.removed h.sound.scopes h.scopes))

theorem moveItem : (d.moveItem p i j).Upholds schema K :=
  h.with_scopes h.sound.moveItem rfl rfl
    (upheld_eachTracker (d := { d with scopes := d.scopes.rekey (p.index i) (p.index j) }) hK
      (hK.moved h.sound.scopes h.scopes))

theorem commit : d.commit.Upholds schema K :=
  ⟨h.sound.commit, hK.committed h.sound.scopes h.scopes, by simp [Document.commit], h.schema⟩

theorem filled (hp : p ≠ []) (hf : C p f) :
    (Document.filled { d with value := (d.value.set p v).2 } p f).Upholds schema K :=
  h.with_scopes (h.sound.set hp).filled rfl rfl (hK.attached hf h.sound.scopes (.inl rfl) h.scopes)

end Upholds

-- Calls

variable (hC : ∀ {d : Document} {p f}, d.schema = schema → d.resolve p = .field f → C p f)

include hC

theorem heeds_upholds : Heeds (· ≠ []) (Upholds schema K) where
  opened h := h.openChanges
  reported h := h.reported
  stored hp hf h :=
    storeField_rec h h.markValid (fun _ => h.detached hK) (fun _ => h) (fun hd _ => hd.write hp) fun hd _ =>
      (hd.write hp).settled hK (hC h.schema hf)
  taken hp _ h := h.write hp
  emptied hp _ _ h := (h.detached hK).write hp
  marked _ _ _ h := h.markModified hK
  inner _ _ _ := by simp

theorem Upholds.run (h : s.doc.Upholds schema K) (c : Call) : (c.run s).doc.Upholds schema K := by
  cases c with
  | set => exact (heeds_upholds hK hC).keeps_set s h
  | push =>
    refine push_rec h (fun _ => h.openChanges.reported) (fun ha _ => h.openChanges.write ha.ne_nil) fun ha _ => ?_
    exact (heeds_upholds hK hC).settle (rounds_of_forall Path.opens_ne_nil)
      ((h.openChanges.write ha.ne_nil).appended hK ha.ne_nil (hC h.schema ha.resolve))
  | pull =>
    exact pull_rec h (fun hp => h.openChanges.write hp) fun _ hd => markModified hK (noted (reported
      (reindex_rec (fun _ _ hd => hd.dropItem hK) (fun _ _ _ hd => hd.moveItem hK) hd)))
  | mark => exact h.openChanges.markModified hK
  | unmark => exact h.unmarkModified hK
  | populate =>
    exact populate_rec h (fun hp hd => hd.write hp) fun hp hd => hd.with_scopes (hd.sound.stood hp) rfl rfl hd.scopes
  | depopulate =>
    exact depopulate_rec h (fun hd => hd.with_scopes hd.sound.vacated rfl rfl hd.scopes)
      fun hp hd => hd.write (h.sound.populated _ hp)
  | report => exact h.with_scopes (keeps_call_sound (.report _ _) _ h.sound) rfl rfl h.scopes
  | commit => exact h.commit hK
  | rollback => exact h.rollback

theorem upholds_of_create (hfields : ∀ {p f}, (p, f) ∈ schema.fields → C p f) (hempty : K {})
    (h : (create schema initial effects).1 = .ok d) : d.Upholds schema K :=
  create_of_heeds (heeds_upholds hK hC) (fun hm hl _ hd => hd.filled hK hl.ne_nil (hfields hm)) (·.seedRequired)
    ⟨sound_blank, hempty, by simp, rfl⟩ h

theorem Reached.upholds (hfields : ∀ {p f}, (p, f) ∈ schema.fields → C p f) (hempty : K {})
    (hload : ∀ {record projection effects d}, (load schema record projection effects).1 = .ok d → K d.scopes)
    (h : d.Reached) (hs : d.schema = schema) : d.Upholds schema K := by
  induction h with
  | created h =>
    rw [schema_of_create h] at hs
    subst hs
    exact upholds_of_create hK hC hfields hempty h
  | loaded h =>
    have hloaded := load_loaded h
    rw [hloaded.schema] at hs
    subst hs
    exact ⟨hloaded.sound, hload h, by simp [hloaded.backup], hloaded.schema⟩
  | called c effects hd ih =>
    rw [hd.sound.schema_run] at hs
    exact Upholds.run (s := ⟨_, effects⟩) hK hC (ih hs) c

end

end Document
end Dossier

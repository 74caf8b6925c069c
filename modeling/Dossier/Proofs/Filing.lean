import Dossier.Proofs.OrdMap
import Dossier.Store.Collections

-- A write is about one record: it reads what is filed at its own place and changes nothing else.

namespace Dossier

open List

namespace Write

open Collections

-- The collection and the key that a write is about. A record that has no identifier has no place.
def place? : Write → Option (String × String)
  | .insert collection record => (recordId? record).map fun id => (collection, id.text)
  | .update collection id _ => some (collection, id.text)
  | .delete collection id => some (collection, id.text)

-- What a write makes of the record that is filed at its place, with the version that it returns.
def revise : Write → Option Stored → Except StoreError (Nat × Option Stored)
  | .insert collection record, old =>
    match recordId? record, old with
    | none, _ => .error (.invalidRecord .noId)
    | some id, some _ => .error (.alreadyExists collection id.text)
    | some _, none => .ok (0, some { record })
  | .update collection id _, none => .error (.notFound collection id.text)
  | .update _ id changes, some old =>
    match changes.apply old.record with
    | .error e => .error (.change e)
    | .ok record =>
      if (record.field? Value.idKey).any (·.same id) then
        .ok (old.version + 1, some { record, version := old.version + 1 })
      else .error (.invalidRecord .idChanged)
  | .delete .., _ => .ok (0, none)

-- Only an insertion makes a collection.
def opens (collection : String) : Write → Bool
  | .insert collection' _ => collection' = collection
  | _ => false

-- The places that writes are about.
def places (ws : List Write) : List (String × String) :=
  ws.filterMap place?

-- No place is written by both.
def Apart (ws vs : List Write) : Prop :=
  ∀ p ∈ places ws, p ∉ places vs

instance (ws vs : List Write) : Decidable (Apart ws vs) :=
  inferInstanceAs (Decidable (∀ p ∈ places ws, p ∉ places vs))

theorem Apart.symm (h : Apart ws vs) : Apart vs ws :=
  fun p hv hw => h p hw hv

end Write

namespace Collections

open Write

variable {cs cs' : Collections} {w : Write} {ws vs : List Write} {c c' k k' : String} {o : Option Stored}

-- Files a record at a place, or leaves the place empty.
def put (cs : Collections) (c k : String) : Option Stored → Collections
  | some stored => cs.file c k stored
  | none => cs.discard c k

-- One place

theorem find?_file : (cs.file c k stored).find? c' k' = if c = c' ∧ k = k' then some stored else cs.find? c' k' := by
  simp only [find?, file, OrdMap.get?_insert]
  by_cases hc : c = c'
  · subst hc
    simp only [if_true, Option.bind_some, OrdMap.get?_insert, true_and]
    cases cs.get? c <;> rfl
  · simp [hc]

theorem find?_discard : (cs.discard c k).find? c' k' = if c = c' ∧ k = k' then none else cs.find? c' k' := by
  rw [discard]
  split
  · case _ hn =>
    split
    · case isTrue h => simp [find?, ← h.1, hn]
    · rfl
  · case _ shelf hs =>
    simp only [find?, OrdMap.get?_insert]
    by_cases hc : c = c'
    · subst hc
      by_cases hk : k = k'
      · subst hk
        simp [OrdMap.get?_erase_self]
      · simp [hs, hk, OrdMap.get?_erase_ne hk]
    · simp [hc]

theorem find?_put : (cs.put c k o).find? c' k' = if c = c' ∧ k = k' then o else cs.find? c' k' := by
  cases o with
  | some stored => exact find?_file
  | none => exact find?_discard

theorem isSome_put : ((cs.put c k o).get? c').isSome ↔ (cs.get? c').isSome ∨ o.isSome ∧ c = c' := by
  cases o with
  | some stored =>
    simp only [put, file, OrdMap.get?_insert]
    by_cases hc : c = c' <;> simp [hc]
  | none =>
    simp only [put, discard]
    split
    · simp
    · case _ shelf hs =>
      rw [OrdMap.get?_insert]
      by_cases hc : c = c'
      · subst hc
        simp [hs]
      · simp [hc]

theorem ext_find? (h : ∀ c k, cs.find? c k = cs'.find? c k) (hs : ∀ c, (cs.get? c).isSome ↔ (cs'.get? c).isSome) :
    cs = cs' := by
  refine OrdMap.ext_get? fun c => ?_
  have hs := hs c
  have h := h c
  simp only [find?] at h
  cases hc : cs.get? c <;> cases hc' : cs'.get? c
  all_goals simp only [hc, hc', Option.isSome_none, Option.isSome_some, Option.bind_some] at hs h
  · rfl
  · simp at hs
  · simp at hs
  · exact congrArg some (OrdMap.ext_get? h)

-- One write

theorem apply_eq : cs.apply w = match w.place? with
    | none => .error (.invalidRecord .noId)
    | some (c, k) =>
      match w.revise (cs.find? c k) with
      | .error e => .error e
      | .ok (version, o) => .ok (version, cs.put c k o) := by
  cases w with
  | insert collection record =>
    simp only [apply, insertRecord, place?, revise]
    cases recordId? record with
    | none => rfl
    | some id =>
      dsimp only [Option.map_some]
      cases cs.find? collection id.text <;> rfl
  | update collection id changes =>
    simp only [apply, updateRecord, place?]
    cases cs.find? collection id.text with
    | none => rfl
    | some stored =>
      dsimp only [revise]
      cases changes.apply stored.record with
      | error e => rfl
      | ok record =>
        dsimp only
        split <;> rfl
  | delete collection id => rfl

theorem apply_ok (h : cs.apply w = .ok (n, cs')) :
    ∃ c k o, w.place? = some (c, k) ∧ w.revise (cs.find? c k) = .ok (n, o) ∧ cs' = cs.put c k o := by
  rw [apply_eq] at h
  split at h
  · cases h
  · case _ c k hp =>
    split at h
    · cases h
    · case _ version o hr =>
      cases h
      exact ⟨c, k, o, hp, hr, rfl⟩

theorem revise_opens (hp : w.place? = some (c, k)) (h : w.revise (cs.find? c k) = .ok (n, o)) (ho : o.isSome) :
    (cs.get? c).isSome ∨ w.opens c := by
  cases w with
  | insert collection record =>
    obtain ⟨id, -, hid⟩ := Option.map_eq_some_iff.mp hp
    cases hid
    exact .inr (by simp [opens])
  | update collection id changes =>
    -- A record that is changed is filed in a collection that is there.
    left
    cases hc : cs.get? c with
    | some _ => rfl
    | none =>
      rw [find?, hc] at h
      cases h
  | delete => cases h; cases ho

theorem isSome_of_apply (h : cs.apply w = .ok (n, cs')) : (cs'.get? c).isSome ↔ (cs.get? c).isSome ∨ w.opens c := by
  obtain ⟨c₁, k, o, hp, hr, rfl⟩ := apply_ok h
  rw [isSome_put]
  constructor
  · rintro (hc | ⟨ho, rfl⟩)
    · exact .inl hc
    · exact revise_opens hp hr ho
  · rintro (hc | hopen)
    · exact .inl hc
    · cases w with
      | insert collection record =>
        obtain ⟨id, hid, he⟩ := Option.map_eq_some_iff.mp hp
        cases he
        simp only [revise, hid] at hr
        split at hr <;> cases hr
        exact .inr ⟨rfl, by simpa [opens] using hopen⟩
      | update | delete => cases hopen

theorem find?_of_apply (h : cs.apply w = .ok (n, cs')) (hp : w.place? ≠ some p) :
    cs'.find? p.1 p.2 = cs.find? p.1 p.2 := by
  obtain ⟨c, k, o, hplace, -, rfl⟩ := apply_ok h
  rw [find?_put, if_neg]
  rintro ⟨rfl, rfl⟩
  exact hp hplace

-- Many writes

-- The same is filed at the given places.
def Agree (ps : List (String × String)) (cs cs' : Collections) : Prop :=
  ∀ p ∈ ps, cs.find? p.1 p.2 = cs'.find? p.1 p.2

theorem Agree.symm (h : Agree ps cs cs') : Agree ps cs' cs :=
  fun p hp => (h p hp).symm

theorem Agree.apply (h : Agree ps cs cs') (hw : ∀ p, w.place? = some p → p ∈ ps) :
    (∃ e, cs.apply w = .error e ∧ cs'.apply w = .error e) ∨
      ∃ n a b, cs.apply w = .ok (n, a) ∧ cs'.apply w = .ok (n, b) ∧ Agree ps a b := by
  rw [apply_eq, apply_eq]
  cases hp : w.place? with
  | none => exact .inl ⟨_, rfl, rfl⟩
  | some p =>
    obtain ⟨c, k⟩ := p
    dsimp only
    rw [← h _ (hw _ hp)]
    cases w.revise (cs.find? c k) with
    | error e => exact .inl ⟨e, rfl, rfl⟩
    | ok r =>
      refine .inr ⟨_, _, _, rfl, rfl, fun q hq => ?_⟩
      rw [find?_put, find?_put, h q hq]

theorem Agree.applyAll (h : Agree ps cs cs') (hws : ∀ p ∈ places ws, p ∈ ps) :
    (∃ e, cs.applyAll ws = .error e ∧ cs'.applyAll ws = .error e) ∨
      ∃ a b, cs.applyAll ws = .ok a ∧ cs'.applyAll ws = .ok b ∧ Agree ps a b := by
  induction ws generalizing cs cs' with
  | nil => exact .inr ⟨cs, cs', rfl, rfl, h⟩
  | cons w ws ih =>
    have hw : ∀ p, w.place? = some p → p ∈ ps := fun p hp =>
      hws p (mem_filterMap.mpr ⟨w, mem_cons_self, hp⟩)
    have hrest : ∀ p ∈ places ws, p ∈ ps := fun p hp => by
      obtain ⟨v, hv, hvp⟩ := mem_filterMap.mp hp
      exact hws p (mem_filterMap.mpr ⟨v, mem_cons_of_mem _ hv, hvp⟩)
    rcases h.apply hw with ⟨e, h₁, h₂⟩ | ⟨n, a, b, h₁, h₂, hab⟩
    · exact .inl ⟨e, by simp [Collections.applyAll, h₁], by simp [Collections.applyAll, h₂]⟩
    · simp only [Collections.applyAll, h₁, h₂]
      exact ih hab hrest

theorem applyAll_append : cs.applyAll (ws ++ vs) = match cs.applyAll ws with
    | .error e => .error e
    | .ok cs => cs.applyAll vs := by
  induction ws generalizing cs with
  | nil => rfl
  | cons w ws ih =>
    simp only [cons_append, applyAll]
    cases cs.apply w with
    | error e => rfl
    | ok r => exact ih

theorem find?_of_applyAll (h : cs.applyAll ws = .ok cs') (hp : p ∉ places ws) :
    cs'.find? p.1 p.2 = cs.find? p.1 p.2 := by
  induction ws generalizing cs with
  | nil => cases h; rfl
  | cons w ws ih =>
    rw [applyAll] at h
    split at h
    · cases h
    · case _ n a ha =>
      have hw : w.place? ≠ some p := fun hw =>
        hp (mem_filterMap.mpr ⟨w, mem_cons_self, hw⟩)
      have hrest : p ∉ places ws := fun hm => by
        obtain ⟨v, hv, hvp⟩ := mem_filterMap.mp hm
        exact hp (mem_filterMap.mpr ⟨v, mem_cons_of_mem _ hv, hvp⟩)
      exact (ih h hrest).trans (find?_of_apply ha hw)

theorem isSome_of_applyAll (h : cs.applyAll ws = .ok cs') :
    (cs'.get? c).isSome ↔ (cs.get? c).isSome ∨ ∃ w ∈ ws, w.opens c := by
  induction ws generalizing cs with
  | nil => cases h; simp
  | cons w ws ih =>
    rw [applyAll] at h
    split at h
    · cases h
    · case _ n a ha =>
      rw [ih h, isSome_of_apply ha]
      simp [or_assoc]

theorem applyAll_after (h : cs.applyAll ws = .ok cs') (hd : Write.Apart ws vs) :
    (∃ e, cs.applyAll vs = .error e ∧ cs'.applyAll vs = .error e) ∨
      ∃ a b, cs.applyAll vs = .ok a ∧ cs'.applyAll vs = .ok b ∧ Agree (places vs) a b := by
  have hagree : Agree (places vs) cs cs' := fun p hp =>
    (find?_of_applyAll h fun hw => hd p hw hp).symm
  exact hagree.applyAll fun _ hp => hp

theorem applyAll_comm (ha : cs.applyAll ws = .ok a) (hb : cs.applyAll vs = .ok b) (hd : Write.Apart ws vs) :
    ∃ r, a.applyAll vs = .ok r ∧ b.applyAll ws = .ok r := by
  rcases applyAll_after ha hd with ⟨e, he, -⟩ | ⟨_, r, hvs, hr, hagree⟩
  · rw [hb] at he
    cases he
  cases hb.symm.trans hvs
  rcases applyAll_after hb hd.symm with ⟨e, he, -⟩ | ⟨_, r', hws, hr', hagree'⟩
  · rw [ha] at he
    cases he
  cases ha.symm.trans hws
  refine ⟨r, hr, ?_⟩
  rw [hr']
  congr 1
  refine ext_find? (fun c k => ?_) fun c => ?_
  · -- A place belongs to the first writes, to the second ones or to neither.
    by_cases hv : (c, k) ∈ places vs
    · rw [← hagree _ hv]
      exact find?_of_applyAll hr' fun hw => hd _ hw hv
    · have hr₁ : r.find? c k = a.find? c k := find?_of_applyAll hr hv
      rw [hr₁]
      by_cases hw : (c, k) ∈ places ws
      · exact (hagree' _ hw).symm
      · have h₁ : r'.find? c k = b.find? c k := find?_of_applyAll hr' hw
        have h₂ : b.find? c k = cs.find? c k := find?_of_applyAll hb hv
        have h₃ : a.find? c k = cs.find? c k := find?_of_applyAll ha hw
        rw [h₁, h₂, h₃]
  · rw [isSome_of_applyAll hr', isSome_of_applyAll hb, isSome_of_applyAll hr, isSome_of_applyAll ha,
      or_assoc, or_assoc]
    exact or_congr_right Or.comm

-- All or none

-- Carries out all of the writes, or none of them if one fails.
def attempt (cs : Collections) (ws : List Write) : Except StoreError Unit × Collections :=
  match cs.applyAll ws with
  | .error e => (.error e, cs)
  | .ok cs => (.ok (), cs)

theorem attempt_attempt (hd : Write.Apart ws vs) : ((cs.attempt ws).2.attempt vs).1 = (cs.attempt vs).1 := by
  simp only [attempt]
  cases ha : cs.applyAll ws with
  | error e => rfl
  | ok a =>
    rcases applyAll_after ha hd with ⟨e, h₁, h₂⟩ | ⟨_, _, h₁, h₂, -⟩
    · simp only [h₁, h₂]
    · simp only [h₁, h₂]

theorem attempt_comm (hd : Write.Apart ws vs) :
    ((cs.attempt ws).2.attempt vs).2 = ((cs.attempt vs).2.attempt ws).2 := by
  simp only [attempt]
  cases ha : cs.applyAll ws with
  | error e =>
    cases hb : cs.applyAll vs with
    | error e' => simp only [ha]
    | ok b =>
      rcases applyAll_after hb hd.symm with ⟨e', h₁, h₂⟩ | ⟨_, _, h₁, -⟩
      · simp only [h₂]
      · rw [ha] at h₁
        cases h₁
  | ok a =>
    cases hb : cs.applyAll vs with
    | error e' =>
      rcases applyAll_after ha hd with ⟨e, h₁, h₂⟩ | ⟨_, _, h₁, -⟩
      · simp only [ha, h₂]
      · rw [hb] at h₁
        cases h₁
    | ok b =>
      obtain ⟨r, h₁, h₂⟩ := applyAll_comm ha hb hd
      simp only [h₁, h₂]

end Collections
end Dossier

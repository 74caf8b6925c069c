import Dossier.Proofs.Edit

-- A property of documents that none of the things done by a write breaks is kept when a path is set, whatever
-- setters ask for.

namespace Dossier

open Path

namespace Edit

-- The writes that setters have asked for are of one kind, round after round.
def Rounds (Q : Path → Value → Prop) (opts : SetOptions) : Nat → Desk → Prop
  | 0, _ => True
  | n + 1, s => (∀ a ∈ s.effects.queue, Q a.1 a.2) ∧
      Rounds Q opts n ((setEach opts s.effects.queue).outcome { s with effects.queue := [] }).2

-- What a path is set to before setters are heard.
def begun (p : Path) (v : Value) (opts : SetOptions) (s : Desk) : Desk :=
  ((setPath v p opts).outcome ⟨s.doc.openChanges, { s.effects with queue := [] }⟩).2

theorem rounds_of_forall (h : ∀ p v, Q p v) {n : Nat} : Rounds Q opts n s := by
  induction n generalizing s with
  | zero => trivial
  | succ n ih => exact ⟨fun a _ => h a.1 a.2, ih⟩

theorem Rounds.mono {n : Nat} (h : ∀ p v, Q p v → Q' p v) (hr : Rounds Q opts n s) : Rounds Q' opts n s := by
  induction n generalizing s with
  | zero => trivial
  | succ n ih => exact ⟨fun a ha => h a.1 a.2 (hr.1 a ha), ih hr.2⟩

theorem rounds_of_quiet {n : Nat} (h : s.effects.queue = []) : Rounds Q opts n s := by
  induction n with
  | zero => trivial
  | succ n ih =>
    have hs : ((setEach opts s.effects.queue).outcome { s with effects.queue := [] }).2 = s := by
      rw [h, setEach, outcome_pure, ← h]
    refine ⟨by simp [h], ?_⟩
    rw [hs]
    exact ih

end Edit

-- Opening changes

namespace Document

variable {d : Document}

theorem get?_openChanges : d.openChanges.get? p = d.get? p := by
  rw [openChanges_eq]
  rfl

theorem resolve_openChanges : d.openChanges.resolve p = d.resolve p := by
  rw [openChanges_eq]
  rfl

theorem missingArray?_openChanges : d.openChanges.missingArray? p = d.missingArray? p := by
  rw [openChanges_eq]
  rfl

theorem strictAt_openChanges : d.openChanges.strictAt p opts = d.strictAt p opts := by
  rw [openChanges_eq]
  rfl

theorem isNewAt_openChanges : d.openChanges.isNewAt p = d.isNewAt p := by
  rw [openChanges_eq]
  rfl

theorem castContext_openChanges : Edit.castContext d.openChanges p opts = Edit.castContext d p opts := by
  rw [openChanges_eq]
  rfl

end Document

-- The writes that an assignment starts with: at the root they are those of the keys of the value.
def Path.Opens (P : Path → Prop) : Path → Value → Prop
  | [], .obj fields => ∀ e ∈ fields, P [.key e.1]
  | [], _ => True
  | seg :: segs, _ => P (seg :: segs)

theorem Path.opens_of_ne_nil {p : Path} (hp : p ≠ []) : p.Opens P v ↔ P p := by
  cases p with
  | nil => exact absurd rfl hp
  | cons => rfl

theorem Path.opens_ne_nil (p : Path) (v : Value) : p.Opens (· ≠ []) v := by
  cases p <;> cases v <;> simp [Opens]

-- A property of documents that the things keep which are done to paths of the kind `P`.
structure Document.Heeds (P : Path → Prop) (I : Document → Prop) : Prop where
  opened   : ∀ {d}, I d → I d.openChanges
  reported : ∀ {d issues}, I d → I { d with issues }
  stored   : ∀ {d p f v opts effects}, P p → d.resolve p = .field f → I d →
    I ((Edit.storeField p f (d.get? p) v opts).outcome ⟨d, effects⟩).2.doc
  -- The path is of no field, and nothing is declared below it.
  taken    : ∀ {d p v}, P p → d.resolve p = .inMixed ∨ d.resolve p = .undeclared → I d → I (d.write p v).2
  -- A group of fields loses them.
  emptied  : ∀ {d p v}, P p → d.resolve p = .nested → v = .null ∨ v = .obj [] → I d →
    I ((d.detached p).write p v).2
  -- The path was that of no field before something was written there or below.
  marked   : ∀ {d d' p}, P p → (∀ f, d.resolve p ≠ .field f) → I d → I d' → I (d'.markModified p)
  inner    : ∀ {d p k}, P p → d.resolve p = .nested → I d → P (p ++ [.key k])

namespace Document.Heeds

open Edit

variable {d : Document} {f : Field} {v : Value}

section

variable (h : Heeds P I)

include h

theorem and (h' : Heeds P J) : Heeds P fun d => I d ∧ J d where
  opened hd := ⟨h.opened hd.1, h'.opened hd.2⟩
  reported hd := ⟨h.reported hd.1, h'.reported hd.2⟩
  stored hp hf hd := ⟨h.stored hp hf hd.1, h'.stored hp hf hd.2⟩
  taken hp hr hd := ⟨h.taken hp hr hd.1, h'.taken hp hr hd.2⟩
  emptied hp hr hv hd := ⟨h.emptied hp hr hv hd.1, h'.emptied hp hr hv hd.2⟩
  marked hp hr hd hd' := ⟨h.marked hp hr hd.1 hd'.1, h'.marked hp hr hd.2 hd'.2⟩
  inner hp hr hd := h.inner hp hr hd.1

theorem setField (hp : P p) (hf : s.doc.resolve p = .field f) (hs : I s.doc) :
    I ((Edit.setField p f v opts).outcome s).2.doc := by
  rw [outcome_setField]
  split
  · exact h.reported hs
  · exact hs
  · exact h.stored hp hf hs

theorem course : Course fun p v s s' => p.Opens P v → I s.doc → I s'.doc where
  refl _ hs := hs
  field hf hp hs := h.setField ((opens_of_ne_nil (ne_nil_of_resolve hf)).mp hp) hf hs
  taken hne hr hp hs := h.taken ((opens_of_ne_nil hne).mp hp) hr hs
  emptied hne hr hw hp hs := h.emptied ((opens_of_ne_nil hne).mp hp) hr hw hs
  marked hne hr hd hp hs := h.marked ((opens_of_ne_nil hne).mp hp) hr hs (hd hp hs)
  reported hd hp hs := h.reported (hd hp hs)
  inner {p s s' s'' fields k x} hr hmem hd hin hp hs := by
    refine hin ((opens_of_ne_nil (by simp)).mpr ?_) (hd hp hs)
    rcases hr with rfl | hr
    · exact hp _ hmem
    · cases p with
      | nil => exact hp _ hmem
      | cons => exact h.inner hp hr hs

theorem keeps_setPath (v : Value) (p : Path) (hp : p.Opens P v) (opts : SetOptions) : Keeps I (setPath v p opts) :=
  fun s hs => h.course.setPath v p opts s hp hs

theorem keeps_setKeys (fields : List (String × Value)) (p : Path) (hp : ∀ e ∈ fields, P (p ++ [.key e.1]))
    (opts : SetOptions) : Keeps I (setKeys fields p opts) := by
  induction fields with
  | nil =>
    rw [setKeys]
    exact keeps_pure
  | cons e fields ih =>
    obtain ⟨hk, hp⟩ := List.forall_mem_cons.mp hp
    rw [show e = (e.1, e.2) from rfl, setKeys]
    exact (h.keeps_setPath e.2 _ ((opens_of_ne_nil (by simp)).mpr hk) opts).bind fun _ => ih hp

theorem settle (hr : Rounds (Path.Opens P) opts n s) (hs : I s.doc) : I ((Edit.settle opts n).outcome s).2.doc := by
  induction n generalizing s with
  | zero => exact hs
  | succ n ih =>
    obtain ⟨hq, hr⟩ := hr
    rw [Edit.settle, Edit.outcome_bind, outcome_takeQueue]
    dsimp only
    split
    · exact hs
    · rw [Edit.outcome_bind]
      have hI : I ((setEach opts s.effects.queue).outcome { s with effects.queue := [] }).2.doc :=
        setEach_rec (M := fun s => I s.doc) (fun a s ha hs => h.keeps_setPath a.2 a.1 ha opts s hs) hq hs
      rcases hd : (setEach opts s.effects.queue).outcome { s with effects.queue := [] } with ⟨_ | _, s'⟩
      all_goals rw [hd] at hr hI
      · exact hI
      · exact ih hr hI

theorem set (hp : p.Opens P v) (hr : Rounds (Path.Opens P) opts maxRounds (begun p v opts s)) (hs : I s.doc) :
    I ((Edit.set p v opts).outcome s).2.doc := by
  have hI := h.keeps_setPath v p hp opts ⟨s.doc.openChanges, { s.effects with queue := [] }⟩ (h.opened hs)
  rw [outcome_set]
  rw [begun] at hr
  generalize (setPath v p opts).outcome _ = r at hI hr
  rcases r with ⟨_ | _, s'⟩
  · exact hI
  · exact h.settle hr hI

end

theorem keeps_set (h : Heeds (· ≠ []) I) : Keeps I (Edit.set p v opts) :=
  fun _ hs => h.set (p.opens_ne_nil v) (rounds_of_forall opens_ne_nil) hs

end Document.Heeds

-- Properties that every step keeps

-- A property of documents that every step of a write to them keeps. `P` tells the paths that may be written.
structure Document.Stable (P : Path → Prop) (I : Document → Prop) : Prop where
  opened   : ∀ {d}, I d → I d.openChanges
  written  : ∀ {d p v}, P p → I d → I (d.write p v).2
  detached : ∀ {d p}, P p → I d → I (d.detached p)
  attached : ∀ {d p f}, P p → I d → I (d.attached p f)
  extended : ∀ {d sub p n items}, P p → I d →
    I { d with scopes := d.scopes.attachItems sub p n items (d.scopes.innermost? p) .created }
  noted    : ∀ {d p g}, P p → I d → I (d.noteArrayOp p g)
  marked   : ∀ {d p}, P p → I d → I (d.markModified p)
  reported : ∀ {d issues}, I d → I { d with issues }

namespace Document.Stable

open Edit

variable {d : Document}

section

variable (h : Stable P I)

include h

theorem markValid (hd : I d) : I (d.markValid p) := by
  rw [Document.markValid]
  split
  · exact hd
  · exact h.reported hd

theorem recordCast (hd : I d) : I (d.recordCast p e) :=
  h.reported hd

theorem settled (hp : P p) {modifies : Bool} (hd : I d) : I (d.settled p f modifies) :=
  settled_rec (fun _ => h.attached hp hd) (fun _ => hd) (h.noted hp) (h.marked hp) h.markValid

theorem appended (hp : P p) (hd : I d) : I (d.appended p f n pushed) := by
  rw [Document.appended]
  refine h.marked hp (h.noted hp ?_)
  split
  · exact h.extended hp hd
  · exact hd

theorem keeps_storeField (hp : P p) {prior : Option Value} : Keeps I (storeField p f prior v opts) := fun _ hs =>
  storeField_rec hs (h.markValid hs) (fun _ => h.detached hp hs) (fun _ => hs) (fun hd _ => h.written hp hd)
    fun hd _ => h.settled hp (h.written hp hd)

theorem keeps_setRaw (hp : P p) : Keeps I (setRaw p v opts) := by
  intro s hs
  rw [outcome_setRaw]
  have hw := h.written (v := v) hp hs
  split
  · case _ d hd =>
    rw [hd] at hw
    dsimp only
    split
    · exact h.marked hp hw
    · exact hw
  · case _ d hd =>
    rw [hd] at hw
    exact hw

theorem heeds (hP : ∀ p k, P p → P (p ++ [.key k])) : Heeds P I where
  opened hd := h.opened hd
  reported hd := h.reported hd
  stored hp _ hd := h.keeps_storeField hp _ hd
  taken hp _ hd := h.written hp hd
  emptied hp _ _ hd := h.written hp (h.detached hp hd)
  marked hp _ _ hd := h.marked hp hd
  inner hp _ _ := hP _ _ hp

end

theorem keeps_settle (h : Stable (· ≠ []) I) : Keeps I (settle opts n) :=
  fun _ hs => (h.heeds (by simp)).settle (rounds_of_forall opens_ne_nil) hs

theorem keeps_set (h : Stable (· ≠ []) I) : Keeps I (Edit.set p v opts) :=
  (h.heeds (by simp)).keeps_set

theorem keeps_push (h : Stable (· ≠ []) I) : Keeps I (Edit.push p vs) := by
  intro s hs
  have hwritten {f el items pushed s'} (ha : Appending p vs s f el items pushed s') : p ≠ [] ∧
      I (s.doc.openChanges.write p (.arr (items ++ pushed))).2 := by
    have hp := ne_nil_of_resolve (arrayField?_eq_some_iff.mp ha.field).1
    exact ⟨hp, h.written hp (h.opened hs)⟩
  refine push_rec hs (fun _ => h.reported (h.opened hs)) (fun ha _ => (hwritten ha).2) fun ha _ => ?_
  exact h.keeps_settle _ (h.appended (hwritten ha).1 (hwritten ha).2)

end Document.Stable

-- A property of documents that everything keeps which is done to them between two saves.
structure Document.Lasting (P : Path → Prop) (I : Document → Prop) : Prop extends Stable P I where
  touched  : ∀ {d p}, I d → I (d.markModified p)
  unmarked : ∀ {d p}, I d → I (d.unmarkModified p)
  dropped  : ∀ {d p}, I d → I (d.dropItem p)
  moved    : ∀ {d p i j}, I d → I (d.moveItem p i j)
  stood    : ∀ {d p v}, P p → I d → I { d with populated := d.populated.insert p v }
  vacated  : ∀ {d p}, I d → I { d with populated := d.populated.erase p }

namespace Document.Lasting

open Edit

variable {v : Value}

theorem mono (h : Lasting P I) (hP : ∀ p, P' p → P p) : Lasting P' I where
  opened := h.opened
  written hp := h.written (hP _ hp)
  detached hp := h.detached (hP _ hp)
  attached hp := h.attached (hP _ hp)
  extended hp := h.extended (hP _ hp)
  noted hp := h.noted (hP _ hp)
  marked hp := h.marked (hP _ hp)
  reported := h.reported
  touched := h.touched
  unmarked := h.unmarked
  dropped := h.dropped
  moved := h.moved
  stood hp := h.stood (hP _ hp)
  vacated := h.vacated

theorem and (h : Lasting P I) (h' : Lasting P J) : Lasting P fun d => I d ∧ J d where
  opened hd := ⟨h.opened hd.1, h'.opened hd.2⟩
  written hp hd := ⟨h.written hp hd.1, h'.written hp hd.2⟩
  detached hp hd := ⟨h.detached hp hd.1, h'.detached hp hd.2⟩
  attached hp hd := ⟨h.attached hp hd.1, h'.attached hp hd.2⟩
  extended hp hd := ⟨h.extended hp hd.1, h'.extended hp hd.2⟩
  noted hp hd := ⟨h.noted hp hd.1, h'.noted hp hd.2⟩
  marked hp hd := ⟨h.marked hp hd.1, h'.marked hp hd.2⟩
  reported hd := ⟨h.reported hd.1, h'.reported hd.2⟩
  touched hd := ⟨h.touched hd.1, h'.touched hd.2⟩
  unmarked hd := ⟨h.unmarked hd.1, h'.unmarked hd.2⟩
  dropped hd := ⟨h.dropped hd.1, h'.dropped hd.2⟩
  moved hd := ⟨h.moved hd.1, h'.moved hd.2⟩
  stood hp hd := ⟨h.stood hp hd.1, h'.stood hp hd.2⟩
  vacated hd := ⟨h.vacated hd.1, h'.vacated hd.2⟩

-- Most steps leave all of a document as it is but its marks, its scopes and what is known of its parts.
theorem of_core (hI : ∀ {d d' : Document}, { d' with
        tracker := d.tracker, scopes := d.scopes, arrayOps := d.arrayOps, populated := d.populated, issues := d.issues } = d →
      I d → I d')
    (hopen : ∀ {d}, I d → I d.openChanges) (hwrite : ∀ {d p v}, P p → I d → I (d.write p v).2) : Lasting P I where
  opened := hopen
  written := hwrite
  detached _ := hI rfl
  attached _ := hI rfl
  extended _ := hI rfl
  noted _ := hI rfl
  marked _ := hI rfl
  reported := hI rfl
  touched := hI rfl
  unmarked := hI rfl
  dropped := hI rfl
  moved := hI rfl
  stood _ := hI rfl
  vacated := hI rfl

theorem keeps_markModified (h : Lasting P I) : Keeps I (Edit.markModified p) :=
  (keeps_change fun _ hd => h.opened hd).bind fun _ => keeps_change fun _ hd => h.touched hd

theorem keeps_pull {p : Path} (h : Lasting P I) (hp : p ≠ [] → P p) : Keeps I (Edit.pull p v) := fun _ hs =>
  pull_rec hs (fun hne => h.written (hp hne) (h.opened hs))
    fun hne hd => h.touched (h.noted (hp hne) (h.reported
      (reindex_rec (fun _ _ hd => h.dropped hd) (fun _ _ _ hd => h.moved hd) hd)))

theorem keeps_populate {p : Path} (h : Lasting P I) (hp : p ≠ [] → P p) : Keeps I (Edit.populate p v) := fun _ hs =>
  populate_rec hs (fun hne hd => h.written (hp hne) hd) fun hne hd => h.stood (hp hne) hd

theorem keeps_depopulate (h : Lasting P I) (hp : ∀ d, I d → (d.populated.get? p).isSome → P p) :
    Keeps I (Edit.depopulate p) := fun _ hs =>
  depopulate_rec hs (fun hd => h.vacated hd) fun hs' hd => h.written (hp _ hs hs') hd

end Document.Lasting

-- Writes that succeed

namespace Edit

-- Writes to paths of the kind `P` keep a property of documents if they succeed.
def Carries (P : Path → Prop) (opts : SetOptions) (I : Document → Prop) : Prop :=
  ∀ p v s s', P p → p ≠ [] → I s.doc → (setPath v p opts).outcome s = (.ok (), s') → I s'.doc

namespace Carries

variable {v : Value}

theorem setKeys (h : Carries P opts I) (hp : ∀ e ∈ fields, P (p ++ [.key e.1])) (hs : I s.doc)
    (hok : (Edit.setKeys fields p opts).outcome s = (.ok (), s')) : I s'.doc := by
  induction fields generalizing s with
  | nil =>
    rw [Edit.setKeys, outcome_pure] at hok
    cases hok
    exact hs
  | cons e fields ih =>
    obtain ⟨hk, hp⟩ := List.forall_mem_cons.mp hp
    rw [show e = (e.1, e.2) from rfl, Edit.setKeys] at hok
    obtain ⟨_, s₁, hpath, hok⟩ := ok_of_bind_ok hok
    exact ih hp (h _ _ _ _ hk (by simp) hs hpath) hok

theorem setPath (h : Carries P opts I) (hp : p.Opens P v) (hs : I s.doc)
    (hok : (Edit.setPath v p opts).outcome s = (.ok (), s')) : I s'.doc := by
  cases p with
  | cons => exact h _ _ _ _ hp (by simp) hs hok
  | nil =>
    cases v with
    | obj fields =>
      rw [Edit.setPath] at hok
      exact h.setKeys (p := []) hp hs hok
    | null | bool | num | str | arr =>
      simp only [Edit.setPath] at hok
      cases hok

theorem setEach (h : Carries P opts I) (hq : ∀ a ∈ queue, a.1.Opens P a.2) (hs : I s.doc)
    (hok : (Edit.setEach opts queue).outcome s = (.ok (), s')) : I s'.doc := by
  induction queue generalizing s with
  | nil =>
    rw [Edit.setEach, outcome_pure] at hok
    cases hok
    exact hs
  | cons a queue ih =>
    obtain ⟨ha, hq⟩ := List.forall_mem_cons.mp hq
    rw [show a = (a.1, a.2) from rfl, Edit.setEach] at hok
    obtain ⟨_, s₁, hpath, hok⟩ := ok_of_bind_ok hok
    exact ih hq (h.setPath ha hs hpath) hok

theorem settle (h : Carries P opts I) (hr : Rounds (Path.Opens P) opts n s) (hs : I s.doc)
    (hok : (Edit.settle opts n).outcome s = (.ok (), s')) : I s'.doc := by
  induction n generalizing s with
  | zero =>
    rw [Edit.settle, outcome_clearQueue] at hok
    cases hok
    exact hs
  | succ n ih =>
    obtain ⟨hq, hr⟩ := hr
    rw [Edit.settle, Edit.outcome_bind, outcome_takeQueue] at hok
    dsimp only at hok
    split at hok
    · cases hok
      exact hs
    · obtain ⟨_, s₁, heach, hok⟩ := ok_of_bind_ok hok
      rw [heach] at hr
      have hI : I s₁.doc := h.setEach hq (s := { s with effects.queue := [] }) hs heach
      exact ih hr hI hok

end Carries
end Edit
end Dossier

import Dossier.Proofs.History
import Dossier.Proofs.Setters
import Dossier.Proofs.Undo
import Dossier.Schema.Callbacks

-- Rolling back gives back everything that was kept of a document when its changes were opened.

namespace Dossier

open Path

-- What is done to a document between two saves.
inductive Act where
  | call (c : Call)
  | invalidate (path : Path) (e : FieldError)
  | markValid (path : Path)
  | validateSync (hooks : Hooks) (opts : ValidateOptions)

namespace Act

def edit : Act → Edit Unit
  | call c => c.edit
  | invalidate path e => Edit.change fun d => (d.invalidate path e).2
  | markValid path => Edit.change (·.markValid path)
  | validateSync hooks opts => Edit.validated (·.validateSync hooks opts)

def run (a : Act) (s : Desk) : Desk :=
  (a.edit.outcome s).2

def runAll (acts : List Act) (s : Desk) : Desk :=
  acts.foldl (fun s a => a.run s) s

-- Opens changes, whatever comes of it.
def Begins : Act → Prop
  | call (.set ..) | call (.mark _) => True
  | _ => False

-- Does not close the changes that are open. Single reports are acts of their own.
def Pends : Act → Prop
  | call .commit | call .rollback | call (.report ..) => False
  | _ => True

def path? : Act → Option Path
  | call c => c.path?
  | _ => none

theorem Begins.pends {a : Act} (h : a.Begins) : a.Pends := by
  unfold Begins at h
  split at h
  · trivial
  · trivial
  · exact h.elim

end Act

namespace Path

-- The path does not begin with an index.
def Keyed : Path → Prop
  | .index _ :: _ => False
  | _ => True

theorem Keyed.of_append {p q : Path} (h : (p ++ q).Keyed) : p.Keyed := by
  cases p with
  | nil => trivial
  | cons seg p =>
    cases seg with
    | key k => trivial
    | index i => exact h

theorem Keyed.append {p q : Path} (hp : p.Keyed) (hq : q.Keyed) : (p ++ q).Keyed := by
  cases p with
  | nil => exact hq
  | cons seg p =>
    cases seg with
    | key k => trivial
    | index i => exact hp

theorem Begins.append {T : Seg → Prop} {p : Path} (h : p.Begins T) (r : Path) : Path.Begins T (p ++ r) := by
  obtain ⟨seg, rest, rfl, hseg⟩ := h
  exact ⟨seg, rest ++ r, rfl, hseg⟩

theorem begins_of_ne_nil {p : Path} (h : p ≠ []) : p.Begins fun _ => True := by
  cases p with
  | nil => exact absurd rfl h
  | cons seg rest => exact ⟨seg, rest, rfl, trivial⟩

theorem begins_of_keyed {p : Path} (h : p.Keyed) (hne : p ≠ []) : p.Begins (·.index? = none) := by
  cases p with
  | nil => exact absurd rfl hne
  | cons seg rest =>
    cases seg with
    | key k => exact ⟨.key k, rest, rfl, rfl⟩
    | index i => exact h.elim

theorem keyed_of_begins {p : Path} (h : p.Begins (·.index? = none)) : p.Keyed := by
  obtain ⟨seg, rest, rfl, hseg⟩ := h
  cases seg with
  | key k => trivial
  | index i => cases hseg

end Path

namespace Document

open Edit

variable {d start : Document} {p : Path} {T : Seg → Prop}

-- Values are kept only while changes are open

-- Nothing is kept of the value while no changes are open.
def Unkept (d : Document) : Prop :=
  d.backup = none → d.snapshot = ∅

theorem lasting_unkept : Lasting (· ≠ []) Unkept := by
  refine .of_core (fun he h hb => (congrArg snapshot he).trans (h ((congrArg backup he).symm.trans hb)))
    (fun h hb => ?_) fun _ h hb => ?_
  · rw [openChanges] at hb ⊢
    split at hb
    · exact h hb
    · cases hb
  · rw [write_eq] at hb ⊢
    dsimp only at hb ⊢
    rw [keepTop, if_neg (by simp [hb])]
    exact h hb

theorem Unkept.rollback (h : d.Unkept) : d.rollback.Unkept := by
  rw [Document.rollback]
  split
  · exact h
  · exact fun _ => rfl

theorem Unkept.seedRequired (h : d.Unkept) : d.seedRequired.Unkept :=
  seedRequired_rec h fun _ hd => hd

theorem Reached.lasts {I : Document → Prop} (hI : Lasting (· ≠ []) I)
    (hfilled : ∀ d p f v, p ≠ [] → I d → I (Document.filled { d with value := (d.value.set p v).2 } p f))
    (hseed : ∀ d, I d → I d.seedRequired) (hreport : ∀ d issues validating, I d → I { d with issues, validating })
    (hclear : ∀ d : Document, d.snapshot = ∅ → I d) (hrollback : ∀ d, I d → I d.rollback) (h : d.Reached) : I d := by
  induction h with
  | created h => exact create_of_keeps hI.toStable hfilled hseed (hclear _ rfl) h
  | loaded h => exact hclear _ (load_loaded h).snapshot
  | called c effects h ih =>
    exact (keeps_call_of_sound hI hreport (fun _ _ => hclear _ rfl) hrollback c ⟨_, effects⟩ ⟨h.sound, ih⟩).2

theorem Reached.unkept (h : d.Reached) : d.Unkept :=
  h.lasts lasting_unkept (fun _ _ _ _ _ hd => hd) (fun _ hd => hd.seedRequired) (fun _ _ _ hd => hd)
    (fun _ hs _ => hs) fun _ hd => hd.rollback

-- Runs

-- Changes are open since a document was `start`, and the document stays sound.
def Undoable (T : Seg → Prop) (start d : Document) : Prop :=
  d.Sound ∧ OpenSince T start d

namespace Undoable

theorem lasting : Lasting (Path.Begins T) (Undoable T start) := by
  refine Lasting.and (lasting_sound.mono ?_) OpenSince.lasting
  rintro _ ⟨seg, rest, rfl, -⟩
  simp

theorem opened (hs : start.Sound) (hk : start.Unkept) (hb : start.backup = none) (hv : start.value = .obj gs)
    (hg : Entries.Sorted gs) : Undoable T start start.openChanges :=
  ⟨hs.openChanges, .opened hb (hk hb) hv hg⟩

theorem run (hg : Guided (Path.Begins T) A Q (Undoable T start)) {a : Act} (ha : a.Pends)
    (hp : ∀ p, a.path? = some p → Q p) (h : Undoable T start s.doc) : Undoable T start (a.run s).doc := by
  have hw : ∀ {p}, a.path? = some p → (p ≠ [] → p.Begins T) ∧ ∀ k, Path.Begins T (p ++ [.key k]) :=
    fun hap => hg.asked _ (hp _ hap)
  cases a with
  | call c =>
    cases c with
    | set => exact hg.keeps_set (hw rfl).1 (hw rfl).2 s h
    | push => exact hg.keeps_push (hw rfl).1 s h
    | pull => exact lasting.keeps_pull (hw rfl).1 s h
    | mark => exact lasting.keeps_markModified s h
    | unmark => exact lasting.unmarked h
    | populate => exact lasting.keeps_populate (hw rfl).1 s h
    | depopulate =>
      exact lasting.keeps_depopulate (fun d hd hsome => (hw rfl).1 (hd.1.populated _ hsome)) s h
    | report | commit | rollback => exact ha.elim
  | invalidate => exact lasting.reported h
  | markValid => exact lasting.toStable.markValid h
  | validateSync hooks opts =>
    have hdoc : ((Act.validateSync hooks opts).run s).doc = (s.doc.validateSync hooks opts).doc :=
      doc_validated
    rw [hdoc, validateSync]
    obtain ⟨issues, hi⟩ := exists_issues
    rw [hi]
    exact lasting.reported h

theorem runAll (hg : Guided (Path.Begins T) A Q (Undoable T start)) {s : Desk} (ha : ∀ a ∈ acts, a.Pends)
    (hp : ∀ a ∈ acts, ∀ p, a.path? = some p → Q p) (h : Undoable T start s.doc) :
    Undoable T start (Act.runAll acts s).doc :=
  List.foldlRecOn (motive := fun s : Desk => Undoable T start s.doc) _ _ h fun _ h a hm =>
    run hg (ha a hm) (hp a hm) h

end Undoable

theorem run_openChanges {a : Act} (h : a.Begins) : a.run ⟨d.openChanges, effects⟩ = a.run ⟨d, effects⟩ := by
  have hopen : d.openChanges.openChanges = d.openChanges := by
    cases hb : d.backup <;> simp [openChanges, hb]
  unfold Act.Begins at h
  split at h
  · simp only [Act.run, Act.edit, Call.edit, Edit.set, outcome_bind, outcome_change, hopen]
  · simp only [Act.run, Act.edit, Call.edit, Edit.markModified, outcome_bind, outcome_change, hopen]
  · exact h.elim

-- The paths that are written

theorem rootAt_covers (h : d.Sound) : (d.rootAt p).covers p := by
  rw [rootAt, Scopes.owner?]
  cases hk : d.scopes.innermost? p with
  | none => rfl
  | some k =>
    obtain ⟨a, ha, hkey⟩ := List.exists_of_findSome?_eq_some hk
    obtain ⟨scope, hscope, rfl⟩ := h.scopes.rooted a k hkey
    rw [Option.bind_some, hscope]
    exact covers_of_isAbove (mem_ancestors_iff.mp (List.mem_reverse.mp ha)).2

theorem guided_any : Guided (Path.Begins fun _ => True) (fun _ => True) (fun _ => True)
    (Undoable (fun _ => True) start) where
  stable := Undoable.lasting.toStable
  key p k hp := hp.append [.key k]
  schema _ _ part _ := by
    cases part with
    | rules r => exact fun _ _ _ _ _ _ => trivial
    | variants | paths => trivial
  leads _ _ _ _ _ := ⟨fun _ _ => trivial, fun _ _ _ => trivial⟩
  asked p _ := ⟨begins_of_ne_nil, fun k => begins_of_ne_nil (by simp)⟩

theorem guided_keyed (hs : start.schema.Meets (.siblings Path.Keyed)) :
    Guided (Path.Begins (·.index? = none)) Path.Keyed Path.Keyed (Undoable (·.index? = none) start) where
  stable := Undoable.lasting.toStable
  key p k hp := hp.append [.key k]
  schema d hd := hd.2.schema ▸ hs
  leads d p opts hd hp := by
    obtain ⟨r, hr⟩ := covers_iff.mp (rootAt_covers (p := p) hd.1)
    have hroot : (d.rootAt p).Keyed := Path.Keyed.of_append (hr ▸ keyed_of_begins hp)
    exact ⟨fun q hq => hroot.append hq, fun r q _ => keyed_of_begins ((hp.append r).append q)⟩
  asked p hp := ⟨begins_of_keyed hp, fun k => begins_of_keyed (hp.append trivial) (by simp)⟩

-- Rolling back

theorem rollback_of_backup_none (h : d.backup = none) : d.rollback = d := by
  rw [rollback, h]

-- Whatever is done between opening changes and rolling back, everything but the value is what it was. The
-- value is what it was exactly if each index that was written at the top has kept what the document had
-- there; that is so when no path that is given, and no sibling that a setter names, begins with an index.
-- Rolling back once more changes nothing.
theorem rollback_exact_iff (hstart : start.Reached) (hv : start.value.Canonical)
    (hb : start.backup = none) (first : Act) (acts : List Act) (hfirst : first.Begins)
    (hacts : ∀ a ∈ acts, a.Pends) (effects : Effects) :
    let d := (Act.runAll (first :: acts) ⟨start, effects⟩).doc
    d.rollback = { start with value := d.rollback.value } ∧
    (d.rollback = start ↔ ∀ i o, d.snapshot.get? [.index i] = some o → o = start.get? [.index i]) ∧
    (start.schema.Meets (.siblings Path.Keyed) →
      (∀ a ∈ first :: acts, ∀ p, a.path? = some p → p.Keyed) → d.rollback = start) ∧
    d.rollback.rollback = d.rollback := by
  have hk := hstart.unkept
  obtain ⟨gs, hgs⟩ := hstart.sound.object
  have hg : Entries.Sorted gs := (hv.openFields (by rw [hgs]; rfl)).1
  have hpends : ∀ a ∈ first :: acts, a.Pends := List.forall_mem_cons.mpr ⟨hfirst.pends, hacts⟩
  -- The first act may as well find the changes open.
  have hrun : Act.runAll (first :: acts) ⟨start, effects⟩ =
      Act.runAll (first :: acts) ⟨start.openChanges, effects⟩ := by
    simp only [Act.runAll, List.foldl_cons, run_openChanges hfirst]
  rw [hrun]
  have hopened : ∀ {T}, Undoable T start start.openChanges := .opened hstart.sound hk hb hgs hg
  have hany := (Undoable.runAll (s := ⟨start.openChanges, effects⟩) guided_any hpends (by simp) hopened).2
  have hexact := hany.rollback_eq_with hb (hk hb)
  refine ⟨hexact, hany.rollback_eq_iff hb (hk hb), fun hs hp => ?_, ?_⟩
  · have hkeyed := (Undoable.runAll (s := ⟨start.openChanges, effects⟩) (guided_keyed hs) hpends hp
      hopened).2
    refine hkeyed.rollback_eq hb (hk hb) fun {a b} ha hb hab => ?_
    cases a with
    | index i => cases ha
    | key k =>
      cases b with
      | index i => cases hb
      | key l => exact congrArg Seg.key hab
  · refine rollback_of_backup_none ?_
    rw [hexact]
    exact hb

-- A text whose setter also writes elsewhere, beside fields that are not declared.
def echoing (sibling : Path) : Schema :=
  ⟨{ id := false, strict := .keep },
    [([.key "x"], ⟨.string, { setters := [.sibling sibling (some (.int 2))] }⟩)], []⟩

def echoed : Value :=
  .obj [("5", .int 0), ("x", .str "a")]

theorem echoing_meets (h : sibling.Keyed) : (echoing sibling).Meets (.siblings Path.Keyed) := by
  simp [Schema.Meets, echoing, Schema.parts, Schema.partsOfFields, Field.parts, FieldType.parts,
    SchemaLaw.siblings, Setter.sibling, h]

theorem rollback_exact_iff_keys : ∃ start, (load (echoing [.key "5"]) echoed none).1 = .ok start ∧
    let d := (Act.runAll [.call (.set [.key "5"] (.int 1) {}), .call (.set [.key "x"] (.str "b") {})]
      ⟨start, {}⟩).doc
    d.value = .obj [("5", .int 2), ("x", .str "b")] ∧ d.rollback = start := by
  have hload : (load (echoing [.key "5"]) echoed none).1 = .ok _ := rfl
  refine ⟨_, hload, by decide +kernel, ?_⟩
  exact (rollback_exact_iff (.loaded hload) (by decide +kernel : echoed.Exact).canonical rfl
    (.call (.set [.key "5"] (.int 1) {})) [.call (.set [.key "x"] (.str "b") {})] trivial
    (by simp [Act.Pends]) {}).2.2.1 (echoing_meets trivial) (by simp [Act.path?, Call.path?, Path.Keyed])

-- The setter writes the index 5, and what the key `5` had become before is put back last.
theorem rollback_keeps_index : ∃ start, (load (echoing [.index 5]) echoed none).1 = .ok start ∧
    start.backup = none ∧
    let acts := [.call (.set [.key "5"] (.int 1) {}), .call (.set [.key "x"] (.str "b") {})]
    (∀ a ∈ acts, ∀ p, a.path? = some p → p.Keyed) ∧ start.value = echoed ∧
    (Act.runAll acts ⟨start, {}⟩).doc.rollback.value = .obj [("5", .int 1), ("x", .str "a")] := by
  refine ⟨_, rfl, rfl, ?_, rfl, ?_⟩
  · simp [Act.path?, Call.path?, Path.Keyed]
  · decide +kernel

end Document
end Dossier

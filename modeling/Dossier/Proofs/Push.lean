import Dossier.Proofs.Loading
import Dossier.Proofs.Replay

-- Appends to an array of a loaded document are stored as such, as long as nothing else was written around it or
-- inside it.

namespace Dossier

open Path List

-- Writes one after the other

namespace Value

variable {v x : Value} {p q : Path}

theorem setFrom_ok_of_grows (h : v.Grows w) (hok : (setFrom full x p w).1 = .ok ()) :
    (setFrom full x p v).1 = .ok () := by
  induction p generalizing v w with
  | nil => rfl
  | cons seg p ih =>
    have ht := takes_of_ok hok
    rw [setFrom_cons ht] at hok
    rw [setFrom_cons (h.kin.takes ▸ ht)]
    cases hc : v.child? seg with
    | none => exact setFrom_scalar_ok rfl
    | some c =>
      obtain ⟨c', hc', hgrows⟩ := h.child hc
      rw [hc'] at hok
      exact ih hgrows hok

theorem setFrom_ok_setFrom (h : (setFrom full x p v).1 = .ok ()) (hd : q.Distinct p) :
    (setFrom full x p (setFrom full' y q v).2).1 = .ok () := by
  induction p generalizing q v with
  | nil => rfl
  | cons a p ih =>
    cases q with
    | nil => exact absurd nil_prefix hd.1
    | cons b q =>
      cases hb : v.takes b with
      | false =>
        obtain ⟨e, he⟩ := setFrom_refused full' y q hb
        rwa [he]
      | true =>
        have ha := takes_of_ok h
        rw [setFrom_cons ha] at h
        rw [setFrom_cons hb, setFrom_cons (takes_putChild ha)]
        rcases child?_putChild hb a with hsame | ⟨hk, hnew, hold⟩
        · rwa [hsame]
        · rw [hnew, Option.getD_some]
          rw [hold] at h
          exact ih h (by simpa [Path.Distinct, hk] using hd)

theorem setFrom_ok_of_covers (h : (setFrom full x (p ++ q) v).1 = .ok ()) : (setFrom full' y p v).1 = .ok () := by
  induction p generalizing v with
  | nil => rfl
  | cons seg p ih =>
    rw [cons_append] at h
    have ht := takes_of_ok h
    rw [setFrom_cons ht] at h ⊢
    exact ih h

theorem Grows.exists_items {xs : List Value} (h : v.Grows w) (hxs : items? (w.get? p) = some xs) :
    ∃ ys, items? (v.get? p) = some ys := by
  cases hv : v.get? p with
  | none => exact ⟨[], rfl⟩
  | some x =>
    obtain ⟨y, hy, hkin⟩ := h p x hv
    rw [hy] at hxs
    cases hkin with
    | same => exact ⟨xs, hxs⟩
    | obj => cases hxs
    | arr => exact ⟨_, rfl⟩

end Value

open Value

-- Changes at distinct paths, each of which can be made alone, can be made one after the other.
theorem Changeset.exists_applyAll {cs : List Change} (target : Path → Value)
    (ha : cs.Pairwise fun a b => a.path.Distinct b.path)
    (hcs : ∀ c ∈ cs, c.Turns (r.get? c.path) (some (target c.path)) ∧ (r.set c.path (target c.path)).1 = .ok ()) :
    ∃ r', applyAll cs r = .ok r' ∧ (∀ q, (∀ c ∈ cs, c.path.Distinct q) → r'.get? q = r.get? q) ∧
      ∀ c ∈ cs, r'.get? c.path = some (target c.path) := by
  induction cs generalizing r with
  | nil => exact ⟨r, rfl, fun _ _ => rfl, by simp⟩
  | cons c cs ih =>
    obtain ⟨hdistinct, ha⟩ := pairwise_cons.mp ha
    obtain ⟨⟨ht, hok⟩, hcs⟩ := forall_mem_cons.mp hcs
    have hget : ∀ b ∈ cs, (r.set c.path (target c.path)).2.get? b.path = r.get? b.path :=
      fun b hb => get?_set_distinct (hdistinct b hb)
    obtain ⟨r', hr', helse, htarget⟩ := ih (r := (r.set c.path (target c.path)).2) ha fun b hb => by
      rw [hget b hb]
      exact ⟨(hcs b hb).1, setFrom_ok_setFrom (hcs b hb).2 (hdistinct b hb)⟩
    refine ⟨r', ?_, fun q hq => ?_, forall_mem_cons.mpr ⟨?_, htarget⟩⟩
    · rw [applyAll, Change.apply_eq_set ht (Prod.ext hok rfl)]
      exact hr'
    · obtain ⟨hc, hq⟩ := forall_mem_cons.mp hq
      rw [helse q hq, get?_set_distinct hc]
    · rw [helse c.path fun b hb => (hdistinct b hb).symm]
      exact get?_setFrom_self hok

-- New embedded documents in a loaded document

namespace Document

open Edit

variable {start d : Document} {p q : Path} {f : Field} {v : Value} {xs vs : List Value}

-- A default was filled in at or above a path.
def InDefault (d : Document) (r : Path) : Prop :=
  ∃ q, d.stateOf? q = some .default ∧ q.covers r

structure Bred (d : Document) : Prop where
  tidy   : d.scopes.Tidy
  scopes : d.scopes.All fun scope => scope.isNew → d.InDefault scope.root

theorem InDefault.transition {r : Path} (h : d.InDefault r) :
    InDefault { d with tracker := d.tracker.transition p .default } r := by
  obtain ⟨q, hq, hc⟩ := h
  refine ⟨q, ?_, hc⟩
  rw [stateOf?, Tracker.stateOf?_transition]
  split
  · rfl
  · exact hq

theorem bred_fill {s : Scopes} (ht : s.Tidy) (hs : s.All fun scope => scope.isNew → d.InDefault scope.root)
    {x : Option Value} : Bred { d with
      tracker := d.tracker.transition p .default
      scopes := s.attachField f p x parent .created } := by
  let d' : Document := { d with tracker := d.tracker.transition p .default }
  have hself : d'.stateOf? p = some .default := by simp [d', stateOf?, Tracker.stateOf?_transition]
  have hs' : s.All fun scope => scope.isNew → d'.InDefault scope.root :=
    fun k scope hk hnew => (hs k scope hk hnew).transition
  obtain ⟨htidy, hscopes⟩ := Scopes.all_attachField (f := f) ht hs' fun _ _ hc _ => ⟨p, hself, hc⟩
  exact ⟨htidy, hscopes⟩

theorem Bred.filledIn {key : ScopeKey} (h : d.Bred) : (d.filledIn key rel p f).Bred :=
  bred_fill h.tidy.modify (h.scopes.modify fun _ _ hs => hs)

theorem Bred.seedRequired (h : d.Bred) : d.seedRequired.Bred := by
  refine seedRequired_rec h fun {d r} hnone h => ⟨h.tidy, fun k scope hk hnew => ?_⟩
  obtain ⟨q, hq, hc⟩ := h.scopes k scope hk hnew
  refine ⟨q, ?_, hc⟩
  rw [stateOf?, Tracker.stateOf?_transition]
  split
  · case isTrue he => simp [← he, hnone] at hq
  · exact hq

theorem bred_of_load {schema : Schema} {projection : Option Projection}
    (h : (load schema record projection effects).1 = .ok d) : d.Bred := by
  refine load_of_keeps h (keeps_loadEdit (J := fun _ => Bred) (fun _ _ hd => ⟨hd.tidy, hd.scopes⟩)
    (fun d p f v _ _ _ hd => bred_fill (d := { d with value := (d.value.set p v).2 }) hd.tidy hd.scopes) (fun _ hd => hd)
    (fun _ _ _ hd => ⟨hd.tidy, hd.scopes⟩) (fun _ _ _ _ _ _ _ _ _ _ hd => Bred.filledIn ⟨hd.tidy, hd.scopes⟩)
    (fun _ _ hd => hd) fun _ hd => hd.seedRequired) fun _ _ => ?_
  obtain ⟨hsound, hold⟩ := attachLoaded_scopes (d := trackLoaded { schema, value := record, isNew := false, projection })
    Scopes.sound_empty (by rintro _ _ ⟨⟩)
  exact ⟨hsound.tidy, fun k scope hk hnew => absurd hnew (hold k scope hk)⟩

end Document

-- Appending values

namespace Document

open Edit

variable {start d : Document} {p q : Path} {f : Field} {v : Value} {xs vs : List Value}

-- Values were appended to the array at a path, and nothing else was done to a loaded document.
structure Pushing (start : Document) (p : Path) (vs : List Value) (d : Document) : Prop where
  schema    : d.schema = start.schema
  isNew     : d.isNew = false
  populated : d.populated = ∅
  tracker   : d.tracker.Consistent
  linked    : d.scopes.Sound true
  scopes    : d.scopes.All fun scope => scope.isNew → start.InDefault scope.root ∨ p.covers scope.root
  still     : vs = [] → d.value = start.value
  written   : vs ≠ [] → ∃ xs, items? (start.get? p) = some xs ∧ start.value.set p (.arr (xs ++ vs)) = (.ok (), d.value)
  ops       : ∀ q, d.arrayOps.get? q = if q = p ∧ vs ≠ [] then some { pushed := vs } else none
  states    : ∀ q, d.stateOf? q = start.stateOf? q ∨ d.stateOf? q = some .modify
  modified  : ∀ q, d.stateOf? q = some .modify → vs ≠ [] ∧ (q = p ∨ q.isAbove p ∧ start.InDefault q)
  marked    : vs ≠ [] → ∃ m : Path, m.covers p ∧ d.stateOf? m = some .modify

theorem Loaded.pushing {schema : Schema} (h : start.Loaded schema) (hb : start.Bred) : Pushing start p [] start where
  schema := rfl
  isNew := h.isNew
  populated := h.populated
  tracker := h.sound.tracker
  linked := h.linked
  scopes k scope hk hnew := .inl (hb.scopes k scope hk hnew)
  still _ := rfl
  written hne := absurd rfl hne
  ops q := by simp [h.arrayOps]
  states q := .inl rfl
  modified q hq := absurd hq (h.unmodified q)
  marked hne := absurd rfl hne

namespace Pushing

section

variable (h : Pushing start p vs d)

include h

theorem opened {issues : Option Issues} : Pushing start p vs { d.openChanges with issues } := by
  rw [openChanges_eq]
  exact { h with }

theorem items (hi : items? (d.get? p) = some xs) : ∃ ys, items? (start.get? p) = some ys ∧ xs = ys ++ vs := by
  by_cases hvs : vs = []
  · rw [Document.get?, h.still hvs] at hi
    exact ⟨xs, hi, by rw [hvs, append_nil]⟩
  · obtain ⟨ys, hys, hset⟩ := h.written hvs
    refine ⟨ys, hys, ?_⟩
    have hget : (start.value.set p (.arr (ys ++ vs))).2.get? p = _ := get?_setFrom_self (congrArg Prod.fst hset)
    rw [hset] at hget
    rw [Document.get?, hget] at hi
    exact (Option.some.inj hi).symm

-- The array with the values behind its items is a write of it in the document that was loaded.
theorem set_items (hi : items? (d.get? p) = some xs) (hok : (d.value.set p (.arr (xs ++ ws))).1 = .ok ()) :
    ∃ ys, items? (start.get? p) = some ys ∧
      start.value.set p (.arr (ys ++ (vs ++ ws))) = (.ok (), (d.value.set p (.arr (xs ++ ws))).2) := by
  obtain ⟨ys, hys, rfl⟩ := h.items hi
  refine ⟨ys, hys, ?_⟩
  rw [← append_assoc]
  by_cases hvs : vs = []
  · rw [h.still hvs] at hok ⊢
    exact Prod.ext hok rfl
  · obtain ⟨ys', hys', hset⟩ := h.written hvs
    obtain rfl : ys = ys' := Option.some.inj (hys.symm.trans hys')
    have hagain : d.value.set p (.arr (ys ++ vs ++ ws)) = start.value.set p (.arr (ys ++ vs ++ ws)) := by
      rw [show d.value = (setFrom p (.arr (ys ++ vs)) p start.value).2 from (congrArg Prod.snd hset).symm]
      exact setFrom_setFrom (congrArg Prod.fst hset)
    rw [hagain] at hok ⊢
    exact Prod.ext hok rfl

theorem extended {items : List Value} :
    let scopes := d.scopes.attachItems sub p n items (d.scopes.innermost? p) .created
    scopes.Sound true ∧ scopes.All fun scope => scope.isNew → start.InDefault scope.root ∨ p.covers scope.root :=
  ⟨h.linked.attachItems h.linked.innermost, Scopes.all_attachItems h.linked.tidy h.scopes fun _ _ hc _ => .inr hc⟩

-- The mark of the array goes to it, or to a new document around it that came with a default.
theorem noted (hws : ws ≠ []) {value : Value} {scopes : Scopes}
    (hvalue : ∃ ys, items? (start.get? p) = some ys ∧ start.value.set p (.arr (ys ++ (vs ++ ws))) = (.ok (), value))
    (hlinked : scopes.Sound true)
    (hscopes : scopes.All fun scope => scope.isNew → start.InDefault scope.root ∨ p.covers scope.root) :
    Pushing start p (vs ++ ws) ((noteArrayOp { d with value, scopes } p fun ops =>
      { ops with pushed := ops.pushed ++ ws }).markModified p) := by
  have hne : vs ++ ws ≠ [] := by simp [hws]
  generalize hd : noteArrayOp { d with value, scopes } p (fun ops => { ops with pushed := ops.pushed ++ ws }) = d'
  obtain ⟨m, hm, ht, hwhere⟩ := exists_mark (d := d') (by rw [← hd]; exact hlinked) p
  have hstate : ∀ q, (d'.markModified p).stateOf? q = if m = q then some .modify else d.stateOf? q := by
    intro q
    rw [stateOf?, ht, Tracker.stateOf?_transition, ← hd]
    rfl
  refine ⟨?_, ?_, ?_, ?_, markModified_scopes (by rw [← hd]; exact hlinked),
    markModified_all (by rw [← hd]; exact hscopes) fun _ _ hs => hs, fun he => absurd he hne, fun _ => ?_,
    fun q => ?_, fun q => ?_, fun q hq => ⟨hne, ?_⟩, fun _ => ⟨m, hm, by rw [hstate, if_pos rfl]⟩⟩
  · rw [markModified_eq, ← hd]
    exact h.schema
  · rw [markModified_eq, ← hd]
    exact h.isNew
  · rw [markModified_eq, ← hd]
    exact h.populated
  · rw [ht, ← hd]
    exact h.tracker.transition
  · rw [markModified_eq, ← hd]
    exact hvalue
  · rw [markModified_eq, ← hd]
    simp only [noteArrayOp, OrdMap.get?_insert, h.ops]
    by_cases hq : p = q
    · subst hq
      by_cases hvs : vs = [] <;> simp [hvs, hws]
    · simp [hq, Ne.symm hq]
  · rw [hstate]
    split
    · exact .inr rfl
    · exact h.states q
  · rw [hstate] at hq
    split at hq
    · case isTrue he =>
      subst he
      rcases eq_or_isAbove_of_covers hm with rfl | habove
      · exact .inl rfl
      · refine .inr ⟨habove, ?_⟩
        obtain rfl | ⟨k, scope, hk, hnew, rfl⟩ := hwhere
        · exact absurd habove isAbove_irrefl
        · rw [← hd] at hk
          exact (hscopes k scope hk hnew).resolve_right (not_covers_of_isAbove habove)
    · exact (h.modified q hq).2

theorem appended (hi : items? (d.get? p) = some xs) (hws : ws ≠ []) (hok : (d.write p (.arr (xs ++ ws))).1 = .ok ()) :
    Pushing start p (vs ++ ws) ((d.write p (.arr (xs ++ ws))).2.appended p f xs.length ws) := by
  rw [write_eq] at hok ⊢
  dsimp only at hok ⊢
  have hvalue := h.set_items hi hok
  have hkept : Pushing start p vs { d with snapshot := (d.keepTop p).snapshot } := { h with }
  rw [Document.appended]
  dsimp only
  split
  · exact hkept.noted hws hvalue h.extended.1 h.extended.2
  · exact hkept.noted hws hvalue h.linked h.scopes

end

theorem push (h : Pushing start p vs s.doc) (hsetters : ∀ v f el, start.schema.resolve v p = .field f →
    f.element? = some el → el.Meets .noSetters) (values : List Value) :
    ∃ ws, Pushing start p (vs ++ ws) ((Call.push p values).run s).doc := by
  have hnone : ∀ {d'}, Pushing start p vs d' → ∃ ws, Pushing start p (vs ++ ws) d' :=
    fun hd => ⟨[], by rwa [append_nil]⟩
  have hopened : Pushing start p vs s.doc.openChanges := h.opened
  refine push_rec (I := fun d => ∃ ws, Pushing start p (vs ++ ws) d) (hnone h) (fun _ => hnone h.opened)
    (fun _ hw => hnone ?_) fun {f el items pushed s'} ha hw => ?_
  · rw [write_eq] at hw ⊢
    dsimp only
    rw [Value.set, (setFrom_of_error hw).1]
    exact { hopened with }
  · have hresolve := ha.resolve
    rw [Document.resolve, h.schema] at hresolve
    have hquiet := (ha.gives fun i v _ => Field.cast_quiet (hsetters _ f el hresolve ha.element) _ v).1
    have hi : items? (s.doc.openChanges.get? p) = some items := by
      rw [Document.get?, openChanges_eq]
      exact ha.stored
    rw [Edit.doc_settle hquiet]
    exact ⟨pushed, hopened.appended hi ha.filled hw⟩

theorem runAll (h : Pushing start p vs s.doc) (hsetters : ∀ v f el, start.schema.resolve v p = .field f →
    f.element? = some el → el.Meets .noSetters) (pushes : List (List Value)) :
    ∃ ws, Pushing start p (vs ++ ws) (Call.runAll (pushes.map (.push p)) s).doc := by
  induction pushes generalizing vs s with
  | nil => exact ⟨[], by rwa [append_nil]⟩
  | cons values pushes ih =>
    obtain ⟨ws, hws⟩ := h.push hsetters values
    obtain ⟨ws', hws'⟩ := ih hws
    exact ⟨ws ++ ws', by rwa [← append_assoc]⟩

-- Storing the appends

variable (h : Pushing start p vs d)

include h

theorem get?_array (hvs : vs ≠ []) (hys : items? (start.get? p) = some ys) : d.get? p = some (.arr (ys ++ vs)) := by
  obtain ⟨ys', hys', hset⟩ := h.written hvs
  obtain rfl : ys = ys' := Option.some.inj (hys.symm.trans hys')
  have hget : (start.value.set p (.arr (ys ++ vs))).2.get? p = _ := get?_setFrom_self (congrArg Prod.fst hset)
  rwa [hset] at hget

theorem get?_distinct (hq : q.Distinct p) : d.get? q = start.get? q := by
  by_cases hvs : vs = []
  · rw [Document.get?, h.still hvs]
    rfl
  · obtain ⟨ys, -, hset⟩ := h.written hvs
    have hget := get?_set_distinct (v := start.value) (x := .arr (ys ++ vs)) hq.symm
    rwa [hset] at hget

theorem get?_inside (hq : p.isAbove q) (hhas : start.value.Has q) : d.get? q = start.get? q := by
  by_cases hvs : vs = []
  · rw [Document.get?, h.still hvs]
    rfl
  obtain ⟨ys, hys, -⟩ := h.written hvs
  have harray := h.get?_array hvs hys
  obtain ⟨t, ht, rfl⟩ := isAbove_iff.mp hq
  obtain ⟨-, z, hz, hzt⟩ := has_append.mp hhas
  rw [Document.get?, hz] at hys
  cases hzt with
  | here => exact absurd rfl ht
  | field => cases hys
  | @item _ i c t hc _ =>
    cases hys
    have hc' : (ys ++ vs)[i]? = some c := by
      rw [List.getElem?_append_left (List.getElem?_eq_some_iff.mp hc).1, hc]
    rw [Document.get?] at harray ⊢
    rw [get?_append, harray, Option.bind_some, get?_item hc', Document.get?, get?_append, hz, Option.bind_some,
      get?_item hc]

theorem mem_dirtyPaths_cases (hq : q ∈ d.dirtyPaths) :
    d.stateOf? q = some .modify ∧ q.covers p ∨ start.stateOf? q = some .default ∧ d.stateOf? q = some .default ∧
      ¬ isNullish (d.get? q) := by
  rcases (mem_dirtyPaths h.tracker).mp hq with hm | ⟨hd, hnull⟩
  · obtain ⟨-, rfl | ⟨ha, -⟩⟩ := h.modified q hm
    · exact .inl ⟨hm, covers_refl q⟩
    · exact .inl ⟨hm, covers_of_isAbove ha⟩
  · rcases h.states q with hs | hs
    · exact .inr ⟨hs ▸ hd, hd, hnull⟩
    · simp [hs] at hd

theorem op_changeAt (hv : d.get? q = some v) :
    (d.changeAt dirty q).op = if q = p ∧ vs ≠ [] ∧ ¬ dirty.any p.isAbove then .push vs else .set v := by
  have hsame : d.depopulated q v = v := by
    rw [depopulated, h.populated]
    rfl
  have hinc : d.incremental? dirty q =
      if q = p ∧ vs ≠ [] ∧ ¬ dirty.any p.isAbove then some (.push vs) else none := by
    rw [incremental?, h.ops]
    by_cases hcase : q = p ∧ vs ≠ []
    · obtain ⟨rfl, hvs⟩ := hcase
      by_cases hbelow : dirty.any q.isAbove <;> simp [hvs, hbelow, h.isNew]
    · rw [if_neg hcase, if_neg fun hall => hcase ⟨hall.1, hall.2.1⟩]
  rw [Document.changeAt, hinc]
  dsimp only
  by_cases hcase : q = p ∧ vs ≠ [] ∧ ¬ dirty.any p.isAbove
  · rw [if_pos hcase, if_pos hcase]
  · rw [if_neg hcase, if_neg hcase, hv]
    dsimp only
    rw [hsame]

end Pushing

-- A default was filled in around an array, or one other than null inside its items.
def FilledAround (d : Document) (p : Path) : Prop :=
  ∃ q, d.stateOf? q = some .default ∧ (q.isAbove p ∨ p.isAbove q ∧ d.get? q ≠ some .null)

namespace Pushing

variable {S : List Value}

theorem filledAround_iff (h : Pushing start p vs d) (hvs : vs ≠ []) (hc : Completes raw start) :
    start.FilledAround p ↔ ∃ m ∈ d.dirtyPaths, m.isAbove p ∨ p.isAbove m := by
  obtain ⟨ys, hys, -⟩ := h.written hvs
  have harray := h.get?_array hvs hys
  constructor
  · rintro ⟨q, hq, hcases⟩
    have hnull : ¬ isNullish (d.get? q) := by
      rcases hcases with habove | ⟨hbelow, hne⟩
      · -- There is an array below the path.
        obtain ⟨t, ht, rfl⟩ := isAbove_iff.mp habove
        rw [Document.get?, get?_append] at harray
        obtain ⟨x, hx, hxt⟩ := Option.bind_eq_some_iff.mp harray
        rw [Document.get?, hx]
        rintro hnull
        cases x with
        | null =>
          obtain ⟨seg, t, rfl⟩ := exists_cons_of_ne_nil ht
          cases hxt
        | bool | num | str | arr | obj => cases hnull
      · obtain ⟨x, hx⟩ := Option.isSome_iff_exists.mp (hc.default q hq).2.isSome
        rw [h.get?_inside hbelow (hc.default q hq).2]
        rw [Document.get?, hx] at hne ⊢
        rintro hnull
        cases x with
        | null => exact hne rfl
        | bool | num | str | arr | obj => cases hnull
    have hdirty : q ∈ d.dirtyPaths := by
      rw [mem_dirtyPaths h.tracker]
      rcases h.states q with hs | hs
      · exact .inr ⟨hs.trans hq, hnull⟩
      · exact .inl hs
    exact ⟨q, hdirty, hcases.imp_right And.left⟩
  · rintro ⟨m, hm, hcases⟩
    rcases h.mem_dirtyPaths_cases hm with ⟨hmodify, hcov⟩ | ⟨hdefault, -, hnull⟩
    · obtain ⟨-, rfl | ⟨habove, q, hq, hqm⟩⟩ := h.modified m hmodify
      · rcases hcases with hself | hself
        all_goals exact absurd hself isAbove_irrefl
      · exact ⟨q, hq, .inl (isAbove_of_covers_isAbove hqm habove)⟩
    · refine ⟨m, hdefault, hcases.imp_right fun hbelow => ⟨hbelow, fun he => hnull ?_⟩⟩
      rw [h.get?_inside hbelow (hc.default m hdefault).2, he]
      rfl

theorem exists_of_dirty (h : Pushing start p vs d) (hc : Completes raw start) (hq : q ∈ d.dirtyPaths)
    (hplace : vs ≠ [] → q.covers p ∨ q.Distinct p) : ∃ v, d.get? q = some v ∧ ∀ x, (raw.value.set q x).1 = .ok () := by
  by_cases hcov : vs ≠ [] ∧ q.covers p
  · obtain ⟨hvs, hcov⟩ := hcov
    obtain ⟨ys, hys, hset⟩ := h.written hvs
    obtain ⟨v, hv⟩ : ∃ v, d.get? q = some v := Option.isSome_iff_exists.mp <|
      get?_isSome_of_covers (by rw [← Document.get?, h.get?_array hvs hys]; rfl) hcov
    obtain ⟨t, rfl⟩ := covers_iff.mp hcov
    exact ⟨v, hv, fun x => setFrom_ok_of_grows hc.grows (setFrom_ok_of_covers (congrArg Prod.fst hset))⟩
  · have hsame : d.get? q = start.get? q := by
      by_cases hvs : vs = []
      · rw [Document.get?, h.still hvs]
        rfl
      · exact h.get?_distinct ((hplace hvs).resolve_left fun hq => hcov ⟨hvs, hq⟩)
    rcases h.mem_dirtyPaths_cases hq with ⟨hm, hq⟩ | ⟨hdefault, -⟩
    · exact absurd ⟨(h.modified q hm).1, hq⟩ hcov
    · obtain ⟨v, hv⟩ := Option.isSome_iff_exists.mp (hc.default q hdefault).2.isSome
      refine ⟨v, hsame.trans hv, fun x => setFrom_ok_of_grows hc.grows ?_⟩
      rw [setFrom_ok_iff (y := v), setFrom_of_get? hv]

theorem place_of_change (h : Pushing start p vs d) (hvs : vs ≠ []) (hp : p.Spelled)
    (hspelled : ∀ q, start.stateOf? q = some .default → q.Spelled) (hmem : c ∈ d.changeset.changes) :
    c.path.covers p ∨ c.path.Distinct p := by
  obtain ⟨-, hdirty, hup⟩ := mem_changeset.mp hmem
  obtain ⟨m, hm, hmodify⟩ := h.marked hvs
  obtain ⟨c₀, hc₀, hcov⟩ := exists_change ((mem_dirtyPaths h.tracker).mpr (.inl hmodify))
  obtain ⟨-, hdirty₀, -⟩ := mem_changeset.mp hc₀
  have hcov := covers_trans hcov hm
  refine or_iff_not_imp_left.mpr fun hnot => Path.Apart.distinct ⟨hnot, fun hpc => ?_⟩ ?_ hp
  · rcases eq_or_isAbove_of_covers (covers_trans hcov hpc) with he | ha
    · exact hnot (he ▸ hcov)
    · exact hup _ hdirty₀ ha
  · rcases h.mem_dirtyPaths_cases hdirty with ⟨-, hq⟩ | ⟨hdefault, -⟩
    · exact absurd hq hnot
    · exact hspelled _ hdefault

theorem replay (h : Pushing start p vs d) (hc : Completes raw start) (hp : p.Spelled)
    (hspelled : ∀ q, start.stateOf? q = some .default → q.Spelled) (hS : vs ≠ [] → items? (raw.value.get? p) = some S) :
    ∃ stored, d.changeset.apply raw.value = .ok stored ∧
      ∀ c ∈ d.changeset.changes, ∀ v, d.get? c.path = some v → stored.get? c.path =
        some (if c.path = p ∧ vs ≠ [] ∧ ¬ d.dirtyPaths.any p.isAbove then .arr (S ++ vs) else v) := by
  have hdistinct : d.changeset.changes.Pairwise fun a b => a.path.Distinct b.path := by
    have hpath : ∀ c ∈ d.changeset.changes, c.path.Spelled := by
      intro c hmem
      rcases h.mem_dirtyPaths_cases (mem_changeset.mp hmem).2.1 with ⟨-, hcov⟩ | ⟨hdefault, -⟩
      · exact hp.of_covers hcov
      · exact hspelled _ hdefault
    have hapart := changeset_apart (d := d)
    rw [Changeset.paths, pairwise_map] at hapart
    exact hapart.imp_of_mem fun ha hb hab => hab.distinct (hpath _ ha) (hpath _ hb)
  let target : Path → Value := fun q =>
    if q = p ∧ vs ≠ [] ∧ ¬ d.dirtyPaths.any p.isAbove then .arr (S ++ vs) else (d.get? q).getD .null
  obtain ⟨stored, happly, -, hstored⟩ := Changeset.exists_applyAll (r := raw.value) target hdistinct
    fun c hmem => by
      obtain ⟨he, hdirty, -⟩ := mem_changeset.mp hmem
      obtain ⟨v, hv, hok⟩ := h.exists_of_dirty hc hdirty fun hvs => h.place_of_change hvs hp hspelled hmem
      refine ⟨?_, hok _⟩
      rw [Change.Turns, he, h.op_changeAt hv, ← he]
      by_cases hcase : c.path = p ∧ vs ≠ [] ∧ ¬ d.dirtyPaths.any p.isAbove
      · simp only [target, if_pos hcase]
        exact ⟨S, hcase.1 ▸ hS hcase.2.1, rfl⟩
      · simp only [target, if_neg hcase, hv, Option.getD_some]
  refine ⟨stored, happly, fun c hmem v hv => ?_⟩
  rw [hstored c hmem]
  simp only [target, hv, Option.getD_some]

theorem stored_eq (h : Pushing start p [] d) (hc : Completes raw start)
    (hnull : ∀ q, start.stateOf? q = some .default → start.get? q ≠ some .null) (hr : raw.value.Canonical)
    (hd : start.value.Canonical) : d.changeset.apply raw.value = .ok d.value := by
  have hvalue := h.still rfl
  have hdirty : ∀ q, start.stateOf? q = some .default → q ∈ d.dirtyPaths := by
    intro q hq
    obtain ⟨x, hx⟩ := Option.isSome_iff_exists.mp (hc.default q hq).2.isSome
    have hne := hnull q hq
    refine (mem_dirtyPaths h.tracker).mpr ?_
    rcases h.states q with hs | hs
    · refine .inr ⟨hs.trans hq, ?_⟩
      rw [Document.get?, hvalue]
      rw [Document.get?] at hne
      rw [hx] at hne ⊢
      cases x with
      | null => exact absurd rfl hne
      | bool | num | str | arr | obj => simp [isNullish, Value.isNull]
    · exact .inl hs
  have hchanges : ∀ c ∈ d.changeset.changes, c.path ∈ Path.uppermost d.dirtyPaths ∧
      start.stateOf? c.path = some .default ∧ ∃ y, start.get? c.path = some y ∧ c.op = .set y := by
    intro c hmem
    obtain ⟨he, hp, hup⟩ := mem_changeset.mp hmem
    rcases h.mem_dirtyPaths_cases hp with ⟨hm, -⟩ | ⟨hdefault, -⟩
    · exact absurd rfl (h.modified _ hm).1
    · obtain ⟨y, hy⟩ := Option.isSome_iff_exists.mp (hc.default _ hdefault).2.isSome
      have hy' : d.get? c.path = some y := by rw [Document.get?, hvalue, hy]
      refine ⟨mem_uppermost.mpr ⟨hp, hup⟩, hdefault, y, hy, ?_⟩
      rw [he, h.op_changeAt hy', if_neg fun hcase => hcase.2.1 rfl]
  obtain ⟨stored, happly, hgrows, hwithin, hbelow, hcanon⟩ := hc.applyAll hdirty hchanges (.refl _) hc.grows
  have hback : start.value.Grows stored := hwithin.symm fun p => hc.has_of_uppermost hdirty hgrows fun c hup => by
    rw [← changeset_paths] at hup
    obtain ⟨change, hmem, rfl⟩ := mem_map.mp hup
    exact hbelow change hmem
  rw [hvalue, ← hwithin.antisymm hback (hcanon hr hd) hd]
  exact happly

-- With appends, it gets the array of the document exactly if the whole array is stored or it had the same items.
theorem stored_array_iff (h : Pushing start p vs d) (hvs : vs ≠ []) (hc : Completes raw start) (hp : p.Spelled)
    (hspelled : ∀ q, start.stateOf? q = some .default → q.Spelled) (hxs : items? (start.get? p) = some xs) :
    ∃ stored, d.changeset.apply raw.value = .ok stored ∧
      (stored.get? p = d.get? p ↔ start.FilledAround p ∨ items? (raw.value.get? p) = some xs) := by
  have harray := h.get?_array hvs hxs
  obtain ⟨S, hS⟩ := hc.grows.exists_items hxs
  obtain ⟨stored, happly, hstored⟩ := h.replay hc hp hspelled fun _ => hS
  refine ⟨stored, happly, ?_⟩
  obtain ⟨m, hm, hmodify⟩ := h.marked hvs
  obtain ⟨c, hmem, hcov⟩ := exists_change ((mem_dirtyPaths h.tracker).mpr (.inl hmodify))
  obtain ⟨-, hdirty, hup⟩ := mem_changeset.mp hmem
  rw [h.filledAround_iff hvs hc]
  rcases eq_or_isAbove_of_covers (covers_trans hcov hm) with hpath | habove
  · -- The array itself is stored.
    have hget := hstored c hmem _ (hpath ▸ harray)
    rw [hpath] at hget hup
    have haround : (∃ m ∈ d.dirtyPaths, m.isAbove p ∨ p.isAbove m) ↔ d.dirtyPaths.any p.isAbove := by
      rw [any_eq_true]
      constructor
      · rintro ⟨m, hm, ha | hb⟩
        · exact absurd ha (hup m hm)
        · exact ⟨m, hm, hb⟩
      · rintro ⟨m, hm, hb⟩
        exact ⟨m, hm, .inr hb⟩
    rw [haround, hget, harray, hS]
    by_cases hbelow : d.dirtyPaths.any p.isAbove
    · simp [hbelow]
    · simp [hbelow, hvs]
  · -- A document around it is.
    refine iff_of_true ?_ (.inl ⟨c.path, hdirty, .inl habove⟩)
    have hne := (isAbove_iff_covers.mp habove).2
    obtain ⟨t, ht, rfl⟩ := isAbove_iff.mp habove
    obtain ⟨v, hv, -⟩ := h.exists_of_dirty hc hdirty fun _ => .inl (covers_append _ _)
    have hget := hstored c hmem v hv
    rw [if_neg fun hcase => hne hcase.1] at hget
    rw [Document.get?, get?_append, get?_append, hget, ← Document.get?, hv]

end Pushing

-- Appends to an array of a loaded document are stored right exactly if it is stored as a whole, for the sake of a
-- default around it or inside it, or if the record had the items that were loaded.
theorem push_replays_iff {schema : Schema} (hschema : schema.Meets .keyed) {record : Value}
    {projection : Option Projection} {effects₀ : Effects}
    (hload : (load schema record projection effects₀).1 = .ok start) (hp : p.Spelled)
    (hspelled : ∀ q, start.stateOf? q = some .default → q.Spelled)
    (hsetters : ∀ v f el, schema.resolve v p = .field f → f.element? = some el → el.Meets .noSetters)
    (pushes : List (List Value)) (effects : Effects) :
    let d := (Call.runAll (pushes.map (.push p)) ⟨start, effects⟩).doc
    ∃ vs stored, d.changeset.apply record = .ok stored ∧
      (vs ≠ [] → ∃ xs, items? (start.get? p) = some xs ∧ d.get? p = some (.arr (xs ++ vs)) ∧
        (stored.get? p = d.get? p ↔ start.FilledAround p ∨ items? (record.get? p) = some xs)) ∧
      (vs = [] → d.value = start.value ∧ ((∀ q, start.stateOf? q = some .default → start.get? q ≠ some .null) →
        record.Canonical → start.value.Canonical → stored = d.value)) := by
  have hl := load_loaded hload
  have hc := load_completes hschema hload
  obtain ⟨vs, h⟩ := (hl.pushing (bred_of_load hload)).runAll (s := ⟨start, effects⟩) (hl.schema ▸ hsetters) pushes
  rw [List.nil_append] at h
  by_cases hvs : vs = []
  · obtain ⟨stored, happly, -⟩ := h.replay (S := []) hc hp hspelled fun hne => absurd hvs hne
    subst hvs
    refine ⟨[], stored, happly, fun hne => absurd rfl hne, fun _ => ⟨h.still rfl, fun hnull hr hd => ?_⟩⟩
    exact Except.ok.inj (happly.symm.trans (h.stored_eq hc hnull hr hd))
  · obtain ⟨xs, hxs, -⟩ := h.written hvs
    obtain ⟨stored, happly, hiff⟩ := h.stored_array_iff hvs hc hp hspelled hxs
    exact ⟨vs, stored, happly, fun _ => ⟨xs, hxs, h.get?_array hvs hxs, hiff⟩, fun hnil => absurd hnil hvs⟩

-- Notes without tags get one.
def notes : Schema :=
  ⟨{ id := false }, [([.key "tags"], ⟨.array (.plain .string), { default := some (.literal (.arr [.str "a"])) }⟩)], []⟩

-- The appends go behind the tags of the record.
theorem push_replays_iff_notes : notes.Meets .keyed ∧
    ∃ start, (load notes (.obj [("tags", .arr [.str "x"])]) none {}).1 = .ok start ∧
      let d := (Call.runAll [.push [.key "tags"] [.str "b"], .push [.key "tags"] [.str "c", .str "b"]] ⟨start, {}⟩).doc
      d.get? [.key "tags"] = some (.arr [.str "x", .str "b", .str "c", .str "b"]) ∧
      ∃ stored, d.changeset.apply (.obj [("tags", .arr [.str "x"])]) = .ok stored ∧
        stored.get? [.key "tags"] = d.get? [.key "tags"] := by
  have hkeyed : notes.Meets .keyed := by
    unfold Schema.Meets
    decide +kernel
  have hload : (load notes (.obj [("tags", .arr [.str "x"])]) none {}).1 = .ok _ := rfl
  have hsetters : ∀ v f el, notes.resolve v [.key "tags"] = .field f → f.element? = some el → el.Meets .noSetters := by
    intro v f el hf hel
    cases hf
    cases hel
    simp [Field.Meets, Field.plain, Field.parts, FieldType.parts, SchemaLaw.noSetters]
  refine ⟨hkeyed, _, hload, by decide +kernel, ?_⟩
  obtain ⟨vs, stored, happly, happends, hstill⟩ := push_replays_iff hkeyed hload (p := [.key "tags"]) (by decide)
    (fun q hq => by
      have hmem := ((load_loaded hload).sound.tracker q .default).mpr hq
      clear hq
      revert q
      decide +kernel)
    hsetters [[.str "b"], [.str "c", .str "b"]] {}
  refine ⟨stored, happly, ?_⟩
  have hvs : vs ≠ [] := by
    intro hnil
    have := (hstill hnil).1
    revert this
    decide +kernel
  obtain ⟨xs, hxs, -, hiff⟩ := happends hvs
  exact hiff.mpr (.inr hxs)

-- The tag that was filled in is lost when another one is appended to it.
theorem push_loses_default : ∃ start, (load notes (.obj []) none {}).1 = .ok start ∧
    let d := (Call.runAll [.push [.key "tags"] [.str "b"]] ⟨start, {}⟩).doc
    start.stateOf? [.key "tags"] = some .default ∧ d.changeset.changes = [⟨[.key "tags"], .push [.str "b"], some .array⟩] ∧
    d.value = .obj [("tags", .arr [.str "a", .str "b"])] ∧
    d.changeset.apply (.obj []) = .ok (.obj [("tags", .arr [.str "b"])]) := by
  have hload : (load notes (.obj []) none {}).1 = .ok _ := rfl
  refine ⟨_, hload, by decide +kernel, by decide +kernel, by decide +kernel, by decide +kernel⟩

end Document
end Dossier

import Dossier.Proofs.Conversion

-- Setters that look at the texts of paths at most, and ask for no other writes, leave a cast the same for all
-- spellings of a path.

namespace Dossier

open List

-- The value depends on the given value and on the texts of the path, no other writes are asked for, and keys that
-- are in order stay so.
def Setter.Blind (setter : Setter) : Prop :=
  ∀ ctx ctx' v, ctx.path.map Seg.toKey = ctx'.path.map Seg.toKey → ctx.isInit = ctx'.isInit →
    (setter ctx v).value = (setter ctx' v).value ∧ (setter ctx v).siblings = [] ∧
      (v.Canonical → (setter ctx v).value.Canonical)

def Default.Ordered : Default → Prop
  | .literal v => v.Canonical
  | .generate f => ∀ view v, view.value.Canonical → f view = .ok v → v.Canonical
  | .freshId => True

def SchemaLaw.blind : SchemaLaw
  | .rules r => (∀ setter ∈ r.setters, setter.Blind) ∧ ∀ d ∈ r.default, d.Ordered
  | _ => True

structure CastContext.Like (ctx ctx' : CastContext) : Prop where
  path   : ctx.path.map Seg.toKey = ctx'.path.map Seg.toKey
  isInit : ctx.isInit = ctx'.isInit
  strict : ctx.strict = ctx'.strict

theorem CastContext.Like.below {ctx : CastContext} (h : ctx.Like ctx') {rel root : Path} {prior : Option Value} :
    CastContext.Like { ctx with path := ctx.path ++ rel, root := root, prior := prior }
      { ctx' with path := ctx'.path ++ rel, root := root', prior := prior' } :=
  ⟨by simp only [map_append, h.path], h.isInit, h.strict⟩

namespace Cast

variable {α β : Type}

-- Casts that agree

-- The same result, of which a condition holds, or a failure of the same kind.
inductive Tallies (P : α → Prop) : Except CastFailure α → Except CastFailure α → Prop
  | ok {a : α} : P a → Tallies P (.ok a) (.ok a)
  | cast {e e' : CastError} : Tallies P (.error (.cast e)) (.error (.cast e'))
  | strict {e e' : StrictError} : Tallies P (.error (.strict e)) (.error (.strict e'))

-- Two casts have the same result and take the same identifiers, and no write is asked for.
structure Agrees (P : α → Prop) (e e' : Effects) (r r' : Except CastFailure α × Effects) : Prop where
  result : Tallies P r.1 r'.1
  ids    : r.2.ids = r'.2.ids
  queue  : r.2.queue = e.queue
  queue' : r'.2.queue = e'.queue

def Agree (P : α → Prop) (c c' : Cast α) : Prop :=
  ∀ e e', e.ids = e'.ids → Agrees P e e' (c.outcome e) (c'.outcome e')

theorem agree_pure (h : P a) : Agree P (pure a : Cast α) (pure a) :=
  fun _ _ he => ⟨.ok h, he, rfl, rfl⟩

theorem agree_fail {path : Path} {target target' : CastTarget} {v' : Value} :
    Agree P (fail path target v r : Cast α) (fail path' target' v' r') :=
  fun _ _ he => ⟨.cast, he, rfl, rfl⟩

theorem agree_strict {x : StrictError} : Agree P (throw (.strict x) : Cast α) (throw (.strict x')) :=
  fun _ _ he => ⟨.strict, he, rfl, rfl⟩

theorem Tallies.mono {Q : α → Prop} {r' : Except CastFailure α} (h : Tallies P r r') (hQ : ∀ a, P a → Q a) :
    Tallies Q r r' := by
  cases h with
  | ok ha => exact .ok (hQ _ ha)
  | cast => exact .cast
  | strict => exact .strict

theorem Agree.mono {Q : α → Prop} (h : Agree P c c') (hQ : ∀ a, P a → Q a) : Agree Q c c' := by
  intro e e' he
  obtain ⟨hr, hids, hq, hq'⟩ := h e e' he
  exact ⟨hr.mono hQ, hids, hq, hq'⟩

theorem Agree.bind (h : Agree P c c') (hf : ∀ a, P a → Agree Q (f a) (f' a)) : Agree Q (c >>= f) (c' >>= f') := by
  intro e e' he
  obtain ⟨hr, hids, hq, hq'⟩ := h e e' he
  rw [outcome_bind, outcome_bind]
  rcases hc : c.outcome e with ⟨x, e₁⟩
  rcases hc' : c'.outcome e' with ⟨x', e₁'⟩
  rw [hc] at hr hids hq
  rw [hc'] at hr hids hq'
  cases hr with
  | @ok a ha =>
    obtain ⟨hr, hids, hq₁, hq₁'⟩ := hf a ha e₁ e₁' hids
    exact ⟨hr, hids, hq₁.trans hq, hq₁'.trans hq'⟩
  | cast => exact ⟨.cast, hids, hq, hq'⟩
  | strict => exact ⟨.strict, hids, hq, hq'⟩

theorem Agree.wrapItem {ctx : CastContext} {whole : Value} (h : Agree P c c') :
    Agree P (Cast.wrapItem ctx whole c) (Cast.wrapItem ctx' whole' c') := by
  intro e e' he
  obtain ⟨hr, hids, hq, hq'⟩ := h e e' he
  rw [Cast.wrapItem, Cast.wrapItem, outcome_tryCatch, outcome_tryCatch]
  rcases hc : c.outcome e with ⟨x, e₁⟩
  rcases hc' : c'.outcome e' with ⟨x', e₁'⟩
  rw [hc] at hr hids hq
  rw [hc'] at hr hids hq'
  cases hr with
  | ok ha => exact ⟨.ok ha, hids, hq, hq'⟩
  | cast => exact ⟨.cast, hids, hq, hq'⟩
  | strict => exact ⟨.strict, hids, hq, hq'⟩

-- Fields

theorem setters_agree (h : SchemaLaw.blind (.rules rules)) (hctx : ctx.Like ctx') :
    Agree (fun w => v.Canonical → w.Canonical) (setters rules ctx v) (setters rules ctx' v) := by
  obtain ⟨h, -⟩ := h
  have h : ∀ setter ∈ rules.setters.reverse, setter.Blind := fun setter hm => h setter (mem_reverse.mp hm)
  rw [setters, setters]
  generalize rules.setters.reverse = fs at h
  induction fs generalizing v with
  | nil => exact agree_pure fun h => h
  | cons setter fs ih =>
    obtain ⟨hsetter, h⟩ := forall_mem_cons.mp h
    have hblind {ctx ctx' : CastContext} (hctx : ctx.Like ctx') := hsetter ⟨ctx.path, ctx.prior, ctx.isInit⟩
      ⟨ctx'.path, ctx'.prior, ctx'.isInit⟩ v hctx.path hctx.isInit
    have hsym : ctx'.Like ctx := ⟨hctx.path.symm, hctx.isInit.symm, hctx.strict.symm⟩
    rw [foldlM_cons, foldlM_cons]
    refine Agree.bind (P := fun w => v.Canonical → w.Canonical) (fun e e' he => ?_) fun w hw =>
      (ih h).mono fun w' hw' hv => hw' (hw hv)
    refine ⟨?_, he, ?_, ?_⟩
    · change Tallies _ (.ok _) (.ok _)
      rw [← (hblind hctx).1]
      exact .ok (hblind hctx).2.2
    · change e.queue ++ List.map _ _ = _
      rw [(hblind hctx).2.1, map_nil, append_nil]
    · change e'.queue ++ List.map _ _ = _
      rw [(hblind hsym).2.1, map_nil, append_nil]

theorem rawDefault_agree (h : SchemaLaw.blind (.rules field.rules)) {C : Prop} (hview : C → view.value.Canonical) :
    Agree (fun o => ∀ v, o = some v → C → v.Canonical) (rawDefault field view ctx) (rawDefault field view ctx') := by
  obtain ⟨-, h⟩ := h
  rw [rawDefault, rawDefault]
  split
  · exact agree_pure (by simp)
  · case _ v hd => exact agree_pure fun x hx _ => Option.some.inj hx ▸ h _ hd
  · intro e e' he
    change Agrees _ e e' (.ok (some e.ids.fresh.1), { e with ids := e.ids.fresh.2 })
      (.ok (some e'.ids.fresh.1), { e' with ids := e'.ids.fresh.2 })
    rw [he]
    refine ⟨.ok ?_, rfl, rfl, rfl⟩
    rintro _ ⟨⟩ -
    trivial
  · case _ g hd =>
    cases hg : g view with
    | error => exact agree_fail
    | ok v => exact agree_pure fun x hx hC => Option.some.inj hx ▸ h _ hd view v (hview hC) hg

theorem logic_agree : Logic Agree where
  result := agree_pure
  cast := agree_fail
  strict := agree_strict
  bind := Agree.bind
  item := Agree.wrapItem

theorem study_agree (C : Prop) : Study Agree CastContext.Like .blind (fun v => C → v.Canonical)
    (fun _ _ w => C → w.Canonical) (fun _ _ _ out => C → out.Canonical) :=
  study_of_logic C logic_agree CastContext.Like.strict (fun _ h => h.below) (fun h => ⟨h.path, h.isInit, h.strict⟩)
    (fun hr h hv => (setters_agree hr h).mono fun _ hw hC => hw (hv hC)) fun _ _ _ hr _ hview => rawDefault_agree hr hview

end Cast

open Cast

theorem Field.blind_accept {f : Field} (hf : f.Meets .blind) (h : ctx.Like ctx') :
    Agree (fun w => v.Canonical → w.Canonical) (f.accept ctx v) (f.accept ctx' v) := by
  refine (f.study_accept (study_agree v.Canonical) hf h fun hv => hv).mono ?_
  rintro w ⟨v', -, -, hw⟩
  exact hw.canonical

end Dossier

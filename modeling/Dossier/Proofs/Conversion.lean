import Dossier.Proofs.Cast

-- Without setters, and with defaults that are given as values, a cast depends on nothing but the value.

namespace Dossier

namespace Value

mutual

def decideCanonical : (v : Value) → Decidable v.Canonical
  | .null | .bool _ | .num _ | .str _ => isTrue trivial
  | .arr items => decideCanonicalItems items
  | .obj fields =>
    have := decideCanonicalFields fields
    have : Decidable (Entries.Sorted fields) := inferInstanceAs (Decidable (List.Pairwise _ _))
    inferInstanceAs (Decidable (Entries.Sorted fields ∧ CanonicalFields fields))

def decideCanonicalItems : (items : List Value) → Decidable (CanonicalItems items)
  | [] => isTrue trivial
  | v :: items =>
    have := decideCanonical v
    have := decideCanonicalItems items
    inferInstanceAs (Decidable (v.Canonical ∧ CanonicalItems items))

def decideCanonicalFields : (fields : List (String × Value)) → Decidable (CanonicalFields fields)
  | [] => isTrue trivial
  | (_, v) :: fields =>
    have := decideCanonical v
    have := decideCanonicalFields fields
    inferInstanceAs (Decidable (v.Canonical ∧ CanonicalFields fields))

end

instance (v : Value) : Decidable v.Canonical :=
  decideCanonical v

end Value

def Default.Literal : Default → Prop
  | .literal v => v.Canonical
  | _ => False

instance (d : Default) : Decidable d.Literal :=
  match d with
  | .literal v => inferInstanceAs (Decidable v.Canonical)
  | .generate _ | .freshId => .isFalse id

namespace SchemaLaw

def literalDefaults : SchemaLaw
  | .rules r => ∀ d ∈ r.default, d.Literal
  | _ => True

instance : DecidablePred literalDefaults := fun part =>
  match part with
  | .rules r => inferInstanceAs (Decidable (∀ d ∈ r.default, d.Literal))
  | .variants _ | .paths _ => .isTrue trivial

def passive : SchemaLaw :=
  fun part => noSetters part ∧ literalDefaults part

instance : DecidablePred passive := fun part =>
  inferInstanceAs (Decidable (noSetters part ∧ literalDefaults part))

end SchemaLaw

namespace Cast

variable {α β : Type} {c c' : Cast α} {f f' : α → Cast β} {o : Option α} {a : α}

-- Casts that agree

-- A cast has the same result, or none, after whatever happened before, and leaves nothing behind.
def Settles (c : Cast α) (o : Option α) : Prop :=
  ∀ e, (c.outcome e).2 = e ∧ (c.outcome e).1.toOption = o

theorem settles_pure : Settles (pure a) (some a) :=
  fun _ => ⟨rfl, rfl⟩

theorem settles_throw : Settles (throw x : Cast α) none :=
  fun _ => ⟨rfl, rfl⟩

theorem Settles.bind (h : c.Settles o) (hf : ∀ a ∈ o, (f a).Settles r) (hnone : o = none → r = none) :
    (c >>= f).Settles r := by
  intro e
  obtain ⟨he, ho⟩ := h e
  rw [outcome_bind]
  rcases hc : c.outcome e with ⟨x | a, e'⟩
  all_goals
    rw [hc] at he ho
    cases he
    cases ho
  · exact ⟨rfl, (hnone rfl).symm⟩
  · exact hf a rfl e'

theorem Settles.gives (h : c.Settles o) : Gives c fun a => o = some a := by
  intro e
  obtain ⟨he, ho⟩ := h e
  refine ⟨by rw [he], fun a ha => ?_⟩
  rw [ha] at ho
  exact ho.symm

def Concur (P : α → Prop) (c c' : Cast α) : Prop :=
  ∃ o, c.Settles o ∧ c'.Settles o ∧ ∀ a ∈ o, P a

variable {P : α → Prop} {Q : β → Prop}

theorem concur_pure (h : P a) : Concur P (pure a : Cast α) (pure a) := by
  refine ⟨_, settles_pure, settles_pure, ?_⟩
  rintro _ ⟨⟩
  exact h

theorem concur_throw : Concur P (throw x : Cast α) (throw x') :=
  ⟨_, settles_throw, settles_throw, by simp⟩

theorem Concur.mono {Q : α → Prop} (h : Concur P c c') (hQ : ∀ a, P a → Q a) : Concur Q c c' := by
  obtain ⟨o, h, h', hP⟩ := h
  exact ⟨o, h, h', fun a ha => hQ a (hP a ha)⟩

theorem Concur.bind (h : Concur P c c') (hf : ∀ a, P a → Concur Q (f a) (f' a)) : Concur Q (c >>= f) (c' >>= f') := by
  obtain ⟨o, h, h', hP⟩ := h
  cases o with
  | none => exact ⟨none, h.bind (by simp) fun _ => rfl, h'.bind (by simp) fun _ => rfl, by simp⟩
  | some a =>
    obtain ⟨r, hr, hr', hQ⟩ := hf a (hP a rfl)
    refine ⟨r, h.bind ?_ (by simp), h'.bind ?_ (by simp), hQ⟩
    · rintro _ ⟨⟩
      exact hr
    · rintro _ ⟨⟩
      exact hr'

theorem Settles.wrapItem (h : c.Settles o) : (Cast.wrapItem ctx whole c).Settles o := by
  intro e
  obtain ⟨he, ho⟩ := h e
  rw [Cast.wrapItem, outcome_tryCatch]
  rcases hc : c.outcome e with ⟨x | a, e'⟩
  all_goals
    rw [hc] at he ho
    cases he
    cases ho
  · cases x <;> exact ⟨rfl, rfl⟩
  · exact ⟨rfl, rfl⟩

theorem Concur.wrapItem {ctx' : CastContext} (h : Concur P c c') :
    Concur P (Cast.wrapItem ctx whole c) (Cast.wrapItem ctx' whole' c') := by
  obtain ⟨o, h, h', hP⟩ := h
  exact ⟨o, h.wrapItem, h'.wrapItem, hP⟩

theorem logic_concur : Logic Concur where
  result := concur_pure
  cast := concur_throw
  strict := concur_throw
  bind := Concur.bind
  item := Concur.wrapItem

theorem Caster.accept_eq {c : Caster} (h : c.field.rules.setters = []) : c.accept ctx v = c.cast ctx v := by
  rw [Caster.accept, setters_eq_pure h, pure_bind]

theorem Caster.default?_eq {c : Caster} (h : SchemaLaw.passive (.rules c.field.rules)) :
    c.default? view ctx = match c.field.rules.default with
      | some (.literal v) => some <$> c.cast ctx v
      | _ => pure none := by
  obtain ⟨hs, hd⟩ := h
  rw [Caster.default?, rawDefault]
  cases hdef : c.field.rules.default with
  | none => rfl
  | some d =>
    cases d with
    | literal v => simp only [pure_bind, Caster.accept_eq hs]
    | freshId | generate => cases hd _ hdef

theorem study_concur (C : Prop) : Study Concur (fun ctx ctx' => ctx.strict = ctx'.strict) .passive
    (fun v => C → v.Canonical) (fun _ _ w => C → w.Canonical) (fun _ _ _ out => C → out.Canonical) := by
  refine study_of_logic C logic_concur (fun h => h) (fun _ h => h) (fun h => h) (fun hr _ hv => ?_) (fun _ _ _ hr _ _ => ?_)
  · rw [setters_eq_pure hr.1, setters_eq_pure hr.1]
    exact concur_pure hv
  · rw [rawDefault, rawDefault]
    split
    · exact concur_pure (by simp)
    · case _ v hd => exact concur_pure fun x hx _ => Option.some.inj hx ▸ hr.2 _ hd
    · case _ hd => cases hr.2 _ hd
    · case _ hd => cases hr.2 _ hd

end Cast

-- Fields

open Cast

namespace Field

def cast? (f : Field) (v : Value) : Option Value :=
  ((f.cast { path := [], root := [] } v).outcome {}).1.toOption

def initial? (f : Field) : Option Value :=
  match f.rules.default with
  | some (.literal v) => f.cast? v
  | _ => none

variable {f : Field} {ctx : CastContext} {v w : Value}

theorem concur_cast (hf : f.Meets .passive) (v : Value) (hctx : ctx.strict = ctx'.strict) :
    Concur (fun w => v.Canonical → w.Canonical) (f.cast ctx v) (f.cast ctx' v) :=
  (f.study_cast (study_concur v.Canonical) hf ctx ctx' v hctx fun hv => hv).mono fun _ hw => hw.canonical

theorem settles_cast (hf : f.Meets .passive) (hctx : ctx.strict = none) : (f.cast ctx v).Settles (f.cast? v) := by
  obtain ⟨o, h, h', -⟩ : Concur _ (f.cast ctx v) (f.cast { path := [], root := [] } v) := concur_cast hf v hctx
  obtain rfl : f.cast? v = o := (h' {}).2
  exact h

theorem settles_accept (hf : f.Meets .passive) (hctx : ctx.strict = none) : (f.accept ctx v).Settles (f.cast? v) := by
  have haccept : f.accept ctx v = f.cast ctx v := Caster.accept_eq (c := f.caster ctx.path) hf.rules.1
  rw [haccept]
  exact settles_cast hf hctx

theorem of_cast? (h : Gives (f.cast { path := [], root := [] } v) P) (hw : f.cast? v = some w) : P w := by
  obtain ⟨-, hp⟩ := h {}
  rw [cast?] at hw
  rcases hc : (f.cast { path := [], root := [] } v).outcome {} with ⟨_ | y, e⟩
  all_goals rw [hc] at hw hp
  · cases hw
  · cases hw
    exact hp w rfl

theorem canonical_cast? (hf : f.Meets .passive) (hv : v.Canonical) (hw : f.cast? v = some w) : w.Canonical := by
  obtain ⟨o, h, -, hcanonical⟩ := concur_cast hf v (Eq.refl (CastContext.mk [] [] none false none).strict)
  obtain rfl : f.cast? v = o := (h {}).2
  exact hcanonical w hw hv

theorem canonical_initial? (hf : f.Meets .passive) (hw : f.initial? = some w) : w.Canonical := by
  rw [initial?] at hw
  split at hw
  · case _ v hd => exact canonical_cast? hf (hf.rules.2 _ hd) hw
  · cases hw

end Field

end Dossier

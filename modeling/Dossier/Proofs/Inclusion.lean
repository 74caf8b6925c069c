import Dossier.Proofs.References

-- The selected values are copied one after another into an empty object, and no copy spoils an earlier one.

namespace Dossier

open Path Entries List

namespace Value

variable {w x : Value} {p : Path}

-- The first value is made of parts of the second one: it is the whole of it, or something on the way to its parts.
inductive PartOf : Value → Value → Prop
  | whole {v : Value} : PartOf v v
  | made {v w : Value} {fs : List (String × Value)} : w.openFields? = some fs →
      (∀ k, (Entries.get? k fs).isSome → (v.child? (.spell k)).isSome) →
      (∀ k c x, Entries.get? k fs = some c → v.child? (.spell k) = some x → PartOf c x) → PartOf w v

theorem PartOf.setFrom (h : w.PartOf v) (hp : p.Spelled) (hx : v.get? p = some x) :
    (Value.setFrom full x p w).1 = .ok () ∧ (Value.setFrom full x p w).2.PartOf v := by
  induction p generalizing v w with
  | nil =>
    cases hx
    exact ⟨rfl, .whole⟩
  | cons seg p ih =>
    obtain ⟨hseg, hp⟩ := spelled_cons.mp hp
    cases h with
    | whole =>
      rw [setFrom_of_get? hx]
      exact ⟨rfl, .whole⟩
    | @made _ _ fs hopen hthere hparts =>
      rw [get?_cons] at hx
      obtain ⟨c, hc, hx⟩ := Option.bind_eq_some_iff.mp hx
      rw [← hseg] at hc
      rw [setFrom_cons_of_openFields hopen]
      have hpart : ((Entries.get? seg.toKey fs).getD .null).PartOf c := by
        cases hget : Entries.get? seg.toKey fs with
        | none => exact .made rfl (by simp [Entries.get?]) (by simp [Entries.get?])
        | some y => exact hparts _ y c hget hc
      obtain ⟨hok, hwrote⟩ := ih hpart hp hx
      refine ⟨hok, .made rfl (fun k hk => ?_) fun k y z hy hz => ?_⟩
      · by_cases he : seg.toKey = k
        · rw [← he, hc]
          rfl
        · rw [get?_insert_ne he] at hk
          exact hthere k hk
      · by_cases he : seg.toKey = k
        · subst he
          rw [get?_insert_self] at hy
          rw [hc] at hz
          cases hy
          cases hz
          exact hwrote
        · rw [get?_insert_ne he] at hy
          exact hparts k y z hy hz

theorem PartOf.get?_none (h : w.PartOf v) (hp : p.Spelled) (hv : v.get? p = none) : w.get? p = none := by
  induction p generalizing v w with
  | nil => cases hv
  | cons seg p ih =>
    obtain ⟨hseg, hp⟩ := spelled_cons.mp hp
    cases h with
    | whole => exact hv
    | @made _ _ fs hopen hthere hparts =>
      rw [get?_cons_of_openFields hopen]
      cases hget : Entries.get? seg.toKey fs with
      | none => rfl
      | some y =>
        obtain ⟨x, hx⟩ := Option.isSome_iff_exists.mp (hthere _ (Option.isSome_of_eq_some hget))
        have hpart := hparts _ y x hget hx
        rw [hseg] at hx
        rw [get?_cons, hx] at hv
        exact ih hpart hp hv

end Value

namespace Projection

open Value

variable {paths : OrdSet Path} {p q : Path} {record out : Value}

theorem apart_of_not_selects (h : (including paths).selects p = false) (hq : q ∈ paths.keys) : q.Apart p := by
  simp only [selects, Bool.or_eq_false_iff, any_eq_false, Bool.not_eq_true] at h
  obtain ⟨hcovers, habove⟩ := h.2 q hq
  refine ⟨by simp [hcovers], fun hc => ?_⟩
  rcases eq_or_isAbove_of_covers hc with rfl | ha
  · simp [covers_refl] at hcovers
  · simp [ha] at habove

theorem not_idPath_of_not_selects {rest : Path} (h : (including paths).selects (seg :: rest) = false) :
    seg.toKey ≠ Value.idKey := by
  simp only [selects, Bool.or_eq_false_iff, beq_eq_false_iff_ne] at h
  exact h.1

theorem get?_including_none (hne : p ≠ []) (h : (including paths).selects p = false)
    (hd : ∀ q ∈ paths.keys, q.Apart p → q.Distinct p) : ((including paths).apply record).get? p = none := by
  obtain ⟨seg, rest, rfl⟩ := exists_cons_of_ne_nil hne
  refine List.foldlRecOn (motive := fun out : Value => out.get? (seg :: rest) = none) _ _ rfl fun out hout q hq => ?_
  have hdistinct : q.Distinct (seg :: rest) := by
    rcases mem_append.mp hq with hq | hq
    · exact hd q hq (apart_of_not_selects h hq)
    · rw [mem_singleton.mp hq]
      exact cons_distinct_cons.mpr (.inl (not_idPath_of_not_selects h).symm)
  rw [copy]
  split
  · exact (get?_set_distinct hdistinct).trans hout
  · exact hout

-- A value is made of parts of a record and has all that the record has at some paths.
structure Copied (record : Value) (ps : List Path) (out : Value) : Prop where
  part  : out.PartOf record
  exact : ∀ p ∈ ps, out.get? p = record.get? p

theorem Copied.copy (h : Copied record ps out) (hps : ∀ p ∈ ps, p.Spelled) (hq : q.Spelled) :
    Copied record (ps ++ [q]) (copy record out q) := by
  rw [Projection.copy]
  cases hx : record.get? q with
  | none =>
    refine ⟨h.part, forall_mem_append.mpr ⟨h.exact, fun p hp => ?_⟩⟩
    rw [mem_singleton.mp hp, hx, h.part.get?_none hq hx]
  | some x =>
    obtain ⟨hok, hpart⟩ : (setFrom q x q out).1 = .ok () ∧ (setFrom q x q out).2.PartOf record := h.part.setFrom hq hx
    have hself : (setFrom q x q out).2.get? q = some x := get?_setFrom_self hok
    refine ⟨hpart, forall_mem_append.mpr ⟨fun p hp => ?_, fun p hp => ?_⟩⟩
    · dsimp only [written, Value.set]
      by_cases hqp : q.covers p
      · -- What was at the path is written again, as a part of something larger.
        obtain ⟨r, rfl⟩ := covers_iff.mp hqp
        rw [get?_append, get?_append, hself, hx]
      · by_cases hpq : p.covers q
        · obtain ⟨r, rfl⟩ := covers_iff.mp hpq
          have hold : out.get? (p ++ r) = some x := by
            rw [get?_append, h.exact p hp, ← get?_append, hx]
          rw [setFrom_of_get? hold, h.exact p hp]
        · rw [get?_setFrom_apart ⟨hpq, hqp⟩ (hps p hp) hq, h.exact p hp]
    · rw [mem_singleton.mp hp, hx]
      exact hself

theorem copied_foldl (hps : ∀ p ∈ ps, p.Spelled) : Copied record ps (ps.foldl (copy record) (.obj [])) := by
  induction ps using List.reverseRecOn with
  | nil => exact ⟨.made rfl (by simp [Entries.get?]) (by simp [Entries.get?]), by simp⟩
  | append_singleton ps q ih =>
    obtain ⟨hps, hq⟩ := forall_mem_append.mp hps
    rw [foldl_append]
    exact (ih hps).copy hps (hq q (mem_singleton_self q))

theorem spelled_of_mem (hpaths : ∀ p ∈ paths.keys, p.Spelled) : ∀ p ∈ paths.keys ++ [idPath], p.Spelled := by
  refine forall_mem_append.mpr ⟨hpaths, fun p hp => ?_⟩
  rw [mem_singleton.mp hp]
  decide +kernel

-- At the paths that an inclusive projection selects, and below them, it returns exactly what the record holds, and
-- where it selects nothing it returns nothing. Every copy finds its way.
theorem including_apply (record : Value) (hpaths : ∀ p ∈ paths.keys, p.Spelled) :
    (∀ q : Path, q ≠ [] → q.Spelled →
      ((∃ p ∈ paths.keys ++ [idPath], p.covers q) → ((including paths).apply record).get? q = record.get? q) ∧
      ((including paths).selects q = false → ((including paths).apply record).get? q = none)) ∧
    ∀ before p after, paths.keys ++ [idPath] = before ++ p :: after → ∀ x, record.get? p = some x →
      ((before.foldl (copy record) (.obj [])).set p x).1 = .ok () := by
  have hall := spelled_of_mem hpaths
  refine ⟨fun q hne hq => ⟨?_, fun hsel => ?_⟩, fun before p after hsplit x hx => ?_⟩
  · rintro ⟨p, hp, hc⟩
    obtain ⟨r, rfl⟩ := Path.covers_iff.mp hc
    rw [get?_append, get?_append, apply, (copied_foldl hall).exact p hp]
  · exact get?_including_none hne hsel fun p hp ha => ha.distinct (hpaths p hp) hq
  · rw [hsplit] at hall
    obtain ⟨hbefore, hafter⟩ := List.forall_mem_append.mp hall
    exact ((copied_foldl hbefore).part.setFrom (hafter p List.mem_cons_self) hx).1

-- Items are copied into objects that stand for their arrays, and an array that was copied as a whole stays one.
theorem including_apply_orders :
    let record := obj [("_id", .int 7), ("lines", .arr [.obj [("n", .int 1), ("sum", .int 2)], .int 3]), ("note", .str "x"),
      ("tags", .arr [.str "a", .str "b"])]
    let paths : OrdSet Path := .ofKeys [[.key "tags", .index 1], [.key "lines", .index 0, .key "n"], [.key "tags"]]
    let out := obj [("_id", .int 7), ("lines", .obj [("0", .obj [("n", .int 1)])]), ("tags", .arr [.str "a", .str "b"])]
    (including paths).apply record = out ∧
    out.get? [.key "lines", .index 0, .key "n"] = record.get? [.key "lines", .index 0, .key "n"] ∧
    out.get? [.key "tags", .index 2] = record.get? [.key "tags", .index 2] ∧
    out.get? [.key "lines", .index 1] = none := by
  intro record paths out
  have hout : (including paths).apply record = out := by decide +kernel
  have hpaths : ∀ p ∈ paths.keys, p.Spelled := by decide +kernel
  refine ⟨hout, ?_⟩
  rw [← hout]
  obtain ⟨hq, -⟩ := including_apply record hpaths
  refine ⟨(hq _ (by decide) (by decide +kernel)).1 ⟨_, ?_, Path.covers_refl _⟩,
    (hq _ (by decide) (by decide +kernel)).1 ⟨[.key "tags"], ?_, by decide⟩,
    (hq _ (by decide) (by decide +kernel)).2 (by decide +kernel)⟩
  · decide +kernel
  · decide +kernel

end Projection
end Dossier

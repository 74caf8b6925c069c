import Dossier.Proofs.Changeset
import Dossier.Proofs.Window

-- The changeset of a document brings the record that it was stored as in line with it.

namespace Dossier

open List

namespace Document

open Value

variable {start d : Document}

theorem Tracked.mem_dirtyPaths (h : Tracked start d) : p ∈ d.dirtyPaths ↔ d.marks p := by
  rw [Document.mem_dirtyPaths h.tracker]
  simp [marks, h.defaults p]

theorem Tracked.incremental_turns (h : Tracked start d) (hc : c ∈ d.changeset.changes)
    (hop : d.incremental? d.dirtyPaths c.path = some op) :
    ∃ vs xs, op = .push vs ∧ items? (start.value.get? c.path) = some xs ∧
      d.value.get? c.path = some (.arr (xs ++ vs)) := by
  have ⟨_, hm, htop⟩ := mem_changeset.mp hc
  obtain ⟨ops, hops, -, hrep, hbelow, hkind⟩ := incremental?_eq_some hop
  have hat : d.opsAt c.path = ops := by simp [opsAt, hops]
  obtain ⟨hpushed, -, rfl⟩ | ⟨-, hpulled, -⟩ := hkind
  · have hacc := h.pending.arrays c.path (h.pending.spelled _ (h.mem_dirtyPaths.mp hm))
      (h.noted _ (by simp [hops]))
    rcases hacc with ⟨m, hmark, hab⟩ | hr | ⟨m, hmark, hab, -⟩ | happ
    · exact absurd hab (htop m (h.mem_dirtyPaths.mpr hmark))
    · simp [hat, hrep] at hr
    · exact absurd hab (hbelow m (h.mem_dirtyPaths.mpr hmark))
    · rw [hat] at happ
      rcases happ with ⟨hnil, -⟩ | ⟨xs, hx, hnew⟩
      · exact absurd hnil hpushed
      · exact ⟨ops.pushed, xs, rfl, hx, hnew⟩
  · exact absurd (hat ▸ h.pending.pulled c.path) hpulled

theorem Tracked.turns (h : Tracked start d) (hc : c ∈ d.changeset.changes) :
    c.Turns (start.value.get? c.path) (d.value.get? c.path) := by
  have ⟨heq, _, _⟩ := mem_changeset.mp hc
  have hop : c.op = (d.changeAt d.dirtyPaths c.path).op := congrArg Change.op heq
  rw [changeAt] at hop
  dsimp only at hop
  rw [Change.Turns, hop]
  cases hinc : d.incremental? d.dirtyPaths c.path with
  | some op =>
    obtain ⟨vs, xs, rfl, hx, hnew⟩ := h.incremental_turns hc hinc
    exact ⟨xs, hx, hnew⟩
  | none =>
    cases hget : d.get? c.path with
    | some v =>
      have hdep : d.depopulated c.path v = v := by
        rw [depopulated, h.populated]
        rfl
      dsimp only
      rw [hdep]
      exact hget
    | none => exact hget

theorem Tracked.replay (h : Tracked start d) : d.changeset.apply start.value = .ok d.value := by
  refine Covered.replay (h.pending.covered.mono fun m hm => ?_) (fun c hc => ?_)
    (pairwise_map.mp changeset_sorted) (pairwise_map.mp changeset_apart) fun c hc => h.turns hc
  · obtain ⟨c, hc, hcov⟩ := Path.exists_uppermost (h.mem_dirtyPaths.mpr hm)
    refine ⟨c, ?_, hcov⟩
    have : c ∈ d.changeset.paths := changeset_paths ▸ hc
    exact this
  · exact h.pending.spelled _ (h.mem_dirtyPaths.mp (mem_changeset.mp hc).2.1)

-- Whole histories

end Document

-- Calls that set, append, mark and undo. Paths are as texts spell them, no number is a float or beyond 64 bits,
-- and no value goes to the root or to a group of fields. The schema has no variants, so what a path is does not
-- depend on the value.
def Call.Exact (start : Document) : Call → Prop
  | .set p v opts => opts = {} ∧ p.Spelled ∧ p ≠ [] ∧ start.resolve p ≠ .nested ∧ v.Exact
  | .push p vs => p.Spelled ∧ ∀ v ∈ vs, v.Exact
  | .mark p => p.Spelled
  | .rollback => True
  | _ => False

namespace Document

theorem Since.run (hs : start.schema.Meets .plain) (hu : start.Untouched) (hb : start.value.Exact)
    (h : Since start s.doc) {c : Call} (hc : c.Exact start) : Since start (c.run s).doc := by
  cases c with
  | set p v opts =>
    obtain ⟨rfl, hp, hne, hn, hv⟩ := hc
    exact h.set hs hu hb hp hne hn hv
  | push p vs => exact h.push hs hu hb hc.1 hc.2
  | mark p => exact h.mark hu hb hc
  | rollback => exact .inl (h.rollback hu)
  | pull | unmark | populate | depopulate | report | commit => cases hc

theorem Since.runAll (hs : start.schema.Meets .plain) (hu : start.Untouched) (hb : start.value.Exact)
    (hc : ∀ c ∈ calls, c.Exact start) {s : Desk} (h : Since start s.doc) : Since start (Call.runAll calls s).doc :=
  List.foldlRecOn (motive := fun s : Desk => Since start s.doc) _ _ h
    fun _ h c hmem => h.run hs hu hb (hc c hmem)

-- The changeset brings the stored record in line with the document, whatever was set, appended, marked and undone
-- since it was stored.
theorem changeset_replays (hrest : start.AtRest) (hsetters : start.schema.Meets .noSetters)
    (hvariants : start.schema.Meets .noVariants) (hdefaults : start.schema.Meets .exactDefaults)
    (hformed : start.schema.Meets .wellFormed) (hvalue : start.value.Exact) (effects : Effects)
    (calls : List Call) (hcalls : ∀ c ∈ calls, c.Exact start) :
    let d := (Call.runAll calls ⟨start, effects⟩).doc
    d.changeset.apply start.value = .ok d.value := by
  have hs : start.schema.Meets .plain := fun part hp =>
    ⟨hsetters part hp, hdefaults part hp, hvariants part hp, hformed part hp⟩
  have hu := hrest.untouched
  have h : Since start (Call.runAll calls ⟨start, effects⟩).doc :=
    Since.runAll hs hu hvalue hcalls (.inl rfl)
  rcases h with h | h
  · rw [h]
    exact (hu.tracked hvalue).replay
  · exact h.tracked.replay

-- A default with a loose number

-- Rows and lines whose free content is filled in if it is missing. Only lines are tracked by themselves.
def tableWith (content : Value) : Schema :=
  let row : SubSchema := ⟨⟨{ id := false },
    [([.key "meta"], { type := .mixed, rules := { default := some (.literal content) } })], []⟩, []⟩
  ⟨{ id := false }, [([.key "rows"], .plain (.array (.ofSub row))),
    ([.key "lines"], .plain (.documentArray row))], []⟩

def fillIn (field : String) (n : Int) : List Call :=
  [.push [.key field] [.obj []],
    .set [.key field, .index 0, .key "meta", .key "x"] (.int n) {}]

theorem tableWith_meets (content : Value) : (tableWith content).Meets .noSetters ∧
    (tableWith content).Meets .noVariants ∧ (tableWith content).Meets .wellFormed ∧
    (content.Exact → (tableWith content).Meets .exactDefaults) := by
  refine ⟨?_, ?_, ?_, fun h => ?_⟩
  all_goals
    simp only [Schema.Meets, tableWith, Schema.parts, Schema.partsOfFields, Field.plain, Field.ofSub,
      Field.parts, FieldType.parts, SubSchema.parts, Schema.partsOfVariants, map_cons, map_nil,
      append_nil, cons_append, nil_append, forall_mem_cons]
  · simp [SchemaLaw.noSetters]
  · simp [SchemaLaw.noVariants]
  · simp only [SchemaLaw.wellFormed, not_mem_nil, false_implies, implies_true, and_true]
    decide +kernel
  · simp [SchemaLaw.exactDefaults, Default.Exact, h]

theorem fillIn_exact (hs : start.schema = tableWith content) (field : String) (hf : field = "rows" ∨ field = "lines")
    (n : Int) (hn : (Value.int n).Exact) : ∀ c ∈ fillIn field n, c.Exact start := by
  simp only [fillIn, forall_mem_cons, Call.Exact, not_mem_nil, false_implies, implies_true,
    and_true, resolve, hs]
  rcases hf with rfl | rfl
  · exact ⟨by decide, trivial, by decide, by simp, (fun h => by cases h), hn⟩
  · exact ⟨by decide, trivial, by decide, by simp, (fun h => by cases h), hn⟩

theorem changeset_replays_table : ∃ start,
    (load (tableWith (.obj [("x", .int 1)])) (.obj [("rows", .arr [])]) none).1 = .ok start ∧
    let calls := fillIn "lines" 2 ++ [.mark [.key "rows"], .rollback] ++ fillIn "rows" 3 ++ fillIn "lines" 4
    let d := (Call.runAll calls ⟨start, {}⟩).doc
    d.changeset.apply start.value = .ok d.value ∧
      d.value = .obj [("lines", .arr [.obj [("meta", .obj [("x", .int 4)])]]),
        ("rows", .arr [.obj [("meta", .obj [("x", .int 3)])]])] := by
  have hload : (load (tableWith (.obj [("x", .int 1)])) (.obj [("rows", .arr [])]) none).1 = .ok _ := rfl
  have ⟨h₁, h₂, h₃, h₄⟩ := tableWith_meets (.obj [("x", .int 1)])
  refine ⟨_, hload, changeset_replays (atRest_of_load hload rfl) h₁ h₂ (h₄ (by decide)) h₃
    (by decide) {} _ ?_, by decide +kernel⟩
  have hfill := fillIn_exact (load_loaded hload).schema
  simp only [List.forall_mem_append, List.forall_mem_cons]
  exact ⟨⟨⟨hfill _ (.inr rfl) 2 (by decide), (by decide : Path.Spelled _), trivial, nofun⟩,
    hfill _ (.inl rfl) 3 (by decide)⟩, hfill _ (.inr rfl) 4 (by decide)⟩

-- A default whose number is beyond 64 bits is stored with an appended row, although the document has come to hold
-- another number that is equal to it.
theorem changeset_keeps_loose_default : ∃ start, start.AtRest ∧ start.schema.Meets .noSetters ∧
    start.schema.Meets .noVariants ∧ start.schema.Meets .wellFormed ∧ start.value.Exact ∧
    (∀ c ∈ fillIn "rows" 9223372036854775807, c.Exact start) ∧
    let d := (Call.runAll (fillIn "rows" 9223372036854775807) ⟨start, {}⟩).doc
    d.changeset.apply start.value ≠ .ok d.value := by
  have hload : (load (tableWith (.obj [("x", .int 9223372036854775808)]))
    (.obj [("rows", .arr [])]) none).1 = .ok _ := rfl
  have ⟨h₁, h₂, h₃, _⟩ := tableWith_meets (.obj [("x", .int 9223372036854775808)])
  exact ⟨_, atRest_of_load hload rfl, h₁, h₂, h₃, by decide,
    fillIn_exact (load_loaded hload).schema _ (.inl rfl) _ (by decide), by decide +kernel⟩

end Document
end Dossier

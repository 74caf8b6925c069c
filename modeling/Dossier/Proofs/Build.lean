import Dossier.Proofs.Schema

-- A schema is built exactly if its declarations name different paths of keys, none above another, and each then
-- resolves as declared.

namespace Dossier

open Path List

namespace Schema

variable {fields : List (Path × Field)} {declared : List (String × Field)} {options : SchemaOptions}
  {virtuals : List (String × Virtual)} {s : Schema} {p q : Path} {f : Field} {raw : String}

-- Names

-- A text names a path of keys. It joins them with dots, and none of them is empty, has a dot or is the text of an
-- index.
structure Names (raw : String) (p : Path) : Prop where
  ne_nil : p ≠ []
  text   : p.text = raw
  keys   : ∀ seg ∈ p, ∃ k : String, seg = .key k ∧ k ≠ "" ∧ '.' ∉ k.toList ∧ ∀ i < Seg.indexBound, k ≠ toString i

theorem Names.legible (h : Names raw p) : p.Legible := by
  intro seg hseg
  obtain ⟨k, rfl, hne, hdot, hk⟩ := h.keys seg hseg
  exact ⟨Seg.spelled_key_iff.mpr hk, hne, hdot⟩

theorem Names.spelled (h : Names raw p) : p.Spelled :=
  fun seg hseg => (h.legible seg hseg).1

theorem Names.index?_none (h : Names raw p) : ∀ seg ∈ p, seg.index? = none := by
  intro seg hseg
  obtain ⟨k, rfl, -⟩ := h.keys seg hseg
  rfl

theorem Names.parse (h : Names raw p) : Path.parse raw = p := by
  rw [← h.text, parse_text h.legible]

theorem names_iff : Names raw p ↔ declaredPath? raw = some p := by
  simp only [declaredPath?, Option.ite_none_left_eq_some, not_or, Option.some.injEq]
  constructor
  · intro h
    rw [h.parse, ← h.text]
    refine ⟨⟨by simpa using h.ne_nil, by simpa using h.index?_none, fun hempty => ?_⟩, rfl⟩
    obtain ⟨part, hpart, he⟩ := any_eq_true.mp hempty
    exact h.legible.not_mem_splitDots h.ne_nil (isEmpty_iff.mp he ▸ hpart)
  · rintro ⟨⟨hne, hkeys, hparts⟩, rfl⟩
    refine ⟨by simpa using hne, text_parse fun h => hparts (any_eq_true.mpr ⟨[], h, rfl⟩), fun seg hseg => ?_⟩
    obtain ⟨hspelled, hword⟩ := parse_legible raw seg hseg
    cases seg with
    | index i => exact absurd (any_eq_true.mpr ⟨.index i, hseg, rfl⟩) hkeys
    | key k => exact ⟨k, rfl, hword.1, hword.2, Seg.spelled_key_iff.mp hspelled⟩

-- Declarations

def entries (options : SchemaOptions) (declared : List (String × Field)) : List (Path × Field) :=
  (if options.id ∧ ¬ declared.any (·.1 = Value.idKey) then [idField] else []) ++
    declared.map fun e => (Path.parse e.1, e.2)

-- What declarations declare. The identifier is added unless there is a declaration of its name.
def Declaration (options : SchemaOptions) (declared : List (String × Field)) (p : Path) (f : Field) : Prop :=
  (∃ raw, (raw, f) ∈ declared ∧ Names raw p) ∨ options.id ∧ (∀ e ∈ declared, e.1 ≠ Value.idKey) ∧ (p, f) = idField

theorem declare_eq_ok_iff (hn : (start.map (·.1)).Nodup) : declare start declared = .ok fields ↔
    fields = start ++ declared.map (fun e => (Path.parse e.1, e.2)) ∧ (∀ e ∈ declared, ∃ p, Names e.1 p) ∧
      (fields.map (·.1)).Nodup := by
  induction declared generalizing start with
  | nil =>
    simp only [declare, Except.ok.injEq, map_nil, append_nil, not_mem_nil, false_imp_iff, implies_true,
      true_and]
    exact ⟨fun h => ⟨h.symm, h ▸ hn⟩, fun h => h.1.symm⟩
  | cons e declared ih =>
    obtain ⟨raw, f⟩ := e
    simp only [declare, map_cons, forall_mem_cons, names_iff]
    cases hp : declaredPath? raw with
    | none => simp
    | some p =>
      have hparse : Path.parse raw = p := (names_iff.mpr hp).parse
      simp only [Option.some.injEq, exists_eq', true_and, hparse]
      by_cases hany : start.any (·.1 = p)
      · obtain ⟨e, he, hpe⟩ := any_eq_true.mp hany
        simp only [hany, if_true, reduceCtorEq, false_iff, not_and]
        rintro rfl - hnodup
        rw [map_append, nodup_append] at hnodup
        exact hnodup.2.2 _ (mem_map_of_mem he) p (by simp) (of_decide_eq_true hpe)
      · have hstart : ((start ++ [(p, f)]).map (·.1)).Nodup := by
          rw [map_append, nodup_append]
          refine ⟨hn, by simp, fun a ha b hb hab => hany ?_⟩
          obtain ⟨e, he, rfl⟩ := mem_map.mp ha
          exact any_eq_true.mpr ⟨e, he, by simpa [hab] using hb⟩
        rw [if_neg hany, ih hstart, append_assoc, singleton_append]
        simp only [names_iff]

theorem conflict?_eq_none_iff : conflict? fields = none ↔ ∀ a ∈ fields, ∀ b ∈ fields, a.1 ≠ [] → ¬ a.1.isAbove b.1 := by
  simp only [conflict?, findSome?_eq_none_iff, Option.map_eq_none_iff, find?_eq_none, mem_ancestors_iff]
  constructor
  · intro h a ha b hb hne hab
    exact h b hb a.1 ⟨hne, hab⟩ (any_eq_true.mpr ⟨a, ha, by simp⟩)
  · rintro h b hb p ⟨hne, hab⟩ hany
    obtain ⟨a, ha, he⟩ := any_eq_true.mp hany
    rw [← of_decide_eq_true he] at hne hab
    exact h a ha b hb hne hab

theorem build_eq_ok_iff : build options declared virtuals = .ok s ↔ s = ⟨options, entries options declared, virtuals⟩ ∧
    (∀ e ∈ declared, ∃ p, Names e.1 p) ∧ ((entries options declared).map (·.1)).Nodup ∧
    ∀ a ∈ entries options declared, ∀ b ∈ entries options declared, a.1 ≠ [] → ¬ a.1.isAbove b.1 := by
  simp only [build]
  rw [entries]
  generalize hstart : (if options.id ∧ ¬ declared.any (·.1 = Value.idKey) then [idField] else []) = start
  have hn : (start.map (·.1)).Nodup := by
    rw [← hstart]
    split <;> simp
  cases hfields : declare start declared with
  | error e =>
    simp only [reduceCtorEq, false_iff, not_and]
    intro _ hnames hnodup
    rw [(declare_eq_ok_iff hn).mpr ⟨rfl, hnames, hnodup⟩] at hfields
    cases hfields
  | ok fields =>
    obtain ⟨rfl, hnames, hnodup⟩ := (declare_eq_ok_iff hn).mp hfields
    rw [← conflict?_eq_none_iff]
    dsimp only
    cases conflict? _ with
    | some c => simp
    | none => exact ⟨fun h => ⟨(Except.ok.inj h).symm, hnames, hnodup, rfl⟩, fun h => congrArg Except.ok h.1.symm⟩

theorem names_of_declaration (h : Declaration options declared p f) : ∃ raw, Names raw p := by
  rcases h with ⟨raw, -, h⟩ | ⟨-, -, h⟩
  · exact ⟨raw, h⟩
  · cases h
    exact ⟨Value.idKey, names_iff.mpr (by decide +kernel)⟩

theorem mem_entries_iff (h : ∀ e ∈ declared, ∃ p, Names e.1 p) :
    (p, f) ∈ entries options declared ↔ Declaration options declared p f := by
  simp only [entries, Declaration, mem_append, mem_map, Prod.mk.injEq, Prod.exists]
  rw [or_comm]
  refine or_congr ⟨?_, ?_⟩ ?_
  · rintro ⟨raw, g, hmem, rfl, rfl⟩
    obtain ⟨p, hp⟩ := h _ hmem
    exact ⟨raw, hmem, hp.parse.symm ▸ hp⟩
  · rintro ⟨raw, hmem, hp⟩
    exact ⟨raw, f, hmem, hp.parse, rfl⟩
  · have hfree : ¬ declared.any (·.1 = Value.idKey) ↔ ∀ e ∈ declared, e.1 ≠ Value.idKey := by
      simp only [any_eq_true, decide_eq_true_eq, not_exists, not_and, ne_eq]
    rw [← hfree, ← and_assoc]
    split
    · case isTrue hid => rw [mem_singleton, and_iff_right hid]
    · case isFalse hid => exact iff_of_false (by simp) fun h => hid h.1

theorem nodup_entries_iff (h : ∀ e ∈ declared, ∃ p, Names e.1 p) : ((entries options declared).map (·.1)).Nodup ↔
    declared.Pairwise fun a b => ¬ ∃ p, Names a.1 p ∧ Names b.1 p := by
  have hsame : ((declared.map fun e => (Path.parse e.1, e.2)).map (·.1)).Nodup ↔
      declared.Pairwise fun a b => ¬ ∃ p, Names a.1 p ∧ Names b.1 p := by
    rw [map_map, List.Nodup, pairwise_map]
    refine List.Pairwise.iff_of_mem fun {a b} ha hb => not_congr ⟨fun heq => ?_, ?_⟩
    · obtain ⟨p, hp⟩ := h a ha
      obtain ⟨q, hq⟩ := h b hb
      obtain rfl : p = q := by
        rw [← hp.parse, ← hq.parse]
        exact heq
      exact ⟨p, hp, hq⟩
    · rintro ⟨p, hp, hq⟩
      exact hp.parse.trans hq.parse.symm
  rw [entries]
  split
  · case isTrue hid =>
    -- Only the name of the identifier denotes its path.
    rw [singleton_append, map_cons, nodup_cons, and_iff_right, hsame]
    intro hmem
    simp only [map_map, mem_map, Function.comp_apply] at hmem
    obtain ⟨e, he, hparse⟩ := hmem
    obtain ⟨p, hp⟩ := h e he
    refine hid.2 (any_eq_true.mpr ⟨e, he, decide_eq_true ?_⟩)
    rw [← hp.text, ← hp.parse, hparse]
    decide +kernel
  · exact hsame

theorem apart_of_free (hn : (s.fields.map (·.1)).Nodup) (hk : ∀ e ∈ s.fields, e.1 ≠ [] ∧ ∀ seg ∈ e.1, seg.index? = none)
    (hfree : ∀ a ∈ s.fields, ∀ b ∈ s.fields, ¬ a.1.isAbove b.1) : s.Apart := by
  refine ⟨hk, hn.imp_of_mem fun {p q} hp hq hne => ?_⟩
  obtain ⟨a, ha, rfl⟩ := mem_map.mp hp
  obtain ⟨b, hb, rfl⟩ := mem_map.mp hq
  exact ⟨fun h => hfree a ha b hb (isAbove_iff_covers.mpr ⟨h, hne⟩),
    fun h => hfree b hb a ha (isAbove_iff_covers.mpr ⟨h, hne.symm⟩)⟩

theorem build_fields (h : build options declared virtuals = .ok s) :
    s.Apart ∧ ∀ p f, (p, f) ∈ s.fields ↔ Declaration options declared p f := by
  obtain ⟨rfl, hnames, hnodup, hfree⟩ := build_eq_ok_iff.mp h
  have hkeys : ∀ e ∈ entries options declared, e.1 ≠ [] ∧ ∀ seg ∈ e.1, seg.index? = none := by
    intro e he
    obtain ⟨raw, hraw⟩ := names_of_declaration ((mem_entries_iff hnames).mp he)
    exact ⟨hraw.ne_nil, hraw.index?_none⟩
  exact ⟨apart_of_free hnodup hkeys fun a ha b hb => hfree a ha b hb (hkeys a ha).1, fun _ _ => mem_entries_iff hnames⟩

-- Schemas are built of the declarations at paths of keys that are apart from each other. What is declared at a
-- path is what the path resolves to, in every document.
theorem build_ok_iff_and_resolve (options : SchemaOptions) (declared : List (String × Field))
    (virtuals : List (String × Virtual)) :
    ((∃ s, build options declared virtuals = .ok s) ↔
      (∀ e ∈ declared, ∃ p, Names e.1 p) ∧ (declared.Pairwise fun a b => ¬ ∃ p, Names a.1 p ∧ Names b.1 p) ∧
      ∀ p f q g, Declaration options declared p f → Declaration options declared q g → ¬ p.isAbove q) ∧
    ∀ s, build options declared virtuals = .ok s → ∀ doc : Value,
      (∀ p f, Declaration options declared p f → s.resolve doc p = .field f) ∧
      (∀ (p q : Path) f, p ≠ [] → p.isAbove q → Declaration options declared q f → s.resolve doc p = .nested) ∧
      s.resolve doc [] = .undeclared ∧
      ∀ p : Path, p.Bounded → (∀ q f, Declaration options declared q f → p.Apart q) → s.resolve doc p = .undeclared := by
  refine ⟨⟨?_, ?_⟩, fun s hs doc => ?_⟩
  · rintro ⟨s, hs⟩
    obtain ⟨rfl, hnames, hnodup, hfree⟩ := build_eq_ok_iff.mp hs
    refine ⟨hnames, (nodup_entries_iff hnames).mp hnodup, fun p f q g hp hq => ?_⟩
    obtain ⟨raw, hraw⟩ := names_of_declaration hp
    exact hfree _ ((mem_entries_iff hnames).mpr hp) _ ((mem_entries_iff hnames).mpr hq) hraw.ne_nil
  · rintro ⟨hnames, hnodup, hfree⟩
    refine ⟨_, build_eq_ok_iff.mpr ⟨rfl, hnames, (nodup_entries_iff hnames).mpr hnodup, fun a ha b hb _ => ?_⟩⟩
    exact hfree _ _ _ _ ((mem_entries_iff hnames).mp ha) ((mem_entries_iff hnames).mp hb)
  · obtain ⟨hapart, hmem⟩ := build_fields hs
    refine ⟨fun p f hp => resolve_declared hapart ((hmem p f).mpr hp),
      fun p q f hne hpq hq => resolve_of_isAbove hapart ((hmem q f).mpr hq) hpq hne, rfl, fun p hb hp => ?_⟩
    refine resolve_of_apart (fun e he => ?_) hb fun e he => hp e.1 e.2 ((hmem _ _).mp he)
    obtain ⟨raw, hraw⟩ := names_of_declaration ((hmem _ _).mp he)
    exact hraw.spelled

def addressFields : List (String × Field) :=
  [("address.city", .plain .string), ("address.geo.lat", .plain .number)]

theorem build_ok_iff_and_resolve_address :
    (∃ s, build {} addressFields [] = .ok s ∧ ∀ doc,
      s.resolve doc [.key "address", .key "geo", .key "lat"] = .field (.plain .number) ∧
      s.resolve doc [.key "address", .key "geo"] = .nested ∧ s.resolve doc [.key "address", .index 0] = .undeclared) ∧
    ¬ ∃ s, build {} (("address", .plain .mixed) :: addressFields) [] = .ok s := by
  have hlat : Declaration {} addressFields [.key "address", .key "geo", .key "lat"] (.plain .number) :=
    .inl ⟨_, .tail _ (.head _), names_iff.mpr (by decide +kernel)⟩
  constructor
  · have hs : build {} addressFields [] = .ok ⟨{}, entries {} addressFields, []⟩ := rfl
    refine ⟨_, hs, fun doc => ?_⟩
    obtain ⟨hfield, hnested, -, hnone⟩ := (build_ok_iff_and_resolve {} addressFields []).2 _ hs doc
    refine ⟨hfield _ _ hlat, hnested _ _ _ (by simp) (by decide) hlat, hnone _ (by decide +kernel) fun q f hq => ?_⟩
    have hpaths : ∀ q ∈ (entries {} addressFields).map (·.1), Path.Apart [.key "address", .index 0] q := by decide +kernel
    exact hpaths q (List.mem_map_of_mem ((mem_entries_iff (build_eq_ok_iff.mp hs).2.1).mpr hq))
  · intro h
    have hfree := ((build_ok_iff_and_resolve {} (("address", .plain .mixed) :: addressFields) []).1.mp h).2.2
    refine hfree [.key "address"] (.plain .mixed) [.key "address", .key "city"] (.plain .string) (.inl ⟨_, .head _, ?_⟩)
      (.inl ⟨_, .tail _ (.head _), ?_⟩) (by decide) <;> exact names_iff.mpr (by decide +kernel)

-- What is asked of schemas elsewhere holds of every schema that is built.
theorem build_wellFormed (h : build options declared virtuals = .ok s) (hf : ∀ e ∈ declared, e.2.Meets .wellFormed) :
    s.Meets .wellFormed := by
  obtain ⟨hapart, hmem⟩ := build_fields h
  intro part hpart
  obtain ⟨options, fields, virtuals⟩ := s
  rw [parts] at hpart
  rcases mem_cons.mp hpart with rfl | hpart
  · refine ⟨fun p hp => ?_, hapart.2⟩
    obtain ⟨e, he, rfl⟩ := mem_map.mp hp
    obtain ⟨raw, hraw⟩ := names_of_declaration ((hmem _ _).mp he)
    exact ⟨hraw.ne_nil, hraw.spelled, hraw.index?_none⟩
  · obtain ⟨e, he, hpart⟩ := mem_partsOfFields.mp hpart
    rcases (hmem e.1 e.2).mp he with ⟨raw, hraw, -⟩ | ⟨-, -, he⟩
    · exact hf _ hraw part hpart
    · obtain rfl : e = idField := he
      simp only [idField, Field.parts, FieldType.parts, mem_singleton] at hpart
      subst hpart
      trivial

-- Variants

theorem override_paths : (override fields p f).map (·.1) =
    if p ∈ fields.map (·.1) then fields.map (·.1) else fields.map (·.1) ++ [p] := by
  have hany : fields.any (·.1 = p) ↔ p ∈ fields.map (·.1) := by simp
  simp only [override, hany]
  split
  · rw [map_map]
    refine map_congr_left fun e _ => ?_
    simp only [Function.comp_apply]
    split
    · case isTrue he => exact he.symm
    · rfl
  · rw [map_append, map_singleton]

theorem mem_override_iff : e ∈ override fields p f ↔ e = (p, f) ∨ e.1 ≠ p ∧ e ∈ fields := by
  rw [override]
  split
  · case isTrue h =>
    simp only [any_eq_true, decide_eq_true_eq] at h
    obtain ⟨a, ha, hp⟩ := h
    simp only [mem_map]
    constructor
    · rintro ⟨b, hb, rfl⟩
      split
      · exact .inl rfl
      · case isFalse hne => exact .inr ⟨hne, hb⟩
    · rintro (rfl | ⟨hne, he⟩)
      · exact ⟨a, ha, if_pos hp⟩
      · exact ⟨e, he, if_neg hne⟩
  · case isFalse h =>
    simp only [any_eq_true, decide_eq_true_eq, not_exists, not_and] at h
    rw [mem_append, mem_singleton, or_comm]
    exact or_congr_right ⟨fun he => ⟨h e he, he⟩, And.right⟩

def overrides (fields es : List (Path × Field)) : List (Path × Field) :=
  es.foldl (fun fs e => override fs e.1 e.2) fields

theorem override_nodup (hn : (fields.map (·.1)).Nodup) : ((override fields p f).map (·.1)).Nodup := by
  rw [override_paths]
  split
  · exact hn
  · case isFalse hp => exact nodup_append.mpr ⟨hn, by simp, fun a ha b hb => by
      rw [mem_singleton.mp hb]
      exact fun h => hp (h ▸ ha)⟩

theorem overrides_nodup (hn : (fields.map (·.1)).Nodup) : ((overrides fields es).map (·.1)).Nodup :=
  List.foldlRecOn (motive := fun fs : List (Path × Field) => (fs.map (·.1)).Nodup) _ _ hn fun _ h _ _ => override_nodup h

theorem mem_overrides_iff (hn : (es.map (·.1)).Nodup) :
    e ∈ overrides fields es ↔ e ∈ es ∨ e.1 ∉ es.map (·.1) ∧ e ∈ fields := by
  induction es generalizing fields with
  | nil => simp [overrides]
  | cons a es ih =>
    obtain ⟨ha, hn⟩ := nodup_cons.mp hn
    rw [overrides, foldl_cons, ← overrides, ih hn, mem_override_iff, mem_cons, map_cons, mem_cons]
    constructor
    · rintro (he | ⟨hout, rfl | ⟨hne, he⟩⟩)
      · exact .inl (.inr he)
      · exact .inl (.inl rfl)
      · exact .inr ⟨not_or.mpr ⟨hne, hout⟩, he⟩
    · rintro ((rfl | he) | ⟨hout, he⟩)
      · exact .inr ⟨ha, .inl rfl⟩
      · exact .inl he
      · exact .inr ⟨(not_or.mp hout).2, .inr ⟨(not_or.mp hout).1, he⟩⟩

-- No path of one schema is above one of the other, and none is below the key that tells variants apart.
def Compatible (base variant : Schema) : Prop :=
  (∀ p ∈ base.fields.map (·.1), ∀ q ∈ variant.fields.map (·.1), ¬ p.isAbove q ∧ ¬ q.isAbove p) ∧
    ∀ p ∈ (base.fields ++ variant.fields).map (·.1), ¬ Path.isAbove [.key base.options.discriminatorKey] p

theorem Apart.not_isAbove (h : s.Apart) (hp : p ∈ s.fields.map (·.1)) (hq : q ∈ s.fields.map (·.1)) :
    ¬ p.isAbove q := by
  obtain ⟨a, ha, rfl⟩ := mem_map.mp hp
  obtain ⟨b, hb, rfl⟩ := mem_map.mp hq
  exact (h.outermost hb).free a ha

theorem Apart.not_isAbove_key (h : s.Apart) (hp : p ∈ s.fields.map (·.1)) (k : String) : ¬ p.isAbove [.key k] := by
  obtain ⟨e, he, rfl⟩ := mem_map.mp hp
  exact fun ha => (h.1 e he).1 (covers_nil.mp (isAbove_append_iff.mp ha))

section Merge

variable {base variant : Schema} {name : String}

theorem mergeVariant_nodup (hb : base.Apart) : ((mergeVariant base variant name).fields.map (·.1)).Nodup :=
  override_nodup (overrides_nodup hb.nodup)

theorem mem_mergeVariant_iff (hv : variant.Apart) : e ∈ (mergeVariant base variant name).fields ↔
    e = ([.key base.options.discriminatorKey], variantField name) ∨ e.1 ≠ [.key base.options.discriminatorKey] ∧
      (e ∈ variant.fields ∨ e.1 ∉ variant.fields.map (·.1) ∧ e ∈ base.fields) :=
  mem_override_iff.trans (or_congr_right (and_congr_right' (mem_overrides_iff hv.nodup)))

theorem mem_mergeVariant_paths (hv : variant.Apart) : p ∈ (mergeVariant base variant name).fields.map (·.1) ↔
    p ∈ base.fields.map (·.1) ∨ p ∈ variant.fields.map (·.1) ∨ p = [.key base.options.discriminatorKey] := by
  simp only [mem_map, mem_mergeVariant_iff hv]
  constructor
  · rintro ⟨e, rfl | ⟨-, he | ⟨-, he⟩⟩, rfl⟩
    · exact .inr (.inr rfl)
    · exact .inr (.inl ⟨e, he, rfl⟩)
    · exact .inl ⟨e, he, rfl⟩
  · intro h
    by_cases hkey : p = [.key base.options.discriminatorKey]
    · exact ⟨_, .inl rfl, hkey.symm⟩
    by_cases hp : p ∈ variant.fields.map (·.1)
    · obtain ⟨e, he, rfl⟩ := mem_map.mp hp
      exact ⟨e, .inr ⟨hkey, .inl he⟩, rfl⟩
    · obtain ⟨e, he, rfl⟩ := h.resolve_right fun h => h.elim (fun h => hp (mem_map.mpr h)) hkey
      exact ⟨e, .inr ⟨hkey, .inr ⟨fun h => hp (mem_map.mpr h), he⟩⟩, rfl⟩

theorem mergeVariant_free_iff (hb : base.Apart) (hv : variant.Apart) (name : String) :
    (∀ p ∈ (mergeVariant base variant name).fields.map (·.1), ∀ q ∈ (mergeVariant base variant name).fields.map (·.1),
      ¬ p.isAbove q) ↔ Compatible base variant := by
  simp only [mem_mergeVariant_paths hv, Compatible, map_append, mem_append]
  constructor
  · exact fun h => ⟨fun p hp q hq => ⟨h p (.inl hp) q (.inr (.inl hq)), h q (.inr (.inl hq)) p (.inl hp)⟩,
      fun p hp => h _ (.inr (.inr rfl)) p (hp.imp_right .inl)⟩
  · rintro ⟨hcross, hkey⟩ p (hp | hp | rfl) q (hq | hq | rfl)
    · exact hb.not_isAbove hp hq
    · exact (hcross p hp q hq).1
    · exact hb.not_isAbove_key hp _
    · exact (hcross q hq p hp).2
    · exact hv.not_isAbove hp hq
    · exact hv.not_isAbove_key hp _
    · exact hkey q (.inl hq)
    · exact hkey q (.inr hq)
    · exact isAbove_irrefl

theorem mergeVariant_outermost (hb : base.Apart) (hv : variant.Apart) (he : e ∈ (mergeVariant base variant name).fields)
    (h : ∀ a ∈ (mergeVariant base variant name).fields, ¬ a.1.isAbove e.1) :
    (mergeVariant base variant name).Outermost e.1 e.2 := by
  have hkeys : e.1 ≠ [] ∧ ∀ seg ∈ e.1, seg.index? = none := by
    rcases (mem_mergeVariant_paths hv).mp (mem_map_of_mem he) with hp | hp | hp
    · obtain ⟨a, ha, hp⟩ := mem_map.mp hp
      exact hp ▸ hb.1 a ha
    · obtain ⟨a, ha, hp⟩ := mem_map.mp hp
      exact hp ▸ hv.1 a ha
    · rw [hp]
      simp [Seg.index?]
  exact ⟨hkeys.1, hkeys.2, field?_of_nodup (mergeVariant_nodup hb) he, h⟩

-- A variant has the fields of both schemas, its own over those of the base and its name over both. Each resolves
-- to its own declaration if none is below another one, which depends on the fields that are merged. Otherwise an
-- outermost field stands for what is declared below it.
theorem mergeVariant_resolve {o o' : SchemaOptions} {d d' : List (String × Field)} {vs vs' : List (String × Virtual)}
    (hb : build o d vs = .ok base) (hv : build o' d' vs' = .ok variant) (name : String) :
    let s := mergeVariant base variant name
    let key : Path := [.key base.options.discriminatorKey]
    (∀ e, e ∈ s.fields ↔ e = (key, variantField name) ∨
      e.1 ≠ key ∧ (e ∈ variant.fields ∨ e.1 ∉ variant.fields.map (·.1) ∧ e ∈ base.fields)) ∧
    ((∀ a ∈ s.fields, ∀ b ∈ s.fields, ¬ a.1.isAbove b.1) ↔ Compatible base variant) ∧
    (Compatible base variant → ∀ e ∈ s.fields, ∀ doc, s.resolve doc e.1 = .field e.2) ∧
    ∀ a ∈ s.fields, (∀ b ∈ s.fields, ¬ b.1.isAbove a.1) →
      ∀ r doc, s.resolve doc (a.1 ++ r) = (r.foldl Cursor.step (.field a.2 (doc.get? a.1))).resolution := by
  intro s key
  have hb := (build_fields hb).1
  have hv := (build_fields hv).1
  have hfree : (∀ a ∈ s.fields, ∀ b ∈ s.fields, ¬ a.1.isAbove b.1) ↔ Compatible base variant := by
    rw [← mergeVariant_free_iff hb hv name]
    simp only [s, List.forall_mem_map]
  refine ⟨fun e => mem_mergeVariant_iff hv, hfree, fun h e he doc => ?_, fun a ha hout r doc => ?_⟩
  · rw [resolve, (mergeVariant_outermost hb hv he fun a ha => hfree.mpr h a ha e he).foldl]
    rfl
  · rw [resolve, List.foldl_append, (mergeVariant_outermost hb hv ha hout).foldl]
    rfl

theorem mergeVariant_resolve_poster : ∃ base variant, build { id := false } [("title", .plain .string)] [] = .ok base ∧
    build { id := false } [("size.height", .plain .number)] [] = .ok variant ∧
    ∀ doc, (mergeVariant base variant "poster").resolve doc [.key "size", .key "height"] = .field (.plain .number) := by
  have hb : build { id := false } [("title", .plain .string)] [] = .ok _ := rfl
  have hv : build { id := false } [("size.height", .plain .number)] [] = .ok _ := rfl
  refine ⟨_, _, hb, hv, ?_⟩
  exact (mergeVariant_resolve hb hv "poster").2.2.1 ⟨by decide +kernel, by decide +kernel⟩
    ([.key "size", .key "height"], .plain .number) (.tail _ (.head _))

theorem mergeVariant_title_below : ∃ base variant, build { id := false } [("title", .plain .string)] [] = .ok base ∧
    build { id := false } [("title.short", .plain .string)] [] = .ok variant ∧
    ([.key "title", .key "short"], .plain .string) ∈ (mergeVariant base variant "poster").fields ∧
    ∀ doc, (mergeVariant base variant "poster").resolve doc [.key "title", .key "short"] = .undeclared :=
  ⟨_, _, rfl, rfl, .tail _ (.head _), fun _ => rfl⟩

end Merge

end Schema
end Dossier

import Dossier.Path

-- How paths lie above and below each other, how they are ordered and how they are spelled.

namespace Dossier

open List

namespace Seg

-- The segment that a text stands for.
def spell (k : String) : Seg :=
  ofChars k.toList

-- A segment is spelled if it is the one that its own text stands for. The key `0` is not, since its text stands
-- for an index.
def Spelled (s : Seg) : Prop :=
  spell s.toKey = s

instance (s : Seg) : Decidable s.Spelled :=
  inferInstanceAs (Decidable (_ = _))

theorem canonicalIndex?_eq_some_iff : canonicalIndex? cs = some i ↔ i < indexBound ∧ cs = Nat.toDigits 10 i := by
  simp only [canonicalIndex?, Option.ite_none_right_eq_some, Option.some.injEq]
  constructor
  · rintro ⟨⟨-, hlt, hd⟩, rfl⟩
    exact ⟨hlt, hd.symm⟩
  · rintro ⟨hlt, rfl⟩
    have hvalue : (Nat.toDigits 10 i).foldl (fun n c => 10 * n + (c.toNat - '0'.toNat)) 0 = i :=
      Nat.ofDigitChars_ten_toDigits
    rw [hvalue]
    refine ⟨⟨?_, hlt, rfl⟩, rfl⟩
    exact all_eq_true.mpr fun c hc => Nat.isDigit_of_mem_toDigits (by decide) (by decide) hc

theorem toKey_ofChars (cs : List Char) : (ofChars cs).toKey = String.ofList cs := by
  rw [ofChars]
  split
  · case _ i h => exact congrArg String.ofList (canonicalIndex?_eq_some_iff.mp h).2.symm
  · rfl

@[simp] theorem toKey_spell (k : String) : (spell k).toKey = k := by
  rw [spell, toKey_ofChars, String.ofList_toList]

theorem spell_spelled (k : String) : (spell k).Spelled := by
  simp [Spelled]

theorem spelled_key_iff : (Seg.key k).Spelled ↔ ∀ i < indexBound, k ≠ toString i := by
  have hdigits (i : Nat) : k = toString i ↔ k.toList = Nat.toDigits 10 i := by
    rw [Nat.toString_eq_ofList_toDigits, ← String.toList_inj, String.toList_ofList]
  simp only [Spelled, spell, toKey, ofChars, hdigits, ne_eq]
  cases hc : canonicalIndex? k.toList with
  | none =>
    refine ⟨fun _ i hi hk => ?_, fun _ => by simp⟩
    rw [canonicalIndex?_eq_some_iff.mpr ⟨hi, hk⟩] at hc
    cases hc
  | some i =>
    obtain ⟨hi, hk⟩ := canonicalIndex?_eq_some_iff.mp hc
    exact ⟨by simp, fun h => absurd hk (h i hi)⟩

theorem spelled_index_iff : (Seg.index i).Spelled ↔ i < indexBound := by
  have hindex : (Seg.index i).Spelled ↔ canonicalIndex? (Nat.toDigits 10 i) = some i := by
    rw [Spelled, spell, toKey, Nat.toString_eq_ofList_toDigits, String.toList_ofList, ofChars]
    cases canonicalIndex? (Nat.toDigits 10 i) <;> simp
  simp [hindex, canonicalIndex?_eq_some_iff]

theorem toKey_index : (Seg.index i).toKey ≠ "" ∧ '.' ∉ (Seg.index i).toKey.toList := by
  rw [ne_eq, ← String.toList_inj, toKey, Nat.toString_eq_ofList_toDigits, String.toList_ofList]
  refine ⟨Nat.toDigits_ne_nil, fun h => ?_⟩
  have hdigit : '.'.isDigit := Nat.isDigit_of_mem_toDigits (by decide) (by decide) h
  cases hdigit

theorem Spelled.toKey_injective {b : Seg} (ha : a.Spelled) (hb : b.Spelled) (h : a.toKey = b.toKey) : a = b := by
  rw [← ha, ← hb, h]

end Seg

namespace Path

variable {p q r : Path} {a b : Seg}

-- Prefixes

theorem covers_iff_initial : p.covers q ↔ p <+: q :=
  isPrefixOf_iff_prefix

theorem covers_iff : p.covers q ↔ ∃ r, q = p ++ r := by
  rw [covers_iff_initial]
  exact ⟨fun ⟨r, h⟩ => ⟨r, h.symm⟩, fun ⟨r, h⟩ => ⟨r, h.symm⟩⟩

@[simp] theorem covers_append (p r : Path) : p.covers (p ++ r) :=
  covers_iff.mpr ⟨r, rfl⟩

@[simp] theorem covers_refl (p : Path) : p.covers p :=
  covers_iff.mpr ⟨[], by simp⟩

@[simp] theorem nil_covers (p : Path) : covers [] p :=
  covers_iff.mpr ⟨p, rfl⟩

theorem covers_nil : p.covers [] ↔ p = [] := by
  simp [covers_iff_initial]

theorem cons_covers_cons : covers (a :: p) (b :: q) ↔ a = b ∧ p.covers q := by
  simp [covers_iff_initial]

theorem covers_trans (h₁ : p.covers q) (h₂ : q.covers r) : p.covers r :=
  covers_iff_initial.mpr ((covers_iff_initial.mp h₁).trans (covers_iff_initial.mp h₂))

theorem covers_total (h₁ : p.covers r) (h₂ : q.covers r) : p.covers q ∨ q.covers p := by
  simp only [covers_iff_initial] at *
  exact prefix_or_prefix_of_prefix h₁ h₂

theorem isAbove_iff : p.isAbove q ↔ ∃ r, r ≠ [] ∧ q = p ++ r := by
  simp only [isAbove, Bool.and_eq_true, decide_eq_true_eq, covers_iff]
  constructor
  · rintro ⟨hl, r, rfl⟩
    refine ⟨r, ?_, rfl⟩
    rintro rfl
    simp at hl
  · rintro ⟨r, hr, rfl⟩
    have := length_pos_iff.mpr hr
    exact ⟨by simp; omega, r, rfl⟩

theorem isAbove_iff_covers : p.isAbove q ↔ p.covers q ∧ p ≠ q := by
  rw [isAbove_iff, covers_iff]
  constructor
  · rintro ⟨r, hr, rfl⟩
    exact ⟨⟨r, rfl⟩, by simpa using hr⟩
  · rintro ⟨⟨r, rfl⟩, h⟩
    exact ⟨r, by simpa using h, rfl⟩

theorem covers_of_isAbove (h : p.isAbove q) : p.covers q :=
  (isAbove_iff_covers.mp h).1

@[simp] theorem not_isAbove_nil : ¬ p.isAbove [] := by
  simp [isAbove]

@[simp] theorem nil_isAbove_cons : isAbove [] (a :: p) :=
  isAbove_iff.mpr ⟨a :: p, by simp⟩

theorem cons_isAbove_cons : isAbove (a :: p) (b :: q) ↔ a = b ∧ p.isAbove q := by
  simp only [isAbove_iff_covers, cons_covers_cons, ne_eq, List.cons.injEq]
  grind

theorem append_covers_append : covers (p ++ q) (p ++ r) ↔ q.covers r := by
  simp [covers_iff, append_assoc]

theorem isAbove_irrefl : ¬ p.isAbove p := by
  simp [isAbove]

theorem ne_of_isAbove (h : p.isAbove q) : p ≠ q :=
  (isAbove_iff_covers.mp h).2

theorem isAbove_of_isAbove_covers (h₁ : p.isAbove q) (h₂ : q.covers r) : p.isAbove r := by
  obtain ⟨s, hs, rfl⟩ := isAbove_iff.mp h₁
  obtain ⟨t, rfl⟩ := covers_iff.mp h₂
  exact isAbove_iff.mpr ⟨s ++ t, by simp [hs], by simp⟩

theorem isAbove_of_covers_isAbove (h₁ : p.covers q) (h₂ : q.isAbove r) : p.isAbove r := by
  obtain ⟨s, rfl⟩ := covers_iff.mp h₁
  obtain ⟨t, ht, rfl⟩ := isAbove_iff.mp h₂
  exact isAbove_iff.mpr ⟨s ++ t, by simp [ht], by simp⟩

theorem isAbove_trans (h₁ : p.isAbove q) (h₂ : q.isAbove r) : p.isAbove r :=
  isAbove_of_isAbove_covers h₁ (covers_of_isAbove h₂)

theorem not_covers_of_isAbove (h : p.isAbove q) : ¬ q.covers p :=
  fun hc => isAbove_irrefl (isAbove_of_isAbove_covers h hc)

theorem isAbove_asymm (h : p.isAbove q) : ¬ q.isAbove p :=
  fun h' => not_covers_of_isAbove h (covers_of_isAbove h')

theorem ne_nil_of_isAbove (h : p.isAbove q) : q ≠ [] := by
  rintro rfl
  exact not_isAbove_nil h

theorem isAbove_append_iff : isAbove p (q ++ [a]) ↔ p.covers q := by
  constructor
  · intro h
    obtain ⟨x, hx, he⟩ := isAbove_iff.mp h
    rcases eq_nil_or_concat x with rfl | ⟨y, last, rfl⟩
    · exact absurd rfl hx
    · rw [concat_eq_append, ← append_assoc] at he
      exact covers_iff.mpr ⟨y, (append_inj' he rfl).1⟩
  · intro h
    obtain ⟨x, rfl⟩ := covers_iff.mp h
    exact isAbove_iff.mpr ⟨x ++ [a], by simp, by simp⟩

theorem eq_or_isAbove_of_covers (h : p.covers q) : p = q ∨ p.isAbove q := by
  by_cases he : p = q
  · exact .inl he
  · exact .inr (isAbove_iff_covers.mpr ⟨h, he⟩)

def Apart (p q : Path) : Prop :=
  ¬ p.covers q ∧ ¬ q.covers p

instance (p q : Path) : Decidable (p.Apart q) :=
  inferInstanceAs (Decidable (_ ∧ _))

theorem Apart.symm (h : p.Apart q) : q.Apart p :=
  ⟨h.2, h.1⟩

theorem cons_apart_cons : Apart (a :: p) (b :: q) ↔ a ≠ b ∨ p.Apart q := by
  simp only [Apart, cons_covers_cons]
  grind

-- Remainders and ancestors

theorem below?_eq_some_iff : p.below? q = some r ↔ p = q ++ r := by
  simp only [below?, Option.ite_none_right_eq_some, Option.some.injEq, covers_iff]
  constructor
  · rintro ⟨⟨s, rfl⟩, rfl⟩
    simp
  · rintro rfl
    exact ⟨⟨r, rfl⟩, by simp⟩

@[simp] theorem append_below? (p r : Path) : below? (p ++ r) p = some r :=
  below?_eq_some_iff.mpr rfl

@[simp] theorem below?_root (p : Path) : p.below? Path.root = some p :=
  below?_eq_some_iff.mpr rfl

theorem rebase?_eq_some_iff : p.rebase? old new = some q ↔ ∃ r, p = old ++ r ∧ q = new ++ r := by
  simp only [rebase?, Option.map_eq_some_iff, below?_eq_some_iff]
  exact ⟨fun ⟨r, h, e⟩ => ⟨r, h, e.symm⟩, fun ⟨r, h, e⟩ => ⟨r, h, e.symm⟩⟩

theorem mem_ancestors_iff : a' ∈ p.ancestors ↔ a' ≠ [] ∧ a'.isAbove p := by
  simp only [ancestors, mem_map, mem_range]
  constructor
  · rintro ⟨n, hn, rfl⟩
    have hl : 0 < p.length := by omega
    refine ⟨?_, ?_⟩
    · rw [ne_eq, take_eq_nil_iff]
      rintro (h | h)
      · omega
      · simp [h] at hl
    · refine isAbove_iff.mpr ⟨p.drop (n + 1), ?_, by simp⟩
      simp only [ne_eq, drop_eq_nil_iff]
      omega
  · rintro ⟨h, habove⟩
    obtain ⟨r, hr, rfl⟩ := isAbove_iff.mp habove
    have h₁ := length_pos_iff.mpr h
    have h₂ := length_pos_iff.mpr hr
    refine ⟨a'.length - 1, by simp; omega, ?_⟩
    rw [Nat.sub_add_cancel h₁]
    simp

-- Order

theorem compare_cons_cons : compare (a :: p : Path) (b :: q) = (compare a b).then (compare p q) :=
  List.compareLex_cons_cons

theorem compare_cons_lt : compare (a :: p : Path) (a :: q) = .lt ↔ compare p q = .lt := by
  simp

theorem index_le_of_compare_lt (h : compare (.index i :: p : Path) (.index j :: q) = .lt) : i ≤ j := by
  rw [compare_cons_cons, Seg.compare_index] at h
  cases hc : compare i j with
  | lt => exact Nat.le_of_lt (Nat.compare_eq_lt.mp hc)
  | eq => exact Nat.le_of_eq (Nat.compare_eq_eq.mp hc)
  | gt => simp [hc] at h

-- Spelling

-- All segments are spelled as the text of a path spells them.
def Spelled (p : Path) : Prop :=
  ∀ s ∈ p, s.Spelled

instance (p : Path) : Decidable p.Spelled :=
  inferInstanceAs (Decidable (∀ s ∈ p, s.Spelled))

@[simp] theorem spelled_nil : Spelled [] := by
  simp [Spelled]

@[simp] theorem spelled_cons : Spelled (a :: p) ↔ a.Spelled ∧ p.Spelled := by
  simp [Spelled]

theorem spelled_append : Spelled (p ++ q) ↔ p.Spelled ∧ q.Spelled :=
  forall_mem_append

theorem Spelled.of_covers (h : q.Spelled) (hc : p.covers q) : p.Spelled := by
  obtain ⟨r, rfl⟩ := covers_iff.mp hc
  exact (spelled_append.mp h).1

theorem parse_spelled (s : String) : (parse s).Spelled := by
  simp only [Spelled, parse, mem_map]
  rintro _ ⟨cs, -, rfl⟩
  simpa [Seg.spell] using Seg.spell_spelled (String.ofList cs)

end Path

-- An index is below the bound that texts have.
def Seg.Bounded (seg : Seg) : Prop :=
  seg.index?.isSome → seg.Spelled

instance (seg : Seg) : Decidable seg.Bounded :=
  inferInstanceAs (Decidable (seg.index?.isSome → seg.Spelled))

theorem Seg.eq_key_of_toKey {seg : Seg} (hk : (Seg.key k).Spelled) (hs : seg.Bounded) (h : seg.toKey = k) :
    seg = .key k := by
  cases seg with
  | key => exact congrArg Seg.key h
  | index i => exact (hs rfl).toKey_injective hk h

theorem Seg.index_toKey_injective (h : (Seg.index i).toKey = (Seg.index j).toKey) : i = j := by
  have hdigits : Nat.toDigits 10 i = Nat.toDigits 10 j := by
    have hchars := congrArg String.toList h
    simpa [toKey, Nat.toString_eq_ofList_toDigits] using hchars
  rw [← Nat.ofDigitChars_ten_toDigits (n := i), hdigits, Nat.ofDigitChars_ten_toDigits]

namespace Path

variable {p q : Path}

def Bounded (p : Path) : Prop :=
  ∀ seg ∈ p, seg.Bounded

instance (p : Path) : Decidable p.Bounded :=
  inferInstanceAs (Decidable (∀ seg ∈ p, seg.Bounded))

theorem bounded_append : Bounded (p ++ q) ↔ p.Bounded ∧ q.Bounded :=
  forall_mem_append

theorem bounded_of_keys (h : ∀ seg ∈ p, seg.index? = none) : p.Bounded := by
  intro seg hseg hi
  rw [h seg hseg] at hi
  cases hi

-- Texts

theorem splitDots_eq (cs : List Char) : splitDots cs = cs.splitOn '.' := by
  induction cs with
  | nil => rfl
  | cons c cs ih =>
    simp only [splitDots, ih, splitOn_cons_eq_if_modifyHead, beq_iff_eq]
    cases h : cs.splitOn '.' with
    | nil => exact absurd h (splitOn_ne_nil _ _)
    | cons part parts => rfl

theorem not_mem_splitDots (h : part ∈ splitDots cs) : '.' ∉ part := by
  induction cs generalizing part with
  | nil => simp_all [splitDots]
  | cons c cs ih =>
    rw [splitDots] at h
    split at h
    · rcases mem_cons.mp h with rfl | h
      · simp
      · exact ih h
    · case isFalse hc =>
      split at h
      · simp_all [Ne.symm hc]
      · case _ first rest hsplit =>
        rw [hsplit] at ih
        rcases mem_cons.mp h with rfl | h
        · simpa [Ne.symm hc] using ih mem_cons_self
        · exact ih (mem_cons_of_mem _ h)

theorem parse_eq (h : [] ∉ splitDots s.toList) : parse s = (splitDots s.toList).map Seg.ofChars := by
  rw [parse, filter_eq_self.mpr]
  exact fun part hpart => decide_eq_true fun he => h (he ▸ hpart)

theorem splitDots_text (hne : p ≠ []) (h : ∀ seg ∈ p, '.' ∉ seg.toKey.toList) :
    splitDots p.text.toList = p.map fun seg => seg.toKey.toList := by
  rw [splitDots_eq, text, String.toList_intercalate, map_map]
  exact splitOn_intercalate '.' (by simpa using h) (by simpa using hne)

-- All segments can be read back from their texts, also when these are joined.
def Legible (p : Path) : Prop :=
  ∀ seg ∈ p, seg.Spelled ∧ seg.toKey ≠ "" ∧ '.' ∉ seg.toKey.toList

theorem Legible.not_mem_splitDots (h : p.Legible) (hne : p ≠ []) : [] ∉ splitDots p.text.toList := by
  rw [splitDots_text hne fun seg hseg => (h seg hseg).2.2]
  simpa using fun seg hseg => (h seg hseg).2.1

theorem parse_text (h : p.Legible) : parse p.text = p := by
  by_cases hne : p = []
  · rw [hne]
    rfl
  · rw [parse_eq (h.not_mem_splitDots hne), splitDots_text hne fun seg hseg => (h seg hseg).2.2, map_map]
    exact (map_congr_left fun seg hseg => (h seg hseg).1).trans (map_id p)

theorem text_parse (h : [] ∉ splitDots s.toList) : (parse s).text = s := by
  have hmap : (splitDots s.toList).map ((String.toList ∘ Seg.toKey) ∘ Seg.ofChars) = splitDots s.toList :=
    (map_congr_left fun part _ => by simp [Seg.toKey_ofChars]).trans (map_id _)
  rw [← String.toList_inj, text, String.toList_intercalate, parse_eq h, map_map, map_map, hmap, splitDots_eq]
  exact intercalate_splitOn '.'

theorem parse_legible (s : String) : (parse s).Legible := by
  intro seg h
  refine ⟨parse_spelled s seg h, ?_⟩
  obtain ⟨part, hpart, rfl⟩ := mem_map.mp h
  obtain ⟨hpart, hne⟩ := mem_filter.mp hpart
  rw [Seg.toKey_ofChars, String.toList_ofList]
  exact ⟨by simpa [← String.toList_inj] using hne, not_mem_splitDots hpart⟩

theorem parse_text_iff : parse p.text = p ↔ p.Legible :=
  ⟨fun h => h ▸ parse_legible _, parse_text⟩

theorem text_parse_iff : (parse s).text = s ↔ s = "" ∨ [] ∉ splitDots s.toList := by
  constructor
  · intro h
    by_cases hne : parse s = []
    · exact .inl (h ▸ congrArg text hne)
    · exact .inr (h ▸ (parse_legible s).not_mem_splitDots hne)
  · rintro (rfl | h)
    · rfl
    · exact text_parse h

-- Every index is legible that a text can stand for, so beside the bound only the keys matter.
theorem legible_iff : p.Legible ↔ (∀ k, .key k ∈ p → k ≠ "" ∧ '.' ∉ k.toList ∧ ∀ i < Seg.indexBound, k ≠ toString i) ∧
    ∀ i, .index i ∈ p → i < Seg.indexBound := by
  constructor
  · intro h
    refine ⟨fun k hk => ?_, fun i hi => Seg.spelled_index_iff.mp (h _ hi).1⟩
    obtain ⟨hs, hne, hdot⟩ := h _ hk
    exact ⟨hne, hdot, Seg.spelled_key_iff.mp hs⟩
  · rintro ⟨hkeys, hindexes⟩ (k | i) hseg
    · obtain ⟨hne, hdot, hs⟩ := hkeys k hseg
      exact ⟨Seg.spelled_key_iff.mpr hs, hne, hdot⟩
    · exact ⟨Seg.spelled_index_iff.mpr (hindexes i hseg), Seg.toKey_index⟩

-- Reading is a left inverse of writing on exactly the paths whose keys have texts of their own, and a right
-- inverse on exactly the texts without empty segments.
theorem texts_correspond :
    (∀ s, parse (parse s).text = parse s) ∧
    (∀ p : Path, parse p.text = p ↔
      (∀ k, .key k ∈ p → k ≠ "" ∧ '.' ∉ k.toList ∧ ∀ i < Nat.pow 2 64, k ≠ toString i) ∧
      ∀ i, .index i ∈ p → i < Nat.pow 2 64) ∧
    ∀ s, (parse s).text = s ↔ s = "" ∨ [] ∉ s.toList.splitOn '.' := by
  refine ⟨fun s => parse_text (parse_legible s), fun p => parse_text_iff.trans legible_iff, fun s => ?_⟩
  rw [text_parse_iff, splitDots_eq]

end Path

end Dossier

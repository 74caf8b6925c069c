import Dossier.Proofs.Casting
import Dossier.Proofs.Numerals
import Mathlib.Data.List.TakeWhile
import Mathlib.Data.Option.Basic

-- The text of an instant is read back as the same instant exactly if its year has four digits and no sign. The
-- calendar gives every day a date that is valid and has the number of the day.

namespace Dossier

open List

namespace CivilDate

-- The calendar

theorem isLeap_iff {y : Int} : isLeap y ↔ y % 4 = 0 ∧ (y % 100 ≠ 0 ∨ y % 400 = 0) := by
  simp [isLeap]

theorem daysInMonth_le {y : Int} : daysInMonth y m ≤ 31 := by
  rw [daysInMonth]
  split
  · split <;> decide
  · split <;> decide

theorem year_of_era {doe : Int} (h₀ : 0 ≤ doe) (h₁ : doe ≤ 146096)
    (h : yoe = (doe - doe / 1460 + doe / 36524 - doe / 146096) / 365) :
    0 ≤ yoe ∧ yoe ≤ 399 ∧ 365 * yoe + yoe / 4 - yoe / 100 ≤ doe ∧
      (yoe < 399 → doe < 365 * (yoe + 1) + (yoe + 1) / 4 - (yoe + 1) / 100) := by
  -- The cases are the centuries of the era, of which the last one is a day longer.
  have hc : doe / 36524 = 0 ∨ doe / 36524 = 1 ∨ doe / 36524 = 2 ∨ doe / 36524 = 3 ∨ doe / 36524 = 4 := by omega
  have hcentury : yoe / 100 = doe / 36524 - doe / 146096 := by rcases hc with hc | hc | hc | hc | hc <;> omega
  have hleap : yoe / 4 ≤ doe / 1460 := by rcases hc with hc | hc | hc | hc | hc <;> omega
  refine ⟨by omega, by omega, by omega, fun hlt => ?_⟩
  have hnext : doe / 1460 ≤ (yoe + 1) / 4 := by rcases hc with hc | hc | hc | hc | hc <;> omega
  rcases hc with hc | hc | hc | hc | hc <;> omega

-- A year that starts in March is as long as the next one from January says.
theorem isLeap_of_last {era : Int} (h₀ : yoe ≤ 399)
    (h₁ : yoe < 399 → doe < 365 * (yoe + 1) + (yoe + 1) / 4 - (yoe + 1) / 100) (hdoe : doe ≤ 146096) :
    doe - (365 * yoe + yoe / 4 - yoe / 100) ≤ 364 ∨
      doe - (365 * yoe + yoe / 4 - yoe / 100) = 365 ∧ isLeap (yoe + era * 400 + 1) := by
  rw [isLeap_iff]
  have h₄ : (yoe + era * 400 + 1) % 4 = (yoe + 1) % 4 := by omega
  have h₁₀₀ : (yoe + era * 400 + 1) % 100 = (yoe + 1) % 100 := by omega
  have h₄₀₀ : (yoe + era * 400 + 1) % 400 = (yoe + 1) % 400 := by omega
  rw [h₄, h₁₀₀, h₄₀₀]
  rcases Int.lt_or_eq_of_le h₀ with hlt | rfl
  · have := h₁ hlt
    by_cases hc : (yoe + 1) % 100 = 0 <;> by_cases hf : (yoe + 1) % 4 = 0 <;> omega
  · omega

-- The date of a day of a year, both counted from March.
def ofMarch (y doy : Int) : CivilDate :=
  let mp := (5 * doy + 2) / 153
  let month := (if mp < 10 then mp + 3 else mp - 9).toNat
  { year := y + (if month ≤ 2 then 1 else 0), month, day := (doy - (153 * mp + 2) / 5 + 1).toNat }

theorem exists_ofMarch (n : Int) : ∃ era yoe doy : Int, ofDay n = ofMarch (yoe + era * 400) doy ∧
    n = era * 146097 + (yoe * 365 + yoe / 4 - yoe / 100 + doy) - 719468 ∧ 0 ≤ yoe ∧ yoe ≤ 399 ∧ 0 ≤ doy ∧
    (doy ≤ 364 ∨ doy = 365 ∧ isLeap (yoe + era * 400 + 1)) := by
  obtain ⟨doe, hdoe⟩ : ∃ doe, doe = (n + 719468) % 146097 := ⟨_, rfl⟩
  obtain ⟨yoe, hyoe⟩ : ∃ yoe, yoe = (doe - doe / 1460 + doe / 36524 - doe / 146096) / 365 := ⟨_, rfl⟩
  obtain ⟨h₀, h₁, h₂, h₃⟩ := year_of_era (by omega) (by omega) hyoe
  refine ⟨(n + 719468) / 146097, yoe, doe - (365 * yoe + yoe / 4 - yoe / 100), ?_, by omega, h₀, h₁, by omega,
    isLeap_of_last h₁ h₃ (by omega)⟩
  rw [hyoe, hdoe]
  rfl

-- The date of a day is one of its month and has the number of the day.
theorem ofDay_spec (n : Int) : (ofDay n).toDay = n ∧ 1 ≤ (ofDay n).month ∧ (ofDay n).month ≤ 12 ∧
    1 ≤ (ofDay n).day ∧ (ofDay n).day ≤ daysInMonth (ofDay n).year (ofDay n).month := by
  obtain ⟨era, yoe, doy, hof, rfl, h₀, h₁, hdoy, hlast⟩ := exists_ofMarch n
  rw [hof]
  have hm : (5 * doy + 2) / 153 ∈ [0, 1, 2, 3, 4, 5, 6, 7, 8, 9, 10, 11] := by
    simp only [mem_cons, not_mem_nil, or_false]
    omega
  have hera : (yoe + era * 400) / 400 = era ∧ (yoe + era * 400) % 400 = yoe := by omega
  simp only [mem_cons, not_mem_nil, or_false] at hm
  rcases hm with hm | hm | hm | hm | hm | hm | hm | hm | hm | hm | hm | hm <;>
    simp [ofMarch, toDay, daysInMonth, hm, hera] <;> grind

end CivilDate

-- Characters

theorem digitsToNat_lt {ds : List Char} (h : ∀ c ∈ ds, c.isDigit) : digitsToNat ds < Nat.pow 10 ds.length := by
  induction ds with
  | nil => decide
  | cons c ds ih =>
    have hc : digitsToNat [c] ≤ 9 := by
      have hle : c.toNat ≤ 57 := (Char.isDigit_iff_toNat.mp (h c mem_cons_self)).2
      change 10 * 0 + (c.toNat - 48) ≤ 9
      omega
    have hds := ih fun c hc => h c (mem_cons_of_mem _ hc)
    have hpow : Nat.pow 10 (ds.length + 1) = Nat.pow 10 ds.length * 10 := rfl
    have hmul := Nat.mul_le_mul_left (Nat.pow 10 ds.length) hc
    rw [← singleton_append, digitsToNat_append, length_append, length_singleton, Nat.add_comm 1, hpow]
    omega

theorem isBlank_of_isDigit {c : Char} (h : c.isDigit) : isBlank c = false := by
  obtain ⟨h₁, h₂⟩ : 48 ≤ c.toNat ∧ c.toNat ≤ 57 := Char.isDigit_iff_toNat.mp h
  simp [isBlank]
  omega

theorem dropWhile_isBlank {cs : List Char} (h : ∀ c ∈ cs.head?, isBlank c = false) : cs.dropWhile isBlank = cs := by
  cases cs with
  | nil => rfl
  | cons c cs => simp [h c rfl]

theorem trimChars_eq_self {cs : List Char} (hh : ∀ c ∈ cs.head?, isBlank c = false)
    (hl : ∀ c ∈ cs.getLast?, isBlank c = false) : trimChars cs = cs := by
  rw [trimChars, dropWhile_isBlank hh, dropWhile_isBlank (by rwa [head?_reverse]), reverse_reverse]

namespace Instant

variable {w : Nat} {i : Instant}

theorem digits_padded : Numeral.Digits (padded w n).toList := by
  rw [padded, String.toList_ofList]
  refine ⟨by simp, fun c hc => ?_⟩
  rcases mem_append.mp hc with hc | hc
  · rw [(mem_replicate.mp hc).2]
    rfl
  · exact digits_toDigits.2 c hc

@[simp] theorem digitsToNat_padded : digitsToNat (padded w n).toList = n := by
  simp [padded, digitsToNat_append, digitsToNat_zeros]

theorem length_padded (hw : 0 < w) (h : n < Nat.pow 10 w) : (padded w n).toList.length = w := by
  have hl : (Nat.toDigits 10 n).length ≤ w := (Nat.length_toDigits_le_iff (by decide) hw).mpr h
  simp only [padded, String.toList_ofList, length_append, length_replicate]
  omega

theorem digits?_padded (hw : 0 < w) (h : n < Nat.pow 10 w) : digits? w ((padded w n).toList ++ cs) = some (n, cs) := by
  have hl := length_padded hw h
  simp only [digits?, take_left' hl, drop_left' hl, digitsToNat_padded]
  exact if_pos ⟨hl, all_eq_true.mpr digits_padded.2⟩

theorem shortNumber?_padded (h : n < 100) : shortNumber? ((padded 2 n).toList ++ cs) = some (n, cs) := by
  have hl : (padded 2 n).toList.length = 2 := length_padded (by decide) h
  have hall : (padded 2 n).toList.takeWhile Char.isDigit = (padded 2 n).toList :=
    takeWhile_eq_self_iff.mpr digits_padded.2
  simp only [shortNumber?, dropWhile_isBlank fun c hc => isBlank_of_isDigit (digits_padded.head c hc),
    take_left' hl, hall]
  split
  · case _ heq => exact absurd heq digits_padded.1
  · rw [digitsToNat_padded, drop_left]

-- Instants

-- A second of a day, the last one of a minute where it is a leap second.
structure Proper (i : Instant) : Prop where
  second : i.second < 86400
  milli  : i.milli < 1000 ∨ 1000 ≤ i.milli ∧ i.milli < 2000 ∧ i.second % 60 = 59

abbrev year (i : Instant) : Int :=
  (CivilDate.ofDay i.day).year

theorem fraction?_lt {n : Nat} (h : fraction? cs = some (n, rest)) : n < 1000 := by
  rw [fraction?.eq_def] at h
  split at h
  · obtain ⟨ds, hds, h⟩ := Option.bind_eq_some_iff.mp h
    cases h
    have hdigits : ∀ c ∈ (ds.1 ++ ['0', '0']).take 3, c.isDigit := by
      intro c hc
      rcases mem_append.mp (mem_of_mem_take hc) with hc | hc
      · exact (Numeral.digits_of_scanDigits? hds).2.2 c hc
      · simp only [mem_cons, not_mem_nil, or_false, or_self] at hc
        rw [hc]
        rfl
    calc digitsToNat ((ds.1 ++ ['0', '0']).take 3)
      _ < Nat.pow 10 ((ds.1 ++ ['0', '0']).take 3).length := digitsToNat_lt hdigits
      _ ≤ Nat.pow 10 3 := Nat.pow_le_pow_right (by decide) (length_take_le ..)
  · cases h
    decide

theorem last_of_leap {second : Nat} (h : timeOfDay? cs = some (second, true, rest)) : second % 60 = 59 := by
  simp only [timeOfDay?, Option.bind_eq_bind, Option.bind_eq_some_iff] at h
  obtain ⟨hour, _, _, _, minute, _, _, _, last, _, _, _, h⟩ := h
  have heq := Option.some.inj h
  simp only [Prod.mk.injEq, decide_eq_true_eq] at heq
  omega

theorem offset?_minutes (h : offset? cs = some (offset, rest)) : offset % 60 = 0 := by
  cases cs with
  | nil => cases h
  | cons c cs =>
    simp only [offset?] at h
    split at h
    · cases h
      rfl
    split at h
    · simp only [Option.bind_eq_bind, Option.bind_eq_some_iff] at h
      obtain ⟨hours, _, _, _, minutes, _, _, _, h⟩ := h
      have heq := congrArg Prod.fst (Option.some.inj h)
      dsimp only at heq
      split at heq <;> omega
    · cases h

theorem proper_of_ofDateTime? (h : ofDateTime? cs = some i) : i.Proper := by
  simp only [ofDateTime?, Option.bind_eq_bind, Option.bind_eq_some_iff] at h
  obtain ⟨⟨date, _⟩, _, _, _, ⟨second, leap, _⟩, htime, ⟨milli, _⟩, hmilli, ⟨offset, _⟩, hoffset, _, _, h⟩ := h
  obtain rfl := Option.some.inj h
  have hlt := fraction?_lt hmilli
  have hminutes := offset?_minutes hoffset
  refine ⟨by dsimp only; omega, ?_⟩
  cases leap with
  | false => exact .inl hlt
  | true =>
    have hlast := last_of_leap htime
    refine .inr ?_
    simp only [if_true]
    omega

theorem proper_of_parse? (h : parse? s = some i) : i.Proper := by
  rcases Option.or_eq_some_iff.mp h with h | ⟨_, h⟩
  · exact proper_of_ofDateTime? h
  · simp only [ofDate?, Option.bind_eq_bind, Option.bind_eq_some_iff] at h
    obtain ⟨_, _, _, _, _, _, _, _, _, _, _, _, _, _, h⟩ := h
    obtain rfl := Option.some.inj h
    exact ⟨Nat.zero_lt_succ _, .inl (Nat.zero_lt_succ _)⟩

theorem proper_of_ofMillis? (h : ofMillis? ms = some i) : i.Proper := by
  rw [ofMillis?] at h
  split at h
  · cases h
    exact ⟨by dsimp only; omega, .inl (by dsimp only; omega)⟩
  · cases h

theorem toList_text : i.text.toList = (yearText (CivilDate.ofDay i.day).year).toList ++
    '-' :: ((padded 2 (CivilDate.ofDay i.day).month).toList ++ '-' :: ((padded 2 (CivilDate.ofDay i.day).day).toList ++
    'T' :: ((padded 2 (i.second / 3600)).toList ++ ':' :: ((padded 2 (i.second / 60 % 60)).toList ++
    ':' :: ((padded 2 (if i.milli < 1000 then i.second % 60 else i.second % 60 + 1)).toList ++
    '.' :: ((padded 3 (i.milli % 1000)).toList ++ ['Z'])))))) := by
  simp [text]

theorem literal?_cons : literal? c (c :: cs) = some cs :=
  if_pos rfl

theorem fraction?_padded (h : n < 1000) (hc : c.isDigit = false) :
    fraction? ('.' :: ((padded 3 n).toList ++ c :: cs)) = some (n, c :: cs) := by
  have hl : (padded 3 n).toList.length = 3 := length_padded (by decide) h
  rw [fraction?, Numeral.scanDigits?_append digits_padded (by simpa using hc)]
  simp only [Option.bind_eq_bind, Option.bind_some, take_left' hl, digitsToNat_padded]
  rfl

theorem timeOfDay?_padded {second : Nat} (hh : hour ≤ 23) (hm : minute ≤ 59) (hs : second ≤ 60) :
    timeOfDay? ((padded 2 hour).toList ++ ':' :: ((padded 2 minute).toList ++ ':' :: ((padded 2 second).toList ++ cs))) =
    some (hour * 3600 + minute * 60 + min second 59, decide (second = 60), cs) := by
  have hread {n : Nat} {cs : List Char} (h : n ≤ 60) : digits? 2 ((padded 2 n).toList ++ cs) = some (n, cs) :=
    digits?_padded (by decide) (Nat.lt_of_le_of_lt h (by decide))
  simp only [timeOfDay?, Option.bind_eq_bind, literal?_cons, Option.bind_some, hread hs, hread (Nat.le_trans hh (by decide)),
    hread (Nat.le_trans hm (by decide)), hh, hm, hs, and_self, guard_true, Option.pure_def]

theorem fullDate?_padded (hy : 0 ≤ date.year ∧ date.year ≤ 9999) (hm : date.month ≤ 12) (hd : date.day ≤ 31)
    (hv : date.isValid) : fullDate? ((padded 4 date.year.natAbs).toList ++
      '-' :: ((padded 2 date.month).toList ++ '-' :: ((padded 2 date.day).toList ++ cs))) = some (date, cs) := by
  have hread {n : Nat} {cs : List Char} (h : n ≤ 31) : digits? 2 ((padded 2 n).toList ++ cs) = some (n, cs) :=
    digits?_padded (by decide) (Nat.lt_of_le_of_lt h (by decide))
  have hyear {cs : List Char} : digits? 4 ((padded 4 date.year.natAbs).toList ++ cs) = some (date.year.natAbs, cs) :=
    digits?_padded (by decide) (show _ < 10000 by omega)
  simp only [fullDate?, Option.bind_eq_bind, literal?_cons, Option.bind_some, hyear, hread (Nat.le_trans hm (by decide)),
    hread hd, Int.natAbs_of_nonneg hy.1, hv, guard_true, Option.pure_def]

theorem ofDateTime?_text (hi : i.Proper) (hy : 0 ≤ i.year ∧ i.year ≤ 9999) : ofDateTime? i.text.toList = some i := by
  obtain ⟨hday, hm₁, hm₂, hd₁, hd₂⟩ := CivilDate.ofDay_spec i.day
  have hvalid : (CivilDate.ofDay i.day).isValid := by
    obtain ⟨hy₁, hy₂⟩ := hy
    simp only [CivilDate.isValid, Bool.and_eq_true, decide_eq_true_eq]
    exact ⟨⟨⟨⟨⟨Int.le_trans (by decide) hy₁, Int.le_trans hy₂ (by decide)⟩, hm₁⟩, hm₂⟩, hd₁⟩, hd₂⟩
  have hd : (CivilDate.ofDay i.day).day ≤ 31 := Nat.le_trans hd₂ CivilDate.daysInMonth_le
  have hfrac : i.milli % 1000 < 1000 := Nat.mod_lt _ (by decide)
  obtain ⟨hs, hmilli⟩ := hi
  have hlast : (if i.milli < 1000 then i.second % 60 else i.second % 60 + 1) ≤ 60 := by split <;> omega
  rw [toList_text, yearText, if_pos hy]
  simp only [ofDateTime?, Option.bind_eq_bind, fullDate?_padded hy hm₂ hd hvalid, separator?, true_or, if_true,
    Option.bind_some, timeOfDay?_padded (show i.second / 3600 ≤ 23 by omega) (show i.second / 60 % 60 ≤ 59 by omega) hlast,
    fraction?_padded hfrac (show 'Z'.isDigit = false from rfl), offset?, isEmpty_nil, guard_true, Option.pure_def]
  have hsecond : i.second / 3600 * 3600 + i.second / 60 % 60 * 60 +
      min (if i.milli < 1000 then i.second % 60 else i.second % 60 + 1) 59 = i.second := by
    split <;> omega
  have hleap : (if i.milli < 1000 then i.second % 60 else i.second % 60 + 1) = 60 ↔ ¬ i.milli < 1000 := by
    split <;> omega
  rw [hsecond, hday]
  simp only [hleap, decide_eq_true_eq]
  rw [Option.some.injEq]
  cases i
  simp only [Instant.mk.injEq] at *
  refine ⟨by omega, by omega, ?_⟩
  split <;> omega

theorem yearText_signed (h : ¬ (0 ≤ y ∧ y ≤ 9999)) :
    ∃ c, (c = '-' ∨ c = '+') ∧ (yearText y).toList = c :: (padded 4 y.natAbs).toList := by
  rw [yearText, if_neg h, String.toList_append]
  by_cases hneg : y < 0
  · exact ⟨'-', .inl rfl, by rw [if_pos hneg]; rfl⟩
  · exact ⟨'+', .inr rfl, by rw [if_neg hneg]; rfl⟩

theorem digits?_sign (hc : c = '-' ∨ c = '+') : digits? (n + 1) (c :: cs) = none := by
  refine if_neg fun h => ?_
  rcases hc with rfl | rfl <;> simp at h

-- A date alone that starts in the same way leaves the time of the day unread.
theorem ofDate?_signed {day : Nat} (hc : c = '-' ∨ c = '+') (hm : month < 100) (hd : day < 100) :
    ofDate? (c :: (padded w n).toList ++ '-' :: ((padded 2 month).toList ++ '-' :: ((padded 2 day).toList ++ 'T' :: cs))) =
    none := by
  have hscan {rest : List Char} : Numeral.scanDigits? ((padded w n).toList ++ '-' :: rest) =
      some ((padded w n).toList, '-' :: rest) := Numeral.scanDigits?_append digits_padded (by simp)
  obtain ⟨y, hyear⟩ : ∃ y, ∀ rest, year? (c :: (padded w n).toList ++ '-' :: rest) = some (y, '-' :: rest) := by
    rcases hc with rfl | rfl
    · exact ⟨- n, fun rest => by simp [year?, isBlank, hscan]⟩
    · exact ⟨n, fun rest => by simp [year?, isBlank, hscan]⟩
  simp only [ofDate?, Option.bind_eq_bind, hyear, literal?_cons, Option.bind_some, shortNumber?_padded hm,
    shortNumber?_padded hd]
  rfl

theorem trimChars_text : trimChars i.text.toList = i.text.toList := by
  refine trimChars_eq_self ?_ ?_
  · rw [toList_text]
    by_cases hy : 0 ≤ i.year ∧ i.year ≤ 9999
    · rw [yearText, if_pos hy]
      exact fun c hc => isBlank_of_isDigit (digits_padded.head c hc)
    · obtain ⟨c, hc, htext⟩ := yearText_signed hy
      rw [htext]
      rcases hc with rfl | rfl <;> simp [isBlank]
  · rw [text, String.toList_append, getLast?_append]
    simp [isBlank]

-- The text of an instant is read back exactly if its year is written without a sign.
theorem parse?_text (hi : i.Proper) : parse? i.text = if 0 ≤ i.year ∧ i.year ≤ 9999 then some i else none := by
  rw [parse?, trimChars_text]
  by_cases hy : 0 ≤ i.year ∧ i.year ≤ 9999
  · rw [ofDateTime?_text hi hy, Option.some_or, if_pos hy]
  · obtain ⟨-, -, hm, -, hd⟩ := CivilDate.ofDay_spec i.day
    have hd := Nat.le_trans hd CivilDate.daysInMonth_le
    obtain ⟨c, hc, htext⟩ := yearText_signed hy
    rw [if_neg hy, toList_text, htext, ofDate?_signed hc (by omega) (by omega), Option.or_none, ofDateTime?, fullDate?,
      cons_append, digits?_sign hc]
    rfl

end Instant

namespace Cast

theorem proper_of_instant? (h : instant? v = some i) : i.Proper := by
  cases v with
  | str s => exact Instant.proper_of_parse? h
  | num n =>
    obtain ⟨_, _, h⟩ := Option.bind_eq_some_iff.mp h
    exact Instant.proper_of_ofMillis? h
  | null | bool | arr | obj => cases h

def undatable (ctx : CastContext) (v : Value) : CastFailure :=
  .cast { path := ctx.path, target := .type .date, value := v, reason := none }

theorem date_outcome (ctx : CastContext) (v : Value) (e : Effects) : (date ctx v).outcome e =
    ((instant? v).elim (.error (undatable ctx v)) (.ok <| .str ·.text), e) := by
  rw [date]
  cases instant? v <;> rfl

-- A text that a value is cast to is itself cast to the same text exactly if its year has no sign. A year before 0
-- or after 9999 is written with one, and its text is refused.
theorem date_recast (ctx ctx' : CastContext) (v w : Value) (e e' f : Effects)
    (h : (date ctx v).outcome e = (.ok w, f)) : ∃ i, instant? v = some i ∧ w = .str i.text ∧
      (date ctx' w).outcome e' = (if 0 ≤ i.year ∧ i.year ≤ 9999 then .ok w else .error (undatable ctx' w), e') := by
  rw [date_outcome] at h
  cases hv : instant? v with
  | none =>
    rw [hv] at h
    cases h
  | some i =>
    rw [hv] at h
    cases h
    refine ⟨i, rfl, rfl, ?_⟩
    rw [date_outcome, instant?, Instant.parse?_text (proper_of_instant? hv)]
    split <;> rfl

theorem date_recast_leap :
    (date { path := [.key "due"], root := [] } (.str "2017-01-01T05:29:60.25+05:30")).outcome {} =
      (.ok (.str "2016-12-31T23:59:60.250Z"), {}) ∧
    (date { path := [.key "due"], root := [] } (.str "2016-12-31T23:59:60.250Z")).outcome {} =
      (.ok (.str "2016-12-31T23:59:60.250Z"), {}) := by
  have hcast : (date { path := [.key "due"], root := [] } (.str "2017-01-01T05:29:60.25+05:30")).outcome {} =
      (.ok (.str "2016-12-31T23:59:60.250Z"), {}) := by rfl
  obtain ⟨i, hi, -, hagain⟩ := date_recast _ { path := [.key "due"], root := [] } _ _ _ {} _ hcast
  obtain rfl : (⟨17166, 86399, 1250⟩ : Instant) = i := Option.some.inj hi
  exact ⟨hcast, hagain⟩

theorem signed_date_refused : (date { path := [.key "due"], root := [] } (.num (.int 253402300800000))).outcome {} =
      (.ok (.str "+10000-01-01T00:00:00.000Z"), {}) ∧
    (date { path := [.key "due"], root := [] } (.str "+10000-01-01T00:00:00.000Z")).outcome {} =
      (.error (undatable { path := [.key "due"], root := [] } (.str "+10000-01-01T00:00:00.000Z")), {}) :=
  ⟨by rfl, by rfl⟩

end Cast
end Dossier

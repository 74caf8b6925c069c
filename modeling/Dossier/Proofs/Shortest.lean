import Dossier.Proofs.Numerals

-- The decimal that is written for a double lies in the interval of numbers that round to it, and in no other one.

namespace Dossier

namespace Double

variable {x y : Double} {a b c : Nat}

-- Intervals

-- The number `a / b`, in quarters of a unit, rounds to `x`.
def Covers (x : Double) (a b : Nat) : Prop :=
  if x.mantissa % 2 = 0 then x.low * b ≤ a ∧ a ≤ x.high * b else x.low * b < a ∧ a < x.high * b

theorem covers_iff : x.covers a b = true ↔ x.Covers a b := by
  rw [covers, Covers]
  split <;> exact decide_eq_true_iff

theorem Covers.bounds (h : x.Covers a b) : x.low * b ≤ a ∧ a ≤ x.high * b := by
  rw [Covers] at h
  split at h
  · exact h
  · exact ⟨Nat.le_of_lt h.1, Nat.le_of_lt h.2⟩

theorem covers_of_lt (hl : x.low * b < a) (hh : a < x.high * b) : x.Covers a b := by
  rw [Covers]
  split
  · exact ⟨Nat.le_of_lt hl, Nat.le_of_lt hh⟩
  · exact ⟨hl, hh⟩

theorem covers_mul (hc : 0 < c) : x.Covers (a * c) (b * c) ↔ x.Covers a b := by
  simp only [Covers, ← Nat.mul_assoc, Nat.mul_le_mul_right_iff hc, Nat.mul_lt_mul_right hc]

theorem rank_eq : x.rank = x.shift * Nat.pow 2 52 + x.mantissa := by
  have hP : Nat.pow 2 52 = 4503599627370496 := rfl
  simp only [mantissa, shift, hP]
  omega

theorem mantissa_lt : x.mantissa < 2 * Nat.pow 2 52 := by
  have hP : Nat.pow 2 52 = 4503599627370496 := rfl
  simp only [mantissa, shift, hP]
  omega

theorem le_mantissa (h : 0 < x.shift) : Nat.pow 2 52 ≤ x.mantissa := by
  have hP : Nat.pow 2 52 = 4503599627370496 := rfl
  simp only [mantissa, shift, hP] at h ⊢
  omega

theorem units_eq : x.units = x.mantissa * x.gap := rfl

theorem pow_pos (ha : 0 < a) : 0 < Nat.pow a b :=
  Nat.pow_pos ha

theorem gap_pos : 0 < x.gap :=
  pow_pos (by decide)

theorem two_mul_pow_le (h : a < b) : 2 * Nat.pow 2 a ≤ Nat.pow 2 b := by
  have hpow : 2 ^ (a + 1) ≤ 2 ^ b := Nat.pow_le_pow_right (by decide) h
  rwa [Nat.pow_succ'] at hpow

theorem gap_congr (h : x.shift = y.shift) : x.gap = y.gap := by
  rw [gap, gap, h]

-- Neighbours have mantissas of different parity.
theorem units_add_gap_le (h : x.rank < y.rank) :
    x.units + x.gap ≤ y.units ∧ (x.units + x.gap = y.units → (x.mantissa % 2 = 0 ↔ y.mantissa % 2 ≠ 0)) := by
  have hP : Nat.pow 2 52 = 4503599627370496 := rfl
  have hx := mantissa_lt (x := x)
  have hy := mantissa_lt (x := y)
  have hxs := le_mantissa (x := x)
  have hys := le_mantissa (x := y)
  have hgap := gap_pos (x := x)
  have hgaps : x.shift < y.shift → 2 * x.gap ≤ y.gap := two_mul_pow_le
  have hgaps' := gap_congr (x := x) (y := y)
  rw [x.rank_eq, y.rank_eq, hP] at h
  rw [units_eq, units_eq, ← Nat.succ_mul]
  rw [hP] at hx hy hxs hys
  generalize x.mantissa = m, y.mantissa = n, x.shift = s, y.shift = r, x.gap = g, y.gap = g' at *
  by_cases hs : s < r
  · have hgaps := hgaps hs
    have hle : m.succ * g ≤ 9007199254740992 * g := Nat.mul_le_mul_right _ (by omega)
    have hle' : 4503599627370496 * g' ≤ n * g' := Nat.mul_le_mul_right _ (by omega)
    refine ⟨by omega, fun heq => ?_⟩
    have hm : m.succ = 9007199254740992 := Nat.eq_of_mul_eq_mul_right hgap (by omega)
    have hn : n = 4503599627370496 := Nat.eq_of_mul_eq_mul_right (show 0 < g' by omega) (by omega)
    omega
  · obtain rfl := hgaps' (by omega)
    refine ⟨Nat.mul_le_mul_right _ (by omega), fun heq => ?_⟩
    have := Nat.eq_of_mul_eq_mul_right hgap heq
    omega

-- The lower end of an interval is not below the middle between the double and any smaller one.
theorem middle_le_low (h : x.rank < y.rank) : 2 * (x.units + y.units) ≤ y.low := by
  have hP : Nat.pow 2 52 = 4503599627370496 := rfl
  have hx := mantissa_lt (x := x)
  have hy := mantissa_lt (x := y)
  have hxs := le_mantissa (x := x)
  have hys := le_mantissa (x := y)
  have hgaps : x.shift < y.shift → 2 * x.gap ≤ y.gap := two_mul_pow_le
  have hgaps' := gap_congr (x := x) (y := y)
  have hunits := (units_add_gap_le h).1
  rw [x.rank_eq, y.rank_eq, hP] at h
  rw [low]
  rw [units_eq, units_eq] at *
  rw [hP] at *
  generalize x.mantissa = m, y.mantissa = n, x.shift = s, y.shift = r, x.gap = g, y.gap = g' at *
  by_cases hs : s < r
  · have hgaps := hgaps hs
    have hle : m * g ≤ 9007199254740991 * g := Nat.mul_le_mul_right _ (by omega)
    split
    · case isTrue hnarrow =>
      rw [hnarrow.1]
      omega
    · have hle' : 4503599627370497 * g' ≤ n * g' := Nat.mul_le_mul_right _ (by omega)
      omega
  · obtain rfl := hgaps' (by omega)
    rw [if_neg (by omega)]
    omega

-- The upper end of an interval is not above the middle between the double and any larger one.
theorem high_le_middle (h : x.rank < y.rank) : x.high ≤ 2 * (x.units + y.units) := by
  have := (units_add_gap_le h).1
  rw [high]
  omega

theorem high_le_low (h : x.rank < y.rank) : x.high ≤ y.low :=
  Nat.le_trans (high_le_middle h) (middle_le_low h)

-- Intervals that touch belong to mantissas of different parity, and only one of them has the end.
theorem not_covers_of_lt (h : x.rank < y.rank) (hb : 0 < b) (hx : x.Covers a b) : ¬ y.Covers a b := by
  intro hy
  have hmul : x.high * b ≤ y.low * b := Nat.mul_le_mul_right b (high_le_low h)
  have hxb := hx.bounds
  have hyb := hy.bounds
  have htouch : x.high = y.low := Nat.eq_of_mul_eq_mul_right hb (by omega)
  have hparity : x.mantissa % 2 = 0 ↔ y.mantissa % 2 ≠ 0 := by
    have hmiddle := middle_le_low h
    rw [← htouch, high] at hmiddle
    obtain ⟨hle, hparity⟩ := units_add_gap_le h
    exact hparity (by omega)
  rw [Covers] at hx hy
  rw [htouch] at hx
  by_cases heven : x.mantissa % 2 = 0
  · rw [if_neg (hparity.mp heven)] at hy
    omega
  · rw [if_neg heven] at hx
    omega

theorem rank_eq_of_covers (hb : 0 < b) (hx : x.Covers a b) (hy : y.Covers a b) : x.rank = y.rank := by
  rcases Nat.lt_trichotomy x.rank y.rank with hlt | heq | hgt
  · exact absurd hy (not_covers_of_lt hlt hb hx)
  · exact heq
  · exact absurd hx (not_covers_of_lt hgt hb hy)

end Double

-- Decimals as quotients

namespace Decimal

variable {d d' : Decimal} {x : Double} {n : Nat}

-- A decimal is the quotient of these two, in quarters of a unit.
def num (d : Decimal) : Nat :=
  d.digits * (4 * Double.unitsInOne * Nat.pow 10 d.exp.toNat)

def den (d : Decimal) : Nat :=
  Nat.pow 10 (-d.exp).toNat

theorem den_pos : 0 < d.den :=
  Double.pow_pos (by decide)

theorem covers_pads (h : d.Pads d') : x.Covers d'.num d'.den ↔ x.Covers d.num d.den := by
  obtain ⟨k, hdigits, hexp⟩ := h
  -- Both parts of the quotient are multiplied by the same power of ten.
  obtain ⟨j, hj, hj'⟩ : ∃ j, k + d'.exp.toNat = d.exp.toNat + j ∧ (-d'.exp).toNat = (-d.exp).toNat + j :=
    ⟨(-d'.exp).toNat - (-d.exp).toNat, by omega, by omega⟩
  have hnum : d'.num = d.num * 10 ^ j := by
    have hpow : 10 ^ k * 10 ^ d'.exp.toNat = 10 ^ d.exp.toNat * 10 ^ j := by
      rw [← Nat.pow_add, ← Nat.pow_add, hj]
    simp only [num, hdigits, Nat.pow_eq]
    grind
  have hden : d'.den = d.den * 10 ^ j := by
    simp only [den, hj', Nat.pow_eq, Nat.pow_add]
  rw [hnum, hden]
  exact Double.covers_mul (Nat.pow_pos (by decide))

theorem strip_pads : (strip n d).Pads d := by
  induction n generalizing d with
  | zero => exact ⟨0, by simp [strip], by simp [strip]⟩
  | succ n ih =>
    rw [strip]
    split
    · case isTrue hzero =>
      obtain ⟨k, hdigits, hexp⟩ := ih (d := ⟨d.digits / 10, d.exp + 1⟩)
      dsimp only at hdigits hexp
      refine ⟨k + 1, ?_, ?_⟩
      · rw [show Nat.pow 10 (k + 1) = Nat.pow 10 k * 10 from rfl, ← Nat.mul_assoc, ← hdigits]
        omega
      · omega
    · exact ⟨0, by simp, by simp⟩

end Decimal

-- The grid of seventeen digits

namespace Double

variable {x y : Double} {tie : Tie} {e : Int} {c n : Nat}

-- The largest multiple of `10 ^ e` up to the double, as a multiplier.
def floorOn (x : Double) (e : Int) : Nat :=
  4 * x.units * Nat.pow 10 (-e).toNat / (4 * unitsInOne * Nat.pow 10 e.toNat)

theorem nearer_cases : nearer tie value step c = c ∨ nearer tie value step c = c + 1 := by
  unfold nearer
  grind

theorem onGrid?_cases (x : Double) (tie : Tie) (e : Int) :
    (∃ n, x.onGrid? tie e = some n ∧ x.Covers (Decimal.num ⟨n, e⟩) (Decimal.den ⟨n, e⟩)) ∨ x.onGrid? tie e = none ∧
        ∀ n, n = x.floorOn e ∨ n = x.floorOn e + 1 → ¬ x.Covers (Decimal.num ⟨n, e⟩) (Decimal.den ⟨n, e⟩) := by
  simp only [onGrid?, floorOn, ← covers_iff, Decimal.num, Decimal.den]
  generalize 4 * x.units * Nat.pow 10 (-e).toNat / (4 * unitsInOne * Nat.pow 10 e.toNat) = c
  split
  · case isTrue hc =>
    split
    · case isTrue hc' =>
      refine .inl ⟨_, rfl, ?_⟩
      rcases nearer_cases with h | h
      · rw [h]
        exact hc
      · rw [h]
        exact hc'
    · exact .inl ⟨_, rfl, hc⟩
  · case isFalse hc =>
    split
    · case isTrue hc' => exact .inl ⟨_, rfl, hc'⟩
    · case isFalse hc' =>
      refine .inr ⟨rfl, fun n hn => ?_⟩
      rcases hn with rfl | rfl
      · exact hc
      · exact hc'

theorem pow_decimalLength_le (h : 0 < n) : Nat.pow 10 (decimalLength n - 1) ≤ n := by
  have hpos : 0 < decimalLength n := Nat.length_toDigits_pos
  by_cases hone : decimalLength n - 1 = 0
  · rw [hone]
    exact h
  · refine Nat.le_of_not_lt fun hlt => ?_
    have := (Nat.length_toDigits_le_iff (by decide) (Nat.pos_of_ne_zero hone)).mpr hlt
    rw [← decimalLength] at this
    omega

theorem unitsInOne_pos : 0 < unitsInOne := by
  unfold unitsInOne
  decide +kernel

theorem unitsInOne_le : unitsInOne ≤ Nat.pow 10 400 := by
  unfold unitsInOne
  decide +kernel

-- The grid of seventeen digits is finer than the doubles, by more than the factor by which the
-- mantissa is below `10 ^ 16`.
theorem step_lt (hx : 0 < x.units) (hc : c * x.mantissa < Nat.pow 10 16) (he : e = x.pointPosition - 17) :
    c * (unitsInOne * Nat.pow 10 e.toNat) < x.gap * Nat.pow 10 (-e).toNat := by
  rw [pointPosition] at he
  have hone := unitsInOne_pos
  have htop : 0 < x.units * Nat.pow 10 400 / unitsInOne :=
    Nat.div_pos (Nat.le_trans unitsInOne_le (Nat.le_mul_of_pos_left _ hx)) hone
  have hle := (Nat.le_div_iff_mul_le hone).mp (pow_decimalLength_le htop)
  have hlen : 0 < decimalLength (x.units * Nat.pow 10 400 / unitsInOne) := Nat.length_toDigits_pos
  generalize decimalLength (x.units * Nat.pow 10 400 / unitsInOne) = l at *
  rw [units_eq] at hle
  have ht := Nat.lt_of_lt_of_le hone unitsInOne_le
  generalize unitsInOne = q at *
  have hpow : 10 ^ (l - 1) * Nat.pow 10 (-e).toNat = Nat.pow 10 400 * 10 ^ 16 * Nat.pow 10 e.toNat := by
    simp only [Nat.pow_eq, ← Nat.pow_add]
    congr 1
    omega
  generalize Nat.pow 10 400 = t at *
  have hpos : 0 < x.gap * t * Nat.pow 10 e.toNat :=
    Nat.mul_pos (Nat.mul_pos gap_pos ht) (pow_pos (by decide))
  refine Nat.lt_of_mul_lt_mul_left (a := 10 ^ (l - 1)) ?_
  calc 10 ^ (l - 1) * (c * (q * Nat.pow 10 e.toNat))
    _ = c * (10 ^ (l - 1) * q) * Nat.pow 10 e.toNat := by grind
    _ ≤ c * (x.mantissa * x.gap * t) * Nat.pow 10 e.toNat :=
      Nat.mul_le_mul_right _ (Nat.mul_le_mul_left _ hle)
    _ = c * x.mantissa * (x.gap * t * Nat.pow 10 e.toNat) := by grind
    _ < 10 ^ 16 * (x.gap * t * Nat.pow 10 e.toNat) := Nat.mul_lt_mul_of_pos_right hc hpos
    _ = 10 ^ (l - 1) * (x.gap * Nat.pow 10 (-e).toNat) := by grind

theorem near_multiple (hs : s < 4 * g) (hg : 2 * g ≤ v) (hle : c * s ≤ v) (hlt : v < c * s + s) :
    ∃ n, (n = c ∨ n = c + 1) ∧ v - 2 * g < n * s ∧ n * s < v + 2 * g := by
  have hnext : (c + 1) * s = c * s + s := by rw [Nat.add_mul, Nat.one_mul]
  by_cases hhalf : 2 * v ≤ 2 * (c * s) + s
  · exact ⟨c, .inl rfl, by omega, by omega⟩
  · exact ⟨c + 1, .inr rfl, by omega, by omega⟩

theorem covers_floorOn (hx : 0 < x.units) (he : e = x.pointPosition - 17) :
    ∃ n, (n = x.floorOn e ∨ n = x.floorOn e + 1) ∧ x.Covers (Decimal.num ⟨n, e⟩) (Decimal.den ⟨n, e⟩) := by
  have hP : Nat.pow 2 52 = 4503599627370496 := rfl
  have hten : Nat.pow 10 16 = 10000000000000000 := rfl
  have hfine := step_lt (c := 1) hx (by have := x.mantissa_lt; omega) he
  have hfiner : x.mantissa = Nat.pow 2 52 → _ := fun h => step_lt (c := 2) hx (by omega) he
  have hstep : 0 < 4 * unitsInOne * Nat.pow 10 e.toNat :=
    Nat.mul_pos (Nat.mul_pos (by decide) unitsInOne_pos) (pow_pos (by decide))
  have hvalue : x.gap * Nat.pow 10 (-e).toNat ≤ x.units * Nat.pow 10 (-e).toNat := by
    rw [units_eq] at hx ⊢
    exact Nat.mul_le_mul_right _ (Nat.le_mul_of_pos_left _ (Nat.pos_of_mul_pos_right hx))
  have hfloor := Nat.div_mul_le_self (4 * x.units * Nat.pow 10 (-e).toNat) (4 * unitsInOne * Nat.pow 10 e.toNat)
  have hceil := Nat.lt_div_mul_add (a := 4 * x.units * Nat.pow 10 (-e).toNat) hstep
  rw [← floorOn] at hfloor hceil
  simp only [Decimal.num, Decimal.den, Nat.mul_assoc, Nat.one_mul] at *
  by_cases hnarrow : x.mantissa = Nat.pow 2 52 ∧ 0 < x.shift
  · have hfiner := hfiner hnarrow.1
    refine ⟨_, .inr rfl, covers_of_lt ?_ ?_⟩
    · rw [low, if_pos hnarrow, Nat.sub_mul, Nat.add_mul, Nat.mul_assoc]
      omega
    · simp only [high, Nat.add_mul, Nat.mul_assoc]
      omega
  · obtain ⟨n, hn, hlow, hhigh⟩ :=
      near_multiple (g := x.gap * Nat.pow 10 (-e).toNat) (by omega) (by omega) hfloor hceil
    refine ⟨n, hn, covers_of_lt ?_ ?_⟩
    · rw [low, if_neg hnarrow, Nat.sub_mul, Nat.mul_assoc, Nat.mul_assoc]
      exact hlow
    · rw [high, Nat.add_mul, Nat.mul_assoc, Nat.mul_assoc]
      exact hhigh

theorem exists_onGrid? (tie : Tie) (hx : 0 < x.units) : ∃ n, x.onGrid? tie (x.pointPosition - 17) = some n := by
  rcases onGrid?_cases x tie (x.pointPosition - 17) with ⟨n, hn, _⟩ | ⟨_, hnone⟩
  · exact ⟨n, hn⟩
  · obtain ⟨n, hn, hcov⟩ := covers_floorOn hx rfl
    exact absurd hcov (hnone n hn)

theorem covers_of_onGrid? (h : x.onGrid? tie e = some n) : x.Covers (Decimal.num ⟨n, e⟩) (Decimal.den ⟨n, e⟩) := by
  rcases onGrid?_cases x tie e with ⟨m, hm, hcov⟩ | ⟨hnone, _⟩
  · rw [h] at hm
    cases hm
    exact hcov
  · rw [h] at hnone
    cases hnone

theorem units_pos (h : x.rank ≠ 0) : 0 < x.units := by
  rw [units_eq]
  refine Nat.mul_pos ?_ gap_pos
  have hshift := x.le_mantissa
  have hrank := x.rank_eq
  have hP : Nat.pow 2 52 = 4503599627370496 := rfl
  rw [hP] at hshift hrank
  rcases Nat.eq_zero_or_pos x.shift with hzero | hpos
  · rw [hzero] at hrank
    omega
  · have := hshift hpos
    omega

theorem covers_shortest (h : x.rank ≠ 0) : x.Covers (x.shortest tie).num (x.shortest tie).den := by
  rw [shortest]
  cases hfind : (List.range 17).findSome? fun (i : Nat) =>
    (x.onGrid? tie (x.pointPosition - (i + 1))).map fun n => Decimal.strip 17 ⟨n, x.pointPosition - (i + 1)⟩ with
  | none =>
    obtain ⟨n, hn⟩ := exists_onGrid? tie (units_pos h)
    have hnone := List.findSome?_eq_none_iff.mp hfind 16 (by simp)
    rw [Option.map_eq_none_iff] at hnone
    exact absurd (hnone.symm.trans hn) (by simp)
  | some d =>
    obtain ⟨i, -, hi⟩ := List.exists_of_findSome?_eq_some hfind
    obtain ⟨n, hn, rfl⟩ := Option.map_eq_some_iff.mp hi
    exact (Decimal.covers_pads Decimal.strip_pads).mp (covers_of_onGrid? hn)

theorem covers_decimal : x.Covers x.decimal.num x.decimal.den := by
  rw [decimal]
  split
  · case isTrue hzero =>
    have hm : x.mantissa = 0 := by
      have := x.rank_eq
      omega
    simp [Covers, hm, low, units_eq, Decimal.num]
  · case isFalse hrank => exact covers_shortest hrank

end Double

-- Numbers

theorem Number.numeral_injective {b : Number} (h : a.numeral = b.numeral) : a = b := by
  cases a with
  | int i =>
    cases b with
    | int j =>
      have hneg := congrArg Numeral.negative h
      have habs := congrArg (fun n => digitsToNat n.whole) h
      simp only [numeral, Numeral.signed_negative, decide_eq_decide] at hneg
      simp only [numeral, Numeral.signed, digitsToNat_toDigits] at habs
      rw [show i = j by omega]
    | double y =>
      have hwhole := congrArg Numeral.isWhole h
      rw [numeral, numeral, Numeral.signed_isWhole, Numeral.signed_isWhole, Decimal.numeral_not_whole] at hwhole
      cases hwhole
  | double x =>
    cases b with
    | int j =>
      have hwhole := congrArg Numeral.isWhole h
      rw [numeral, numeral, Numeral.signed_isWhole, Numeral.signed_isWhole, Decimal.numeral_not_whole] at hwhole
      cases hwhole
    | double y =>
      have hneg := congrArg Numeral.negative h
      have hdecimal := congrArg Numeral.decimal h
      simp only [numeral, Numeral.signed_negative] at hneg
      simp only [numeral, Numeral.signed_decimal] at hdecimal
      have hx := (Decimal.covers_pads Decimal.pads_numeral).mpr (x.covers_decimal)
      have hy := (Decimal.covers_pads Decimal.pads_numeral).mpr (y.covers_decimal)
      rw [hdecimal] at hx
      have hrank := Double.rank_eq_of_covers Decimal.den_pos hx hy
      cases x
      cases y
      cases hneg
      cases hrank
      rfl

end Dossier

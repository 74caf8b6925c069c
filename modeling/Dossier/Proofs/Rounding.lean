import Dossier.Proofs.Casting
import Dossier.Proofs.Shortest

-- A decimal is rounded to the nearest double, and a numeral is cast to a number unless something would be lost.

namespace Dossier
namespace Double

variable {x y : Double} {s : Nat} {neg : Bool}

-- Rounding

-- At most half of the divisor is lost, and an odd quotient is not reached from halfway.
theorem roundDiv_bounds (hb : 0 < b) : 2 * (roundDiv a b * b) ≤ 2 * a + b ∧ 2 * a ≤ 2 * (roundDiv a b * b) + b ∧
    (roundDiv a b % 2 = 1 → 2 * (roundDiv a b * b) < 2 * a + b ∧ 2 * a < 2 * (roundDiv a b * b) + b) := by
  have hdiv := Nat.div_add_mod' a b
  have hmod := Nat.mod_lt a hb
  have hnext : (a / b + 1) * b = a / b * b + b := by rw [Nat.add_mul, Nat.one_mul]
  simp only [roundDiv]
  split
  · omega
  split
  · omega
  split
  · omega
  · omega

-- A shift that leaves a quotient with the size of a mantissa.
structure Shifts (a b s : Nat) : Prop where
  lt : a < 2 * Nat.pow 2 52 * (b * Nat.pow 2 s)
  le : 0 < s → Nat.pow 2 52 * (b * Nat.pow 2 s) ≤ a

theorem shifts_log2 (hb : 0 < b) : Shifts a b ((a / b).log2 - 52) := by
  have hlt : a / b < Nat.pow 2 ((a / b).log2 + 1) := Nat.lt_log2_self
  have hle : a / b ≠ 0 → Nat.pow 2 (a / b).log2 ≤ a / b := Nat.log2_self_le
  have hzero : a / b = 0 → (a / b).log2 = 0 := fun h => by rw [h]; rfl
  generalize (a / b).log2 = l at *
  constructor
  · calc a
      _ < Nat.pow 2 (l + 1) * b := (Nat.div_lt_iff_lt_mul hb).mp hlt
      _ ≤ 2 ^ (53 + (l - 52)) * b := Nat.mul_le_mul_right b (Nat.pow_le_pow_right (by decide) (by omega))
      _ = 2 * Nat.pow 2 52 * (b * Nat.pow 2 (l - 52)) := by
        rw [Nat.pow_add, show (2 : Nat) ^ 53 = 2 * Nat.pow 2 52 from rfl, Nat.mul_assoc, Nat.mul_comm b, Nat.pow_eq, Nat.pow_eq]
  · intro hs
    have hne : a / b ≠ 0 := fun h => by have := hzero h; omega
    obtain ⟨s, rfl⟩ : ∃ s, l = 52 + s := ⟨l - 52, by omega⟩
    calc Nat.pow 2 52 * (b * Nat.pow 2 (52 + s - 52))
      _ = 2 ^ (52 + s) * b := by
        rw [Nat.add_sub_cancel_left, Nat.pow_add, Nat.mul_assoc, Nat.mul_comm b, Nat.pow_eq, Nat.pow_eq]
      _ ≤ a / b * b := Nat.mul_le_mul_right b (hle hne)
      _ ≤ a := Nat.div_mul_le_self a b

theorem Shifts.roundDiv_le (h : Shifts a b s) (hb : 0 < b) :
    roundDiv a (b * Nat.pow 2 s) ≤ 2 * Nat.pow 2 52 ∧ (0 < s → Nat.pow 2 52 ≤ roundDiv a (b * Nat.pow 2 s)) := by
  have hB : 0 < b * Nat.pow 2 s := Nat.mul_pos hb (pow_pos (by decide))
  obtain ⟨hlow, hhigh, -⟩ := roundDiv_bounds (a := a) hB
  have hlt := h.lt
  have hle := h.le
  generalize roundDiv a (b * Nat.pow 2 s) = q at *
  generalize b * Nat.pow 2 s = B at *
  generalize Nat.pow 2 52 = P at *
  constructor
  · have : 2 * q < 4 * P + 1 := Nat.lt_of_mul_lt_mul_right (a := B) (by grind)
    omega
  · intro hs
    have hle := hle hs
    have : 2 * P ≤ 2 * q + 1 := Nat.le_of_mul_le_mul_right (by grind) hB
    omega

theorem shift_of_rank (hx : x.rank = s * Nat.pow 2 52 + q) (hq : q ≤ 2 * Nat.pow 2 52) (hs : 0 < s → Nat.pow 2 52 ≤ q) :
    x.shift = s ∧ x.mantissa = q ∨ q = 2 * Nat.pow 2 52 ∧ x.shift = s + 1 ∧ x.mantissa = Nat.pow 2 52 := by
  have hP : Nat.pow 2 52 = 4503599627370496 := rfl
  simp only [mantissa, shift, hP, hx] at *
  omega

theorem covers_of_rank (hb : 0 < b) (h : Shifts a b s) (hx : x.rank = s * Nat.pow 2 52 + roundDiv a (b * Nat.pow 2 s)) :
    x.Covers (4 * a) b := by
  have hP : Nat.pow 2 52 = 4503599627370496 := rfl
  have hB : 0 < b * Nat.pow 2 s := Nat.mul_pos hb (pow_pos (by decide))
  obtain ⟨hlow, hhigh, hodd⟩ := roundDiv_bounds (a := a) hB
  obtain ⟨hq, hq'⟩ := h.roundDiv_le hb
  have hlt := h.lt
  have hle := h.le
  rw [Covers, low, high, units_eq, Nat.sub_mul, Nat.add_mul]
  rcases shift_of_rank hx hq hq' with ⟨hshift, hmantissa⟩ | ⟨hlast, hshift, hmantissa⟩
  · have hgap : x.gap * b = b * Nat.pow 2 s := by rw [gap, hshift, Nat.mul_comm]
    have hgaps : 2 * x.gap * b = 2 * (b * Nat.pow 2 s) := by rw [Nat.mul_assoc, hgap]
    have hunits : 4 * (x.mantissa * x.gap) * b = 4 * (roundDiv a (b * Nat.pow 2 s) * (b * Nat.pow 2 s)) := by
      rw [Nat.mul_assoc, Nat.mul_assoc, hgap, hmantissa]
    rw [hunits, hgaps, hmantissa, hshift]
    generalize roundDiv a (b * Nat.pow 2 s) = q at *
    rw [hP] at *
    by_cases hnarrow : q = 4503599627370496 ∧ 0 < s
    · have hle := hle hnarrow.2
      rw [if_pos hnarrow, hgap, hnarrow.1]
      rw [hnarrow.1] at hhigh
      generalize b * Nat.pow 2 s = B at *
      rw [if_pos (by decide)]
      omega
    · rw [if_neg hnarrow, hgaps]
      have hQ : q % 2 = 1 → b * Nat.pow 2 s ≤ q * (b * Nat.pow 2 s) := fun h => Nat.le_mul_of_pos_left _ (by omega)
      generalize q * (b * Nat.pow 2 s) = Q, b * Nat.pow 2 s = B at *
      split
      · omega
      · case isFalse hparity =>
        have hodd := hodd (by omega)
        have hQ := hQ (by omega)
        omega
  · have hgap : x.gap * b = 2 * (b * Nat.pow 2 s) := by
      rw [gap, hshift, show Nat.pow 2 (s + 1) = Nat.pow 2 s * 2 from rfl]
      grind
    have hgaps : 2 * x.gap * b = 4 * (b * Nat.pow 2 s) := by rw [Nat.mul_assoc, hgap]; omega
    have hunits : 4 * (x.mantissa * x.gap) * b = 8 * (Nat.pow 2 52 * (b * Nat.pow 2 s)) := by
      rw [Nat.mul_assoc, Nat.mul_assoc, hgap, hmantissa]
      grind
    have hnarrow : x.mantissa = Nat.pow 2 52 ∧ 0 < x.shift := ⟨hmantissa, by omega⟩
    rw [hunits, hgaps, if_pos hnarrow, hgap, hmantissa, if_pos (by decide)]
    rw [hlast] at hlow
    rw [hP] at *
    generalize b * Nat.pow 2 s = B at *
    omega

-- The end of the last interval is not in it, as the last mantissa is odd.
theorem not_covers_of_high_le (hb : 0 < b) (h : (largest neg).high * b ≤ a) : ¬ x.Covers a b := by
  intro hx
  have hrank : x.rank ≤ (largest neg).rank := Nat.le_sub_one_of_lt x.finite
  rcases Nat.eq_or_lt_of_le hrank with heq | hlt
  · have hm : x.mantissa = (largest neg).mantissa := by rw [mantissa, mantissa, shift, shift, heq]
    have hhigh : x.high = (largest neg).high := by
      rw [high, high, units_eq, units_eq, gap, gap, shift, shift, heq, hm]
    have hodd : (largest neg).mantissa % 2 = 1 := by cases neg <;> decide
    rw [Covers, hm, if_neg (by omega), hhigh] at hx
    omega
  · have hhigh := high_le_low hlt
    have hlow : (largest neg).low < (largest neg).high := by
      have := (largest neg).gap_pos
      rw [low, high]
      omega
    have := Nat.mul_lt_mul_of_pos_right (Nat.lt_of_le_of_lt hhigh hlow) hb
    have := hx.bounds.2
    omega

theorem high_le_of_count_le (hb : 0 < b) (h : Shifts a b s)
    (hc : count ≤ s * Nat.pow 2 52 + roundDiv a (b * Nat.pow 2 s)) : (largest neg).high * b ≤ 4 * a := by
  have hP : Nat.pow 2 52 = 4503599627370496 := rfl
  have hB : 0 < b * Nat.pow 2 s := Nat.mul_pos hb (pow_pos (by decide))
  obtain ⟨hlow, -, -⟩ := roundDiv_bounds (a := a) hB
  obtain ⟨hq, -⟩ := h.roundDiv_le hb
  have hle := h.le
  have hshift : (largest neg).shift = 2045 := by cases neg <;> decide
  have hmantissa : (largest neg).mantissa = 9007199254740991 := by cases neg <;> decide
  have hhigh : (largest neg).high * b = 36028797018963966 * (b * (largest neg).gap) := by
    rw [high, units_eq, hmantissa]
    grind
  rw [hhigh]
  rw [count, hP] at hc
  rw [hP] at hq hle
  have hs : (largest neg).shift ≤ s := by omega
  rcases Nat.eq_or_lt_of_le hs with hs | hs
  · obtain hlast : roundDiv a (b * Nat.pow 2 s) = 9007199254740992 := by omega
    rw [hlast, ← hs, ← gap] at hlow
    omega
  · have hgap : 2 * (largest neg).gap ≤ Nat.pow 2 s := two_mul_pow_le hs
    have hmul := Nat.mul_le_mul_left b hgap
    rw [Nat.mul_left_comm] at hmul
    have hle := hle (by omega)
    omega

theorem nearest?_units : nearest? neg a b =
    let shift := (a * unitsInOne / b).log2 - 52
    let rank := shift * Nat.pow 2 52 + roundDiv (a * unitsInOne) (b * Nat.pow 2 shift)
    if h : rank < count then some ⟨neg, rank, h⟩ else none := by
  unfold unitsInOne nearest?
  rfl

theorem nearest?_covers (hb : 0 < b) :
    (∃ x, nearest? neg a b = some x ∧ x.neg = neg ∧ x.Covers (a * (4 * unitsInOne)) b) ∨
    nearest? neg a b = none ∧ (largest neg).high * b ≤ a * (4 * unitsInOne) := by
  have hshift := shifts_log2 (a := a * unitsInOne) hb
  rw [nearest?_units, Nat.mul_left_comm]
  dsimp only
  split
  · exact .inl ⟨_, rfl, rfl, covers_of_rank hb hshift rfl⟩
  · case isFalse h => exact .inr ⟨rfl, high_le_of_count_le hb hshift (Nat.le_of_not_lt h)⟩

theorem covers_zero (h : a ≤ 2 * b) : (zero neg).Covers a b := by
  have hm : (zero neg).mantissa = 0 := by cases neg <;> rfl
  have hgap : (zero neg).gap = 1 := by cases neg <;> rfl
  rw [Covers, hm, if_pos rfl, low, high, units_eq, hm, hgap, Nat.zero_mul, Nat.mul_zero, Nat.zero_sub, Nat.zero_mul]
  omega

-- The guards cut where numbers are beyond the largest double or below half of the smallest one.
theorem high_le_num {d : Decimal} (hk : (largest neg).high ≤ 4 * unitsInOne * Nat.pow 10 k) (hd : d.digits ≠ 0)
    (h : k < d.exp + decimalLength d.digits) : (largest neg).high * d.den ≤ d.num := by
  have hdigits := pow_decimalLength_le (Nat.pos_of_ne_zero hd)
  have hpow : 10 ^ k * 10 ^ (-d.exp).toNat ≤ 10 ^ (decimalLength d.digits - 1) * 10 ^ d.exp.toNat := by
    rw [← Nat.pow_add, ← Nat.pow_add]
    exact Nat.pow_le_pow_right (by decide) (by omega)
  calc (largest neg).high * d.den
    _ ≤ 4 * unitsInOne * Nat.pow 10 k * d.den := Nat.mul_le_mul_right _ hk
    _ = 4 * unitsInOne * (10 ^ k * 10 ^ (-d.exp).toNat) := Nat.mul_assoc ..
    _ ≤ 4 * unitsInOne * (d.digits * 10 ^ d.exp.toNat) :=
      Nat.mul_le_mul_left _ (Nat.le_trans hpow (Nat.mul_le_mul_right _ hdigits))
    _ = d.num := by rw [Decimal.num, Nat.mul_left_comm, Nat.pow_eq]

theorem num_le_two_mul_den {d : Decimal} (hk : 4 * unitsInOne ≤ 2 * Nat.pow 10 k)
    (h : d.exp + decimalLength d.digits ≤ -k) : d.num ≤ 2 * d.den := by
  have hlen : 0 < decimalLength d.digits := Nat.length_toDigits_pos
  have hdigits : d.digits < 10 ^ decimalLength d.digits :=
    (Nat.length_toDigits_le_iff (by decide) hlen).mp (Nat.le_refl _)
  calc d.num
    _ = d.digits * (4 * unitsInOne) := by
      rw [Decimal.num, Int.toNat_eq_zero.mpr (by omega), Nat.pow_eq, Nat.pow_zero, Nat.mul_one]
    _ ≤ 10 ^ decimalLength d.digits * (2 * Nat.pow 10 k) := Nat.mul_le_mul (Nat.le_of_lt hdigits) hk
    _ = 2 * 10 ^ (decimalLength d.digits + k) := by rw [Nat.mul_left_comm, Nat.pow_add, Nat.pow_eq]
    _ ≤ 2 * d.den := Nat.mul_le_mul_left _ (Nat.pow_le_pow_right (by decide) (by omega))

theorem high_largest : (largest neg).high = (Nat.pow 2 54 - 1) * Nat.pow 2 970 * (4 * unitsInOne) := by
  unfold unitsInOne
  cases neg <;> decide +kernel

theorem high_largest_le : (largest neg).high ≤ 4 * unitsInOne * Nat.pow 10 310 := by
  unfold unitsInOne
  cases neg <;> decide +kernel

theorem four_mul_unitsInOne_le : 4 * unitsInOne ≤ 2 * Nat.pow 10 331 := by
  unfold unitsInOne
  decide +kernel

theorem num_eq {d : Decimal} : d.num = d.digits * Nat.pow 10 d.exp.toNat * (4 * unitsInOne) := by
  rw [Decimal.num, Nat.mul_comm (4 * unitsInOne), Nat.mul_assoc]

theorem ofDecimal?_covers (neg : Bool) (d : Decimal) :
    (∃ x, ofDecimal? neg d.digits d.exp = some x ∧ x.neg = neg ∧ x.Covers d.num d.den) ∨
      ofDecimal? neg d.digits d.exp = none ∧ (largest neg).high * d.den ≤ d.num := by
  rw [ofDecimal?]
  split
  · case isTrue hzero => exact .inl ⟨_, rfl, rfl, covers_zero (by simp [Decimal.num, hzero])⟩
  simp only
  split
  · case isTrue htop => exact .inr ⟨rfl, high_le_num high_largest_le ‹_› htop⟩
  split
  · case isTrue htop => exact .inl ⟨_, rfl, rfl, covers_zero (num_le_two_mul_den four_mul_unitsInOne_le (by omega))⟩
  split
  · case isTrue hexp =>
    have hden : d.den = 1 := by rw [Decimal.den, Int.toNat_eq_zero.mpr (by omega), Nat.pow_eq, Nat.pow_zero]
    rw [hden, num_eq]
    exact nearest?_covers (by decide)
  · case isFalse hexp =>
    have hnum : d.num = d.digits * (4 * unitsInOne) := by
      rw [Decimal.num, Int.toNat_eq_zero.mpr (by omega), Nat.pow_eq, Nat.pow_zero, Nat.mul_one]
    rw [hnum]
    exact nearest?_covers d.den_pos

-- Nearest doubles

-- The distance of a double from a decimal, as a quotient by its denominator.
def distance (x : Double) (d : Decimal) : Nat :=
  (4 * (x.units * d.den) - d.num) + (d.num - 4 * (x.units * d.den))

-- No double is nearer to a decimal. If another one is as near, this one has the even mantissa.
structure Nearest (x : Double) (d : Decimal) : Prop where
  closest : ∀ y : Double, x.distance d ≤ y.distance d
  even    : ∀ y : Double, y.rank ≠ x.rank → y.distance d = x.distance d → x.mantissa % 2 = 0

theorem units_lt (h : x.rank < y.rank) : x.units < y.units :=
  Nat.lt_of_lt_of_le (Nat.lt_add_of_pos_right gap_pos) (units_add_gap_le h).1

theorem Covers.nearest (h : x.Covers d.num d.den) : x.Nearest d := by
  have hodd : x.mantissa % 2 = 0 ∨ x.low * d.den < d.num ∧ d.num < x.high * d.den := by
    rw [Covers] at h
    split at h
    · exact .inl ‹_›
    · exact .inr h
  -- The decimal is not beyond the middle between the two doubles.
  have hdistance (y : Double) (hne : y.rank ≠ x.rank) :
      x.distance d ≤ y.distance d ∧ (y.distance d = x.distance d → x.mantissa % 2 = 0) := by
    have hbounds := h.bounds
    have hden := d.den_pos
    simp only [distance]
    rcases Nat.lt_or_gt_of_ne hne with hlt | hgt
    · have hmul := Nat.mul_le_mul_right d.den (middle_le_low hlt)
      have hunits := Nat.mul_lt_mul_of_pos_right (units_lt hlt) hden
      rw [Nat.mul_assoc, Nat.add_mul] at hmul
      omega
    · have hmul := Nat.mul_le_mul_right d.den (high_le_middle hgt)
      have hunits := Nat.mul_lt_mul_of_pos_right (units_lt hgt) hden
      rw [Nat.mul_assoc, Nat.add_mul] at hmul
      omega
  refine ⟨fun y => ?_, fun y hne => (hdistance y hne).2⟩
  by_cases hne : y.rank = x.rank
  · have hunits : y.units = x.units := by rw [units, units, mantissa, mantissa, shift, shift, hne]
    exact Nat.le_of_eq (by rw [distance, distance, hunits])
  · exact (hdistance y hne).1

end Double

-- The double nearest to a decimal is finite. The bound is the middle between the largest double and `2 ^ 1024`.
def Decimal.Finite (d : Decimal) : Prop :=
  d.digits * Nat.pow 10 d.exp.toNat < (Nat.pow 2 54 - 1) * Nat.pow 2 970 * Nat.pow 10 (-d.exp).toNat

instance (d : Decimal) : Decidable d.Finite :=
  Nat.decLt ..

namespace Double

variable {d : Decimal} {neg : Bool}

theorem finite_iff (neg : Bool) : d.Finite ↔ d.num < (largest neg).high * d.den := by
  have hone : 0 < 4 * unitsInOne := Nat.mul_pos (by decide) unitsInOne_pos
  rw [Decimal.Finite, num_eq, high_largest]
  generalize (Nat.pow 2 54 - 1) * Nat.pow 2 970 = bound
  rw [Nat.mul_right_comm bound, Nat.mul_lt_mul_right hone]
  rfl

theorem ofDecimal?_nearest (h : d.Finite) :
    ∃ x, ofDecimal? neg d.digits d.exp = some x ∧ x.neg = neg ∧ x.Nearest d := by
  rcases ofDecimal?_covers neg d with ⟨x, hx, hneg, hcovers⟩ | ⟨-, hhigh⟩
  · exact ⟨x, hx, hneg, hcovers.nearest⟩
  · exact absurd ((finite_iff neg).mp h) (Nat.not_lt.mpr hhigh)

theorem ofDecimal?_none (h : ¬ d.Finite) : ofDecimal? neg d.digits d.exp = none := by
  rcases ofDecimal?_covers neg d with ⟨x, -, -, hcovers⟩ | ⟨hnone, -⟩
  · rw [finite_iff neg] at h
    exact absurd hcovers (not_covers_of_high_le d.den_pos (Nat.le_of_not_lt h))
  · exact hnone

end Double

-- Casts

namespace Numeral

-- The integer of a numeral without fraction and exponent.
def integer (n : Numeral) : Int :=
  if n.negative then - (digitsToNat n.whole : Int) else digitsToNat n.whole

-- The digits without zeros at either end.
def significant (n : Numeral) : List Char :=
  ((n.digits.dropWhile (· = '0')).reverse.dropWhile (· = '0')).reverse

variable {n : Numeral}

theorem Writes.ne_nil (h : n.Writes cs) : cs ≠ [] := by
  obtain ⟨hw, es, -, rfl⟩ := h
  simp [hw.whole.1]

theorem lossless?_whole (h : n.isWhole) : Number.lossless? n = Number.ofInt? n.integer := by
  have hdigits : n.digits = n.whole := by
    simp only [isWhole, Bool.and_eq_true, Option.isNone_iff_eq_none] at h
    rw [digits, h.1, Option.getD_none, List.append_nil]
  rw [Number.lossless?, if_pos h, hdigits, integer]

theorem lossless?_not_whole (h : ¬ n.isWhole) : Number.lossless? n =
    if n.significant.length ≤ 15 then (Double.ofDecimal? n.negative n.decimal.digits n.decimal.exp).map .double else none := by
  rw [Number.lossless?, if_neg h, ← significant, ← ite_not]
  simp only [Nat.not_lt]
  rfl

end Numeral

namespace Cast

variable {ctx : CastContext} {s : String} {e : Effects} {n : Numeral}

def unreadable (ctx : CastContext) (s : String) : CastFailure :=
  .cast { path := ctx.path, target := .type .number, value := .str s, reason := some .inexactNumber }

theorem number_outcome (h : trimChars s.toList ≠ []) : (number ctx (.str s)).outcome e =
    (((Numeral.ofChars? (trimChars s.toList)).bind Number.lossless?).elim (.error (unreadable ctx s)) (.ok <| .num ·), e) := by
  simp only [number, List.isEmpty_iff, h, if_false]
  cases (Numeral.ofChars? (trimChars s.toList)).bind Number.lossless? <;> rfl

-- A text that is not blank is cast exactly if it writes an integer that fits, or a number with a point or an
-- exponent that has few digits and a finite nearest double.
theorem number_of_text (ctx : CastContext) (s : String) (e : Effects) :
    (trimChars s.toList = [] → (number ctx (.str s)).outcome e = (.ok .null, e)) ∧
    (∀ n : Numeral, n.Writes (trimChars s.toList) → n.isWhole → (number ctx (.str s)).outcome e =
      (if -9223372036854775808 ≤ n.integer ∧ n.integer < 18446744073709551616 then .ok (.num (.int n.integer))
        else .error (unreadable ctx s), e)) ∧
    (∀ n : Numeral, n.Writes (trimChars s.toList) → ¬ n.isWhole →
      (n.significant.length ≤ 15 ∧ n.decimal.Finite → ∃ x : Double, x.neg = n.negative ∧ x.Nearest n.decimal ∧
        (number ctx (.str s)).outcome e = (.ok (.num (.double x)), e)) ∧
      (¬ (n.significant.length ≤ 15 ∧ n.decimal.Finite) →
        (number ctx (.str s)).outcome e = (.error (unreadable ctx s), e))) ∧
    (trimChars s.toList ≠ [] → (∀ n : Numeral, ¬ n.Writes (trimChars s.toList)) →
      (number ctx (.str s)).outcome e = (.error (unreadable ctx s), e)) := by
  have hwrites {n : Numeral} (h : n.Writes (trimChars s.toList)) : (number ctx (.str s)).outcome e =
      ((Number.lossless? n).elim (.error (unreadable ctx s)) (.ok <| .num ·), e) := by
    rw [number_outcome h.ne_nil, Numeral.ofChars?_eq_some_iff.mpr h]
    rfl
  refine ⟨fun h => ?_, fun n hn hwhole => ?_, fun n hn hwhole => ⟨?_, fun h => ?_⟩, fun h hnone => ?_⟩
  · simp only [number, h]
    rfl
  · have hrange : Number.minInt ≤ n.integer ∧ n.integer ≤ Number.maxInt ↔
        -9223372036854775808 ≤ n.integer ∧ n.integer < 18446744073709551616 := by
      rw [Number.minInt, Number.maxInt]
      omega
    simp only [hwrites hn, Numeral.lossless?_whole hwhole, Number.ofInt?, hrange]
    split <;> rfl
  · rintro ⟨hlength, hfinite⟩
    obtain ⟨x, hx, hneg, hnearest⟩ := Double.ofDecimal?_nearest hfinite
    refine ⟨x, hneg, hnearest, ?_⟩
    rw [hwrites hn, Numeral.lossless?_not_whole hwhole, if_pos hlength, hx]
    rfl
  · have hnone : Number.lossless? n = none := by
      rw [Numeral.lossless?_not_whole hwhole]
      split
      · case isTrue hlength => rw [Double.ofDecimal?_none fun hfinite => h ⟨hlength, hfinite⟩, Option.map_none]
      · rfl
    rw [hwrites hn, hnone]
    rfl
  · have hchars : Numeral.ofChars? (trimChars s.toList) = none :=
      Option.eq_none_iff_forall_not_mem.mpr fun n hn => hnone n (Numeral.ofChars?_eq_some_iff.mp hn)
    rw [number_outcome h, hchars]
    rfl

theorem number_of_text_price :
    (∃ x : Double, x.neg = true ∧ x.Nearest ⟨15, 2⟩ ∧
      (number { path := [.key "price"], root := [] } (.str " -1.5E3 ")).outcome {} = (.ok (.num (.double x)), {})) ∧
    (number { path := [.key "price"], root := [] } (.str "18446744073709551616")).outcome {} =
      (.error (unreadable { path := [.key "price"], root := [] } "18446744073709551616"), {}) := by
  have hprice : Numeral.Writes ⟨some '-', ['1'], some ['5'], some (false, ['3'])⟩ (trimChars " -1.5E3 ".toList) :=
    ⟨⟨by simp, ⟨by decide, List.all_eq_true.mp rfl⟩, by simp [Numeral.Digits], by simp [Numeral.Digits]⟩, ['E', '3'],
      @Numeral.WritesExponent.some 'E' none ['3'] (.inr rfl) (by simp), by decide⟩
  have hlarge : Numeral.Writes ⟨none, "18446744073709551616".toList, none, none⟩ (trimChars "18446744073709551616".toList) :=
    ⟨⟨by simp, ⟨by decide, List.all_eq_true.mp rfl⟩, by simp, by simp⟩, [], .none, by decide⟩
  refine ⟨((number_of_text _ _ _).2.2.1 _ hprice (by decide)).1 ⟨by decide, by decide +kernel⟩, ?_⟩
  rw [(number_of_text _ _ _).2.1 _ hlarge rfl, if_neg (by decide +kernel)]

end Cast
end Dossier

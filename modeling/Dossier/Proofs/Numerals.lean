import Dossier.Number.Basic

-- The text of a number is a numeral of the same sign and value, and it is read as that numeral.

namespace Dossier

open List

-- Spelling

namespace Numeral

-- A numeral cannot go on with these characters.
def Ends (cs : List Char) : Prop :=
  ∀ c ∈ cs.head?, c.isDigit = false ∧ c ≠ '.' ∧ c ≠ 'e' ∧ c ≠ 'E'

def Digits (ds : List Char) : Prop :=
  ds ≠ [] ∧ ∀ c ∈ ds, c.isDigit

structure WellFormed (n : Numeral) : Prop where
  sign     : ∀ c ∈ n.sign, c = '-' ∨ c = '+'
  whole    : Digits n.whole
  fraction : ∀ ds ∈ n.fraction, Digits ds
  exponent : ∀ e ∈ n.exponent, Digits e.2

inductive WritesExponent : Option (Bool × List Char) → List Char → Prop
  | none : WritesExponent none []
  | some {mark : Char} {sign : Option Char} {ds : List Char} (hm : mark = 'e' ∨ mark = 'E')
      (hs : ∀ c ∈ sign, c = '-' ∨ c = '+') : WritesExponent (some (sign = some '-', ds)) (mark :: (sign.toList ++ ds))

def Writes (n : Numeral) (cs : List Char) : Prop :=
  n.WellFormed ∧ ∃ es, WritesExponent n.exponent es ∧
    cs = n.sign.toList ++ (n.whole ++ ((n.fraction.map ('.' :: ·)).getD [] ++ es))

variable {n : Numeral} {ds : List Char} {sign : Option Char} {fraction : Option (List Char)}
  {exponent : Option (Bool × List Char)}

theorem Digits.head (hd : Digits ds) : ∀ c ∈ (ds ++ cs).head?, c.isDigit := by
  cases ds with
  | nil => exact absurd rfl hd.1
  | cons d ds => exact fun c hc => Option.some.inj hc ▸ hd.2 d mem_cons_self

theorem scanDigits?_append (hd : Digits ds) (hr : ∀ c ∈ rest.head?, c.isDigit = false) :
    scanDigits? (ds ++ rest) = some (ds, rest) := by
  have htake : rest.takeWhile Char.isDigit = [] := by
    cases rest with
    | nil => rfl
    | cons c cs => simp [hr c rfl]
  have hdrop : rest.dropWhile Char.isDigit = rest := by
    cases rest with
    | nil => rfl
    | cons c cs => simp [hr c rfl]
  rw [scanDigits?, takeWhile_append_of_pos hd.2, dropWhile_append_of_pos hd.2, htake, hdrop,
    append_nil]
  cases ds with
  | nil => exact absurd rfl hd.1
  | cons => rfl

theorem digits_of_scanDigits? (h : scanDigits? cs = some (ds, rest)) : cs = ds ++ rest ∧ Digits ds := by
  rw [scanDigits?] at h
  split at h
  · cases h
  · case _ hne =>
    cases h
    exact ⟨takeWhile_append_dropWhile.symm, hne, all_eq_true.mp all_takeWhile⟩

theorem scanSign_append (hs : ∀ c ∈ sign, c = '-' ∨ c = '+') (hc : ∀ c ∈ cs.head?, c.isDigit) :
    scanSign (sign.toList ++ cs) = (sign, cs) := by
  cases sign with
  | some c =>
    rcases hs c rfl with rfl | rfl <;> rfl
  | none =>
    cases cs with
    | nil => rfl
    | cons c cs =>
      have hdigit := hc c rfl
      rw [Option.toList_none, nil_append, scanSign.eq_def]
      split
      · case _ he => cases he; cases hdigit
      · case _ he => cases he; cases hdigit
      · rfl

theorem scanSign_eq (cs : List Char) :
    cs = (scanSign cs).1.toList ++ (scanSign cs).2 ∧ ∀ c ∈ (scanSign cs).1, c = '-' ∨ c = '+' := by
  rw [scanSign.eq_def]
  split <;> simp

theorem scanFraction?_append (hf : ∀ ds ∈ fraction, Digits ds) (hr : ∀ c ∈ rest.head?, c.isDigit = false ∧ c ≠ '.') :
    scanFraction? ((fraction.map ('.' :: ·)).getD [] ++ rest) = some (fraction, rest) := by
  cases fraction with
  | some ds => simp [scanFraction?, scanDigits?_append (hf ds rfl) fun c hc => (hr c hc).1]
  | none =>
    cases rest with
    | nil => rfl
    | cons c cs =>
      have hpoint := (hr c rfl).2
      simp only [Option.map_none, Option.getD_none, nil_append]
      rw [scanFraction?.eq_def]
      split
      · case _ he => cases he; exact absurd rfl hpoint
      · rfl

theorem fraction_of_scanFraction? (h : scanFraction? cs = some (fraction, rest)) :
    cs = (fraction.map ('.' :: ·)).getD [] ++ rest ∧ ∀ ds ∈ fraction, Digits ds := by
  rw [scanFraction?.eq_def] at h
  split at h
  · obtain ⟨⟨ds, rest'⟩, hds, he⟩ := Option.map_eq_some_iff.mp h
    cases he
    obtain ⟨rfl, hdigits⟩ := digits_of_scanDigits? hds
    exact ⟨rfl, fun ds hds => Option.some.inj hds ▸ hdigits⟩
  · cases h
    exact ⟨rfl, by simp⟩

theorem scanExponent?_append (he : WritesExponent exponent es) (hd : ∀ e ∈ exponent, Digits e.2) (hr : Ends rest) :
    scanExponent? (es ++ rest) = some (exponent, rest) := by
  cases he with
  | @some mark sign ds hm hs =>
    have hdigits : Digits ds := hd _ rfl
    have hscan := scanDigits?_append hdigits fun c hc => (hr c hc).1
    simp [scanExponent?, hm, scanSign_append hs hdigits.head, hscan]
  | none =>
    cases rest with
    | nil => rfl
    | cons c cs =>
      obtain ⟨-, -, h₁, h₂⟩ := hr c rfl
      simp [scanExponent?, h₁, h₂]

theorem exponent_of_scanExponent? (h : scanExponent? cs = some (exponent, rest)) :
    ∃ es, cs = es ++ rest ∧ WritesExponent exponent es ∧ ∀ e ∈ exponent, Digits e.2 := by
  cases cs with
  | nil =>
    cases h
    exact ⟨[], rfl, .none, by simp⟩
  | cons c cs =>
    simp only [scanExponent?] at h
    split at h
    · case isTrue hm =>
      obtain ⟨⟨ds, rest'⟩, hds, he⟩ := Option.map_eq_some_iff.mp h
      cases he
      obtain ⟨hcs, hs⟩ := scanSign_eq cs
      obtain ⟨hrest, hdigits⟩ := digits_of_scanDigits? hds
      refine ⟨c :: ((scanSign cs).1.toList ++ ds), ?_, .some hm hs, fun e he => Option.some.inj he ▸ hdigits⟩
      rw [cons_append, append_assoc, ← hrest, ← hcs]
    · cases h
      exact ⟨[], rfl, .none, by simp⟩

theorem scan?_append (h : n.Writes cs) (hr : Ends rest) : scan? (cs ++ rest) = some (n, rest) := by
  obtain ⟨h, es, hes, rfl⟩ := h
  have hexponent : ∀ c ∈ (es ++ rest).head?, c.isDigit = false ∧ c ≠ '.' := by
    generalize n.exponent = exponent at hes
    cases hes with
    | none => exact fun c hc => ⟨(hr c hc).1, (hr c hc).2.1⟩
    | some hm => rcases hm with rfl | rfl <;> simp
  have hfraction : ∀ c ∈ ((n.fraction.map ('.' :: ·)).getD [] ++ (es ++ rest)).head?, c.isDigit = false := by
    cases n.fraction with
    | none => exact fun c hc => (hexponent c hc).1
    | some ds => simp
  simp only [append_assoc, scan?, scanSign_append h.sign h.whole.head, scanDigits?_append h.whole hfraction,
    scanFraction?_append h.fraction hexponent, scanExponent?_append hes h.exponent hr, Option.bind_eq_bind,
    Option.bind_some]
  rfl

theorem writes_of_scan? (h : scan? cs = some (n, rest)) : ∃ ts, n.Writes ts ∧ cs = ts ++ rest := by
  simp only [scan?, Option.bind_eq_bind, Option.bind_eq_some_iff, Prod.exists] at h
  obtain ⟨whole, r₁, hwhole, fraction, r₂, hfraction, exponent, r₃, hexponent, he⟩ := h
  cases he
  obtain ⟨hsign, hs⟩ := scanSign_eq cs
  obtain ⟨hw, hw'⟩ := digits_of_scanDigits? hwhole
  obtain ⟨hf, hf'⟩ := fraction_of_scanFraction? hfraction
  obtain ⟨es, he, hes, he'⟩ := exponent_of_scanExponent? hexponent
  refine ⟨_, ⟨⟨hs, hw', hf', he'⟩, es, hes, rfl⟩, ?_⟩
  rw [append_assoc, append_assoc, append_assoc, ← he, ← hf, ← hw, ← hsign]

theorem ofChars?_eq_some_iff : ofChars? cs = some n ↔ n.Writes cs := by
  rw [ofChars?]
  constructor
  · intro h
    split at h
    · case _ hscan =>
      cases h
      obtain ⟨ts, hts, rfl⟩ := writes_of_scan? hscan
      rwa [append_nil]
    · cases h
  · intro h
    rw [← append_nil cs, scan?_append h (by simp [Ends])]

-- The characters of a numeral.
def spelled (n : Numeral) : List Char :=
  n.sign.toList ++ n.whole ++ (n.fraction.map ('.' :: ·)).getD [] ++
    (n.exponent.map fun e => 'e' :: (if e.1 then '-' else '+') :: e.2).getD []

theorem writes_spelled (h : n.WellFormed) : n.Writes n.spelled := by
  refine ⟨h, (n.exponent.map fun e => 'e' :: (if e.1 then '-' else '+') :: e.2).getD [], ?_,
    by simp only [spelled, append_assoc]⟩
  cases n.exponent with
  | none => exact .none
  | some e =>
    obtain ⟨negative, ds⟩ := e
    cases negative
    · exact @WritesExponent.some 'e' (some '+') ds (.inl rfl) (by simp)
    · exact @WritesExponent.some 'e' (some '-') ds (.inl rfl) (by simp)

end Numeral

-- Decimals

theorem digitsToNat_append : digitsToNat (as ++ bs) = Nat.pow 10 bs.length * digitsToNat as + digitsToNat bs := by
  have happend : digitsToNat (as ++ bs) = Nat.ofDigitChars 10 bs (digitsToNat as) :=
    Nat.ofDigitChars_append 0
  rw [happend, Nat.ofDigitChars_eq_ofDigitChars_zero]
  rfl

theorem digitsToNat_zeros : digitsToNat (List.replicate k '0') = 0 :=
  Nat.ofDigitChars_replicate_zero

@[simp] theorem digitsToNat_toDigits : digitsToNat (Nat.toDigits 10 n) = n :=
  Nat.ofDigitChars_ten_toDigits

theorem digits_toDigits : Numeral.Digits (Nat.toDigits 10 n) :=
  ⟨Nat.toDigits_ne_nil, fun _ => Nat.isDigit_of_mem_toDigits (by decide) (by decide)⟩

def Numeral.decimal (n : Numeral) : Decimal :=
  ⟨digitsToNat n.digits, n.scale⟩

namespace Decimal

-- The number of digits before the point.
def point (d : Decimal) : Int :=
  (Nat.toDigits 10 d.digits).length + d.exp

def positionalNumeral (d : Decimal) : Numeral :=
  let ds := Nat.toDigits 10 d.digits
  if 0 ≤ d.exp then ⟨none, ds ++ List.replicate d.exp.toNat '0', some ['0'], none⟩
  else if 0 < d.point then ⟨none, ds.take d.point.toNat, some (ds.drop d.point.toNat), none⟩
  else ⟨none, ['0'], some (List.replicate (-d.point).toNat '0' ++ ds), none⟩

def scientificNumeral (d : Decimal) : Numeral :=
  let ds := Nat.toDigits 10 d.digits
  ⟨none, ds.take 1, if ds.drop 1 = [] then none else some (ds.drop 1),
    some (decide (d.point - 1 < 0), Nat.toDigits 10 (d.point - 1).natAbs)⟩

-- The numeral by which a decimal is written in a value.
def numeral (d : Decimal) : Numeral :=
  if Number.valueLayout.positional d.point then d.positionalNumeral else d.scientificNumeral

-- The second decimal has the value of the first, with zeros put at the end of its digits.
def Pads (d d' : Decimal) : Prop :=
  ∃ k : Nat, d'.digits = d.digits * Nat.pow 10 k ∧ d'.exp = d.exp - k

variable {d : Decimal}

theorem positional_spelled : (d.positional true).toList = d.positionalNumeral.spelled := by
  simp only [positional, positionalNumeral, point]
  split
  · simp [Numeral.spelled]
  · split
    · case isTrue h => simp [Numeral.spelled, h]
    · case isFalse h => simp [Numeral.spelled, h]

theorem scientific_spelled : d.scientific.toList = d.scientificNumeral.spelled := by
  have hempty : ∀ ds : List Char, (String.ofList ds).isEmpty = true ↔ ds = [] := by
    intro ds
    cases ds <;> simp
  have hsign : (if d.point - 1 < 0 then "e-" else "e+").toList =
      ['e', if decide (d.point - 1 < 0) then '-' else '+'] := by
    by_cases h : d.point - 1 < 0
    · simp [h]
    · simp [h]
  simp only [scientific, scientificNumeral, hempty, Numeral.spelled, String.toList_append,
    Nat.toString_eq_ofList_toDigits, String.toList_ofList]
  rw [← point, hsign]
  split <;> simp

theorem render_spelled : (d.render Number.valueLayout).toList = d.numeral.spelled := by
  rw [render, numeral, point]
  split
  · exact positional_spelled
  · exact scientific_spelled

theorem positionalNumeral_wellFormed : d.positionalNumeral.WellFormed := by
  have hds := digits_toDigits (n := d.digits)
  -- The digits of the decimal, or some of them, and zeros.
  have hdigits : ∀ {ds}, ds ≠ [] → (∀ c ∈ ds, c = '0' ∨ c ∈ Nat.toDigits 10 d.digits) → Numeral.Digits ds := by
    refine fun hne h => ⟨hne, fun c hc => ?_⟩
    rcases h c hc with rfl | hc
    · rfl
    · exact hds.2 c hc
  simp only [positionalNumeral]
  split
  · refine ⟨by simp, hdigits (by simp) fun c hc => ?_, ?_, by simp⟩
    · rcases mem_append.mp hc with hc | hc
      · exact .inr hc
      · exact .inl (eq_of_mem_replicate hc)
    · rintro ds ⟨⟩
      exact hdigits (by simp) (by simp)
  · case isFalse he =>
    split
    · case isTrue hp =>
      have hlen : 0 < d.point.toNat ∧ d.point.toNat < (Nat.toDigits 10 d.digits).length := by
        have hpoint : d.point = (Nat.toDigits 10 d.digits).length + d.exp := rfl
        omega
      refine ⟨by simp, hdigits ?_ fun c hc => .inr (mem_of_mem_take hc), ?_, by simp⟩
      · simp only [ne_eq, take_eq_nil_iff, hds.1, or_false]
        omega
      · rintro ds ⟨⟩
        refine hdigits ?_ fun c hc => .inr (mem_of_mem_drop hc)
        rw [ne_eq, drop_eq_nil_iff]
        omega
    · refine ⟨by simp, hdigits (by simp) (by simp), ?_, by simp⟩
      rintro ds ⟨⟩
      refine hdigits (by simp [hds.1]) fun c hc => ?_
      rcases mem_append.mp hc with hc | hc
      · exact .inl (eq_of_mem_replicate hc)
      · exact .inr hc

theorem scientificNumeral_wellFormed : d.scientificNumeral.WellFormed := by
  have hds := digits_toDigits (n := d.digits)
  refine ⟨by simp [scientificNumeral], ⟨?_, fun c hc => hds.2 c (mem_of_mem_take hc)⟩, ?_, ?_⟩
  · simp [scientificNumeral, take_eq_nil_iff, hds.1]
  · rintro ds h
    simp only [scientificNumeral] at h
    split at h
    · cases h
    · case isFalse hne =>
      cases h
      exact ⟨hne, fun c hc => hds.2 c (mem_of_mem_drop hc)⟩
  · rintro e ⟨⟩
    exact digits_toDigits

theorem numeral_wellFormed : d.numeral.WellFormed := by
  rw [numeral]
  split
  · exact positionalNumeral_wellFormed
  · exact scientificNumeral_wellFormed

theorem pads_positionalNumeral : d.Pads d.positionalNumeral.decimal := by
  simp only [positionalNumeral]
  split
  · case isTrue he =>
    refine ⟨d.exp.toNat + 1, ?_, ?_⟩
    · have hzeros : List.replicate d.exp.toNat '0' ++ ['0'] = List.replicate (d.exp.toNat + 1) '0' := by
        rw [replicate_succ']
      simp only [Numeral.decimal, Numeral.digits, Option.getD_some, append_assoc, hzeros, digitsToNat_append,
        digitsToNat_zeros, digitsToNat_toDigits, length_replicate]
      rw [Nat.add_zero, Nat.mul_comm]
    · simp only [Numeral.decimal, Numeral.scale, Numeral.power, Option.getD_some, length_singleton]
      omega
  · split
    · case isTrue hp =>
      refine ⟨0, by simp [Numeral.decimal, Numeral.digits], ?_⟩
      simp only [Numeral.decimal, Numeral.scale, Numeral.power, Option.getD_some, length_drop]
      rw [point] at hp ⊢
      omega
    · case isFalse hp =>
      refine ⟨0, ?_, ?_⟩
      · have hzeros : '0' :: List.replicate (-d.point).toNat '0' = List.replicate ((-d.point).toNat + 1) '0' := by
          rw [replicate_succ]
        simp only [Numeral.decimal, Numeral.digits, Option.getD_some, cons_append, nil_append]
        rw [← cons_append, hzeros, digitsToNat_append, digitsToNat_zeros, digitsToNat_toDigits]
        simp
      · simp only [Numeral.decimal, Numeral.scale, Numeral.power, Option.getD_some, length_append, length_replicate]
        rw [point] at hp ⊢
        omega

theorem pads_scientificNumeral : d.Pads d.scientificNumeral.decimal := by
  have hlen : 0 < (Nat.toDigits 10 d.digits).length := length_pos_iff.mpr Nat.toDigits_ne_nil
  have hfraction : (if (Nat.toDigits 10 d.digits).drop 1 = [] then none else
      some ((Nat.toDigits 10 d.digits).drop 1)).getD [] = (Nat.toDigits 10 d.digits).drop 1 := by
    split
    · case isTrue h => rw [h]; rfl
    · rfl
  refine ⟨0, ?_, ?_⟩
  · simp only [Numeral.decimal, Numeral.digits, scientificNumeral, hfraction, take_append_drop, digitsToNat_toDigits]
    simp
  · simp only [Numeral.decimal, Numeral.scale, Numeral.power, scientificNumeral, hfraction, length_drop,
      digitsToNat_toDigits, decide_eq_true_eq]
    rw [point]
    split <;> omega

theorem pads_numeral : d.Pads d.numeral.decimal := by
  rw [numeral]
  split
  · exact pads_positionalNumeral
  · exact pads_scientificNumeral

theorem numeral_unsigned : d.numeral.sign = none := by
  simp only [numeral, positionalNumeral, scientificNumeral]
  split
  · split
    · rfl
    · split <;> rfl
  · rfl

theorem numeral_not_whole : d.numeral.isWhole = false := by
  simp only [numeral, positionalNumeral, scientificNumeral]
  split
  · split
    · rfl
    · split <;> rfl
  · simp [Numeral.isWhole]

end Decimal

-- Numbers

namespace Numeral

def signed (neg : Bool) (n : Numeral) : Numeral :=
  { n with sign := if neg then some '-' else none }

variable {n : Numeral} {neg : Bool}

theorem signed_spelled (h : n.sign = none) : (n.signed neg).spelled = (if neg then ['-'] else []) ++ n.spelled := by
  cases neg <;> simp [signed, spelled, h]

theorem signed_wellFormed (h : n.WellFormed) : (n.signed neg).WellFormed := by
  refine ⟨?_, h.whole, h.fraction, h.exponent⟩
  cases neg <;> simp [signed]

@[simp] theorem signed_negative : (n.signed neg).negative = neg := by
  cases neg <;> simp [signed, negative]

theorem signed_isWhole : (n.signed neg).isWhole = n.isWhole := rfl

theorem signed_decimal : (n.signed neg).decimal = n.decimal := rfl

end Numeral

-- The decimal that is written for a double.
def Double.decimal (x : Double) : Decimal :=
  if x.rank = 0 then ⟨0, 0⟩ else x.shortest Number.valueLayout.tie

namespace Number

def numeral : Number → Numeral
  | .int i => .signed (i < 0) ⟨none, Nat.toDigits 10 i.natAbs, none, none⟩
  | .double x => .signed x.neg x.decimal.numeral

variable {n : Number}

theorem text_spelled : n.text.toList = n.numeral.spelled := by
  cases n with
  | int i =>
    rw [numeral, Numeral.signed_spelled rfl, text, Int.toString_eq_repr]
    cases i with
    | ofNat m => simp [Int.repr, Numeral.spelled, Nat.repr]
    | negSucc m => simp [Int.repr, Numeral.spelled, Nat.repr, Int.negSucc_lt_zero]
  | double x =>
    rw [numeral, Numeral.signed_spelled Decimal.numeral_unsigned, text, Double.render, String.toList_append,
      ← Double.decimal, Decimal.render_spelled]
    cases x.neg <;> rfl

theorem numeral_wellFormed : n.numeral.WellFormed := by
  cases n with
  | int i => exact Numeral.signed_wellFormed ⟨by simp, digits_toDigits, by simp, by simp⟩
  | double x => exact Numeral.signed_wellFormed Decimal.numeral_wellFormed

theorem scan?_text (hr : Numeral.Ends rest) : Numeral.scan? (n.text.toList ++ rest) = some (n.numeral, rest) := by
  rw [text_spelled]
  exact Numeral.scan?_append (Numeral.writes_spelled numeral_wellFormed) hr

end Number

end Dossier

import Mathlib.Algebra.Group.Nat.Defs
import Dossier.Proofs.Likeness

-- Values are equal if they have parts at the same places and what is at each place is equal by itself.

namespace Dossier

namespace Double

variable {i j : Int} {n : Nat}

-- The exponent is a variable here, so that its power is not computed.
theorem nearest?_eq {neg : Bool} {shift rank : Nat} (hk : k = 1074) (hs : (num * Nat.pow 2 k / den).log2 - 52 = shift)
    (hr : shift * Nat.pow 2 52 + roundDiv (num * Nat.pow 2 k) (den * Nat.pow 2 shift) = rank) (h : rank < count) :
    nearest? neg num den = some ⟨neg, rank, h⟩ := by
  rw [nearest?, ← hk]
  subst hs hr
  exact dif_pos h

theorem log2_scaled (hn : n ≠ 0) (k : Nat) : (n * Nat.pow 2 k / 1).log2 = n.log2 + k := by
  have hk : 0 < 2 ^ k := Nat.two_pow_pos k
  rw [Nat.div_one, Nat.pow_eq]
  refine (Nat.log2_eq_iff (Nat.mul_ne_zero hn (Nat.ne_of_gt hk))).mpr ⟨?_, ?_⟩
  · rw [Nat.pow_add]
    exact Nat.mul_le_mul_right _ (Nat.log2_self_le hn)
  · rw [Nat.add_right_comm, Nat.pow_add]
    exact Nat.mul_lt_mul_of_pos_right Nat.lt_log2_self hk

theorem rank_scaled {k : Nat} (hlog : n.log2 ≤ 52) (hk : 52 ≤ k) : (n.log2 + k - 52) * Nat.pow 2 52 +
    roundDiv (n * Nat.pow 2 k) (1 * Nat.pow 2 (n.log2 + k - 52)) =
      (k - 52 + n.log2) * 2 ^ 52 + n * 2 ^ (52 - n.log2) := by
  have hscaled : n * 2 ^ k = n * 2 ^ (52 - n.log2) * 2 ^ (n.log2 + k - 52) := by
    rw [Nat.mul_assoc, ← Nat.pow_add]
    refine congrArg (n * 2 ^ ·) ?_
    omega
  have hpos : 0 < 2 ^ (n.log2 + k - 52) := Nat.two_pow_pos _
  have hround : roundDiv (n * 2 ^ k) (2 ^ (n.log2 + k - 52)) = n * 2 ^ (52 - n.log2) := by
    rw [hscaled]
    simp [roundDiv, Nat.mul_div_cancel _ hpos, hpos]
  simp only [Nat.one_mul, Nat.pow_eq, hround]
  omega

theorem rank_ofInt (hi : i ≠ 0) (h : i.natAbs < 2 ^ 53) :
    (ofInt i).rank = (1022 + i.natAbs.log2) * 2 ^ 52 + i.natAbs * 2 ^ (52 - i.natAbs.log2) ∧
      2 ^ 52 ≤ i.natAbs * 2 ^ (52 - i.natAbs.log2) ∧ i.natAbs * 2 ^ (52 - i.natAbs.log2) < 2 ^ 53 := by
  have hn := Int.natAbs_ne_zero.mpr hi
  rw [ofInt]
  generalize i.natAbs = n at *
  have hlog : n.log2 ≤ 52 := Nat.le_of_lt_succ ((Nat.log2_lt hn).mpr h)
  have hlow : 2 ^ 52 ≤ n * 2 ^ (52 - n.log2) := calc
    2 ^ 52 = 2 ^ n.log2 * 2 ^ (52 - n.log2) := by rw [← Nat.pow_add, Nat.add_sub_cancel' hlog]
    _ ≤ n * 2 ^ (52 - n.log2) := Nat.mul_le_mul_right _ (Nat.log2_self_le hn)
  have hhigh : n * 2 ^ (52 - n.log2) < 2 ^ 53 := calc
    n * 2 ^ (52 - n.log2) < 2 ^ (n.log2 + 1) * 2 ^ (52 - n.log2) :=
      Nat.mul_lt_mul_of_pos_right Nat.lt_log2_self (Nat.two_pow_pos _)
    _ = 2 ^ 53 := by rw [← Nat.pow_add, Nat.add_right_comm, Nat.add_sub_cancel' hlog]
  refine ⟨?_, hlow, hhigh⟩
  obtain ⟨k, hk⟩ : ∃ k, k = 1074 := ⟨_, rfl⟩
  have hcount : (k - 52 + n.log2) * 2 ^ 52 + n * 2 ^ (52 - n.log2) < count := by
    rw [count, Nat.pow_eq]
    omega
  rw [nearest?_eq hk (congrArg (· - 52) (log2_scaled hn k)) (rank_scaled hlog (by omega)) hcount]
  exact congrArg (fun s => (s + n.log2) * 2 ^ 52 + n * 2 ^ (52 - n.log2)) (show k - 52 = 1022 by omega)

theorem rank_ofInt_zero : (ofInt 0).rank = 0 := by
  decide +kernel

theorem neg_ofInt (i : Int) : (ofInt i).neg = decide (i < 0) := by
  rw [ofInt, nearest?]
  split <;> rfl

theorem eq_of_same_ofInt (hi : i.natAbs < 2 ^ 53) (hj : j.natAbs < 2 ^ 53) (h : (ofInt i).same (ofInt j)) : i = j := by
  simp only [same, signedRank, neg_ofInt, beq_iff_eq, decide_eq_true_eq] at h
  rcases eq_or_ne i 0 with rfl | hi0 <;> rcases eq_or_ne j 0 with rfl | hj0
  · rfl
  · obtain ⟨hr, hlow, _⟩ := rank_ofInt hj0 hj
    rw [rank_ofInt_zero] at h
    split at h <;> omega
  · obtain ⟨hr, hlow, _⟩ := rank_ofInt hi0 hi
    rw [rank_ofInt_zero] at h
    split at h <;> omega
  · obtain ⟨hr, hlow, hhigh⟩ := rank_ofInt hi0 hi
    obtain ⟨hr', hlow', hhigh'⟩ := rank_ofInt hj0 hj
    -- The ranks tell the position of the highest bit, and then the mantissas.
    have hlog : i.natAbs.log2 = j.natAbs.log2 := by split at h <;> split at h <;> omega
    rw [hlog] at hr hlow hhigh
    have hm : i.natAbs * 2 ^ (52 - j.natAbs.log2) = j.natAbs * 2 ^ (52 - j.natAbs.log2) := by
      split at h <;> split at h <;> omega
    have hn := Nat.eq_of_mul_eq_mul_right (Nat.two_pow_pos _) hm
    split at h <;> split at h <;> omega

end Double

namespace Number

variable {a b c : Number}

theorem equal_iff : a.equal b ↔ a.toDouble.same b.toDouble ∧ (a.toSigned?.isSome → b.toSigned?.isSome → a = b) := by
  constructor
  · intro h
    refine ⟨?_, fun ha hb => eq_of_equal ha hb h⟩
    rw [equal] at h
    split at h
    · case _ ha hb =>
      obtain rfl : a = b := eq_of_equal (by rw [ha]; rfl) (by rw [hb]; rfl) (by rwa [equal, ha, hb])
      exact Double.same_refl _
    · exact h
  · rintro ⟨hsame, heq⟩
    rw [equal]
    split
    · case _ ha hb =>
      rw [heq (ha ▸ rfl) (hb ▸ rfl), hb] at ha
      cases ha
      exact beq_self_eq_true _
    · exact hsame

theorem equal_trans (hab : a.equal b) (hbc : b.equal c) (h : a.toSigned?.isSome → c.toSigned?.isSome → a = c) :
    a.equal c :=
  equal_iff.mpr ⟨Double.same_trans (equal_iff.mp hab).1 (equal_iff.mp hbc).1, h⟩

theorem isSome_toSigned? : (int i).toSigned?.isSome ↔ minInt ≤ i ∧ i ≤ maxSigned := by
  simp [toSigned?]

theorem equal_int (hi : minInt ≤ i) (hj : minInt ≤ j) :
    (int i).equal (int j) ↔ i = j ∨ (maxSigned < max i j ∧ (Double.ofInt i).same (.ofInt j)) := by
  rw [equal_iff, isSome_toSigned?, isSome_toSigned?, int.injEq, toDouble, toDouble]
  constructor
  · rintro ⟨hsame, heq⟩
    rcases Int.lt_or_le maxSigned (max i j) with hlt | hle
    · exact .inr ⟨hlt, hsame⟩
    · exact .inl (heq ⟨hi, by omega⟩ ⟨hj, by omega⟩)
  · rintro (rfl | ⟨hlt, hsame⟩)
    · exact ⟨Double.same_refl _, fun _ _ => rfl⟩
    · exact ⟨hsame, fun _ _ => by omega⟩

end Number

namespace Value

variable {a b c v w : Value} {p : Path}

-- Values that are equal as far as their parts are left out.
def Alike : Value → Value → Prop
  | .null, .null | .arr _, .arr _ | .obj _, .obj _ => True
  | .bool x, .bool y => x = y
  | .str x, .str y => x = y
  | .num m, .num n => m.equal n
  | _, _ => False

theorem alike_of_equal (h : v.equal w) : v.Alike w := by
  cases v <;> cases w <;> simp_all [Value.equal, Alike]

theorem Like.alike (h : v.Like w) (p : Path) : Option.Rel Alike (v.get? p) (w.get? p) := by
  have hrel := h.get? (respelled_refl v p)
  generalize v.get? p = x, w.get? p = y at hrel
  cases hrel with
  | none => exact .none
  | some hxy => exact .some (alike_of_equal hxy.equal)

theorem like_of_alike (hv : v.Canonical) (hw : w.Canonical) (h : ∀ p, Option.Rel Alike (v.get? p) (w.get? p)) :
    v.Like w := by
  induction v using child_induction generalizing w with
  | h v ih =>
    have hchild (seg : Seg) : Option.Rel Like (v.child? seg) (w.child? seg) := by
      have hp (p : Path) := h (seg :: p)
      simp only [get?] at hp
      cases hx : v.child? seg with
      | none =>
        cases hy : w.child? seg with
        | none => exact .none
        | some y =>
          rw [hx, hy] at hp
          cases hp []
      | some x =>
        cases hy : w.child? seg with
        | none =>
          rw [hx, hy] at hp
          cases hp []
        | some y =>
          rw [hx, hy] at hp
          exact .some (ih seg x hx (hereditary_canonical.child hv hx) (hereditary_canonical.child hw hy) hp)
    have htop : v.Alike w := by
      cases h [] with
      | some h => exact h
    cases v <;> cases w <;> first | exact htop.elim | skip
    case arr.arr => exact like_arr_iff.mpr fun i => hchild (.index i)
    case obj.obj => exact like_obj_iff.mpr ⟨hv.1, hw.1, fun k => hchild (.key k)⟩
    all_goals exact ⟨hv, hw, by simp_all [Value.equal, Alike]⟩

theorem Like.symm (h : a.Like b) : b.Like a := by
  refine like_of_alike h.right h.left fun p => ?_
  have hrel := h.alike p
  generalize a.get? p = x, b.get? p = y at hrel
  cases hrel with
  | none => exact .none
  | @some x y hxy =>
    refine .some ?_
    cases x <;> cases y <;> simp_all [Alike, Number.equal_comm]

def Concur (a c : Value) : Prop :=
  ∀ p m n, a.get? p = some (.num m) → c.get? p = some (.num n) → m.toSigned?.isSome → n.toSigned?.isSome → m = n

theorem Like.trans (hab : a.Like b) (hbc : b.Like c) (h : a.Concur c) : a.Like c := by
  refine like_of_alike hab.left hbc.right fun p => ?_
  have hab := hab.alike p
  have hbc := hbc.alike p
  have h := h p
  generalize a.get? p = x, b.get? p = y, c.get? p = z at hab hbc h
  cases hab with
  | none =>
    cases hbc
    exact .none
  | @some x y hxy =>
    cases hbc with
    | @some _ z hyz =>
      refine .some ?_
      cases x <;> cases y <;> first | exact hxy.elim | skip
      case num.num m _ =>
        cases z <;> first | exact hyz.elim | skip
        case num n => exact Number.equal_trans hxy hyz (h m n rfl rfl)
      all_goals cases z <;> simp_all [Alike]

theorem Like.concur (h : a.Like c) : a.Concur c := by
  intro p m n hm hn hms hns
  have hrel := h.alike p
  rw [hm, hn] at hrel
  cases hrel with
  | some hmn => exact Number.eq_of_equal hms hns hmn

theorem concur_of_lt (hab : a.Like b) (hbc : b.Like c)
    (h : ∀ p i, a.get? p = some (.int i) ∨ c.get? p = some (.int i) → i.natAbs < 2 ^ 53) : a.Concur c := by
  intro p m n hm hn hms hns
  have hab := hab.alike p
  have hbc := hbc.alike p
  rw [hm] at hab
  rw [hn] at hbc
  generalize b.get? p = y at hab hbc
  cases hab with
  | @some _ y hmy =>
    cases hbc with
    | some hyn =>
      cases y <;> first | exact hmy.elim | skip
      case num k =>
        have hsame := Double.same_trans (Number.equal_iff.mp hmy).1 (Number.equal_iff.mp hyn).1
        cases m with
        | double => cases hms
        | int i =>
          cases n with
          | double => cases hns
          | int j => rw [Double.eq_of_same_ofInt (h p i (.inl hm)) (h p j (.inr hn)) hsame]

-- Equality is reflexive and symmetric. What two values are equal to are equal to each other unless they have
-- different signed integers at a place, which takes integers of more than 53 bits.
theorem equal_laws (a b c : CanonicalValue) : a.1.equal a ∧ (a.1.equal b → b.1.equal a) ∧
    (a.1.equal b → b.1.equal c → (a.1.equal c ↔ a.1.Concur c) ∧
      ((∀ p i, a.1.get? p = some (.int i) ∨ c.1.get? p = some (.int i) → i.natAbs < 2 ^ 53) → a.1.equal c)) ∧
    ∀ i j, Number.minInt ≤ i → Number.minInt ≤ j → ((Value.int i).equal (.int j) ↔
      i = j ∨ (Number.maxSigned < max i j ∧ (Double.ofInt i).same (.ofInt j))) := by
  obtain ⟨a, ha⟩ := a
  obtain ⟨b, hb⟩ := b
  obtain ⟨c, hc⟩ := c
  refine ⟨a.equal_refl ha, fun h => (Like.symm ⟨ha, hb, h⟩).equal, fun hab hbc => ?_, fun _ _ => Number.equal_int⟩
  have hab : a.Like b := ⟨ha, hb, hab⟩
  have hbc : b.Like c := ⟨hb, hc, hbc⟩
  exact ⟨⟨fun h => Like.concur ⟨ha, hc, h⟩, fun h => (hab.trans hbc h).equal⟩,
    fun h => (hab.trans hbc (concur_of_lt hab hbc h)).equal⟩

-- Two integers of 54 bits are both equal to a double between them, and not to each other.
theorem equal_laws_rounded :
    let a := obj [("n", .int 9007199254740992)]
    let b := obj [("n", .num (.double (.ofInt 9007199254740992)))]
    let c := obj [("n", .int 9007199254740993)]
    a.equal b ∧ b.equal a ∧ b.equal c ∧ ¬ a.equal c := by
  intro a b c
  have hab : a.equal b := by decide +kernel
  have hbc : b.equal c := by decide +kernel
  have hcanonical (m : Number) : Canonical (obj [("n", .num m)]) := ⟨List.pairwise_singleton _ _, trivial, trivial⟩
  obtain ⟨_, hsymm, htrans, _⟩ := equal_laws ⟨a, hcanonical _⟩ ⟨b, hcanonical _⟩ ⟨c, hcanonical _⟩
  refine ⟨hab, hsymm hab, hbc, fun hac => ?_⟩
  cases (htrans hab hbc).1.mp hac [.key "n"] (.int 9007199254740992) (.int 9007199254740993) rfl rfl rfl rfl

-- Different integers beyond the signed range are equal.
theorem equal_merges_integers : (Value.int 18446744073709551615).equal (.int 18446744073709551614) := by
  decide +kernel

end Value
end Dossier

import HttpFields.Proofs.Rounding

/-!
# The number nearest to a rational

Significands are even and odd by turns, so of two neighbours only one can win a tie. A rational therefore rounds to
one number only, and a greater one never to a smaller number.

* `Binary64.isEven_iff` : numbers are even and odd by turns
* `Binary64.rank_le_of_rounds`, `Binary64.rank_eq_of_rounds` : rounding is monotone, and its result is unique
* `Binary64.toRat` : the rational that a number stands for; `Binary64.IsNearest` : a rational rounds to a number
* `Binary64.isNearest_of_rounds` : sign and magnitude are rounded apart
* `Binary64.toRat_ofInt` : integers below `2^53` are numbers
-/

namespace HttpFields.Decimal

set_option autoImplicit false

/-! ## Preferences between two numbers -/

section Prefers

variable {even : Bool} {r u v w : ℚ}

theorem Prefers.mid_le (h : Prefers even r v u) (huv : u < v) : (u + v) / 2 ≤ r := by
  rw [prefers_iff_of_lt huv] at h
  split at h
  · exact h
  · exact h.le

theorem Prefers.le_mid (h : Prefers even r v w) (hvw : v < w) : r ≤ (v + w) / 2 := by
  rw [prefers_iff_of_gt hvw] at h
  split at h
  · exact h
  · exact h.le

/-- Two rationals that are drawn across each other are both at the tie, and both win it by an even significand. -/
theorem Prefers.both_even {even' : Bool} {s : ℚ} (hv : Prefers even r v u) (hu : Prefers even' s u v) (huv : u < v)
    (hrs : r ≤ s) : even = true ∧ even' = true := by
  have habove := hv.mid_le huv
  have hbelow := hu.le_mid huv
  rw [prefers_iff_of_lt huv] at hv
  rw [prefers_iff_of_gt huv] at hu
  constructor
  · by_contra hodd
    rw [if_neg hodd] at hv
    linarith
  · by_contra hodd
    rw [if_neg hodd] at hu
    linarith

end Prefers

namespace Binary64

variable {x y : Binary64} {r s : ℚ}

/-! ## Monotonicity -/

theorem significandAt_mod_two (i : ℕ) : significandAt i % 2 = i % 2 := by
  unfold significandAt
  split <;> omega

/-- Infinity counts as even, like the number that would stand there. -/
theorem isEven_iff (hx : x.size ≠ .nan) : x.isEven = true ↔ x.rank % 2 = 0 := by
  have hle := rank_le_topRank hx
  rw [isEven, size_eq]
  by_cases hlt : x.rank < topRank
  · rw [if_pos hlt, ← significandAt_mod_two]
    exact decide_eq_true_iff
  · have htop : x.rank = topRank := by omega
    rw [if_neg hlt, if_pos htop, htop]
    decide

/-- A rational that is not greater does not round to a greater number. Only neighbours at a tie could be drawn
across each other, and one of them is odd. -/
theorem rank_le_of_rounds (hx : x.size ≠ .nan) (hy : y.size ≠ .nan) (hxr : x.Rounds r) (hys : y.Rounds s)
    (hrs : r ≤ s) : x.rank ≤ y.rank := by
  by_contra hlt
  rw [not_le] at hlt
  have hvalue : valueAt y.rank < valueAt x.rank := valueAt_strictMono hlt
  have hxy := hxr y hy
  have hyx := hys x hx
  rw [magnitude_eq hx, magnitude_eq hy] at hxy hyx
  by_cases hnext : x.rank = y.rank + 1
  · obtain ⟨hevenx, heveny⟩ := hxy.both_even hyx hvalue hrs
    rw [isEven_iff hx] at hevenx
    rw [isEven_iff hy] at heveny
    omega
  · -- A number between the two keeps their rationals apart.
    have htop := rank_le_topRank hx
    have hbound : topRank < 2 ^ 63 := by decide
    obtain ⟨z, hz⟩ := exists_rank (i := y.rank + 1) (by omega)
    have hznan : z.size ≠ .nan := size_ne_nan (by omega)
    have hxz := hxr z hznan
    rw [magnitude_eq hx, magnitude_eq hznan, hz] at hxz
    have hyz : valueAt y.rank < valueAt (y.rank + 1) := valueAt_strictMono (Nat.lt_succ_self _)
    have hzx : valueAt (y.rank + 1) < valueAt x.rank := valueAt_strictMono (by omega)
    have habove := hxz.mid_le hzx
    have hbelow := hyx.le_mid hvalue
    linarith

theorem rank_eq_of_rounds (hx : x.size ≠ .nan) (hy : y.size ≠ .nan) (hxr : x.Rounds r) (hyr : y.Rounds r) :
    x.rank = y.rank :=
  le_antisymm (rank_le_of_rounds hx hy hxr hyr le_rfl) (rank_le_of_rounds hy hx hyr hxr le_rfl)

/-! ## Signs -/

theorem eq_of_rank_eq (hrank : x.rank = y.rank) (hsign : x.isNegative = y.isNegative) : x = y := by
  have hbits : x.bits.toNat = y.bits.toNat := by
    have hx := x.bits.toNat_lt
    have hy := y.bits.toNat_lt
    have hnegative : 2 ^ 63 ≤ x.bits.toNat ↔ 2 ^ 63 ≤ y.bits.toNat := decide_eq_decide.mp hsign
    unfold rank at hrank
    omega
  cases x
  cases y
  exact congrArg mk (UInt64.toNat_inj.mp hbits)

/-- The rational that a number stands for. -/
def toRat (x : Binary64) : ℚ := if x.isNegative then -x.magnitude else x.magnitude

/-- Of all numbers `x` is nearest to the rational, and if it ties with another then it is even. -/
def IsNearest (x : Binary64) (r : ℚ) : Prop :=
  ∀ y : Binary64, y.size ≠ .nan → Prefers x.isEven r x.toRat y.toRat

theorem magnitude_nonneg (x : Binary64) : 0 ≤ x.magnitude := by
  unfold magnitude
  split
  · exact le_rfl
  · exact zpow_nonneg (by norm_num) _
  · exact mul_nonneg (Nat.cast_nonneg _) (zpow_nonneg (by norm_num) _)

theorem abs_toRat (x : Binary64) : |x.toRat| = x.magnitude := by
  unfold toRat
  split
  · rw [abs_neg, abs_of_nonneg x.magnitude_nonneg]
  · exact abs_of_nonneg x.magnitude_nonneg

theorem toRat_neg_iff (hx : 0 < x.magnitude) : x.toRat < 0 ↔ x.isNegative = true := by
  unfold toRat
  split
  · next h => exact iff_of_true (neg_lt_zero.mpr hx) h
  · next h => exact iff_of_false hx.not_gt h

/-- A magnitude is preferred to that of any other number, so also to its negative: zero lies between them. -/
theorem prefers_neg_magnitude (hx : 0 < x.magnitude) (h : x.Rounds r) (y : Binary64) :
    Prefers x.isEven r x.magnitude (-y.magnitude) := by
  obtain ⟨zero, hzero⟩ := exists_rank (i := 0) (by decide)
  have hnan : zero.size ≠ .nan := size_ne_nan (by omega)
  have hvalue : zero.magnitude = 0 := by
    rw [magnitude_eq hnan, hzero, valueAt]
    exact mul_eq_zero_of_left rfl _
  have hpreferred := h zero hnan
  rw [hvalue] at hpreferred
  exact hpreferred.of_le (neg_nonpos.mpr y.magnitude_nonneg) hx

theorem isNearest_of_rounds (hx : 0 < x.magnitude) (h : x.Rounds r) :
    x.IsNearest (if x.isNegative then -r else r) := by
  intro y hy
  have hsame := h y hy
  have hother := prefers_neg_magnitude hx h y
  rw [toRat, toRat]
  by_cases hxneg : x.isNegative = true
  · rw [if_pos hxneg, if_pos hxneg]
    split
    · exact prefers_neg.mpr hsame
    · rw [← neg_neg y.magnitude]
      exact prefers_neg.mpr hother
  · rw [if_neg hxneg, if_neg hxneg]
    split
    · exact hother
    · exact hsame

/-! ## Integers -/

section Integers

variable {n b : ℕ}

/-- Below `2^53` a natural is shifted up to a significand, and loses nothing. -/
theorem valueAt_bitsOfNat (hbound : n < 2 ^ 53) : bitsOfNat n < topRank ∧ valueAt (bitsOfNat n) = n := by
  rcases Nat.eq_zero_or_pos n with rfl | hn
  · exact ⟨by decide, mul_eq_zero_of_left rfl _⟩
  have htop : n.log2 ≤ 52 := by
    have := (Nat.log2_lt hn.ne').mpr hbound
    omega
  have hlow : 2 ^ 52 ≤ n * 2 ^ (52 - n.log2) := by
    calc 2 ^ 52 = 2 ^ n.log2 * 2 ^ (52 - n.log2) := by rw [← Nat.pow_add, Nat.add_sub_cancel' htop]
      _ ≤ n * 2 ^ (52 - n.log2) := Nat.mul_le_mul_right _ (Nat.log2_self_le hn.ne')
  have hhigh : n * 2 ^ (52 - n.log2) < 2 ^ 53 := by
    calc n * 2 ^ (52 - n.log2)
        < 2 ^ (n.log2 + 1) * 2 ^ (52 - n.log2) := Nat.mul_lt_mul_of_pos_right Nat.lt_log2_self (Nat.two_pow_pos _)
      _ = 2 ^ 53 := by rw [← Nat.pow_add]; congr 1; omega
  have hshift : ((n * 2 ^ (52 - n.log2) : ℕ) : ℚ) * 2 ^ ((n.log2 : ℤ) - 52) = n := by
    rw [Nat.cast_mul, Nat.cast_pow, Nat.cast_ofNat, mul_assoc, ← zpow_natCast, ← zpow_add₀ two_ne_zero,
      Nat.cast_sub htop]
    simp
  have hbits : bitsOfNat n = (n.log2 + 1023) * 2 ^ 52 + (n * 2 ^ (52 - n.log2) - 2 ^ 52) := by
    simp only [bitsOfNat, fractionBits, if_neg hn.ne', if_pos htop]
    exact Nat.min_eq_left (by omega)
  generalize n * 2 ^ (52 - n.log2) = s at *
  have hsignificand : significandAt (bitsOfNat n) = s := by
    unfold significandAt
    rw [if_neg (by omega)]
    omega
  have hexponent : exponentAt (bitsOfNat n) = n.log2 - 52 := by
    unfold exponentAt
    omega
  refine ⟨?_, by rw [valueAt, hsignificand, hexponent, hshift]⟩
  show bitsOfNat n < 2047 * 2 ^ 52
  omega

theorem toRat_of_rank {negative : Bool} (hb : b < topRank) (hrank : x.rank = b) (hsign : x.isNegative = negative) :
    (∃ m q, x.size = .finite m q) ∧ x.toRat = if negative then -valueAt b else valueAt b := by
  refine ⟨⟨_, _, by rw [size_eq, hrank, if_pos hb]⟩, ?_⟩
  rw [toRat, hsign, magnitude_eq (size_ne_nan (by omega)), hrank]

theorem toRat_ofBits (hb : b < topRank) :
    (∃ m q, (⟨.ofNat b⟩ : Binary64).size = .finite m q) ∧ (⟨.ofNat b⟩ : Binary64).toRat = valueAt b := by
  have htop : topRank < 2 ^ 63 := by decide
  have hword : (UInt64.ofNat b).toNat = b := UInt64.toNat_ofNat_of_lt' (show b < 2 ^ 64 by omega)
  have hrank : (⟨.ofNat b⟩ : Binary64).rank = b := by
    rw [rank, hword]
    exact Nat.mod_eq_of_lt (hb.trans htop)
  have hsign : (⟨.ofNat b⟩ : Binary64).isNegative = false := by
    rw [isNegative, hword]
    exact decide_eq_false (not_le.mpr (hb.trans htop))
  exact toRat_of_rank hb hrank hsign

theorem toRat_ofBits_negative (hb : b < topRank) :
    (∃ m q, (⟨.ofNat (2 ^ 63 + b)⟩ : Binary64).size = .finite m q) ∧
      (⟨.ofNat (2 ^ 63 + b)⟩ : Binary64).toRat = -valueAt b := by
  have htop : topRank < 2 ^ 63 := by decide
  have hword : (UInt64.ofNat (2 ^ 63 + b)).toNat = 2 ^ 63 + b :=
    UInt64.toNat_ofNat_of_lt' (show 2 ^ 63 + b < 2 ^ 64 by omega)
  have hrank : (⟨.ofNat (2 ^ 63 + b)⟩ : Binary64).rank = b := by
    rw [rank, hword]
    omega
  have hsign : (⟨.ofNat (2 ^ 63 + b)⟩ : Binary64).isNegative = true := by
    rw [isNegative, hword]
    exact decide_eq_true (Nat.le_add_right _ _)
  exact toRat_of_rank hb hrank hsign

theorem toRat_ofInt {i : ℤ} (hbound : i.natAbs < 2 ^ 53) :
    (∃ m q, (ofInt i).size = .finite m q) ∧ (ofInt i).toRat = i := by
  obtain ⟨hfinite, hvalue⟩ := valueAt_bitsOfNat hbound
  cases i with
  | ofNat n =>
    obtain ⟨hsize, hrat⟩ := toRat_ofBits hfinite
    exact ⟨hsize, hrat.trans hvalue⟩
  | negSucc n =>
    obtain ⟨hsize, hrat⟩ := toRat_ofBits_negative hfinite
    refine ⟨hsize, hrat.trans ?_⟩
    rw [hvalue, Int.natAbs_negSucc, Int.cast_negSucc]

end Integers

end Binary64

end HttpFields.Decimal

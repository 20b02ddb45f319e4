import Mathlib.Algebra.Order.Field.Power
import Mathlib.Algebra.Order.Ring.Rat
import Mathlib.Tactic.FieldSimp
import Mathlib.Tactic.Linarith
import Mathlib.Tactic.Ring
import HttpFields.Decimal.Shortest

/-!
# Rounding to binary numbers

The bits of a number without its sign count the numbers up from zero, so each number has one neighbour on
either side. A rational rounds to the number whose cell it lies in.

* `Binary64.magnitude` : the rational that a number stands for, its sign aside
* `Binary64.Rounds` : to nearest, ties to even
* `Binary64.rank` : the place of a number among all; `valueAt` : the number of a rank
* `Cell.Covers` : a rational lies in a cell
* `Binary64.rounds_iff_covers` : the cell of a number is the set of the rationals that round to it
-/

namespace HttpFields.Decimal

set_option autoImplicit false

namespace Binary64

/-- Infinity stands where the next number would be. -/
def magnitude (x : Binary64) : ℚ :=
  match x.size with
  | .nan => 0
  | .infinite => 2 ^ (1024 : ℤ)
  | .finite m q => m * 2 ^ q

def isEven (x : Binary64) : Bool :=
  match x.size with
  | .finite m _ => m % 2 = 0
  | _ => true

end Binary64

/-- A rational is nearer to `v` than to `u`, or as near, and `v` wins the tie. -/
def Prefers (even : Bool) (r v u : ℚ) : Prop :=
  |r - v| < |r - u| ∨ |r - v| = |r - u| ∧ (v = u ∨ even)

/-- A rational rounds to `x`, among all numbers and infinity. -/
def Binary64.Rounds (x : Binary64) (r : ℚ) : Prop :=
  ∀ y : Binary64, y.size ≠ .nan → Prefers x.isEven r x.magnitude y.magnitude

/-! ## Preferences -/

section Prefers

variable {even : Bool} {r u v w : ℚ}

theorem abs_sub_lt_abs_sub_iff (h : u < v) : |r - v| < |r - u| ↔ (u + v) / 2 < r := by
  have hfactor : (r - u) ^ 2 - (r - v) ^ 2 = (v - u) * (2 * r - u - v) := by ring
  rw [← sq_lt_sq, ← sub_pos, hfactor, mul_pos_iff_of_pos_left (sub_pos.mpr h)]
  constructor <;> intro h' <;> linarith

theorem abs_sub_eq_abs_sub_iff (h : u < v) : |r - v| = |r - u| ↔ r = (u + v) / 2 := by
  have hfactor : (r - u) ^ 2 - (r - v) ^ 2 = (v - u) * (2 * r - u - v) := by ring
  rw [← sq_eq_sq_iff_abs_eq_abs, eq_comm, ← sub_eq_zero, hfactor, mul_eq_zero_iff_left (sub_pos.mpr h).ne']
  constructor <;> intro h' <;> linarith

theorem prefers_iff_of_lt (h : u < v) :
    Prefers even r v u ↔ if even then (u + v) / 2 ≤ r else (u + v) / 2 < r := by
  rw [Prefers, abs_sub_lt_abs_sub_iff h, abs_sub_eq_abs_sub_iff h]
  cases even with
  | false => simp [h.ne']
  | true => simp [le_iff_lt_or_eq, eq_comm]

theorem prefers_neg : Prefers even (-r) (-v) (-u) ↔ Prefers even r v u := by
  rw [Prefers, Prefers, neg_sub_neg, neg_sub_neg, abs_sub_comm v, abs_sub_comm u, neg_inj]

theorem prefers_iff_of_gt (h : v < w) :
    Prefers even r v w ↔ if even then r ≤ (v + w) / 2 else r < (v + w) / 2 := by
  have hmid : (-w + -v) / 2 = -((v + w) / 2) := by ring
  rw [← prefers_neg, prefers_iff_of_lt (neg_lt_neg h), hmid, neg_le_neg_iff, neg_lt_neg_iff]

theorem Prefers.of_le {u' : ℚ} (h : Prefers even r v u) (hu : u' ≤ u) (hv : u < v) : Prefers even r v u' := by
  rw [prefers_iff_of_lt hv] at h
  rw [prefers_iff_of_lt (hu.trans_lt hv)]
  cases even with
  | false => simp only [Bool.false_eq_true, if_false] at h ⊢; linarith
  | true => simp only [if_true] at h ⊢; linarith

theorem Prefers.of_ge {w' : ℚ} (h : Prefers even r v w) (hw : w ≤ w') (hv : v < w) : Prefers even r v w' := by
  rw [prefers_iff_of_gt hv] at h
  rw [prefers_iff_of_gt (hv.trans_le hw)]
  cases even with
  | false => simp only [Bool.false_eq_true, if_false] at h ⊢; linarith
  | true => simp only [if_true] at h ⊢; linarith

end Prefers

namespace Binary64

/-! ## Ranks -/

def rank (x : Binary64) : ℕ := x.bits.toNat % 2 ^ 63

abbrev topRank : ℕ := 2047 * 2 ^ 52

theorem exponentField_eq (x : Binary64) : x.exponentField = x.rank / 2 ^ 52 := by
  show x.bits.toNat / 2 ^ 52 % 2 ^ 11 = x.bits.toNat % 2 ^ 63 / 2 ^ 52
  omega

theorem fraction_eq (x : Binary64) : x.fraction = x.rank % 2 ^ 52 := by
  show x.bits.toNat % 2 ^ 52 = x.bits.toNat % 2 ^ 63 % 2 ^ 52
  omega

theorem rank_lt (x : Binary64) : x.rank < 2 ^ 63 := by
  unfold rank; omega

theorem exists_rank {i : ℕ} (h : i < 2 ^ 63) : ∃ x : Binary64, x.rank = i := by
  have hbits : (UInt64.ofNat i).toNat = i := UInt64.toNat_ofNat_of_lt' (h.trans (by decide))
  exact ⟨⟨.ofNat i⟩, by rw [rank, hbits]; omega⟩

def significandAt (i : ℕ) : ℕ := if i / 2 ^ 52 = 0 then i % 2 ^ 52 else 2 ^ 52 + i % 2 ^ 52

def exponentAt (i : ℕ) : ℤ := max (i / 2 ^ 52 : ℕ) 1 - 1075

def valueAt (i : ℕ) : ℚ := significandAt i * 2 ^ exponentAt i

theorem size_eq (x : Binary64) :
    x.size = if x.rank < topRank then .finite (significandAt x.rank) (exponentAt x.rank)
      else if x.rank = topRank then .infinite else .nan := by
  have hrank := x.rank_lt
  have htop : topRank = 2047 * 2 ^ 52 := rfl
  rw [size, exponentField_eq, fraction_eq, significandAt, exponentAt]
  by_cases hlt : x.rank < topRank
  · rw [if_neg (by omega), if_pos hlt]
    by_cases hzero : x.rank / 2 ^ 52 = 0
    · rw [if_pos hzero, if_pos hzero, hzero]; rfl
    · rw [if_neg hzero, if_neg hzero]
      congr 1; omega
  · rw [if_pos (by omega), if_neg hlt]
    by_cases heq : x.rank = topRank
    · rw [if_pos (by omega), if_pos heq]
    · rw [if_neg (by omega), if_neg heq]

theorem rank_le_topRank {x : Binary64} (h : x.size ≠ .nan) : x.rank ≤ topRank := by
  rw [size_eq] at h
  by_contra hlt
  rw [if_neg (by omega), if_neg (by omega)] at h
  exact h rfl

theorem size_ne_nan {x : Binary64} (h : x.rank ≤ topRank) : x.size ≠ .nan := by
  rw [size_eq]
  split
  · simp
  · rw [if_pos (by omega)]; simp

theorem magnitude_eq {x : Binary64} (h : x.size ≠ .nan) : x.magnitude = valueAt x.rank := by
  have hle := rank_le_topRank h
  rw [magnitude, size_eq]
  by_cases hlt : x.rank < topRank
  · rw [if_pos hlt]; rfl
  · have heq : x.rank = topRank := by omega
    rw [if_neg hlt, if_pos heq, heq]
    have hsignificand : significandAt topRank = 2 ^ 52 := by decide +kernel
    have hexponent : exponentAt topRank = 972 := by decide +kernel
    rw [valueAt, hsignificand, hexponent, Nat.cast_pow, ← zpow_natCast, Nat.cast_ofNat,
      ← zpow_add₀ two_ne_zero]
    rfl

/-! ## Neighbours -/

theorem gap_pos (i : ℕ) : (0 : ℚ) < 2 ^ exponentAt i := zpow_pos (by norm_num) _

/-- The fraction is counted up by one, or it is full and the exponent is. -/
theorem valueAt_succ (i : ℕ) : valueAt (i + 1) = valueAt i + 2 ^ exponentAt i := by
  unfold valueAt
  by_cases hfull : i % 2 ^ 52 + 1 = 2 ^ 52
  · have hsignificand : significandAt (i + 1) = 2 ^ 52 := by
      unfold significandAt
      rw [if_neg (by omega)]; omega
    rw [hsignificand]
    by_cases hzero : i / 2 ^ 52 = 0
    · have hold : significandAt i = 2 ^ 52 - 1 := by
        unfold significandAt
        rw [if_pos hzero]; omega
      have hexponent : exponentAt (i + 1) = exponentAt i := by
        unfold exponentAt; omega
      rw [hold, hexponent]
      push_cast
      ring
    · have hold : significandAt i = 2 ^ 53 - 1 := by
        unfold significandAt
        rw [if_neg hzero]; omega
      have hexponent : exponentAt (i + 1) = exponentAt i + 1 := by
        unfold exponentAt; omega
      rw [hold, hexponent, zpow_add_one₀ (by norm_num)]
      push_cast
      ring
  · have hsignificand : significandAt (i + 1) = significandAt i + 1 := by
      unfold significandAt
      split <;> split <;> omega
    have hexponent : exponentAt (i + 1) = exponentAt i := by
      unfold exponentAt; omega
    rw [hsignificand, hexponent]
    push_cast
    ring

theorem valueAt_strictMono : StrictMono valueAt := by
  refine strictMono_nat_of_lt_succ fun i => ?_
  have hgap := gap_pos i
  rw [valueAt_succ]
  linarith

/-- It is enough to compare a number with its neighbours. -/
theorem rounds_iff_prefers {x : Binary64} {i : ℕ} (hx : x.rank = i + 1) (hi : i + 1 < topRank) (r : ℚ) :
    x.Rounds r ↔
      Prefers x.isEven r (valueAt (i + 1)) (valueAt i) ∧ Prefers x.isEven r (valueAt (i + 1)) (valueAt (i + 2)) := by
  have htop : topRank < 2 ^ 63 := by decide
  have hmagnitude : x.magnitude = valueAt (i + 1) := by rw [magnitude_eq (size_ne_nan (by omega)), hx]
  constructor
  · intro h
    obtain ⟨y, hy⟩ := exists_rank (i := i) (by omega)
    obtain ⟨z, hz⟩ := exists_rank (i := i + 2) (by omega)
    have hynan := size_ne_nan (x := y) (by omega)
    have hznan := size_ne_nan (x := z) (by omega)
    have hlow := h y hynan
    have hhigh := h z hznan
    rw [hmagnitude, magnitude_eq hynan, hy] at hlow
    rw [hmagnitude, magnitude_eq hznan, hz] at hhigh
    exact ⟨hlow, hhigh⟩
  · rintro ⟨hlow, hhigh⟩ y hnan
    rw [hmagnitude, magnitude_eq hnan]
    rcases lt_trichotomy y.rank (i + 1) with hlt | heq | hgt
    · have hle : valueAt y.rank ≤ valueAt i := valueAt_strictMono.monotone (by omega)
      exact hlow.of_le hle (valueAt_strictMono (by omega))
    · rw [heq]
      exact .inr ⟨rfl, .inl rfl⟩
    · have hle : valueAt (i + 2) ≤ valueAt y.rank := valueAt_strictMono.monotone (by omega)
      exact hhigh.of_ge hle (valueAt_strictMono (by omega))

end Binary64

/-! ## Cells -/

theorem zpow_eq_div {b : ℚ} (hb : b ≠ 0) (g : ℤ) : b ^ g = b ^ g.toNat / b ^ (-g).toNat := by
  rw [← zpow_natCast, ← zpow_natCast, ← zpow_sub₀ hb]
  congr 1; omega

def GridPoint.value (d : GridPoint) : ℚ := d.significand * 10 ^ d.exponent

namespace Cell

def lower (c : Cell) : ℚ := c.low / c.denominator

def value (c : Cell) : ℚ := c.number / c.denominator

def upper (c : Cell) : ℚ := c.high / c.denominator

/-- A rational lies in the cell. -/
def Covers (c : Cell) (r : ℚ) : Prop :=
  if c.closed then c.lower ≤ r ∧ r ≤ c.upper else c.lower < r ∧ r < c.upper

theorem holds_iff_covers {c : Cell} (hc : 0 < c.denominator) (d : GridPoint) :
    c.Holds d ↔ c.Covers d.value := by
  have hden : (0 : ℚ) < c.denominator := by exact_mod_cast hc
  have hunit : (0 : ℚ) < 10 ^ (-d.exponent).toNat := pow_pos (by norm_num) _
  have hvalue : d.value = d.significand * 10 ^ d.exponent.toNat / 10 ^ (-d.exponent).toNat := by
    rw [GridPoint.value, zpow_eq_div (by norm_num), mul_div_assoc]
  rw [Holds, Covers, hvalue, lower, upper, div_le_div_iff₀ hden hunit, div_le_div_iff₀ hunit hden,
    div_lt_div_iff₀ hden hunit, div_lt_div_iff₀ hunit hden]
  norm_cast

section ofFinite

variable {m : ℕ} {q : ℤ}

theorem ofFinite_denominator_pos (m : ℕ) (q : ℤ) (narrow : Bool) : 0 < (ofFinite m q narrow).denominator :=
  Nat.mul_pos (by decide) (Nat.two_pow_pos _)

theorem ofFinite_value (m : ℕ) (q : ℤ) (narrow : Bool) : (ofFinite m q narrow).value = m * 2 ^ q := by
  rw [zpow_eq_div two_ne_zero, value, ofFinite]
  push_cast
  field_simp

theorem ofFinite_upper (m : ℕ) (q : ℤ) (narrow : Bool) : (ofFinite m q narrow).upper = m * 2 ^ q + 2 ^ q / 2 := by
  rw [zpow_eq_div two_ne_zero, upper, ofFinite]
  push_cast
  field_simp
  ring

theorem ofFinite_lower (hm : 0 < m) (q : ℤ) (narrow : Bool) :
    (ofFinite m q narrow).lower = m * 2 ^ q - 2 ^ q / if narrow then 4 else 2 := by
  rw [zpow_eq_div two_ne_zero, lower, ofFinite]
  cases narrow with
  | false =>
    have hle : 2 ≤ 4 * m := by omega
    simp only [Bool.false_eq_true, if_false]
    push_cast [Nat.cast_sub hle]
    field_simp
    ring
  | true =>
    have hle : 1 ≤ 4 * m := by omega
    simp only [if_true]
    push_cast [Nat.cast_sub hle]
    field_simp

end ofFinite

end Cell

namespace Binary64

theorem exponentAt_eq_sub {x : Binary64} {i : ℕ} (hx : x.rank = i + 1) :
    exponentAt i = exponentAt (i + 1) - if x.isNarrowBelow then 1 else 0 := by
  rw [isNarrowBelow, exponentField_eq, fraction_eq, hx]
  by_cases hnarrow : (i + 1) % 2 ^ 52 = 0 ∧ 1 < (i + 1) / 2 ^ 52
  · have htrue : (decide ((i + 1) % 2 ^ 52 = 0) && decide (1 < (i + 1) / 2 ^ 52)) = true := by
      simpa using hnarrow
    rw [htrue, exponentAt, exponentAt, if_pos rfl]
    omega
  · have hfalse : (decide ((i + 1) % 2 ^ 52 = 0) && decide (1 < (i + 1) / 2 ^ 52)) = false := by
      simpa using hnarrow
    rw [hfalse, exponentAt, exponentAt, if_neg (by decide)]
    omega

theorem exists_rank_eq_succ {x : Binary64} {m : ℕ} {q : ℤ} (hx : x.size = .finite m q) (hm : 0 < m) :
    ∃ i, x.rank = i + 1 ∧ i + 1 < topRank ∧ significandAt (i + 1) = m ∧ exponentAt (i + 1) = q := by
  rw [size_eq] at hx
  by_cases hlt : x.rank < topRank
  · rw [if_pos hlt] at hx
    injection hx with hsignificand hexponent
    have hne : x.rank ≠ 0 := by
      intro hzero
      rw [hzero] at hsignificand
      exact hm.ne hsignificand
    obtain ⟨i, hi⟩ := Nat.exists_eq_succ_of_ne_zero hne
    rw [Nat.succ_eq_add_one] at hi
    rw [hi] at hlt hsignificand hexponent
    exact ⟨i, hi, hlt, hsignificand, hexponent⟩
  · rw [if_neg hlt] at hx
    split at hx <;> contradiction

/-- The cell of a number holds what rounds to it, and nothing else. -/
theorem rounds_iff_covers {x : Binary64} {m : ℕ} {q : ℤ} (hx : x.size = .finite m q) (hm : 0 < m)
    (r : ℚ) : x.Rounds r ↔ (Cell.ofFinite m q x.isNarrowBelow).Covers r := by
  obtain ⟨i, hi, htop, hsignificand, hexponent⟩ := exists_rank_eq_succ hx hm
  have hvalue : valueAt (i + 1) = m * 2 ^ q := by rw [valueAt, hsignificand, hexponent]
  have hbelow := valueAt_succ i
  have habove := valueAt_succ (i + 1)
  have hgapBelow := gap_pos i
  have hgapAbove := gap_pos (i + 1)
  have hclosed : x.isEven = (Cell.ofFinite m q x.isNarrowBelow).closed := by rw [isEven, hx]; rfl
  have hupper : (valueAt (i + 1) + valueAt (i + 2)) / 2 = (Cell.ofFinite m q x.isNarrowBelow).upper := by
    rw [Cell.ofFinite_upper, ← hvalue, habove, hexponent]
    ring
  have hlower : (valueAt i + valueAt (i + 1)) / 2 = (Cell.ofFinite m q x.isNarrowBelow).lower := by
    rw [Cell.ofFinite_lower hm, ← hvalue, hbelow, exponentAt_eq_sub hi, hexponent]
    cases x.isNarrowBelow with
    | false => simp only [Bool.false_eq_true, if_false, sub_zero]; ring
    | true => simp only [if_true, zpow_sub_one₀ (two_ne_zero (α := ℚ))]; ring
  rw [rounds_iff_prefers hi htop, prefers_iff_of_lt (by linarith), prefers_iff_of_gt (by linarith),
    hlower, hupper, hclosed, Cell.Covers]
  split <;> rfl

end Binary64

end HttpFields.Decimal

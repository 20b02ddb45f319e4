import Mathlib.Data.Nat.Factorization.Basic
import HttpFields.Decimal.Numeral
import HttpFields.Proofs.Rounding

/-!
# The search finds the shortest decimal

The search goes from coarse grids to fine ones and stops at the first point in the cell. A decimal with fewer
digits would lie on a coarser grid, or else a power of ten would, and the search would have stopped there.

* `HasDigits`, `HasMagnitude` : how many digits a natural has, and where those of a rational begin
* `Cell.Proper` : an interval around a positive number that lies on the last grid
* `Cell.search_spec` : what the search returns, and which grids have no point in the cell
* `Digits.ofPoint_spec` : the digits of a decimal without trailing zeros
* `Binary64.Shortest` : the digits that a numeral shows; `Binary64.shortest_ofPoint` : those found are such
-/

namespace HttpFields.Decimal

set_option autoImplicit false

/-! ## Counts of digits -/

def HasDigits (s k : ℕ) : Prop := 1 ≤ k ∧ 10 ^ (k - 1) ≤ s ∧ s < 10 ^ k

def HasMagnitude (r : ℚ) (n : ℤ) : Prop := (10 : ℚ) ^ (n - 1) ≤ r ∧ r < 10 ^ n

theorem ten_zpow_pos (n : ℤ) : (0 : ℚ) < 10 ^ n := zpow_pos (by norm_num) n

theorem ten_zpow_eq {g n : ℤ} (h : g ≤ n) : (10 : ℚ) ^ n = (10 ^ (n - g).toNat : ℕ) * 10 ^ g := by
  rw [Nat.cast_pow, Nat.cast_ofNat, ← zpow_natCast, ← zpow_add₀ (by norm_num)]
  congr 1; omega

theorem mul_ten_zpow (s : ℕ) {e : ℤ} (h : 0 ≤ e) : (s : ℚ) * 10 ^ e = (s * 10 ^ e.toNat : ℕ) := by
  rw [ten_zpow_eq h, zpow_zero, mul_one, sub_zero, ← Nat.cast_mul]

theorem HasDigits.pos {s k : ℕ} (h : HasDigits s k) : 0 < s := (Nat.pow_pos (by decide)).trans_le h.2.1

theorem hasDigits_toDigits {s : ℕ} (hs : 0 < s) : HasDigits s (Nat.toDigits 10 s).length := by
  have hlength : 0 < (Nat.toDigits 10 s).length := Nat.length_toDigits_pos
  refine ⟨hlength, ?_, (Nat.length_toDigits_le_iff (by decide) hlength).mp le_rfl⟩
  rcases Nat.lt_or_ge 1 (Nat.toDigits 10 s).length with hlong | hshort
  · by_contra hlt
    have := (Nat.length_toDigits_le_iff (b := 10) (by decide) (by omega)).mpr (not_le.mp hlt)
    omega
  · have hzero : (Nat.toDigits 10 s).length - 1 = 0 := by omega
    rw [hzero]
    exact hs

theorem HasMagnitude.unique {r : ℚ} {n n' : ℤ} (h : HasMagnitude r n) (h' : HasMagnitude r n') : n = n' := by
  have hle : n - 1 < n' := (zpow_lt_zpow_iff_right₀ (by norm_num)).mp (h.1.trans_lt h'.2)
  have hge : n' - 1 < n := (zpow_lt_zpow_iff_right₀ (by norm_num)).mp (h'.1.trans_lt h.2)
  omega

theorem HasDigits.hasMagnitude {s k : ℕ} (h : HasDigits s k) (g : ℤ) :
    HasMagnitude (s * 10 ^ g) (k + g) := by
  obtain ⟨hk, hlow, hhigh⟩ := h
  have hg := ten_zpow_pos g
  have hlow' : ((10 ^ (k - 1) : ℕ) : ℚ) ≤ s := by exact_mod_cast hlow
  have hhigh' : (s : ℚ) < ((10 ^ k : ℕ) : ℚ) := by exact_mod_cast hhigh
  have hk' : (k + g - g).toNat = k := by omega
  have hk'' : (k + g - 1 - g).toNat = k - 1 := by omega
  rw [HasMagnitude, ten_zpow_eq (g := g) (n := k + g) (by omega), ten_zpow_eq (g := g) (n := k + g - 1) (by omega),
    hk', hk'']
  exact ⟨mul_le_mul_of_nonneg_right hlow' hg.le, mul_lt_mul_of_pos_right hhigh' hg⟩

namespace Cell

variable {c : Cell}

/-! ## Proper cells -/

/-- An interval around a positive number that lies on the grid of its places. -/
structure Proper (c : Cell) : Prop where
  denominator_pos : 0 < c.denominator
  low_pos : 0 < c.low
  low_lt : c.low < c.number
  lt_high : c.number < c.high
  onGrid : c.denominator ∣ c.number * 10 ^ c.places

theorem ofFinite_proper {m : ℕ} (hm : 0 < m) (q : ℤ) (narrow : Bool) : (ofFinite m q narrow).Proper where
  denominator_pos := ofFinite_denominator_pos m q narrow
  low_pos := by
    refine Nat.mul_pos ?_ (Nat.two_pow_pos _)
    split <;> omega
  low_lt := by
    refine Nat.mul_lt_mul_of_pos_right ?_ (Nat.two_pow_pos _)
    split <;> omega
  lt_high := Nat.mul_lt_mul_of_pos_right (by omega) (Nat.two_pow_pos _)
  onGrid := by
    have htwo : 2 ^ (-q).toNat ∣ 10 ^ (-q).toNat := pow_dvd_pow_of_dvd (by decide) _
    have hfour : 4 ∣ 4 * m * 2 ^ q.toNat := Dvd.intro _ (by rw [mul_assoc])
    exact Nat.mul_dvd_mul hfour htwo

namespace Proper

theorem denominator_cast_pos (hc : c.Proper) : (0 : ℚ) < c.denominator := by exact_mod_cast hc.denominator_pos

theorem lower_pos (hc : c.Proper) : 0 < c.lower :=
  div_pos (by exact_mod_cast hc.low_pos) hc.denominator_cast_pos

theorem lower_lt (hc : c.Proper) : c.lower < c.value :=
  div_lt_div_of_pos_right (by exact_mod_cast hc.low_lt) hc.denominator_cast_pos

theorem lt_upper (hc : c.Proper) : c.value < c.upper :=
  div_lt_div_of_pos_right (by exact_mod_cast hc.lt_high) hc.denominator_cast_pos

theorem covers_value (hc : c.Proper) : c.Covers c.value := by
  have hlower := hc.lower_lt
  have hupper := hc.lt_upper
  unfold Covers
  split
  · exact ⟨hlower.le, hupper.le⟩
  · exact ⟨hlower, hupper⟩

theorem pos_of_covers (hc : c.Proper) {r : ℚ} (h : c.Covers r) : 0 < r := by
  have hlower := hc.lower_pos
  unfold Covers at h
  split at h
  · exact hlower.trans_le h.1
  · exact hlower.trans h.1

end Proper

theorem Covers.of_between {r s t : ℚ} (hs : c.Covers s) (ht : c.Covers t) (hsr : s ≤ r) (hrt : r ≤ t) :
    c.Covers r := by
  unfold Covers at *
  split at hs
  · rename_i hclosed
    rw [if_pos hclosed] at ht ⊢
    exact ⟨hs.1.trans hsr, hrt.trans ht.2⟩
  · rename_i hclosed
    rw [if_neg hclosed] at ht ⊢
    exact ⟨hs.1.trans_le hsr, hrt.trans_lt ht.2⟩

/-! ## The points next to the number -/

theorem le_floorOn_iff (hc : c.Proper) (s : ℕ) (g : ℤ) :
    s ≤ (c.floorOn g).significand ↔ (s : ℚ) * 10 ^ g ≤ c.value := by
  have hden := hc.denominator_cast_pos
  have hunit : (0 : ℚ) < 10 ^ (-g).toNat := pow_pos (by norm_num) _
  rw [floorOn, Nat.le_div_iff_mul_le (Nat.mul_pos hc.denominator_pos (Nat.pow_pos (by decide))),
    zpow_eq_div (by norm_num), value, ← mul_div_assoc, div_le_div_iff₀ hunit hden, mul_assoc,
    mul_comm (10 ^ g.toNat : ℚ)]
  exact_mod_cast Iff.rfl

theorem floorOn_le (hc : c.Proper) (g : ℤ) : (c.floorOn g).value ≤ c.value :=
  (le_floorOn_iff hc _ g).mp le_rfl

theorem lt_ceilOn (hc : c.Proper) (g : ℤ) : c.value < (c.ceilOn g).value := by
  have hlt := mt (le_floorOn_iff hc ((c.floorOn g).significand + 1) g).mpr (by omega)
  exact not_le.mp hlt

/-- The number itself lies on its last grid and on all finer ones. -/
theorem floorOn_eq (hc : c.Proper) {g : ℤ} (hg : g ≤ -c.places) : (c.floorOn g).value = c.value := by
  refine le_antisymm (floorOn_le hc g) ?_
  obtain ⟨w, hw⟩ := hc.onGrid
  have hvalue : c.value = (w * 10 ^ (-c.places - g).toNat : ℕ) * 10 ^ g := by
    have hden := hc.denominator_cast_pos
    have hw' : (c.number : ℚ) * 10 ^ c.places = c.denominator * w := by exact_mod_cast hw
    have hnumber : c.value = w * 10 ^ (-(c.places : ℤ)) := by
      rw [value, zpow_neg, zpow_natCast]
      field_simp
      linarith
    rw [hnumber, ten_zpow_eq hg]
    push_cast
    ring
  have hle := (le_floorOn_iff hc _ g).mpr hvalue.ge
  rw [hvalue, GridPoint.value]
  exact mul_le_mul_of_nonneg_right (by exact_mod_cast hle) (ten_zpow_pos g).le

theorem nearestOn_eq_some {g : ℤ} {d : GridPoint} (h : c.nearestOn g = some d) :
    c.Holds d ∧ (d = c.floorOn g ∨ d = c.ceilOn g) := by
  unfold nearestOn at h
  by_cases hfloor : c.Holds (c.floorOn g)
  · by_cases hceil : c.Holds (c.ceilOn g)
    · rw [decide_eq_true hfloor, decide_eq_true hceil] at h
      cases h
      split
      · exact ⟨hceil, .inr rfl⟩
      · exact ⟨hfloor, .inl rfl⟩
    · rw [decide_eq_true hfloor, decide_eq_false hceil] at h
      cases h
      exact ⟨hfloor, .inl rfl⟩
  · by_cases hceil : c.Holds (c.ceilOn g)
    · rw [decide_eq_false hfloor, decide_eq_true hceil] at h
      cases h
      exact ⟨hceil, .inr rfl⟩
    · rw [decide_eq_false hfloor, decide_eq_false hceil] at h
      contradiction

theorem nearestOn_eq_none_iff {g : ℤ} :
    c.nearestOn g = none ↔ ¬ c.Holds (c.floorOn g) ∧ ¬ c.Holds (c.ceilOn g) := by
  unfold nearestOn
  by_cases hfloor : c.Holds (c.floorOn g) <;> by_cases hceil : c.Holds (c.ceilOn g) <;> simp [hfloor, hceil]

theorem not_covers_of_nearestOn (hc : c.Proper) {g : ℤ} (h : c.nearestOn g = none) (s : ℕ) :
    ¬ c.Covers (s * 10 ^ g) := by
  intro hs
  rw [nearestOn_eq_none_iff, holds_iff_covers hc.denominator_pos, holds_iff_covers hc.denominator_pos] at h
  have hg := ten_zpow_pos g
  rcases Nat.lt_or_ge (c.floorOn g).significand s with hlt | hle
  · have hceil : (c.ceilOn g).value ≤ s * 10 ^ g :=
      mul_le_mul_of_nonneg_right (by exact_mod_cast hlt) hg.le
    exact h.2 (hc.covers_value.of_between hs (lt_ceilOn hc g).le hceil)
  · have hfloor : s * 10 ^ g ≤ (c.floorOn g).value :=
      mul_le_mul_of_nonneg_right (by exact_mod_cast hle) hg.le
    exact h.1 (hs.of_between hc.covers_value hfloor (floorOn_le hc g))

/-! ## The search -/

/-- The search ends on some grid with a point of the cell next to the number, after grids without any. -/
theorem search_spec (hc : c.Proper) (finer : ℕ) {g : ℤ} (hg : g - finer ≤ -c.places) :
    ∃ h ≤ g, (c.search finer g = c.floorOn h ∨ c.search finer g = c.ceilOn h) ∧
      c.Covers (c.search finer g).value ∧ ∀ (s : ℕ) (i : ℤ), h < i → i ≤ g → ¬ c.Covers (s * 10 ^ i) := by
  induction finer generalizing g with
  | zero =>
    refine ⟨g, le_rfl, .inl rfl, ?_, fun s i hlt hle => absurd hlt (by omega)⟩
    rw [search, floorOn_eq hc (by omega)]
    exact hc.covers_value
  | succ finer ih =>
    rw [search]
    cases hnearest : c.nearestOn g with
    | some d =>
      obtain ⟨hholds, hnext⟩ := nearestOn_eq_some hnearest
      have hcovers := (holds_iff_covers hc.denominator_pos d).mp hholds
      exact ⟨g, le_rfl, hnext, hcovers, fun s i hlt hle => absurd hlt (by omega)⟩
    | none =>
      obtain ⟨h, hle, hpoint, hcovers, hcoarser⟩ := ih (g := g - 1) (by omega)
      refine ⟨h, by omega, hpoint, hcovers, fun s i hlt hig => ?_⟩
      by_cases heq : i = g
      · rw [heq]
        exact not_covers_of_nearestOn hc hnearest s
      · exact hcoarser s i hlt (by omega)

theorem magnitude_spec (hc : c.Proper) : HasMagnitude c.value c.magnitude := by
  have hden := hc.denominator_cast_pos
  have hnumber : HasMagnitude c.number (digitCount c.number) := by
    simpa [digitCount] using (hasDigits_toDigits (hc.low_pos.trans hc.low_lt)).hasMagnitude 0
  have hdenominator : HasMagnitude c.denominator (digitCount c.denominator) := by
    simpa [digitCount] using (hasDigits_toDigits hc.denominator_pos).hasMagnitude 0
  unfold magnitude
  generalize (digitCount c.number : ℤ) = a at *
  generalize (digitCount c.denominator : ℤ) = b at *
  have hlow : (10 : ℚ) ^ (a - b - 1) ≤ c.value := by
    rw [value, le_div_iff₀ hden]
    calc (10 : ℚ) ^ (a - b - 1) * c.denominator
        ≤ 10 ^ (a - b - 1) * 10 ^ b := mul_le_mul_of_nonneg_left hdenominator.2.le (ten_zpow_pos _).le
      _ = 10 ^ (a - 1) := by rw [← zpow_add₀ (by norm_num)]; congr 1; omega
      _ ≤ c.number := hnumber.1
  have hhigh : c.value < (10 : ℚ) ^ (a - b + 1) := by
    rw [value, div_lt_iff₀ hden]
    calc (c.number : ℚ)
        < 10 ^ a := hnumber.2
      _ = 10 ^ (a - b + 1) * 10 ^ (b - 1) := by rw [← zpow_add₀ (by norm_num)]; congr 1; omega
      _ ≤ 10 ^ (a - b + 1) * c.denominator := mul_le_mul_of_nonneg_left hdenominator.1 (ten_zpow_pos _).le
  have htest : c.number * 10 ^ (-(a - b)).toNat < c.denominator * 10 ^ (a - b).toNat ↔
      c.value < (10 : ℚ) ^ (a - b) := by
    have hunit : (0 : ℚ) < 10 ^ (-(a - b)).toNat := pow_pos (by norm_num) _
    rw [value, zpow_eq_div (by norm_num), div_lt_div_iff₀ hden hunit, mul_comm (10 ^ (a - b).toNat : ℚ)]
    exact_mod_cast Iff.rfl
  show HasMagnitude c.value (if _ then a - b else a - b + 1)
  split
  · rename_i hlt
    exact ⟨hlow, htest.mp hlt⟩
  · rename_i hge
    refine ⟨?_, hhigh⟩
    rw [add_sub_cancel_right]
    exact not_lt.mp (mt htest.mpr hge)

end Cell

/-! ## Digits without trailing zeros -/

theorem toDigits_mul_pow {s : ℕ} (hs : 0 < s) (t : ℕ) :
    Nat.toDigits 10 (s * 10 ^ t) = Nat.toDigits 10 s ++ .replicate t '0' := by
  induction t with
  | zero => simp
  | succ t ih =>
    have hpos : 0 < s * 10 ^ t := Nat.mul_pos hs (Nat.pow_pos (by decide))
    have hlast : Nat.toDigits 10 (10 * (s * 10 ^ t) + 0) = Nat.toDigits 10 (s * 10 ^ t) ++ ['0'] :=
      (Nat.toDigits_append_toDigits (by decide) hpos (by decide)).symm
    have heq : s * 10 ^ (t + 1) = 10 * (s * 10 ^ t) + 0 := by ring
    rw [heq, hlast, ih, List.append_assoc, List.replicate_succ']

/-- The last digit of a number is the remainder by ten, so the digits of one that leaves some stay. -/
theorem dropWhile_reverse_toDigits {s : ℕ} (hs : ¬ 10 ∣ s) :
    (Nat.toDigits 10 s).reverse.dropWhile (· == '0') = (Nat.toDigits 10 s).reverse := by
  have hlast : ∃ front c, Nat.toDigits 10 s = front ++ [c] ∧ c ≠ '0' := by
    rw [Nat.toDigits_eq_if (by decide)]
    split
    · exact ⟨[], s.digitChar, rfl, mt Nat.digitChar_eq_zero.mp (by omega)⟩
    · exact ⟨_, _, rfl, mt Nat.digitChar_eq_zero.mp (by omega)⟩
  obtain ⟨front, c, hfront, hc⟩ := hlast
  rw [hfront, List.reverse_append]
  simp [hc]

theorem Digits.ofPoint_spec {d : GridPoint} (hd : 0 < d.significand) :
    ∃ s, ¬ 10 ∣ s ∧ s ≤ d.significand ∧ (ofPoint d).digits = Nat.toDigits 10 s ∧
      HasDigits s (ofPoint d).digits.length ∧
      (s : ℚ) * 10 ^ ((ofPoint d).point - (ofPoint d).digits.length) = d.value := by
  obtain ⟨t, s, hs, hvalue⟩ := Nat.exists_eq_pow_mul_and_not_dvd hd.ne' 10 (by decide)
  rw [mul_comm] at hvalue
  have hpos : 0 < s := by omega
  have hdigits : Nat.toDigits 10 d.significand = Nat.toDigits 10 s ++ .replicate t '0' :=
    hvalue ▸ toDigits_mul_pow hpos t
  have heq : (ofPoint d).digits = Nat.toDigits 10 s := by
    show ((Nat.toDigits 10 d.significand).reverse.dropWhile (· == '0')).reverse = _
    rw [hdigits, List.reverse_append, List.dropWhile_append_of_pos (by simp), dropWhile_reverse_toDigits hs,
      List.reverse_reverse]
  have hpoint : (ofPoint d).point = (Nat.toDigits 10 s).length + t + d.exponent := by
    show ((Nat.toDigits 10 d.significand).length : ℤ) + d.exponent = _
    rw [hdigits, List.length_append, List.length_replicate, Nat.cast_add]
  have hplace : (ofPoint d).point - (Nat.toDigits 10 s).length = t + d.exponent := by omega
  refine ⟨s, hs, ?_, heq, ?_, ?_⟩
  · rw [hvalue]
    exact Nat.le_mul_of_pos_right s (Nat.pow_pos (by decide))
  · rw [heq]
    exact hasDigits_toDigits hpos
  · rw [heq, hplace, zpow_add₀ (by norm_num), zpow_natCast, ← mul_assoc, GridPoint.value, hvalue]
    push_cast
    rfl

/-! ## Shortest digits -/

/-- Of the decimals with a property, `s` with the point after `n` of its `k` digits has the fewest. -/
structure Shortest (P : ℚ → Prop) (s k : ℕ) (n : ℤ) : Prop where
  digits : HasDigits s k
  holds : P (s * 10 ^ (n - k))
  least : ∀ (s' k' : ℕ) (n' : ℤ), HasDigits s' k' → P (s' * 10 ^ (n' - k')) → k ≤ k'

namespace Cell

variable {c : Cell}

theorem significand_le_of_next (hc : c.Proper) {d : GridPoint} {g : ℤ} (hg : g < c.magnitude)
    (hd : d = c.floorOn g ∨ d = c.ceilOn g) : d.significand ≤ 10 ^ (c.magnitude - g).toNat := by
  have hfloor : (c.floorOn g).significand < 10 ^ (c.magnitude - g).toNat := by
    have hlt : (c.floorOn g).value < 10 ^ c.magnitude := (floorOn_le hc g).trans_lt (magnitude_spec hc).2
    rw [ten_zpow_eq hg.le, GridPoint.value] at hlt
    exact_mod_cast lt_of_mul_lt_mul_right hlt (ten_zpow_pos g).le
  rcases hd with rfl | rfl
  · exact hfloor.le
  · exact hfloor

/-- What lies in the cell has the magnitude of the number, or else a power of ten lies there too. -/
theorem hasMagnitude_of_covers (hc : c.Proper) {r : ℚ} (hr : c.Covers r)
    (hnone : ∀ s : ℕ, ¬ c.Covers (s * 10 ^ (c.magnitude - 1))) : HasMagnitude r c.magnitude := by
  have hmagnitude := magnitude_spec hc
  constructor
  · by_contra hlt
    have hcovers := hr.of_between hc.covers_value (not_le.mp hlt).le hmagnitude.1
    exact hnone 1 (by simpa using hcovers)
  · by_contra hge
    have hcovers := hc.covers_value.of_between hr hmagnitude.2.le (not_lt.mp hge)
    have hten : (10 : ℚ) ^ c.magnitude = (10 : ℕ) * 10 ^ (c.magnitude - 1) := by
      rw [ten_zpow_eq (g := c.magnitude - 1) (by omega), sub_sub_cancel]
      rfl
    exact hnone 10 (hten ▸ hcovers)

/-- The point that the search finds has the shortest digits of all in the cell. -/
theorem shortest_spec (hc : c.Proper) :
    ∃ s, (Digits.ofPoint c.shortest).digits = Nat.toDigits 10 s ∧
      Shortest c.Covers s (Digits.ofPoint c.shortest).digits.length (Digits.ofPoint c.shortest).point := by
  obtain ⟨g, hg, hnext, hcovers, hcoarser⟩ :=
    search_spec hc (c.magnitude - 1 + c.places).toNat (g := c.magnitude - 1) (by omega)
  have hshortest : c.search (c.magnitude - 1 + c.places).toNat (c.magnitude - 1) = c.shortest := rfl
  rw [hshortest] at hnext hcovers
  generalize c.shortest = d at hnext hcovers ⊢
  have hpos : 0 < d.significand := by
    have hvalue := hc.pos_of_covers hcovers
    rw [GridPoint.value] at hvalue
    exact_mod_cast pos_of_mul_pos_left hvalue (ten_zpow_pos _).le
  obtain ⟨s, hten, hle, hdigits, hcount, hvalue⟩ := Digits.ofPoint_spec hpos
  refine ⟨s, hdigits, hcount, hvalue ▸ hcovers, fun s' k' n' hcount' hcovers' => ?_⟩
  -- `s` has no trailing zero, so it is not the power of ten that bounds the significand
  have hlength : (Digits.ofPoint d).digits.length ≤ c.magnitude - g := by
    have hbound := hle.trans (significand_le_of_next hc (by omega) hnext)
    have hne : s ≠ 10 ^ (c.magnitude - g).toNat := fun heq =>
      hten (heq ▸ dvd_pow_self 10 (by omega))
    have := (Nat.length_toDigits_le_iff (b := 10) (by decide) (by omega)).mpr (lt_of_le_of_ne hbound hne)
    rw [hdigits]
    omega
  by_contra hlt
  have hk' := hcount'.1
  have hnone : ∀ s : ℕ, ¬ c.Covers (s * 10 ^ (c.magnitude - 1)) := fun s => hcoarser s _ (by omega) le_rfl
  have hn' : n' = c.magnitude := by
    have hmagnitude := hcount'.hasMagnitude (n' - k')
    have heq : (k' : ℤ) + (n' - k') = n' := by omega
    rw [heq] at hmagnitude
    exact hmagnitude.unique (hasMagnitude_of_covers hc hcovers' hnone)
  exact hcoarser s' (n' - k') (by omega) (by omega) hcovers'

end Cell

theorem Binary64.shortest_ofPoint {x : Binary64} {m : ℕ} {q : ℤ} (hx : x.size = .finite m q) (hm : 0 < m) :
    ∃ s, (Digits.ofPoint (Cell.ofFinite m q x.isNarrowBelow).shortest).digits = Nat.toDigits 10 s ∧
      Shortest x.Rounds s (Digits.ofPoint (Cell.ofFinite m q x.isNarrowBelow).shortest).digits.length
        (Digits.ofPoint (Cell.ofFinite m q x.isNarrowBelow).shortest).point := by
  have hcovers : x.Rounds = (Cell.ofFinite m q x.isNarrowBelow).Covers :=
    funext fun r => propext (rounds_iff_covers hx hm r)
  rw [hcovers]
  exact Cell.shortest_spec (Cell.ofFinite_proper hm q _)

end HttpFields.Decimal

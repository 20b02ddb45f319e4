import HttpFields.Proofs.Nearest
import HttpFields.Proofs.NumeralParts
import HttpFields.Proofs.ScriptNumeral

/-!
# What the numerals of a script stand for

A script writes a finite number as a decimal numeral that rounds back to the number. Below `10^21` a whole number is
written exactly, and any other number with the digits that the search finds for it. A text is read in one way only, so
no two numbers have one text but the two zeros.

* `Binary64.found` : the digits that the search finds; `Binary64.shortest_found` : they are shortest
* `Binary64.IsPlain` : whole numbers below `10^21`
* `Binary64.lt_point_iff` : the place of the point grows with the number
* `Numeral.Shows` : a script writes the numeral for a number; `Numeral.exists_shows` : there is one
* `Layout.write_script_denotes` : what it stands for, and when it shows a power of ten
-/

namespace HttpFields.Decimal

set_option autoImplicit false

namespace Binary64

variable {x y : Binary64} {m m' : ℕ} {q q' : ℤ}

theorem ne_nan_of_finite (hx : x.size = .finite m q) : x.size ≠ .nan := by
  rw [hx]
  exact Size.noConfusion

theorem magnitude_pos (hx : x.size = .finite m q) (hm : 0 < m) : 0 < x.magnitude := by
  rw [magnitude_of_finite hx]
  exact value_pos hm q

/-! ## The digits that are found -/

/-- The digits that the search finds for a finite number. -/
def found (x : Binary64) : Digits :=
  match x.size with
  | .finite m q => .ofPoint (Cell.ofFinite m q x.isNarrowBelow).shortest
  | _ => ⟨[], 0⟩

theorem found_of_finite (hx : x.size = .finite m q) :
    x.found = .ofPoint (Cell.ofFinite m q x.isNarrowBelow).shortest := by
  rw [found, hx]

theorem shortest_found (hx : x.size = .finite m q) (hm : 0 < m) :
    x.found.digits = Nat.toDigits 10 x.found.significand ∧
      Shortest x.Rounds x.found.significand x.found.digits.length x.found.point := by
  obtain ⟨s, hdigits, hshortest⟩ := shortest_ofPoint hx hm
  rw [← found_of_finite hx] at hdigits hshortest
  have hread : x.found.significand = s := by
    rw [Digits.significand, hdigits, Nat.ofDigitChars_ten_toDigits]
  rw [hread]
  exact ⟨hdigits, hshortest⟩

/-- A number is found by its rank: the sign plays no part. -/
theorem found_congr (h : x.rank = y.rank) : x.found = y.found := by
  have hsize : x.size = y.size := by rw [size_eq, size_eq, h]
  have hnarrow : x.isNarrowBelow = y.isNarrowBelow := by
    rw [isNarrowBelow, isNarrowBelow, fraction_eq, fraction_eq, exponentField_eq, exponentField_eq, h]
  rw [found, found, hsize, hnarrow]

/-- At a number that is found as a power of ten the point moves on. -/
theorem lt_point_iff {e : ℤ} (hx : x.size = .finite m q) (hm : 0 < m) (hy : y.size = .finite m' q') (hm' : 0 < m')
    (hpower : y.found.value = 10 ^ e) : e < x.found.point ↔ y.magnitude ≤ x.magnitude := by
  have hxnan := ne_nan_of_finite hx
  have hynan := ne_nan_of_finite hy
  obtain ⟨-, hshortest⟩ := shortest_found hx hm
  have hmagnitude : HasMagnitude x.found.value x.found.point := by
    have := hshortest.digits.hasMagnitude (x.found.point - x.found.digits.length)
    rwa [add_sub_cancel] at this
  have hrounds : x.Rounds x.found.value := hshortest.holds
  have hrounds' : y.Rounds (10 ^ e) := hpower ▸ (shortest_found hy hm').2.holds
  rw [magnitude_eq hxnan, magnitude_eq hynan, valueAt_strictMono.le_iff_le]
  constructor
  · intro hlt
    refine rank_le_of_rounds hynan hxnan hrounds' hrounds (le_trans ?_ hmagnitude.1)
    exact zpow_le_zpow_right₀ (by norm_num) (by omega)
  · intro hle
    by_contra hpoint
    have hbelow : x.found.value < 10 ^ e :=
      hmagnitude.2.trans_le (zpow_le_zpow_right₀ (by norm_num) (by omega))
    have hrank := le_antisymm hle (rank_le_of_rounds hxnan hynan hrounds hrounds' hbelow.le)
    rw [← found_congr hrank, hpower] at hbelow
    exact lt_irrefl _ hbelow

/-! ## Whole numbers -/

/-- A whole number below `10^21`. -/
def IsPlain (x : Binary64) : Prop := ∃ i : ℤ, x.toRat = i ∧ i.natAbs < 10 ^ 21

theorem magnitude_of_toRat_eq {i : ℤ} (h : x.toRat = i) : x.magnitude = i.natAbs := by
  rw [← abs_toRat, h, Nat.cast_natAbs, Int.cast_abs]

theorem isPlain_iff : x.IsPlain ↔ ∃ v : ℕ, x.magnitude = v ∧ v < 10 ^ 21 := by
  constructor
  · rintro ⟨i, hi, hbound⟩
    exact ⟨i.natAbs, magnitude_of_toRat_eq hi, hbound⟩
  · rintro ⟨v, hv, hbound⟩
    rw [IsPlain, toRat, hv]
    split
    · exact ⟨-v, by push_cast; rfl, by omega⟩
    · exact ⟨v, by push_cast; rfl, by omega⟩

/-! ## Numbers with the same text -/

theorem eq_of_toRat_eq (hx : x.size ≠ .nan) (hy : y.size ≠ .nan) (hpos : 0 < x.magnitude)
    (h : x.toRat = y.toRat) : x = y := by
  have hmagnitude : x.magnitude = y.magnitude := by rw [← abs_toRat, h, abs_toRat]
  have hrank : x.rank = y.rank := by
    rw [magnitude_eq hx, magnitude_eq hy] at hmagnitude
    exact valueAt_strictMono.injective hmagnitude
  have hsign : x.isNegative = true ↔ y.isNegative = true := by
    rw [← toRat_neg_iff hpos, ← toRat_neg_iff (hmagnitude ▸ hpos), h]
  exact eq_of_rank_eq hrank (Bool.eq_iff_iff.mpr hsign)

end Binary64

namespace Numeral

variable {x y : Binary64} {n n' : Numeral} {m : ℕ} {q : ℤ}

/-! ## The numeral of a number -/

/-- A script writes the numeral for a number, and it rounds back to the number. -/
structure Shows (n : Numeral) (x : Binary64) : Prop where
  proper : n.Proper
  text : String.ofList n.text = Layout.script.write x
  negative_iff : n.negative = true ↔ x.toRat < 0
  rounds : x.Rounds n.magnitude

theorem Shows.unique (h : n.Shows x) (n' : Numeral) :
    n'.Proper ∧ String.ofList n'.text = Layout.script.write x ↔ n' = n := by
  constructor
  · rintro ⟨hproper, htext⟩
    exact eq_of_text_eq hproper h.proper (String.ofList_injective (htext.trans h.text.symm))
  · rintro rfl
    exact ⟨h.proper, h.text⟩

theorem ofList_text (hn : n.negative = x.isNegative) : String.ofList n.text = x.signed n.unsigned := by
  rw [text, hn, Binary64.signed]
  cases x.isNegative <;> simp [signText]

def ofNat (negative : Bool) (v : ℕ) : Numeral := ⟨negative, Nat.toDigits 10 v, [], none⟩

theorem ofNat_proper (negative : Bool) (v : ℕ) : (ofNat negative v).Proper :=
  ⟨isDecimal_toDigits v, fun c hc => by contradiction, fun p hp => by contradiction⟩

theorem ofNat_magnitude (negative : Bool) (v : ℕ) : (ofNat negative v).magnitude = v := by
  show ((Nat.ofDigitChars 10 (Nat.toDigits 10 v ++ []) 0 : ℕ) : ℚ) * 10 ^ (0 : ℤ) = v
  rw [List.append_nil, Nat.ofDigitChars_ten_toDigits, zpow_zero, mul_one]

theorem ofNat_unsigned (negative : Bool) (v : ℕ) : (ofNat negative v).unsigned = Nat.toDigits 10 v :=
  List.append_nil _

theorem ofNat_value {v : ℕ} (hv : x.magnitude = v) : (ofNat x.isNegative v).value = x.toRat := by
  rw [value, ofNat_magnitude, Binary64.toRat, hv]
  rfl

theorem sign_of_pos (hx : x.size = .finite m q) (hm : 0 < m) (hn : n.negative = x.isNegative) :
    n.negative = true ↔ x.toRat < 0 := by
  rw [hn, Binary64.toRat_neg_iff (Binary64.magnitude_pos hx hm)]

/-- The text of zero has no sign, though the number may have one. -/
theorem shows_zero (hx : x.size = .finite 0 q) : (ofNat false 0).Shows x := by
  have hzero : x.magnitude = 0 := by rw [Binary64.magnitude_of_finite hx, Nat.cast_zero, zero_mul]
  have heven : x.isEven = true := by
    rw [Binary64.isEven, hx]
    rfl
  refine ⟨ofNat_proper false 0, (Layout.write_of_zero hx).symm, iff_of_false Bool.false_ne_true ?_, fun y _ => ?_⟩
  · have hrat : x.toRat = 0 := by rw [← abs_eq_zero, Binary64.abs_toRat, hzero]
    exact hrat.not_lt
  · rw [ofNat_magnitude, Nat.cast_zero, hzero, heven, Prefers, sub_self, abs_zero]
    rcases y.magnitude_nonneg.eq_or_lt with heq | hlt
    · exact .inr ⟨by rw [← heq, sub_zero, abs_zero], .inl heq⟩
    · exact .inl (abs_pos.mpr (by linarith))

theorem shows_of_plain (hx : x.size = .finite m q) (hm : 0 < m) {v : ℕ} (hv : x.magnitude = v)
    (hbound : v < 10 ^ 21) : (ofNat x.isNegative v).Shows x := by
  have hvalue : (m : ℚ) * 2 ^ q = v := (Binary64.magnitude_of_finite hx).symm.trans hv
  refine ⟨ofNat_proper _ v, ?_, sign_of_pos hx hm rfl, ?_⟩
  · rw [ofList_text (x := x) rfl, ofNat_unsigned, Layout.write_of_pos hx hm,
      Layout.writeFinite_of_whole _ hvalue hbound]
  · rw [ofNat_magnitude, ← hvalue]
    exact Binary64.rounds_self hx hm

theorem shows_found (hx : x.size = .finite m q) (hm : 0 < m) (h : ¬ x.IsPlain) :
    (x.found.numeral x.isNegative).Shows x := by
  obtain ⟨hdigits, hshortest⟩ := Binary64.shortest_found hx hm
  have hne : x.found.digits ≠ [] := hdigits ▸ Nat.toDigits_ne_nil
  have hnegative : (x.found.numeral x.isNegative).negative = x.isNegative := Digits.numeral_negative _
  have hnot : ¬ (Binary64.isWhole m q ∧ Binary64.whole m q < 10 ^ 21) := fun ⟨hwhole, hbound⟩ =>
    h (Binary64.isPlain_iff.mpr
      ⟨_, (Binary64.magnitude_of_finite hx).trans (Binary64.value_of_isWhole hwhole), hbound⟩)
  refine ⟨Digits.numeral_proper _ hdigits hshortest.digits.pos, ?_, sign_of_pos hx hm hnegative, ?_⟩
  · rw [ofList_text hnegative, Digits.numeral_unsigned _ hne, Layout.write_of_pos hx hm, Layout.script_writeFinite,
      if_neg hnot, ← Binary64.found_of_finite hx]
  · rw [Digits.numeral_magnitude _ hne]
    exact hshortest.holds

theorem Shows.isNearest (h : n.Shows x) (hpos : 0 < x.magnitude) : x.IsNearest n.value := by
  have hnegative : n.negative = x.isNegative :=
    Bool.eq_iff_iff.mpr (h.negative_iff.trans (Binary64.toRat_neg_iff hpos))
  rw [value, hnegative]
  exact Binary64.isNearest_of_rounds hpos h.rounds

theorem exists_shows (hx : x.size = .finite m q) : ∃ n : Numeral, n.Shows x := by
  rcases Nat.eq_zero_or_pos m with rfl | hm
  · exact ⟨_, shows_zero hx⟩
  · by_cases hplain : x.IsPlain
    · obtain ⟨v, hv, hbound⟩ := Binary64.isPlain_iff.mp hplain
      exact ⟨_, shows_of_plain hx hm hv hbound⟩
    · exact ⟨_, shows_found hx hm hplain⟩

/-- A numeral is not shown for two numbers, but for the two zeros. -/
theorem Shows.toRat_eq (hx : n.Shows x) (hy : n.Shows y) (hxnan : x.size ≠ .nan) (hynan : y.size ≠ .nan) :
    x.toRat = y.toRat := by
  have hmagnitude : x.magnitude = y.magnitude := by
    rw [Binary64.magnitude_eq hxnan, Binary64.magnitude_eq hynan,
      Binary64.rank_eq_of_rounds hxnan hynan hx.rounds hy.rounds]
  have hsign : x.toRat < 0 ↔ y.toRat < 0 := hx.negative_iff.symm.trans hy.negative_iff
  have habs : |x.toRat| = |y.toRat| := by rw [Binary64.abs_toRat, Binary64.abs_toRat, hmagnitude]
  rcases lt_or_ge x.toRat 0 with hneg | hnonneg
  · rw [abs_of_neg hneg, abs_of_neg (hsign.mp hneg)] at habs
    exact neg_inj.mp habs
  · rwa [abs_of_nonneg hnonneg, abs_of_nonneg (not_lt.mp (mt hsign.mpr hnonneg.not_gt))] at habs

end Numeral

namespace Binary64

variable {x : Binary64} {m : ℕ} {q : ℤ}

/-! ## Where the power of ten is shown -/

/-- The number nearest to `10^-6`. -/
def millionth : Binary64 := ⟨0x3eb0c6f7a0b5ed8d⟩

theorem size_millionth : millionth.size = .finite 0x10c6f7a0b5ed8d (-72) := by decide

theorem found_millionth : millionth.found.value = 10 ^ (-6 : ℤ) :=
  Digits.value_of_one (by decide +kernel) (by decide +kernel)

theorem isNearest_millionth : millionth.IsNearest (10 ^ (-6 : ℤ)) := by
  have hpositive : millionth.isNegative = false := by decide
  have hrounds : millionth.Rounds millionth.found.value := (shortest_found size_millionth (by decide)).2.holds
  rw [found_millionth] at hrounds
  have hnearest := isNearest_of_rounds (magnitude_pos size_millionth (by decide)) hrounds
  rwa [hpositive, if_neg Bool.false_ne_true] at hnearest

theorem found_ten_pow : (⟨0x444b1ae4d6e2ef50⟩ : Binary64).found.value = 10 ^ (21 : ℤ) :=
  Digits.value_of_one (by decide +kernel) (by decide +kernel)

/-- The thresholds for the point are those for the number. -/
theorem inside_iff (hx : x.size = .finite m q) (hm : 0 < m) :
    -6 < x.found.point ∧ x.found.point ≤ 21 ↔ millionth.magnitude ≤ x.magnitude ∧ x.magnitude < 10 ^ 21 := by
  have hsize : (⟨0x444b1ae4d6e2ef50⟩ : Binary64).size = .finite 0x1b1ae4d6e2ef50 17 := by decide
  have hpower : (⟨0x444b1ae4d6e2ef50⟩ : Binary64).magnitude = 10 ^ 21 := by
    rw [magnitude_of_finite hsize]
    norm_num
  have hlow := lt_point_iff hx hm size_millionth (by decide) found_millionth
  have hhigh := lt_point_iff hx hm hsize (by decide) found_ten_pow
  rw [hpower] at hhigh
  exact and_congr hlow (by rw [← not_lt, hhigh, not_le])

end Binary64

namespace Layout

/-! ## The texts of numbers -/

theorem toString_eq (i : ℤ) :
    toString i = (if i < 0 then "-" else "") ++ String.ofList (Nat.toDigits 10 i.natAbs) := by
  cases i with
  | ofNat v =>
    have hnonneg : ¬ Int.ofNat v < 0 := (Int.natCast_nonneg v).not_gt
    rw [if_neg hnonneg, String.empty_append]
    rfl
  | negSucc v =>
    rw [if_pos (Int.negSucc_lt_zero v)]
    rfl

theorem write_script_of_toRat {x : Binary64} {m : ℕ} {q : ℤ} (hx : x.size = .finite m q) {i : ℤ} (hi : x.toRat = i)
    (hbound : i.natAbs < 10 ^ 21) : script.write x = toString i := by
  have hmagnitude := Binary64.magnitude_of_toRat_eq hi
  have hvalue : (m : ℚ) * 2 ^ q = i.natAbs := (Binary64.magnitude_of_finite hx).symm.trans hmagnitude
  rcases Nat.eq_zero_or_pos m with rfl | hm
  · rw [Nat.cast_zero, zero_mul] at hvalue
    have hzero : i = 0 := Int.natAbs_eq_zero.mp (by exact_mod_cast hvalue.symm)
    rw [write_of_zero hx, hzero]
    rfl
  · have hsign := Binary64.toRat_neg_iff (Binary64.magnitude_pos hx hm)
    rw [hi, Int.cast_lt_zero] at hsign
    rw [write_of_pos hx hm, writeFinite_of_whole _ hvalue hbound, Binary64.signed, toString_eq]
    simp only [hsign]

variable {x y : Binary64} {m m' : ℕ} {q q' : ℤ}

theorem write_script_eq_iff (hx : x.size = .finite m q) (hy : y.size = .finite m' q') :
    script.write x = script.write y ↔ x.toRat = y.toRat := by
  have hxnan := Binary64.ne_nan_of_finite hx
  have hynan := Binary64.ne_nan_of_finite hy
  constructor
  · intro htext
    obtain ⟨n, hn⟩ := Numeral.exists_shows hx
    obtain ⟨n', hn'⟩ := Numeral.exists_shows hy
    have heq : n' = n := (hn.unique n').mp ⟨hn'.proper, hn'.text.trans htext.symm⟩
    exact hn.toRat_eq (heq ▸ hn') hxnan hynan
  · intro hrat
    rcases x.magnitude_nonneg.eq_or_lt with hzero | hpos
    · have hxzero : x.toRat = (0 : ℤ) := by rw [Int.cast_zero, ← abs_eq_zero, Binary64.abs_toRat, hzero]
      rw [write_script_of_toRat hx hxzero (by decide), write_script_of_toRat hy (hrat.symm.trans hxzero) (by decide)]
    · rw [Binary64.eq_of_toRat_eq hxnan hynan hpos hrat]

/-- A whole number below `10^21` is not small enough for a power of ten either. -/
theorem power_of_plain (hpos : 0 < x.magnitude) {v : ℕ} (hv : x.magnitude = v) (hbound : v < 10 ^ 21) :
    ¬ (10 ^ 21 ≤ x.magnitude ∨ x.magnitude < Binary64.millionth.magnitude) := by
  have hsmall : Binary64.millionth.magnitude < 1 := by
    rw [Binary64.magnitude_of_finite Binary64.size_millionth]
    norm_num
  rw [hv] at hpos ⊢
  have hone : (1 : ℚ) ≤ v := by exact_mod_cast hpos
  have hlarge : (v : ℚ) < 10 ^ 21 := by exact_mod_cast hbound
  rintro (hge | hlt)
  · exact hlarge.not_ge hge
  · exact (hsmall.trans_le hone).not_gt hlt

theorem power_of_found (hx : x.size = .finite m q) (hm : 0 < m) (negative : Bool) :
    (x.found.numeral negative).power ≠ none ↔
      10 ^ 21 ≤ x.magnitude ∨ x.magnitude < Binary64.millionth.magnitude := by
  rw [ne_eq, Digits.numeral_power, Binary64.inside_iff hx hm, not_and_or, not_le, not_lt, or_comm]

/-- A finite number other than zero is written as a numeral that is read in one way only and rounds back to the
number. A whole number below `10^21` is written exactly, with digits alone; any other has the digits that are found
for it, with a power of ten from `10^21` up and below the millionth. So integers have their decimal numerals, and
different numbers have different texts. -/
theorem write_script_denotes :
    (∀ {x : Binary64} {m : ℕ} {q : ℤ}, x.size = .finite m q → 0 < m →
      ∃ n : Numeral,
        (∀ n' : Numeral, n'.Proper ∧ String.ofList n'.text = script.write x ↔ n' = n) ∧
        (n.negative = true ↔ x.toRat < 0) ∧
        x.IsNearest n.value ∧
        (x.IsPlain → n.value = x.toRat ∧ n.fraction = [] ∧ n.power = none) ∧
        (¬ x.IsPlain → n.magnitude = x.found.value ∧
          Shortest x.Rounds x.found.significand x.found.digits.length x.found.point) ∧
        (n.power ≠ none ↔ 10 ^ 21 ≤ |x.toRat| ∨ |x.toRat| < Binary64.millionth.toRat)) ∧
    Binary64.millionth.IsNearest (10 ^ (-6 : ℤ)) ∧
    (∀ i : ℤ, i.natAbs < 2 ^ 53 → script.write (.ofInt i) = toString i) ∧
    ∀ {x y : Binary64} {m m' : ℕ} {q q' : ℤ}, x.size = .finite m q → y.size = .finite m' q' →
      (script.write x = script.write y ↔ x.toRat = y.toRat) := by
  refine ⟨fun {x m q} hx hm => ?_, Binary64.isNearest_millionth, fun i hi => ?_, write_script_eq_iff⟩
  · have hpos := Binary64.magnitude_pos hx hm
    have hmillionth : Binary64.millionth.toRat = Binary64.millionth.magnitude := rfl
    rw [Binary64.abs_toRat, hmillionth]
    by_cases hplain : x.IsPlain
    · obtain ⟨v, hv, hbound⟩ := Binary64.isPlain_iff.mp hplain
      have hn := Numeral.shows_of_plain hx hm hv hbound
      exact ⟨_, hn.unique, hn.negative_iff, hn.isNearest hpos, fun _ => ⟨Numeral.ofNat_value hv, rfl, rfl⟩,
        fun h => absurd hplain h, iff_of_false (fun h => h rfl) (power_of_plain hpos hv hbound)⟩
    · have hn := Numeral.shows_found hx hm hplain
      obtain ⟨hdigits, hshortest⟩ := Binary64.shortest_found hx hm
      refine ⟨_, hn.unique, hn.negative_iff, hn.isNearest hpos, fun h => absurd h hplain, fun _ => ⟨?_, hshortest⟩,
        power_of_found hx hm _⟩
      exact Digits.numeral_magnitude _ (hdigits ▸ Nat.toDigits_ne_nil)
  · obtain ⟨⟨m, q, hsize⟩, hrat⟩ := Binary64.toRat_ofInt hi
    exact write_script_of_toRat hsize hrat (by omega)

theorem write_script_denotes_small :
    (⟨0xbde12e0be826d695⟩ : Binary64).size = .finite 0x112e0be826d695 (-85) ∧
      script.write ⟨0xbde12e0be826d695⟩ = "-1.25e-10" ∧
      (⟨0xbde12e0be826d695⟩ : Binary64).IsNearest (-(125 * 10 ^ (-12 : ℤ))) ∧
      script.write (.ofInt (-7)) = "-7" ∧ script.write ⟨0x3fb999999999999a⟩ ≠ script.write ⟨0x3fc999999999999a⟩ := by
  have hx : (⟨0xbde12e0be826d695⟩ : Binary64).size = .finite 0x112e0be826d695 (-85) := by decide
  have hwrite : script.write ⟨0xbde12e0be826d695⟩ = "-1.25e-10" := by decide +kernel
  obtain ⟨hnumeral, -, hinteger, hdistinct⟩ := write_script_denotes
  obtain ⟨n, hread, -, hnearest, -⟩ := hnumeral hx (by decide)
  refine ⟨hx, hwrite, ?_, hinteger (-7) (by decide), ?_⟩
  · have hproper : (⟨true, ['1'], ['2', '5'], some (true, ['1', '0'])⟩ : Numeral).Proper := by
      refine ⟨isDecimal_toDigits 1, (isDecimal_toDigits 25).isDigit, fun p hp => ?_⟩
      rw [← Option.some.inj hp]
      exact isDecimal_toDigits 10
    have hn := (hread _).mp ⟨hproper, hwrite.symm⟩
    have hvalue : n.value = -(125 * 10 ^ (-12 : ℤ)) := by
      have hdigits : Nat.ofDigitChars 10 ['1', '2', '5'] 0 = 125 := by decide
      have hpower : -(Nat.ofDigitChars 10 ['1', '0'] 0 : ℤ) - 2 = -12 := by decide
      rw [← hn]
      show -((Nat.ofDigitChars 10 ['1', '2', '5'] 0 : ℚ) * 10 ^ (-(Nat.ofDigitChars 10 ['1', '0'] 0 : ℤ) - 2)) = _
      rw [hdigits, hpower]
      rfl
    exact hvalue ▸ hnearest
  · have htenth : (⟨0x3fb999999999999a⟩ : Binary64).size = .finite 0x1999999999999a (-56) := by decide
    have hfifth : (⟨0x3fc999999999999a⟩ : Binary64).size = .finite 0x1999999999999a (-55) := by decide
    rw [ne_eq, hdistinct htenth hfifth]
    show ¬ (⟨0x3fb999999999999a⟩ : Binary64).magnitude = (⟨0x3fc999999999999a⟩ : Binary64).magnitude
    rw [Binary64.magnitude_of_finite htenth, Binary64.magnitude_of_finite hfifth]
    norm_num

end Layout

end HttpFields.Decimal

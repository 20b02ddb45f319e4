import HttpFields.Proofs.Shortest

/-!
# Numerals of scripts

How ECMAScript turns a finite number into text: the shortest digits that round to it, set out around the point.
The script layout does the same but for whole numbers below `10^21`, which it writes with all their digits.

* `Binary64.IsNumeral` : a text is the one that ECMAScript gives a number
* `setOut` : where the point, zeros and the power of ten go
* `Layout.isNumeral_write_script` : which numbers the script layout writes that way, and how it writes the others
-/

namespace HttpFields.Decimal

set_option autoImplicit false

/-! ## The text of a number -/

/-- The `k` digits of `s`, with the point after `n` of them. -/
def setOut (s k : ℕ) (n : ℤ) : List Char :=
  let digits := Nat.toDigits 10 s
  if k ≤ n ∧ n ≤ 21 then digits ++ .replicate (n - k).toNat '0'
  else if 0 < n ∧ n ≤ 21 then digits.take n.toNat ++ '.' :: digits.drop n.toNat
  else if -6 < n ∧ n ≤ 0 then '0' :: '.' :: (.replicate (-n).toNat '0' ++ digits)
  else
    let power := (if n - 1 < 0 then '-' else '+') :: Nat.toDigits 10 (n - 1).natAbs
    if k = 1 then digits ++ 'e' :: power
    else digits.take 1 ++ '.' :: (digits.drop 1 ++ 'e' :: power)

namespace Binary64

def signed (x : Binary64) (text : List Char) : String :=
  (if x.isNegative then "-" else "") ++ String.ofList text

def IsNumeral (x : Binary64) (text : String) : Prop :=
  if x.magnitude = 0 then text = "0"
  else ∃ s k n, Shortest x.Rounds s k n ∧ text = x.signed (setOut s k n)

theorem signed_inj {x : Binary64} {a b : List Char} (h : x.signed a = x.signed b) : a = b := by
  have hlist := congrArg String.toList h
  simpa [signed] using hlist

end Binary64

/-! ## Digits set out -/

theorem setOut_ofDigits {d : Digits} {s : ℕ} (h : d.digits = Nat.toDigits 10 s) :
    (if -6 < d.point ∧ d.point ≤ 21 then d.positional "" else d.scientific "+") =
      setOut s d.digits.length d.point := by
  have hlength : 0 < d.digits.length := h ▸ Nat.length_toDigits_pos
  unfold setOut
  rw [← h]
  by_cases hposition : -6 < d.point ∧ d.point ≤ 21
  · rw [if_pos hposition, Digits.positional]
    by_cases hzero : d.point ≤ 0
    · rw [if_pos hzero, if_neg (by omega), if_neg (by omega), if_pos ⟨hposition.1, hzero⟩]
      rfl
    · rw [if_neg hzero]
      by_cases hwhole : d.digits.length ≤ d.point
      · rw [if_pos hwhole, if_pos ⟨hwhole, hposition.2⟩]
        simp [Digits.zeros]
      · rw [if_neg hwhole, if_neg (by omega), if_pos ⟨by omega, hposition.2⟩]
  · rw [if_neg hposition, if_neg (by omega), if_neg (by omega), if_neg (by omega), Digits.scientific]
    by_cases hone : d.digits.length = 1
    · have htake : d.digits.take 1 = d.digits := List.take_of_length_le (by omega)
      rw [if_pos hone, if_pos (by omega), htake]
      split <;> simp
    · rw [if_neg hone, if_neg (by omega)]
      split <;> simp

theorem toDigits_injective {a b : ℕ} (h : Nat.toDigits 10 a = Nat.toDigits 10 b) : a = b := by
  have hread := congrArg (fun digits => Nat.ofDigitChars 10 digits 0) h
  simpa only [Nat.ofDigitChars_ten_toDigits] using hread

theorem exists_mem_setOut {s k : ℕ} {n : ℤ} (h : ¬ (k ≤ n ∧ n ≤ 21)) :
    ∃ c ∈ setOut s k n, c.isDigit = false := by
  unfold setOut
  rw [if_neg h]
  by_cases hinside : 0 < n ∧ n ≤ 21
  · rw [if_pos hinside]
    exact ⟨'.', by simp, rfl⟩
  · rw [if_neg hinside]
    by_cases hsmall : -6 < n ∧ n ≤ 0
    · rw [if_pos hsmall]
      exact ⟨'.', by simp, rfl⟩
    · rw [if_neg hsmall]
      by_cases hone : k = 1
      · rw [if_pos hone]
        exact ⟨'e', by simp, rfl⟩
      · rw [if_neg hone]
        exact ⟨'.', by simp, rfl⟩

theorem eq_of_setOut_eq {s k v : ℕ} {n : ℤ} (hs : 0 < s) (h : setOut s k n = Nat.toDigits 10 v) :
    k ≤ n ∧ v = s * 10 ^ (n - k).toNat := by
  by_cases hwhole : k ≤ n ∧ n ≤ 21
  · unfold setOut at h
    rw [if_pos hwhole, ← toDigits_mul_pow hs] at h
    exact ⟨hwhole.1, (toDigits_injective h).symm⟩
  · obtain ⟨c, hmem, hc⟩ := exists_mem_setOut (s := s) hwhole
    have hdigit : c.isDigit := Nat.isDigit_of_mem_toDigits (by decide) (by decide) (h ▸ hmem)
    exact absurd hdigit (by rw [hc]; decide)

/-! ## Whole numbers -/

namespace Binary64

variable {m v : ℕ} {q : ℤ}

theorem magnitude_of_finite {x : Binary64} (hx : x.size = .finite m q) : x.magnitude = m * 2 ^ q := by
  rw [magnitude, hx]

theorem value_pos (hm : 0 < m) (q : ℤ) : (0 : ℚ) < m * 2 ^ q :=
  mul_pos (by exact_mod_cast hm) (zpow_pos (by norm_num) q)

theorem value_eq_iff : (m : ℚ) * 2 ^ q = v ↔ m * 2 ^ q.toNat = v * 2 ^ (-q).toNat := by
  have hunit : (2 : ℚ) ^ (-q).toNat ≠ 0 := pow_ne_zero _ two_ne_zero
  rw [zpow_eq_div two_ne_zero, ← mul_div_assoc, div_eq_iff hunit]
  exact_mod_cast Iff.rfl

theorem whole_eq (h : (m : ℚ) * 2 ^ q = v) : whole m q = v := by
  rw [whole, value_eq_iff.mp h]
  exact Nat.mul_div_cancel v (Nat.two_pow_pos _)

theorem isWhole_of_value (h : (m : ℚ) * 2 ^ q = v) : isWhole m q = true := by
  have hvalue := value_eq_iff.mp h
  rw [isWhole, decide_eq_true_eq]
  rcases le_total 0 q with hq | hq
  · have hzero : (-q).toNat = 0 := by omega
    rw [hzero]
    exact Nat.mod_one m
  · have hzero : q.toNat = 0 := by omega
    rw [hzero, pow_zero, mul_one] at hvalue
    rw [hvalue]
    exact Nat.mul_mod_left v _

theorem value_of_isWhole (h : isWhole m q = true) : (m : ℚ) * 2 ^ q = whole m q := by
  rw [isWhole, decide_eq_true_eq] at h
  have hdvd : 2 ^ (-q).toNat ∣ m * 2 ^ q.toNat := Dvd.dvd.mul_right (Nat.dvd_of_mod_eq_zero h) _
  rw [value_eq_iff, whole, Nat.div_mul_cancel hdvd]

end Binary64

/-- Of the digits of a natural the shortest have no zeros behind, so they are set out as all its digits. -/
theorem setOut_of_eq {P : ℚ → Prop} {s k v : ℕ} {n : ℤ} (h : Shortest P s k n) (hv : 0 < v)
    (hvalue : (s : ℚ) * 10 ^ (n - k) = v) (hbound : v < 10 ^ 21) : setOut s k n = Nat.toDigits 10 v := by
  have hcount := hasDigits_toDigits hv
  have hmagnitude := h.digits.hasMagnitude (n - k)
  rw [hvalue, add_sub_cancel] at hmagnitude
  have hn : n = (Nat.toDigits 10 v).length := by
    have hown : HasMagnitude v (Nat.toDigits 10 v).length := by simpa using hcount.hasMagnitude 0
    exact hmagnitude.unique hown
  have hk : k ≤ (Nat.toDigits 10 v).length :=
    h.least v _ (Nat.toDigits 10 v).length hcount (by rw [sub_self, zpow_zero, mul_one, ← hvalue]; exact h.holds)
  have hlength : (Nat.toDigits 10 v).length ≤ 21 := (Nat.length_toDigits_le_iff (by decide) (by decide)).mpr hbound
  have hnat : v = s * 10 ^ (n - k).toNat := by
    rw [mul_ten_zpow s (by omega)] at hvalue
    exact_mod_cast hvalue.symm
  unfold setOut
  rw [if_pos (by omega), hnat, toDigits_mul_pow h.digits.pos]

namespace Layout

theorem write_of_pos {x : Binary64} {m : ℕ} {q : ℤ} (hx : x.size = .finite m q) (hm : 0 < m) :
    script.write x = x.signed (script.writeFinite m q x.isNarrowBelow) := by
  obtain ⟨m, rfl⟩ := Nat.exists_eq_succ_of_ne_zero hm.ne'
  rw [write, hx]
  rfl

theorem write_of_zero {x : Binary64} {q : ℤ} (hx : x.size = .finite 0 q) : script.write x = "0" := by
  rw [write, hx]
  rfl

theorem script_writeFinite (m : ℕ) (q : ℤ) (narrow : Bool) :
    script.writeFinite m q narrow =
      if Binary64.isWhole m q ∧ Binary64.whole m q < 10 ^ 21 then Nat.toDigits 10 (Binary64.whole m q)
      else
        let d := Digits.ofPoint (Cell.ofFinite m q narrow).shortest
        if -6 < d.point ∧ d.point ≤ 21 then d.positional "" else d.scientific "+" := by
  have hall : script.writeFinite m q narrow =
      if Binary64.isWhole m q && decide (Binary64.whole m q < 10 ^ 21) then
        Nat.toDigits 10 (Binary64.whole m q) ++ []
      else
        let d := Digits.ofPoint (Cell.ofFinite m q narrow).shortest
        if -6 < d.point ∧ d.point ≤ 21 then d.positional "" else d.scientific "+" := rfl
  rw [hall, List.append_nil]
  simp only [Bool.and_eq_true, decide_eq_true_eq]

theorem writeFinite_of_whole {m v : ℕ} {q : ℤ} (narrow : Bool) (h : (m : ℚ) * 2 ^ q = v) (hv : v < 10 ^ 21) :
    script.writeFinite m q narrow = Nat.toDigits 10 v := by
  have hwhole := Binary64.whole_eq h
  rw [script_writeFinite, hwhole, if_pos ⟨Binary64.isWhole_of_value h, hv⟩]

theorem writeFinite_of_not_whole {x : Binary64} {m : ℕ} {q : ℤ} (hx : x.size = .finite m q) (hm : 0 < m)
    (h : ∀ v : ℕ, (m : ℚ) * 2 ^ q = v → 10 ^ 21 ≤ v) :
    ∃ s k n, Shortest x.Rounds s k n ∧ script.writeFinite m q x.isNarrowBelow = setOut s k n := by
  obtain ⟨s, hdigits, hshortest⟩ := Binary64.shortest_ofPoint hx hm
  refine ⟨s, _, _, hshortest, ?_⟩
  have hnot : ¬ (Binary64.isWhole m q ∧ Binary64.whole m q < 10 ^ 21) := fun hwhole =>
    (h _ (Binary64.value_of_isWhole hwhole.1)).not_gt hwhole.2
  rw [script_writeFinite, if_neg hnot]
  exact setOut_ofDigits hdigits

end Layout

/-! ## Whole numbers that are told from their neighbours -/

namespace Binary64

variable {x : Binary64} {m v : ℕ} {q : ℤ}

theorem exponent_nonpos (hx : x.size = .finite m q) (hm : 0 < m) (h : (m : ℚ) * 2 ^ q < 2 ^ 53) : q ≤ 0 := by
  by_contra hq
  have hnormal : 2 ^ 52 ≤ m := by
    obtain ⟨i, _, _, hsignificand, hexponent⟩ := exists_rank_eq_succ hx hm
    unfold exponentAt at hexponent
    rw [← hsignificand, significandAt, if_neg (by omega)]
    omega
  have htwo : (2 : ℚ) ≤ 2 ^ q := by
    calc (2 : ℚ) = 2 ^ (1 : ℤ) := (zpow_one 2).symm
      _ ≤ 2 ^ q := zpow_le_zpow_right₀ (by norm_num) (by omega)
  have hcast : (2 : ℚ) ^ 52 ≤ m := by exact_mod_cast hnormal
  nlinarith

theorem abs_sub_le_of_rounds (hx : x.size = .finite m q) (hm : 0 < m) {r : ℚ} (h : x.Rounds r) :
    |r - m * 2 ^ q| ≤ 2 ^ q / 2 := by
  rw [rounds_iff_covers hx hm, Cell.Covers] at h
  have hpos : (0 : ℚ) < 2 ^ q := zpow_pos (by norm_num) q
  have hlower : (m : ℚ) * 2 ^ q - 2 ^ q / 2 ≤ (Cell.ofFinite m q x.isNarrowBelow).lower := by
    rw [Cell.ofFinite_lower hm]
    split <;> linarith
  rw [Cell.ofFinite_upper] at h
  rw [abs_le]
  split at h <;> constructor <;> linarith

theorem rounds_self (hx : x.size = .finite m q) (hm : 0 < m) : x.Rounds (m * 2 ^ q) := by
  have hcovers := (Cell.ofFinite_proper hm q x.isNarrowBelow).covers_value
  rw [Cell.ofFinite_value] at hcovers
  exact (rounds_iff_covers hx hm _).mpr hcovers

/-- A decimal with fewer digits than a natural is further from it than a half. -/
theorem length_le_of_near {s t s' k' : ℕ} {n' : ℤ} (hs : ¬ 10 ∣ s) (hcount' : HasDigits s' k')
    (hnear : |(s' : ℚ) * 10 ^ (n' - k') - (s * 10 ^ t : ℕ)| ≤ 1 / 2) : (Nat.toDigits 10 s).length ≤ k' := by
  have hcount := hasDigits_toDigits (s := s) (by omega)
  generalize (Nat.toDigits 10 s).length = k at *
  by_contra hlt
  have hk' := hcount'.1
  have hmagnitude : HasMagnitude (s * 10 ^ t : ℕ) (k + t) := by
    have := hcount.hasMagnitude t
    rwa [zpow_natCast, ← Nat.cast_ofNat, ← Nat.cast_pow, ← Nat.cast_mul] at this
  have hmagnitude' := hcount'.hasMagnitude (n' - k')
  rw [add_sub_cancel] at hmagnitude'
  rcases le_or_gt (k' : ℤ) n' with hwhole | hpart
  · -- both are whole and so near that they are equal, but `s` has no trailing zero
    have hpow := mul_ten_zpow s' (e := n' - k') (by omega)
    obtain ⟨j, hj⟩ : ∃ j, (n' - k').toNat = j := ⟨_, rfl⟩
    rw [hj] at hpow
    have heq : s' * 10 ^ j = s * 10 ^ t := by
      rw [hpow, abs_le] at hnear
      have hle : ((s' * 10 ^ j : ℕ) : ℚ) < (s * 10 ^ t : ℕ) + 1 := by linarith
      have hge : ((s * 10 ^ t : ℕ) : ℚ) < (s' * 10 ^ j : ℕ) + 1 := by linarith
      have hle' : s' * 10 ^ j < s * 10 ^ t + 1 := by exact_mod_cast hle
      have hge' : s * 10 ^ t < s' * 10 ^ j + 1 := by exact_mod_cast hge
      omega
    rw [hpow, heq] at hmagnitude'
    have hn' := hmagnitude'.unique hmagnitude
    obtain ⟨i, hi⟩ : ∃ i, j = t + (i + 1) := ⟨j - t - 1, by omega⟩
    rw [hi, pow_add, mul_left_comm, mul_comm s] at heq
    have hs' : s' * 10 ^ (i + 1) = s := Nat.eq_of_mul_eq_mul_left (Nat.pow_pos (by decide)) heq
    exact hs (hs' ▸ Dvd.dvd.mul_left (dvd_pow_self 10 (by omega)) s')
  · -- the decimal has fewer places before the point than the natural
    have hbelow : (10 : ℚ) ^ n' ≤ 10 ^ ((k : ℤ) + t - 2) := zpow_le_zpow_right₀ (by norm_num) (by omega)
    have hone : (1 : ℚ) ≤ 10 ^ ((k : ℤ) + t - 2) := one_le_zpow₀ (by norm_num) (by omega)
    have hten : (10 : ℚ) ^ ((k : ℤ) + t - 1) = 10 * 10 ^ ((k : ℤ) + t - 2) := by
      rw [← zpow_one_add₀ (by norm_num)]
      congr 1; omega
    have hlow := hmagnitude.1
    have hhigh := hmagnitude'.2
    rw [abs_le] at hnear
    linarith

/-- So a whole number below `2^53` is the shortest decimal that rounds to it. -/
theorem exists_shortest_of_whole (hx : x.size = .finite m q) (hm : 0 < m) (hvalue : (m : ℚ) * 2 ^ q = v)
    (hv : v < 2 ^ 53) : ∃ s k n, Shortest x.Rounds s k n ∧ (s : ℚ) * 10 ^ (n - k) = v := by
  have hpos : v ≠ 0 := by
    have hcast := value_pos hm q
    rw [hvalue] at hcast
    exact_mod_cast hcast.ne'
  obtain ⟨t, s, hs, hst⟩ := Nat.exists_eq_pow_mul_and_not_dvd hpos 10 (by decide)
  rw [mul_comm] at hst
  have hown : (s : ℚ) * 10 ^ ((((Nat.toDigits 10 s).length + t : ℕ) : ℤ) - (Nat.toDigits 10 s).length) = v := by
    rw [Nat.cast_add, add_sub_cancel_left, zpow_natCast, hst]
    push_cast
    rfl
  have hspos : 0 < s := by omega
  have hplace : (2 : ℚ) ^ q ≤ 1 := by
    have hq := exponent_nonpos hx hm (by rw [hvalue]; exact_mod_cast hv)
    exact zpow_le_one_of_nonpos₀ (by norm_num) hq
  refine ⟨s, _, _, ⟨hasDigits_toDigits hspos, ?_, fun s' k' n' hcount' hrounds' => ?_⟩, hown⟩
  · rw [hown, ← hvalue]
    exact rounds_self hx hm
  · have hnear := abs_sub_le_of_rounds hx hm hrounds'
    rw [hvalue, hst] at hnear
    exact length_le_of_near hs hcount' (hnear.trans (by linarith))

end Binary64

namespace Layout

variable {x : Binary64} {m : ℕ} {q : ℤ}

theorem isNumeral_iff (hx : x.size = .finite m q) (hm : 0 < m) (text : String) :
    x.IsNumeral text ↔ ∃ s k n, Shortest x.Rounds s k n ∧ text = x.signed (setOut s k n) := by
  rw [Binary64.IsNumeral, Binary64.magnitude_of_finite hx, if_neg (Binary64.value_pos hm q).ne']

theorem isNumeral_write_of_zero (hx : x.size = .finite 0 q) : x.IsNumeral (script.write x) := by
  rw [Binary64.IsNumeral, Binary64.magnitude_of_finite hx, Nat.cast_zero, zero_mul, if_pos rfl]
  exact write_of_zero hx

theorem isNumeral_digits_iff (hx : x.size = .finite m q) (hm : 0 < m) {v : ℕ} (hv : 0 < v) (hbound : v < 10 ^ 21) :
    x.IsNumeral (x.signed (Nat.toDigits 10 v)) ↔
      ∃ s k n, Shortest x.Rounds s k n ∧ (s : ℚ) * 10 ^ (n - k) = v := by
  rw [isNumeral_iff hx hm]
  constructor
  · rintro ⟨s, k, n, hshortest, htext⟩
    obtain ⟨hkn, hvalue⟩ := eq_of_setOut_eq hshortest.digits.pos (Binary64.signed_inj htext).symm
    exact ⟨s, k, n, hshortest, by rw [mul_ten_zpow s (by omega), hvalue]⟩
  · rintro ⟨s, k, n, hshortest, hvalue⟩
    exact ⟨s, k, n, hshortest, by rw [setOut_of_eq hshortest hv hvalue hbound]⟩

/-- A script writes a finite number as ECMAScript does, but for the whole numbers from `2^53` and below `10^21`.
A whole number below `10^21` has all its digits, so it is written as ECMAScript does just when the shortest
digits that round to it are its own. -/
theorem isNumeral_write_script (hx : x.size = .finite m q) :
    (∃ text, x.IsNumeral text) ∧
    ((∀ v : ℕ, x.magnitude = v → v < 2 ^ 53 ∨ 10 ^ 21 ≤ v) → x.IsNumeral (script.write x)) ∧
    ∀ v : ℕ, x.magnitude = v → 0 < v → v < 10 ^ 21 →
      script.write x = x.signed (Nat.toDigits 10 v) ∧
      (x.IsNumeral (script.write x) ↔ ∃ s k n, Shortest x.Rounds s k n ∧ (s : ℚ) * 10 ^ (n - k) = v) := by
  have hmagnitude := Binary64.magnitude_of_finite hx
  rcases Nat.eq_zero_or_pos m with rfl | hm
  · have hnumeral := isNumeral_write_of_zero hx
    refine ⟨⟨_, hnumeral⟩, fun _ => hnumeral, fun v hv hpos => ?_⟩
    rw [hmagnitude, Nat.cast_zero, zero_mul] at hv
    exact absurd (by exact_mod_cast hv.symm) hpos.ne'
  · have hwhole {v : ℕ} (hv : x.magnitude = v) (hbound : v < 10 ^ 21) :
        script.write x = x.signed (Nat.toDigits 10 v) := by
      rw [write_of_pos hx hm, writeFinite_of_whole _ (hmagnitude.symm.trans hv) hbound]
    refine ⟨?_, fun hout => ?_, fun v hv hpos hbound => ?_⟩
    · obtain ⟨s, _, hshortest⟩ := Binary64.shortest_ofPoint hx hm
      exact ⟨_, (isNumeral_iff hx hm _).mpr ⟨s, _, _, hshortest, rfl⟩⟩
    · by_cases hsmall : ∃ v : ℕ, x.magnitude = v ∧ v < 2 ^ 53
      · obtain ⟨v, hv, hlt⟩ := hsmall
        have hshortest := Binary64.exists_shortest_of_whole hx hm (hmagnitude.symm.trans hv) hlt
        have hpos : 0 < v := by
          have hcast := Binary64.value_pos hm q
          rw [← hmagnitude, hv] at hcast
          exact_mod_cast hcast
        rw [hwhole hv (by omega)]
        exact (isNumeral_digits_iff hx hm hpos (by omega)).mpr hshortest
      · have hlarge (v : ℕ) (hv : (m : ℚ) * 2 ^ q = v) : 10 ^ 21 ≤ v :=
          (hout v (hmagnitude.trans hv)).resolve_left fun hlt => hsmall ⟨v, hmagnitude.trans hv, hlt⟩
        obtain ⟨s, k, n, hshortest, htext⟩ := writeFinite_of_not_whole hx hm hlarge
        rw [write_of_pos hx hm, htext]
        exact (isNumeral_iff hx hm _).mpr ⟨s, k, n, hshortest, rfl⟩
    · rw [hwhole hv hbound]
      exact ⟨rfl, isNumeral_digits_iff hx hm hpos hbound⟩

theorem isNumeral_write_script_tenth :
    (⟨0x3fb999999999999a⟩ : Binary64).size = .finite 0x1999999999999a (-56) ∧
      (⟨0x3fb999999999999a⟩ : Binary64).IsNumeral "0.1" := by
  have hx : (⟨0x3fb999999999999a⟩ : Binary64).size = .finite 0x1999999999999a (-56) := by decide
  have hwrite : script.write ⟨0x3fb999999999999a⟩ = "0.1" := by decide +kernel
  refine ⟨hx, hwrite ▸ (isNumeral_write_script hx).2.1 fun v hv => .inl ?_⟩
  have hlt : (v : ℚ) < 1 := by
    rw [← hv, Binary64.magnitude_of_finite hx]
    norm_num
  have : v < 1 := by exact_mod_cast hlt
  omega

/-- At `2^63` the shortest digits are padded with zeros, but the exact ones are written. -/
theorem not_isNumeral_write_two_pow :
    script.write ⟨0x43e0000000000000⟩ = "9223372036854775808" ∧
      (⟨0x43e0000000000000⟩ : Binary64).IsNumeral "9223372036854776000" ∧
      ¬ (⟨0x43e0000000000000⟩ : Binary64).IsNumeral "9223372036854775808" := by
  have hx : (⟨0x43e0000000000000⟩ : Binary64).size = .finite (2 ^ 52) 11 := by decide
  have hnarrow : (⟨0x43e0000000000000⟩ : Binary64).isNarrowBelow = true := by decide
  have hdigits : (Digits.ofPoint (Cell.ofFinite (2 ^ 52) 11 true).shortest).digits =
      Nat.toDigits 10 9223372036854776 := by decide +kernel
  have hlength : (Nat.toDigits 10 9223372036854776).length = 16 := by decide +kernel
  have hpoint : (Digits.ofPoint (Cell.ofFinite (2 ^ 52) 11 true).shortest).point = 19 := by decide +kernel
  obtain ⟨s, hs, hshortest⟩ := Binary64.shortest_ofPoint hx (by decide)
  rw [hnarrow, hdigits] at hs hshortest
  rw [hpoint, hlength, ← toDigits_injective hs] at hshortest
  refine ⟨by decide +kernel, ?_, fun hnumeral => ?_⟩
  · exact (isNumeral_iff hx (by decide) _).mpr ⟨_, _, _, hshortest, by decide +kernel⟩
  · obtain ⟨s', k', n', hshortest', htext⟩ := (isNumeral_iff hx (by decide) _).mp hnumeral
    have hsigned : (⟨0x43e0000000000000⟩ : Binary64).signed (Nat.toDigits 10 9223372036854775808) =
        "9223372036854775808" := by decide +kernel
    obtain ⟨_, hvalue⟩ := eq_of_setOut_eq hshortest'.digits.pos (Binary64.signed_inj (hsigned.trans htext)).symm
    have hk' : k' ≤ 16 := hshortest'.least _ _ _ hshortest.digits hshortest.holds
    have hs' : s' < 10 ^ 16 := hshortest'.digits.2.2.trans_le (Nat.pow_le_pow_right (by decide) hk')
    generalize (n' - k').toNat = j at hvalue
    rcases Nat.lt_or_ge j 3 with hj | hj
    · have hpow : 10 ^ j ≤ 10 ^ 2 := Nat.pow_le_pow_right (by decide) (by omega)
      have := Nat.mul_lt_mul_of_lt_of_le hs' hpow (by decide)
      omega
    · have hdvd : 10 ^ 3 ∣ 9223372036854775808 := hvalue ▸ Dvd.dvd.mul_left (pow_dvd_pow 10 hj) s'
      omega

end Layout

end HttpFields.Decimal

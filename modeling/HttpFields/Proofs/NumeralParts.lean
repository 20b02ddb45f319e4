import HttpFields.Proofs.Shortest

/-!
# The parts of a decimal numeral

A decimal numeral has a sign, digits, digits behind a point and a power of ten. Its text shows all of them, so it is
read in one way only and stands for one number.

* `IsDecimal` : digits without a superfluous zero in front
* `Numeral.text` : how the parts are written; `Numeral.value` : the rational that they stand for
* `Numeral.eq_of_text_eq` : no two numerals have one text
* `Digits.numeral` : the parts of digits that a script sets out, and `Digits.numeral_magnitude` what they stand for
-/

namespace HttpFields.Decimal

set_option autoImplicit false

/-! ## Digits -/

/-- Decimal digits without a superfluous zero in front. -/
structure IsDecimal (digits : List Char) : Prop where
  ne_nil : digits ≠ []
  isDigit : ∀ c ∈ digits, c.isDigit = true
  zero : digits.head? = some '0' → digits = ['0']

theorem head?_toDigits_ne_zero {n : ℕ} (hn : 0 < n) : (Nat.toDigits 10 n).head? ≠ some '0' := by
  induction n using Nat.strong_induction_on with
  | _ n ih =>
    rw [Nat.toDigits_eq_if (by decide)]
    split
    · rw [List.head?_cons, ne_eq, Option.some_inj, Nat.digitChar_eq_zero]
      exact hn.ne'
    · have hquotient : 0 < n / 10 := by omega
      rw [List.head?_append_of_ne_nil _ Nat.toDigits_ne_nil]
      exact ih _ (by omega) hquotient

theorem isDecimal_toDigits (n : ℕ) : IsDecimal (Nat.toDigits 10 n) where
  ne_nil := Nat.toDigits_ne_nil
  isDigit _ hc := Nat.isDigit_of_mem_toDigits (by decide) (by decide) hc
  zero hzero := by
    rcases Nat.eq_zero_or_pos n with rfl | hn
    · rfl
    · exact absurd hzero (head?_toDigits_ne_zero hn)

theorem isDecimal_take {n k : ℕ} (hn : 0 < n) (hk : 0 < k) : IsDecimal ((Nat.toDigits 10 n).take k) where
  ne_nil := by
    rw [ne_eq, List.take_eq_nil_iff]
    exact not_or.mpr ⟨hk.ne', Nat.toDigits_ne_nil⟩
  isDigit c hc := (isDecimal_toDigits n).isDigit c (List.mem_of_mem_take hc)
  zero hzero := by
    rw [List.head?_take, if_neg hk.ne'] at hzero
    exact absurd hzero (head?_toDigits_ne_zero hn)

/-! ## Numerals -/

/-- A fraction without digits is none; a power of ten has a sign in any case, which is `true` for a minus. -/
structure Numeral where
  negative : Bool
  whole : List Char
  fraction : List Char
  power : Option (Bool × List Char)

namespace Numeral

def signText : Bool → List Char
  | true => ['-']
  | false => []

def pointText : List Char → List Char
  | [] => []
  | c :: cs => '.' :: c :: cs

def powerText : Option (Bool × List Char) → List Char
  | none => []
  | some (true, digits) => 'e' :: '-' :: digits
  | some (false, digits) => 'e' :: '+' :: digits

def unsigned (n : Numeral) : List Char := n.whole ++ (pointText n.fraction ++ powerText n.power)

def text (n : Numeral) : List Char := signText n.negative ++ n.unsigned

structure Proper (n : Numeral) : Prop where
  whole : IsDecimal n.whole
  fraction : ∀ c ∈ n.fraction, c.isDigit = true
  power : ∀ p ∈ n.power, IsDecimal p.2

def exponent (n : Numeral) : ℤ :=
  match n.power with
  | none => 0
  | some (minus, digits) => if minus then -(Nat.ofDigitChars 10 digits 0) else Nat.ofDigitChars 10 digits 0

def magnitude (n : Numeral) : ℚ :=
  Nat.ofDigitChars 10 (n.whole ++ n.fraction) 0 * 10 ^ (n.exponent - n.fraction.length)

def value (n : Numeral) : ℚ := if n.negative then -n.magnitude else n.magnitude

/-! ## One text for each numeral -/

/-- Two texts are cut at the first character that is no digit. -/
theorem digits_append_inj {a a' b b' : List Char} (ha : ∀ c ∈ a, c.isDigit = true) (ha' : ∀ c ∈ a', c.isDigit = true)
    (hb : ∀ c ∈ b.head?, c.isDigit = false) (hb' : ∀ c ∈ b'.head?, c.isDigit = false) (h : a ++ b = a' ++ b') :
    a = a' ∧ b = b' := by
  have hcut {a b : List Char} (ha : ∀ c ∈ a, c.isDigit = true) (hb : ∀ c ∈ b.head?, c.isDigit = false) :
      (a ++ b).takeWhile Char.isDigit = a := by
    have hnone : b.takeWhile Char.isDigit = [] := by
      cases b with
      | nil => rfl
      | cons c b => rw [List.takeWhile_cons, hb c rfl, if_neg Bool.false_ne_true]
    rw [List.takeWhile_append_of_pos ha, hnone, List.append_nil]
  have heq : a = a' := by rw [← hcut ha hb, h, hcut ha' hb']
  exact ⟨heq, List.append_cancel_left (heq ▸ h)⟩

theorem signText_append_inj {b b' : Bool} {cs cs' : List Char} (hcs : cs.head? ≠ some '-')
    (hcs' : cs'.head? ≠ some '-') (h : signText b ++ cs = signText b' ++ cs') : b = b' ∧ cs = cs' := by
  cases b <;> cases b'
  · exact ⟨rfl, h⟩
  · exact absurd (congrArg List.head? h) hcs
  · exact absurd (congrArg List.head? h).symm hcs'
  · exact ⟨rfl, List.tail_eq_of_cons_eq h⟩

theorem powerText_injective : Function.Injective powerText := by
  intro p p' h
  rcases p with _ | ⟨_ | _, digits⟩ <;> rcases p' with _ | ⟨_ | _, digits'⟩ <;> simp_all [powerText]

theorem head?_powerText (p : Option (Bool × List Char)) : ∀ c ∈ (powerText p).head?, c = 'e' := by
  rcases p with _ | ⟨_ | _, digits⟩ <;> simp [powerText]

theorem isDigit_head?_powerText (p : Option (Bool × List Char)) : ∀ c ∈ (powerText p).head?, c.isDigit = false := by
  intro c hc
  rw [head?_powerText p c hc]
  rfl

theorem isDigit_head?_pointText (cs : List Char) (p : Option (Bool × List Char)) :
    ∀ c ∈ (pointText cs ++ powerText p).head?, c.isDigit = false := by
  cases cs with
  | nil => exact isDigit_head?_powerText p
  | cons c cs => simp [pointText]

theorem pointText_append_inj {cs cs' : List Char} {p p' : Option (Bool × List Char)}
    (hcs : ∀ c ∈ cs, c.isDigit = true) (hcs' : ∀ c ∈ cs', c.isDigit = true)
    (h : pointText cs ++ powerText p = pointText cs' ++ powerText p') : cs = cs' ∧ p = p' := by
  have hmark {cs : List Char} {p p' : Option (Bool × List Char)} (h : powerText p = '.' :: cs ++ powerText p') :
      False := by
    have := head?_powerText p '.' (h ▸ rfl)
    contradiction
  cases cs <;> cases cs'
  · exact ⟨rfl, powerText_injective h⟩
  · exact (hmark h).elim
  · exact (hmark h.symm).elim
  · obtain ⟨hdigits, hpower⟩ := digits_append_inj hcs hcs' (isDigit_head?_powerText p) (isDigit_head?_powerText p')
      (List.tail_eq_of_cons_eq h)
    exact ⟨hdigits, powerText_injective hpower⟩

theorem head?_unsigned {n : Numeral} (hn : n.Proper) : n.unsigned.head? ≠ some '-' := by
  intro hhead
  rw [unsigned, List.head?_append_of_ne_nil _ hn.whole.ne_nil] at hhead
  have hdigit := hn.whole.isDigit '-' (List.mem_of_head? hhead)
  contradiction

/-- A text is read in one way only. -/
theorem eq_of_text_eq {n n' : Numeral} (hn : n.Proper) (hn' : n'.Proper) (h : n.text = n'.text) : n = n' := by
  obtain ⟨hnegative, hunsigned⟩ := signText_append_inj (head?_unsigned hn) (head?_unsigned hn') h
  obtain ⟨hwhole, hrest⟩ := digits_append_inj hn.whole.isDigit hn'.whole.isDigit (isDigit_head?_pointText _ _)
    (isDigit_head?_pointText _ _) hunsigned
  obtain ⟨hfraction, hpower⟩ := pointText_append_inj hn.fraction hn'.fraction hrest
  cases n
  cases n'
  simp_all

end Numeral

/-! ## Digits that are set out -/

namespace Digits

def significand (d : Digits) : ℕ := Nat.ofDigitChars 10 d.digits 0

def value (d : Digits) : ℚ := d.significand * 10 ^ (d.point - d.digits.length)

theorem value_of_one {d : Digits} {e : ℤ} (hdigits : d.digits = ['1']) (hpoint : d.point = e + 1) :
    d.value = 10 ^ e := by
  have hone : Nat.ofDigitChars 10 ['1'] 0 = 1 := by decide
  rw [value, significand, hdigits, hpoint, hone, Nat.cast_one, one_mul]
  exact congrArg _ (add_sub_cancel_right e 1)

/-- The parts of digits that a script sets out. -/
def numeral (negative : Bool) (d : Digits) : Numeral :=
  if -6 < d.point ∧ d.point ≤ 21 then
    if d.point ≤ 0 then ⟨negative, ['0'], zeros (-d.point) ++ d.digits, none⟩
    else if d.digits.length ≤ d.point then ⟨negative, d.digits ++ zeros (d.point - d.digits.length), [], none⟩
    else ⟨negative, d.digits.take d.point.toNat, d.digits.drop d.point.toNat, none⟩
  else
    ⟨negative, d.digits.take 1, d.digits.drop 1, some (d.point - 1 < 0, Nat.toDigits 10 (d.point - 1).natAbs)⟩

variable {d : Digits} {s : ℕ} (negative : Bool)

theorem numeral_negative : (d.numeral negative).negative = negative := by
  unfold numeral
  split_ifs <;> rfl

theorem numeral_power : (d.numeral negative).power = none ↔ -6 < d.point ∧ d.point ≤ 21 := by
  unfold numeral
  split_ifs with hposition <;> simp [hposition]

theorem numeral_unsigned (hd : d.digits ≠ []) :
    (d.numeral negative).unsigned =
      if -6 < d.point ∧ d.point ≤ 21 then d.positional "" else d.scientific "+" := by
  have hpoint {cs : List Char} (hcs : cs ≠ []) : Numeral.pointText cs = '.' :: cs := by
    cases cs with
    | nil => contradiction
    | cons c cs => rfl
  unfold numeral
  by_cases hposition : -6 < d.point ∧ d.point ≤ 21
  · rw [if_pos hposition, if_pos hposition, positional]
    by_cases hzero : d.point ≤ 0
    · rw [if_pos hzero, if_pos hzero, Numeral.unsigned, hpoint (by simp [hd])]
      simp [Numeral.powerText]
    · rw [if_neg hzero, if_neg hzero]
      by_cases hwhole : d.digits.length ≤ d.point
      · rw [if_pos hwhole, if_pos hwhole]
        simp [Numeral.unsigned, Numeral.pointText, Numeral.powerText]
      · have hdrop : d.digits.drop d.point.toNat ≠ [] := by
          rw [ne_eq, List.drop_eq_nil_iff]
          omega
        rw [if_neg hwhole, if_neg hwhole, Numeral.unsigned, hpoint hdrop]
        simp [Numeral.powerText]
  · rw [if_neg hposition, if_neg hposition, scientific, Numeral.unsigned]
    have hfraction : Numeral.pointText (d.digits.drop 1) =
        if d.digits.length ≤ 1 then [] else '.' :: d.digits.drop 1 := by
      split
      · next hone => rw [List.drop_of_length_le hone]; rfl
      · next hmore => exact hpoint (by rw [ne_eq, List.drop_eq_nil_iff]; exact hmore)
    rw [hfraction, List.append_assoc]
    by_cases hminus : d.point - 1 < 0
    · rw [decide_eq_true hminus, if_pos hminus]
      rfl
    · rw [decide_eq_false hminus, if_neg hminus]
      rfl

theorem isDigit_zeros (z : ℤ) : ∀ c ∈ zeros z, c.isDigit = true := by
  intro c hc
  rw [List.eq_of_mem_replicate hc]
  rfl

theorem numeral_proper (hd : d.digits = Nat.toDigits 10 s) (hs : 0 < s) : (d.numeral negative).Proper := by
  have hdigits := isDecimal_toDigits s
  unfold numeral
  rw [hd]
  split_ifs with hposition hzero hwhole
  · refine ⟨isDecimal_toDigits 0, fun c hc => ?_, fun p hp => by contradiction⟩
    exact (List.mem_append.mp hc).elim (isDigit_zeros _ c) (hdigits.isDigit c)
  · refine ⟨⟨by simp [hdigits.ne_nil], fun c hc => ?_, fun hhead => ?_⟩, fun c hc => by contradiction,
      fun p hp => by contradiction⟩
    · exact (List.mem_append.mp hc).elim (hdigits.isDigit c) (isDigit_zeros _ c)
    · rw [List.head?_append_of_ne_nil _ hdigits.ne_nil] at hhead
      exact absurd hhead (head?_toDigits_ne_zero hs)
  · exact ⟨isDecimal_take hs (by omega), fun c hc => hdigits.isDigit c (List.mem_of_mem_drop hc),
      fun p hp => by contradiction⟩
  · refine ⟨isDecimal_take hs one_pos, fun c hc => hdigits.isDigit c (List.mem_of_mem_drop hc), fun p hp => ?_⟩
    rw [← Option.some.inj hp]
    exact isDecimal_toDigits _

/-- The point stands where the digits are cut, and the power of ten moves it to its place. -/
theorem magnitude_cut {k : ℕ} {p : Option (Bool × List Char)} {n : Numeral} (hk : k ≤ d.digits.length)
    (hn : n = ⟨negative, d.digits.take k, d.digits.drop k, p⟩) (hexponent : n.exponent = d.point - k) :
    n.magnitude = d.value := by
  have hlength : n.exponent - (n.fraction.length : ℕ) = d.point - d.digits.length := by
    rw [hexponent, hn, List.length_drop]
    omega
  rw [Numeral.magnitude, hlength, hn, List.take_append_drop]
  rfl

theorem ofDigitChars_zeros_append (z : ℤ) (cs : List Char) :
    Nat.ofDigitChars 10 (zeros z ++ cs) 0 = Nat.ofDigitChars 10 cs 0 := by
  rw [zeros, Nat.ofDigitChars_append, Nat.ofDigitChars_replicate_zero, Nat.mul_zero]

/-- Leading zeros are not read, trailing ones make up for the place of the last digit. -/
theorem numeral_magnitude (hd : d.digits ≠ []) : (d.numeral negative).magnitude = d.value := by
  unfold numeral
  split_ifs with hposition hzero hwhole
  · have hplace : (0 : ℤ) - (zeros (-d.point) ++ d.digits).length = d.point - d.digits.length := by
      rw [zeros, List.length_append, List.length_replicate]
      omega
    have hdigits : Nat.ofDigitChars 10 (['0'] ++ (zeros (-d.point) ++ d.digits)) 0 = d.significand :=
      (ofDigitChars_zeros_append 1 _).trans (ofDigitChars_zeros_append _ _)
    rw [value, ← hdigits, ← hplace]
    rfl
  · have hdigits : Nat.ofDigitChars 10 (d.digits ++ zeros (d.point - d.digits.length) ++ []) 0 =
        d.significand * 10 ^ (d.point - d.digits.length).toNat := by
      rw [List.append_nil, zeros, Nat.ofDigitChars_append, Nat.ofDigitChars_replicate_zero, Nat.mul_comm]
      rfl
    rw [value, mul_ten_zpow _ (by omega), ← hdigits]
    exact mul_one _
  · exact magnitude_cut negative (by omega) rfl (by show (0 : ℤ) = _; omega)
  · refine magnitude_cut negative (List.length_pos_iff.mpr hd) rfl ?_
    show (if decide (d.point - 1 < 0) then -(Nat.ofDigitChars 10 (Nat.toDigits 10 (d.point - 1).natAbs) 0 : ℤ)
      else (Nat.ofDigitChars 10 (Nat.toDigits 10 (d.point - 1).natAbs) 0 : ℤ)) = d.point - 1
    rw [Nat.ofDigitChars_ten_toDigits]
    by_cases hminus : d.point - 1 < 0
    · rw [decide_eq_true hminus, if_pos rfl]
      omega
    · rw [decide_eq_false hminus, if_neg Bool.false_ne_true]
      omega

end Digits

end HttpFields.Decimal

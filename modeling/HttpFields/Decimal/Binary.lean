/-!
# Binary floating-point numbers

A binary64 number is held as its 64 bits: a sign, eleven bits of exponent and fifty-two of fraction.

* `Binary64.size` : what the bits without the sign stand for, as `m * 2^q` where it is finite
* `Binary64.isWhole`, `Binary64.whole` : the numbers without a fractional part, as naturals
* `Binary64.ofNat`, `Binary64.ofInt` : the number nearest to an integer, of two equally near ones
  that with an even significand
-/

namespace HttpFields.Decimal

set_option autoImplicit false

/-- Powers of naturals are those of the core library, whatever else is imported. -/
scoped instance (priority := 10000) corePow : Pow Nat Nat := instPowNat

structure Binary64 where
  bits : UInt64
  deriving DecidableEq

/-- What the bits of a number stand for, its sign aside. -/
inductive Size where
  | nan
  | infinite
  /-- The number `significand * 2^exponent`. -/
  | finite (significand : Nat) (exponent : Int)
  deriving DecidableEq

namespace Binary64

abbrev fractionBits : Nat := 52

/-- The width of the exponent field, which lies above the fraction and below the sign. -/
abbrev exponentBits : Nat := 11

def isNegative (x : Binary64) : Bool := 2 ^ (exponentBits + fractionBits) ≤ x.bits.toNat

def exponentField (x : Binary64) : Nat := x.bits.toNat / 2 ^ fractionBits % 2 ^ exponentBits

def fraction (x : Binary64) : Nat := x.bits.toNat % 2 ^ fractionBits

/-- The least exponent field stands for the same power of two as the next one, without the leading
bit; the greatest is kept for the infinities and for what is no number. -/
def size (x : Binary64) : Size :=
  if x.exponentField = 2047 then if x.fraction = 0 then .infinite else .nan
  else if x.exponentField = 0 then .finite x.fraction (-1074)
  else .finite (2 ^ fractionBits + x.fraction) (x.exponentField - 1075)

/-- Whether the next smaller number is only half as far away as the next greater one. That is so at
the powers of two, but for the least of them that has a leading bit. -/
def isNarrowBelow (x : Binary64) : Bool := x.fraction = 0 && 1 < x.exponentField

/-! ## Integers -/

/-- The finite number `m * 2^q` has no fractional part. -/
def isWhole (m : Nat) (q : Int) : Bool := m % 2 ^ (-q).toNat = 0

/-- The value of the finite number `m * 2^q` without its fractional part. -/
def whole (m : Nat) (q : Int) : Nat := m * 2 ^ q.toNat / 2 ^ (-q).toNat

/-- A natural divided by a power of two, to the nearest; a half goes to the even neighbour. -/
def halvesToEven (n shift : Nat) : Nat :=
  let quotient := n / 2 ^ shift
  let twice := 2 * (n % 2 ^ shift)
  if twice < 2 ^ shift ∨ twice = 2 ^ shift ∧ quotient % 2 = 0 then quotient else quotient + 1

/-- The bits of the number nearest to a natural. A significand that is rounded up to `2^53` carries
into the exponent, as it should; beyond the greatest number stands infinity. -/
def bitsOfNat (n : Nat) : Nat :=
  if n = 0 then 0
  else
    let top := n.log2
    let significand :=
      if top ≤ fractionBits then n * 2 ^ (fractionBits - top) else halvesToEven n (top - fractionBits)
    min ((top + 1023) * 2 ^ fractionBits + (significand - 2 ^ fractionBits)) (2047 * 2 ^ fractionBits)

def ofNat (n : Nat) : Binary64 := ⟨.ofNat (bitsOfNat n)⟩

/-- The number nearest to an integer; zero has no sign. -/
def ofInt : Int → Binary64
  | .ofNat n => ofNat n
  | .negSucc n => ⟨.ofNat (2 ^ (exponentBits + fractionBits) + bitsOfNat (n + 1))⟩

end Binary64

end HttpFields.Decimal

import HttpFields.Decimal.Shortest

/-!
# Numerals

How a binary number is written. The digits are those of the shortest decimal; a `Layout` decides
how they are set out.

* `Digits` : the digits of a decimal without trailing zeros, and the place of the decimal point
* `Digits.positional`, `Digits.scientific` : the two ways to set them out
* `Layout.write` : the numeral of a number in a layout

Two layouts are in use: the one in which a script turns a number into text, `Layout.script`, and
the one of diagnostics, `Layout.diagnostic`.
-/

namespace HttpFields.Decimal

set_option autoImplicit false

/-- The number `0.d₁d₂… * 10^point`, where the last digit is not a zero. -/
structure Digits where
  digits : List Char
  point : Int

namespace Digits

def ofPoint (d : GridPoint) : Digits :=
  let all := Nat.toDigits 10 d.significand
  ⟨(all.reverse.dropWhile (· == '0')).reverse, all.length + d.exponent⟩

def zeros (n : Int) : List Char := .replicate n.toNat '0'

/-- The digits with the point in its place. A number without a fractional part ends in `tail`. -/
def positional (d : Digits) (tail : String) : List Char :=
  if d.point ≤ 0 then '0' :: '.' :: (zeros (-d.point) ++ d.digits)
  else if d.digits.length ≤ d.point then
    d.digits ++ zeros (d.point - d.digits.length) ++ tail.toList
  else d.digits.take d.point.toNat ++ '.' :: d.digits.drop d.point.toNat

/-- One digit in front of the point, and the power of ten behind the others. -/
def scientific (d : Digits) (plus : String) : List Char :=
  let power := d.point - 1
  let fraction := if d.digits.length ≤ 1 then [] else '.' :: d.digits.drop 1
  let sign := if power < 0 then "-" else plus
  d.digits.take 1 ++ fraction ++ 'e' :: (sign.toList ++ Nat.toDigits 10 power.natAbs)

end Digits

structure Layout where
  /-- Numbers are written positionally if their point lies above this place … -/
  above : Int
  /-- … and not above this one. -/
  upTo : Int
  /-- What a whole number ends in. -/
  wholeTail : String
  /-- The sign of a power of ten that is not negative. -/
  plus : String
  signedZero : Bool
  /-- Whether whole numbers that are written positionally show all the digits of their value, and not
  only those that tell it from its neighbours. -/
  exactWhole : Bool
  infinity : String

namespace Layout

/-- A script writes numbers positionally from `10^-6` up to, and not with, `10^21`. Whole numbers have
no point and are written exactly. -/
def script : Layout where
  above := -6
  upTo := 21
  wholeTail := ""
  plus := "+"
  signedZero := false
  exactWhole := true
  infinity := "Infinity"

/-- A diagnostic writes numbers positionally from `10^-4` up to, and not with, `10^16`. Whole numbers
end in `.0`. -/
def diagnostic : Layout where
  above := -4
  upTo := 16
  wholeTail := ".0"
  plus := ""
  signedZero := true
  exactWhole := false
  infinity := "inf"

def writeFinite (n : Layout) (m : Nat) (q : Int) (narrowBelow : Bool) : List Char :=
  if n.exactWhole && Binary64.isWhole m q && Binary64.whole m q < 10 ^ n.upTo.toNat then
    Nat.toDigits 10 (Binary64.whole m q) ++ n.wholeTail.toList
  else
    let digits := Digits.ofPoint (Cell.ofFinite m q narrowBelow).shortest
    if n.above < digits.point ∧ digits.point ≤ n.upTo then digits.positional n.wholeTail
    else digits.scientific n.plus

def write (n : Layout) (x : Binary64) : String :=
  let sign := if x.isNegative then "-" else ""
  match x.size with
  | .nan => "NaN"
  | .infinite => sign ++ n.infinity
  | .finite 0 _ => (if n.signedZero then sign else "") ++ "0" ++ n.wholeTail
  | .finite m q => sign ++ String.ofList (n.writeFinite m q x.isNarrowBelow)

/-! ## Where the layouts differ from each other, and from themselves -/

example : script.write ⟨0x3fb999999999999a⟩ = "0.1" := by decide +kernel

example : script.write ⟨0x444b1ae4d6e2ef4f⟩ = "999999999999999868928" := by decide +kernel

example : script.write ⟨0x444b1ae4d6e2ef50⟩ = "1e+21" := by decide +kernel

example : script.write ⟨0x8000000000000000⟩ = "0" := by decide +kernel

example : diagnostic.write ⟨0x8000000000000000⟩ = "-0.0" := by decide +kernel

example : diagnostic.write ⟨0x4341c37937e08000⟩ = "1e16" := by decide +kernel

example : diagnostic.write ⟨0x0000000000000001⟩ = "5e-324" := by decide +kernel

end Layout

end HttpFields.Decimal

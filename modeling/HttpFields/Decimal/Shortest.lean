import HttpFields.Decimal.Binary

/-!
# The shortest decimal of a binary number

The reals that round to a binary number form an interval around it, its `Cell`. Among the decimals
in the cell the shortest is chosen: the one with the fewest digits, and of those the one nearest to
the number.

* `Cell.Holds` : a decimal lies in the cell
* `Cell.nearestOn` : the better of the two points of a decimal grid next to the number, if the cell
  holds one
* `Cell.shortest` : the point found on the coarsest grid that has one

All arithmetic is exact, on naturals. The search starts at the grid on which the number has one
digit, and goes to finer grids. It ends at the latest on the grid on which the number itself lies.
-/

namespace HttpFields.Decimal

set_option autoImplicit false

/-- A point of a decimal grid: the decimal `significand * 10^exponent`. -/
structure GridPoint where
  significand : Nat
  exponent : Int
  deriving DecidableEq

/-- An interval around a positive number, all three over one denominator. -/
structure Cell where
  low : Nat
  number : Nat
  high : Nat
  denominator : Nat
  closed : Bool
  /-- The number lies on the grid of this many decimal places. -/
  places : Nat

namespace Cell

/-- The reals that round to `m * 2^q`. They reach half way to either neighbour, and an end belongs to
them iff `m` is even. Quarters of the last place are the unit. -/
def ofFinite (m : Nat) (q : Int) (narrowBelow : Bool) : Cell where
  low := (4 * m - if narrowBelow then 1 else 2) * 2 ^ q.toNat
  number := 4 * m * 2 ^ q.toNat
  high := (4 * m + 2) * 2 ^ q.toNat
  denominator := 4 * 2 ^ (-q).toNat
  closed := m % 2 = 0
  places := (-q).toNat

def Holds (c : Cell) (d : GridPoint) : Prop :=
  let scaled := d.significand * 10 ^ d.exponent.toNat * c.denominator
  let unit := 10 ^ (-d.exponent).toNat
  if c.closed then c.low * unit ≤ scaled ∧ scaled ≤ c.high * unit
  else c.low * unit < scaled ∧ scaled < c.high * unit

instance (c : Cell) (d : GridPoint) : Decidable (c.Holds d) := by
  unfold Holds
  infer_instance

/-- The greatest decimal with the exponent `g` that is not above the number. -/
def floorOn (c : Cell) (g : Int) : GridPoint :=
  ⟨c.number * 10 ^ (-g).toNat / (c.denominator * 10 ^ g.toNat), g⟩

def ceilOn (c : Cell) (g : Int) : GridPoint := ⟨(c.floorOn g).significand + 1, g⟩

/-- Whether the number is at least as near to the upper neighbour as to the lower one. -/
def isUpperHalf (c : Cell) (g : Int) : Bool :=
  let unit := c.denominator * 10 ^ g.toNat
  unit ≤ 2 * (c.number * 10 ^ (-g).toNat % unit)

/-- Of the two decimals with the exponent `g` next to the number, the one that the cell holds; of two,
the nearer; of two equally near, the upper. -/
def nearestOn (c : Cell) (g : Int) : Option GridPoint :=
  match decide (c.Holds (c.floorOn g)), decide (c.Holds (c.ceilOn g)) with
  | true, true => some (if c.isUpperHalf g then c.ceilOn g else c.floorOn g)
  | true, false => some (c.floorOn g)
  | false, true => some (c.ceilOn g)
  | false, false => none

def digitCount (n : Nat) : Nat := (Nat.toDigits 10 n).length

/-- The least `n` with the number below `10^n`. The counts of digits of numerator and denominator
leave two candidates. -/
def magnitude (c : Cell) : Int :=
  let n : Int := digitCount c.number - digitCount c.denominator
  if c.number * 10 ^ (-n).toNat < c.denominator * 10 ^ n.toNat then n else n + 1

/-- Looks for a decimal in the cell on the grid `g` and on `finer` grids below it. The number itself
lies on the last one. -/
def search (c : Cell) : Nat → Int → GridPoint
  | 0, g => c.floorOn g
  | finer + 1, g =>
    match c.nearestOn g with
    | some d => d
    | none => c.search finer (g - 1)

/-- The decimal in the cell with the fewest digits, and of those the nearest to the number. -/
def shortest (c : Cell) : GridPoint :=
  let first := c.magnitude - 1
  c.search (first + c.places).toNat first

end Cell

end HttpFields.Decimal

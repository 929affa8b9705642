import ObjectMachine.Number.Binary64

/-!
# The shortest decimal of a binary number

Of all decimals that read back as a given finite number, the one with the fewest digits, and of
those the nearest. The reals that read back as `m · 2 ^ q` form an interval: half the distance to
either neighbour, with the ends included when `m` is even. For one digit, two digits and so on, the
two multiples of the unit of the last place around the number are tried against that interval in
exact arithmetic. Seventeen digits always suffice.
-/

namespace ObjectMachine

/-- The decimal `digits · 10 ^ scale`. -/
structure Decimal where
  digits : Nat
  scale : Int
  deriving DecidableEq, Repr

namespace Decimal

/-- The same decimal without zeros at the end of its digits. -/
def stripZeros (digits : Nat) (scale : Int) : Nat → Decimal
  | 0 => ⟨digits, scale⟩
  | fuel + 1 =>
    if digits ≠ 0 ∧ digits % 10 = 0 then stripZeros (digits / 10) (scale + 1) fuel
    else ⟨digits, scale⟩

/-- Drops the zeros at the end of the digits. -/
def normalize (d : Decimal) : Decimal :=
  stripZeros d.digits d.scale (d.digits.log2 + 1)

end Decimal

/-- A positive number with the ends of its interval, as quarters over one common denominator: the
value is `value / denominator`. -/
structure RoundingInterval where
  low : Nat
  value : Nat
  high : Nat
  denominator : Nat
  /-- Whether the ends read back as the number too. -/
  closed : Bool

namespace RoundingInterval

/-- The interval of reals that read back as a finite number. Below a power of two the neighbours are
half as far apart, unless the number is the least of its kind. -/
def ofBinary64 (x : Binary64) : RoundingInterval :=
  let m := x.significand
  let q := x.exponent - 2
  let below := if x.fractionField = 0 ∧ 1 < x.exponentField then 1 else 2
  let up := if 0 ≤ q then Nat.pow 2 q.toNat else 1
  let down := if 0 ≤ q then 1 else Nat.pow 2 (-q).toNat
  { low := (4 * m - below) * up
    value := 4 * m * up
    high := (4 * m + 2) * up
    denominator := down
    closed := m % 2 == 0 }

/-- Whether `point / unit` lies in the interval scaled by `factor`. -/
def holds (i : RoundingInterval) (factor point : Nat) : Bool :=
  if i.closed then i.low * factor ≤ point && point ≤ i.high * factor
  else i.low * factor < point && point < i.high * factor

/-- The number of digits before the decimal point: the least `k` with `value < 10 ^ k`, which is
negative or zero for small numbers. It is found from an estimate that is at most two too small. -/
def magnitude (i : RoundingInterval) : Int :=
  let estimate : Int := ((i.value.log2 : Int) - i.denominator.log2 - 1) * 1233 / 4096
  let reaches (k : Int) : Bool :=
    if 0 ≤ k then Nat.pow 10 k.toNat * i.denominator ≤ i.value
    else i.denominator ≤ i.value * Nat.pow 10 (-k).toNat
  let rec climb (k : Int) : Nat → Int
    | 0 => k
    | fuel + 1 => if reaches k then climb (k + 1) fuel else k
  climb (estimate - 1) 8

/-- The best decimal whose last place is `10 ^ scale`, if one reads back. A tie goes up. -/
def nearestAt (i : RoundingInterval) (scale : Int) : Option Decimal :=
  let factor := if scale < 0 then Nat.pow 10 (-scale).toNat else 1
  let unit := i.denominator * (if scale < 0 then 1 else Nat.pow 10 scale.toNat)
  let lower := i.value * factor / unit
  let upper := lower + 1
  let lowerHolds := i.holds factor (lower * unit)
  let upperHolds := i.holds factor (upper * unit)
  if lowerHolds && (!upperHolds || 2 * i.value * factor < (lower + upper) * unit) then
    some ⟨lower, scale⟩
  else if upperHolds then some ⟨upper, scale⟩
  else none

/-- Tries one digit more until a decimal reads back. -/
def search (i : RoundingInterval) (magnitude : Int) (count : Nat) : Nat → Decimal
  | 0 => ⟨i.value / i.denominator, 0⟩
  | fuel + 1 =>
    match i.nearestAt (magnitude - count) with
    | some d => d
    | none => search i magnitude (count + 1) fuel

end RoundingInterval

/-- The shortest decimal that reads back as the magnitude of a finite number other than zero. -/
def Binary64.shortest (x : Binary64) : Decimal :=
  let i := RoundingInterval.ofBinary64 x
  (i.search i.magnitude 1 17).normalize

end ObjectMachine

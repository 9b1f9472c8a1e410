import Warrant.Decimal.Binary

/-!
# Shortest decimal digits

The fewest decimal digits that read back as a given double. All numbers that round to the double
form an interval, which holds its ends when the mantissa is even; of the grids of one, two, up to
seventeen digits the first that meets the interval gives the digits, and of two points on that grid
the one nearer to the double; if both are as near, the even one.
-/

namespace Warrant.Decimal

/-- The positive number `digits * 10 ^ exponent`. -/
structure Digits where
  digits : Nat
  exponent : Int
  deriving DecidableEq, Repr

/-- The numbers between `low / den` and `high / den`, ends included if `closed`, around
`mid / den`. -/
structure Interval where
  low : Nat
  mid : Nat
  high : Nat
  den : Nat
  closed : Bool

/-- The numbers that round to the given double. -/
def Interval.of (b : Binary) : Interval :=
  let scale := twoTo (b.exponent - 2).toNat
  { low := (4 * b.mantissa - if b.narrow then 1 else 2) * scale
    mid := 4 * b.mantissa * scale
    high := (4 * b.mantissa + 2) * scale
    den := twoTo (2 - b.exponent).toNat
    closed := b.mantissa % 2 = 0 }

/-- The greatest `p` with `10 ^ p ≤ mid / den`. -/
def Interval.magnitude (i : Interval) : Int :=
  if i.den ≤ i.mid then ((Nat.toDigits 10 (i.mid / i.den)).length : Int) - 1
  else -((Nat.toDigits 10 ((i.den - 1) / i.mid)).length : Int)

/-- The points of the grid `10 ^ k` next to the middle that lie in the interval, the nearer one
first; of two that are equally near, the even one. -/
def Interval.pointsOn (i : Interval) (k : Int) : List Nat :=
  let unit := i.den * tenTo k.toNat
  let stretch := tenTo (-k).toNat
  let below := i.mid * stretch / unit
  let inside (c : Nat) : Bool :=
    let x := c * unit
    if i.closed then decide (i.low * stretch ≤ x ∧ x ≤ i.high * stretch)
    else decide (i.low * stretch < x ∧ x < i.high * stretch)
  let first := roundQuotient (i.mid * stretch) unit
  (if first = below then [below, below + 1] else [below + 1, below]).filter inside

/-- The shortest digits of a positive interval. -/
def Interval.shortest (i : Interval) : Digits :=
  let p := i.magnitude
  let onGrid (n : Nat) : Option Digits :=
    (i.pointsOn (p - n)).head?.map fun c => ⟨c, p - n⟩
  ((List.range 17).findSome? onGrid).getD ⟨i.mid / i.den, 0⟩

end Warrant.Decimal

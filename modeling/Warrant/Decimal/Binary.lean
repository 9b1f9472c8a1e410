/-!
# Binary fractions

A finite double is a natural mantissa times a power of two. `Binary.ofFloat?` takes a double apart,
and `nearest` gives the double closest to a decimal number, an exact half going to the even
mantissa.
-/

namespace Warrant.Decimal

def twoTo (n : Nat) : Nat := Nat.pow 2 n

def tenTo (n : Nat) : Nat := Nat.pow 10 n

/-- The number `mantissa * 2 ^ exponent`, with a lower neighbour at half the distance of the upper
one when `narrow` is set. -/
structure Binary where
  negative : Bool
  mantissa : Nat
  exponent : Int
  narrow : Bool
  deriving DecidableEq, Repr

/-- The parts of a finite double; none for infinities and for results that are no number. -/
def Binary.ofFloat? (x : Float) : Option Binary :=
  let bits : Nat := x.toBits.toNat
  let negative := decide (twoTo 63 ≤ bits)
  let biased : Nat := bits / twoTo 52 % twoTo 11
  let fraction : Nat := bits % twoTo 52
  if biased = 2047 then none
  else if biased = 0 then some ⟨negative, fraction, -1074, false⟩
  else some ⟨negative, fraction + twoTo 52, (biased : Int) - 1075, fraction = 0 ∧ 1 < biased⟩

/-- The quotient rounded to the nearest natural number, an exact half to the even one. -/
def roundQuotient (num den : Nat) : Nat :=
  let q := num / den
  let r := 2 * (num % den)
  if den < r ∨ (r = den ∧ q % 2 = 1) then q + 1 else q

/-- The bits of the double nearest to a positive quotient. -/
def nearestBits (num den : Nat) : Nat :=
  let scaled (q : Int) : Nat × Nat :=
    if 0 ≤ q then (num, den * twoTo q.toNat) else (num * twoTo (-q).toNat, den)
  let guess : Int := (num.log2 : Int) - (den.log2 : Int) - 52
  let (n, d) := scaled guess
  let q := max (-1074) (if n / d < twoTo 52 then guess - 1 else guess)
  let (n, d) := scaled q
  min ((q + 1074).toNat * twoTo 52 + roundQuotient n d) (2047 * twoTo 52)

/-- The double nearest to `digits * 10 ^ exponent`, negated on demand. -/
def nearest (negative : Bool) (digits : Nat) (exponent : Int) : Float :=
  let size : Int := (Nat.toDigits 10 digits).length + exponent
  let bits :=
    if digits = 0 ∨ size < -400 then 0
    else if 400 < size then 2047 * twoTo 52
    else if 0 ≤ exponent then nearestBits (digits * tenTo exponent.toNat) 1
    else nearestBits digits (tenTo (-exponent).toNat)
  Float.ofBits (UInt64.ofNat (bits + if negative then twoTo 63 else 0))

end Warrant.Decimal

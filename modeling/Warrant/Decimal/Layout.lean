import Warrant.Decimal.Shortest

/-!
# Layout of decimal numbers

A `Layout` says which numbers are written out with a point and how an exponent looks; `Layout.write`
writes a double with its shortest digits.
-/

namespace Warrant.Decimal

/-- The choices of a format for decimal numbers. -/
structure Layout where
  /-- A number `0.d… * 10 ^ point` is written without exponent from this `point` … -/
  leastPoint : Int
  /-- … up to this one. -/
  greatestPoint : Int
  /-- The text that marks a number without fractional digits. -/
  whole : String
  /-- The least number of digits of an exponent. -/
  exponentWidth : Nat
  infinity : String
  undefined : String

/-- A digit string with zeros in front of it up to the width. -/
def padded (width : Nat) (digits : List Char) : List Char :=
  List.replicate (width - digits.length) '0' ++ digits

/-- The digits without the zeros at their end. -/
def withoutTrailingZeros (cs : List Char) : List Char :=
  (cs.reverse.dropWhile fun c => c = '0').reverse

/-- The positive number `0.ds * 10 ^ point`. -/
def Layout.writeDigits (l : Layout) (ds : List Char) (point : Int) : List Char :=
  if l.leastPoint ≤ point ∧ point ≤ l.greatestPoint then
    if point ≤ 0 then '0' :: '.' :: (List.replicate (-point).toNat '0' ++ ds)
    else
      let n := point.toNat
      if ds.length ≤ n then ds ++ List.replicate (n - ds.length) '0' ++ l.whole.toList
      else ds.take n ++ '.' :: ds.drop n
  else
    let e := point - 1
    let fraction := if ds.length ≤ 1 then [] else '.' :: ds.drop 1
    let sign := if e < 0 then '-' else '+'
    ds.take 1 ++ fraction ++ 'e' :: sign :: padded l.exponentWidth (Nat.toDigits 10 e.natAbs)

def Layout.write (l : Layout) (x : Float) : String :=
  match Binary.ofFloat? x with
  | none => if x.isNaN then l.undefined else if x < 0 then "-" ++ l.infinity else l.infinity
  | some b =>
    let sign := if b.negative then "-" else ""
    if b.mantissa = 0 then sign ++ "0" ++ l.whole
    else
      let d := (Interval.of b).shortest
      let all := Nat.toDigits 10 d.digits
      sign ++ String.ofList (l.writeDigits (withoutTrailingZeros all) (all.length + d.exponent))

end Warrant.Decimal

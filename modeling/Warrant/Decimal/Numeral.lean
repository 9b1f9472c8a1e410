import Warrant.Decimal.Layout
import Warrant.Text.Cut
import Warrant.Text.Blank

/-!
# Numerals

Numbers as they are given, whole or real, and the reading of numbers from text. Text may have white
space around it and single underscores between its digits. In front of a whole number zeros are
dropped first, with the underscores among them, and a sign may also stand behind these zeros.
-/

namespace Warrant.Decimal

/-- A number as it was given: a whole number stays one. -/
inductive Numeral
  | whole (n : Int)
  | real (x : Float)

/-- Numbers of seconds are written with the fewest digits that read back, out to sixteen places
before the point and four behind it, else with an exponent of two digits or more. -/
def seconds : Layout :=
  { leastPoint := -3
    greatestPoint := 16
    whole := ".0"
    exponentWidth := 2
    infinity := "inf"
    undefined := "nan" }

def Numeral.toFloat : Numeral → Float
  | .whole n => nearest (n < 0) n.natAbs 0
  | .real x => x

def Numeral.text : Numeral → String
  | .whole n => toString n
  | .real x => seconds.write x

/-! ### Reading -/

/-- White space around a number: all but the information separators. -/
def isNumeralBlank (c : Char) : Bool :=
  Text.isBlank c && !decide (28 ≤ c.toNat ∧ c.toNat ≤ 31)

def digitsValue (cs : List Char) : Nat :=
  cs.foldl (fun n c => 10 * n + (c.toNat - '0'.toNat)) 0

/-- The sign in front of a number, plus if there is none, and what follows it. -/
def splitSign : List Char → Bool × List Char
  | '-' :: rest => (true, rest)
  | '+' :: rest => (false, rest)
  | cs => (false, cs)

/-- The characters without underscores, each of which must stand between two others. -/
def ungrouped? (cs : List Char) : Option (List Char) :=
  let groups := Text.parts '_' cs
  if groups.all (fun g => !g.isEmpty) then some groups.flatten else none

/-- A plus sign says nothing, but no minus sign may follow it. -/
def withoutPlus? : List Char → Option (List Char)
  | '+' :: '-' :: _ => none
  | '+' :: rest => some rest
  | cs => some cs

/-- What is left of a number without the zeros in front, among which underscores may stand. It must
start with a digit or minus sign then; where nothing or a point follows the zeros, the character in
front of that stays. -/
def withoutLeadingZeros? : List Char → Option (List Char)
  | '0' :: rest =>
    let behind := rest.dropWhile fun c => c = '0' ∨ c = '_'
    let last := (rest.takeWhile fun c => c = '0' ∨ c = '_').getLastD '0'
    match behind with
    | [] => some [last]
    | c :: _ =>
      if c = '.' then some (last :: behind)
      else if c.isDigit ∨ c = '-' then some behind
      else none
  | c :: rest => if c.isDigit ∨ c = '-' then some (c :: rest) else none
  | [] => none

/-- The number in front of a point that only zeros follow, one at least. -/
def withoutZeroFraction (cs : List Char) : List Char :=
  match Text.cut? '.' cs with
  | some (front, zeros) => if !zeros.isEmpty && zeros.all (· == '0') then front else cs
  | none => cs

/-- A minus sign in front, and what follows it. -/
def splitMinus : List Char → Bool × List Char
  | '-' :: rest => (true, rest)
  | cs => (false, cs)

/-- The greatest number of characters of a whole number, its sign included. -/
def longestWhole : Nat := 4300

/-- Reads an optional minus sign and digits, which start with a zero only if that is the only one,
unless they are too many. -/
def readPlainWhole? (cs : List Char) : Option Int :=
  let (negative, digits) := splitMinus cs
  let n := digitsValue digits
  if !digits.isEmpty && digits.all Char.isDigit && (digits.head? != some '0' || digits.length == 1) &&
    decide (cs.length ≤ longestWhole)
  then some (if negative then -n else n)
  else none

/-- A text starts with a number that only its length keeps from being read. -/
def startsTooLong (s : String) : Bool :=
  let (negative, rest) := splitMinus s.toList
  let digits := rest.takeWhile Char.isDigit
  digits.head? != some '0' && decide (longestWhole < digits.length + negative.toNat)

/-- Reads a whole number: white space around it, the sign, zeros in front, a fraction of zeros and
underscores between digits are taken away in this order. -/
def readWhole? (s : String) : Option Int := do
  let number ← match ← withoutPlus? (Text.trimBy isNumeralBlank s.toList) with
    | '-' :: rest => do pure ('-' :: (← withoutLeadingZeros? rest))
    | cs => withoutLeadingZeros? cs
  let number := withoutZeroFraction number
  readPlainWhole? ((ungrouped? number).getD number)

/-- Reads the part of a number behind the exponent mark. -/
def readExponent? (cs : List Char) : Option Int :=
  let (negative, digits) := splitSign cs
  if !digits.isEmpty && digits.all Char.isDigit then
    let n := digitsValue digits
    some (if negative then -n else n)
  else none

/-- Reads a number without white space or underscores: digits with at most one point and an
optional exponent, or a name of infinity or of an undefined result, whatever its case. -/
def readPlainReal? (cs : List Char) : Option Float := do
  let (negative, body) := splitSign (cs.map Char.toLower)
  let name := String.ofList body
  if name = "inf" ∨ name = "infinity" then
    return if negative then -(1.0 / 0.0) else 1.0 / 0.0
  if name = "nan" then
    return 0.0 / 0.0
  let (mantissa, exponent) ←
    match Text.cut? 'e' body with
    | none => some (body, 0)
    | some (front, behind) => (readExponent? behind).map fun e => (front, e)
  let (front, fraction) := (Text.cut? '.' mantissa).getD (mantissa, [])
  let digits := front ++ fraction
  if !digits.isEmpty && digits.all Char.isDigit then
    some (nearest negative (digitsValue digits) (exponent - fraction.length))
  else none

def readReal? (s : String) : Option Float :=
  (readPlainReal? (Text.trimBy isNumeralBlank s.toList)).or
    ((ungrouped? s.toList).bind readPlainReal?)

end Warrant.Decimal

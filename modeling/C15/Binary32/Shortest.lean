/-
The shortest decimal of a number, and how it is written.

For 1, 2, … digits the value's two neighbours on that decimal grid are tried: the first grid on which a neighbour reads
back as the number wins, of two neighbours that both do the nearer one, and of two equally near ones the greater. Values
from 1e-4 up to 1e16, and zero, are written with a point and at least one digit on each side of it, the others with an
exponent.
-/
import C15.Binary32

namespace C15.Binary32

/-- significant digits of a decimal, the first of them not zero, and the power of ten of the place right before them -/
structure Digits where
  digits : List Char
  point : Int
deriving DecidableEq, Repr

/-- digits of a positive whole number of units `10 ^ exponent`, without trailing zeros -/
def Digits.ofDecimal (d : Decimal) : Digits :=
  let ds := Nat.toDigits 10 d.coefficient
  ⟨(ds.reverse.dropWhile (· == '0')).reverse, d.exponent + (ds.length : Int)⟩

/-- exact ratio of a finite magnitude -/
def ratio (magnitude : Nat) : Nat × Nat := scale (significand magnitude) 1 ((step magnitude : Int) - 149)

/-- the least `k` with `num / den < 10 ^ k`, for a positive ratio above `10 ^ -60` -/
def decimalPoint (num den : Nat) : Int :=
  if den ≤ num then ((Nat.toDigits 10 (num / den)).length : Int)
  else ((List.range 60).find? fun j => decide (den ≤ num * Nat.pow 10 j)).elim (-60) fun j => 1 - (j : Int)

/-- the decimal exactly equal to a finite magnitude -/
def exactDecimal (magnitude : Nat) : Decimal :=
  let q : Int := (step magnitude : Int) - 149
  if 0 ≤ q then ⟨significand magnitude <<< q.toNat, 0⟩
  else ⟨significand magnitude * Nat.pow 5 (-q).toNat, q⟩

/-- the neighbour with `count` digits that reads back as the magnitude, if one does -/
def candidate (magnitude : Nat) (count : Nat) : Option Decimal :=
  let (num, den) := ratio magnitude
  let e : Int := decimalPoint num den - count
  -- the value in units of the last digit is `a / b`
  let (a, b) : Nat × Nat := if 0 ≤ e then (num, den * Nat.pow 10 e.toNat) else (num * Nat.pow 10 (-e).toNat, den)
  let below : Decimal := ⟨a / b, e⟩
  let above : Decimal := ⟨a / b + 1, e⟩
  let belowReads := below.round == magnitude
  let aboveReads := above.round == magnitude
  if belowReads && aboveReads then some (if b ≤ 2 * (a % b) then above else below)
  else if belowReads then some below
  else if aboveReads then some above
  else none

/-- the shortest decimal of a positive finite magnitude -/
def shortest (magnitude : Nat) : Decimal :=
  ((List.range 9).findSome? fun n => candidate magnitude (n + 1)).getD (exactDecimal magnitude)

/-- with a point, at least one digit on each side of it -/
def Digits.positional (d : Digits) : List Char :=
  if d.point ≤ 0 then '0' :: '.' :: (List.replicate (-d.point).toNat '0' ++ d.digits)
  else
    let k := d.point.toNat
    let whole := d.digits.take k ++ List.replicate (k - d.digits.length) '0'
    let fraction := d.digits.drop k
    whole ++ '.' :: (if fraction.isEmpty then ['0'] else fraction)

/-- one digit before the point, none after it if there are no more, then the exponent -/
def Digits.scientific (d : Digits) : List Char :=
  let fraction := d.digits.drop 1
  d.digits.take 1 ++ (if fraction.isEmpty then [] else '.' :: fraction) ++ 'e' :: (toString (d.point - 1)).toList

/-- magnitudes of 1e-4 and 1e16, between which numbers are written with a point -/
def leastPositional : Nat := 0x38D1B717

def leastScientific : Nat := 0x5A0E1BCA

/-- the text of a magnitude -/
def magnitudeText (m : Nat) : List Char :=
  if infinityMagnitude < m then "NaN".toList
  else if m = infinityMagnitude then "inf".toList
  else if m = 0 then "0.0".toList
  else
    let d := Digits.ofDecimal (shortest m)
    if leastPositional ≤ m ∧ m < leastScientific then d.positional else d.scientific

/-- the text of a number; what is not a number has no sign -/
def text (x : Binary32) : String :=
  let m := x.magnitude
  String.ofList (if x.isNegative ∧ m ≤ infinityMagnitude then '-' :: magnitudeText m else magnitudeText m)

end C15.Binary32

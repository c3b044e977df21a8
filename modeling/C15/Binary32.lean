/-
Single-precision numbers as bit patterns, and how a decimal rounds to one.

A magnitude is the pattern without its sign bit. Finite magnitudes are numbered in order of value: the magnitude with
exponent step `s` and significand `m` is `s * 2 ^ 23 + m`, so rounding up past a significand carries into the exponent
by itself. A ratio rounds to the nearest magnitude, a tie to the even one, and what lies at or past the largest rounds
to infinity.
-/
namespace C15

/-- a single-precision number by its bit pattern -/
structure Binary32 where
  bits : UInt32
deriving DecidableEq, Repr, Inhabited

namespace Binary32

/-- the pattern of infinity; larger magnitudes are not numbers -/
def infinityMagnitude : Nat := 0x7F800000

def magnitude (x : Binary32) : Nat := x.bits.toNat % 0x80000000

def isNegative (x : Binary32) : Bool := 0x80000000 ≤ x.bits.toNat

def isFinite (x : Binary32) : Bool := x.magnitude < infinityMagnitude

/-- the number with the other sign -/
def negate (x : Binary32) : Binary32 := ⟨x.bits ^^^ 0x80000000⟩

def ofMagnitude (negative : Bool) (magnitude : Nat) : Binary32 :=
  ⟨UInt32.ofNat (if negative then 0x80000000 + magnitude else magnitude)⟩

/-- significand of a finite magnitude: the value is `significand * 2 ^ (step - 149)` -/
def significand (magnitude : Nat) : Nat :=
  if magnitude < 0x800000 then magnitude else magnitude % 0x800000 + 0x800000

/-- exponent step of a finite magnitude -/
def step (magnitude : Nat) : Nat := magnitude / 0x800000 - 1

/-- a quotient rounded to the nearest whole number, a half to the even one -/
def roundDiv (num den : Nat) : Nat :=
  let q := num / den
  let r := num % den
  if 2 * r < den then q
  else if den < 2 * r then q + 1
  else if q % 2 = 0 then q else q + 1

/-- `num / den` times `2 ^ e`, as a ratio -/
def scale (num den : Nat) (e : Int) : Nat × Nat :=
  if 0 ≤ e then (num <<< e.toNat, den) else (num, den <<< (-e).toNat)

/-- the whole exponent of a positive ratio: the greatest `e` with `2 ^ e ≤ num / den` -/
def exponentOf (num den : Nat) : Int :=
  let e : Int := (num.log2 : Int) - (den.log2 : Int)
  let (a, b) := scale num den (-e)
  if b ≤ a then e else e - 1

/-- the magnitude nearest to a positive ratio -/
def roundRatio (num den : Nat) : Nat :=
  let unit : Int := max (exponentOf num den - 23) (-149)
  let (a, b) := scale num den (-unit)
  -- a normal significand has its leading bit set, which makes up for the exponent step that is not counted in `unit`
  min ((unit + 149).toNat * 0x800000 + roundDiv a b) infinityMagnitude

/-- a decimal `coefficient * 10 ^ exponent` -/
structure Decimal where
  coefficient : Nat
  exponent : Int
deriving DecidableEq, Repr

/-- the magnitude nearest to a decimal; decimals far outside the range are decided by their length alone -/
def Decimal.round (d : Decimal) : Nat :=
  if d.coefficient = 0 then 0
  else
    let top := d.exponent + ((Nat.toDigits 10 d.coefficient).length : Int)
    if 60 < top then infinityMagnitude
    else if top < -60 then 0
    else if 0 ≤ d.exponent then roundRatio (d.coefficient * Nat.pow 10 d.exponent.toNat) 1
    else roundRatio d.coefficient (Nat.pow 10 (-d.exponent).toNat)

end Binary32

end C15

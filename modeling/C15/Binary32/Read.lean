/-
Reading a number from text.

A numeral has an optional sign and then either digits with at most one point among them and an optional exponent, or one
of the words `inf`, `infinity` and `nan` in any case. At least one digit stands before the exponent and at least one in
it.
-/
import C15.Binary32
import C15.Text.Digits

namespace C15.Binary32

open C15.Text

/-- an optional sign: whether it is a minus, and the rest -/
def readSign : List Char → Bool × List Char
  | '-' :: cs => (true, cs)
  | '+' :: cs => (false, cs)
  | cs => (false, cs)

/-- a whole exponent after its mark -/
def readExponent (cs : List Char) : Option Int :=
  let (negative, digits) := readSign cs
  if digits.isEmpty || !digits.all Char.isDigit then none
  else some (if negative then -(ofDigits digits : Int) else (ofDigits digits : Int))

/-- digits, point and exponent without a sign -/
def readDecimal (cs : List Char) : Option Decimal :=
  let whole := cs.takeWhile Char.isDigit
  let afterWhole := cs.dropWhile Char.isDigit
  let (fraction, rest) : List Char × List Char :=
    match afterWhole with
    | '.' :: r => (r.takeWhile Char.isDigit, r.dropWhile Char.isDigit)
    | r => ([], r)
  if whole.isEmpty && fraction.isEmpty then none
  else
    let coefficient := ofDigits (whole ++ fraction)
    match rest with
    | [] => some ⟨coefficient, -(fraction.length : Int)⟩
    | mark :: r =>
      if mark = 'e' ∨ mark = 'E' then (readExponent r).map fun e => ⟨coefficient, e - fraction.length⟩
      else none

/-- the magnitude that a text without a sign denotes -/
def readMagnitude (cs : List Char) : Option Nat :=
  match readDecimal cs with
  | some d => some d.round
  | none =>
    let word := String.ofList (cs.map Char.toLower)
    if word = "inf" ∨ word = "infinity" then some infinityMagnitude
    else if word = "nan" then some 0x7FC00000
    else none

/-- the number that a text denotes, if it is a numeral -/
def ofText? (cs : List Char) : Option Binary32 :=
  let (negative, rest) := readSign cs
  (readMagnitude rest).map (ofMagnitude negative)

end C15.Binary32

/-
Literals in assembly text: `0x1F`, `7u`, `1.5f`, `2.5`, `-3`, `42`.

A literal denotes the 32-bit word the CPU stores: a negative number its two's complement, a number with a point or an
`f` its bit pattern. Digits that are well formed but denote too large a number are out of range however many there are;
a leading plus, where it is accepted, keeps them so only up to 64 bits.
-/
import C15.Binary32.Read
import C15.Text.Digits

namespace C15

open C15.Text

/-- why a text is no literal -/
inductive NumberError where
  | malformed
  | outOfRange
deriving DecidableEq, Repr

def NumberError.message : NumberError → String
  | .malformed => "Expected a hexadecimal number or a decimal number."
  | .outOfRange => "Values are limited to 32 bits."

namespace Number

/-- a way to write natural numbers: its digits and what they denote -/
structure Radix where
  isDigit : Char → Bool
  value : List Char → Nat

def decimal : Radix := ⟨Char.isDigit, ofDigits⟩

def hexadecimal : Radix := ⟨isHexDigit, ofHexDigits⟩

/-- one or more digits -/
def Radix.accepts (n : Radix) (cs : List Char) : Bool := !cs.isEmpty && cs.all n.isDigit

/-- the error for a text that was not read: out of range if it is digits after at most a minus -/
def Radix.refusal (n : Radix) (cs : List Char) : NumberError :=
  let digits := match cs with
    | '-' :: ds => ds
    | ds => ds
  if n.accepts digits then .outOfRange else .malformed

/-- a word from a whole number, if it fits -/
def word (n : Nat) : Except NumberError UInt32 := if n < 0x100000000 then .ok (UInt32.ofNat n) else .error .outOfRange

/-- digits after at most a plus, below 2 ^ 64 -/
def Radix.natural (n : Radix) (cs : List Char) : Except NumberError Nat :=
  let digits := match cs with
    | '+' :: ds => ds
    | ds => ds
  if n.accepts digits && n.value digits < 0x10000000000000000 then .ok (n.value digits) else .error (n.refusal cs)

/-- digits after at most a sign, within 64 bits -/
def integer (cs : List Char) : Except NumberError Int :=
  let (negative, digits) := Binary32.readSign cs
  let n := ofDigits digits
  if decimal.accepts digits && n < (if negative then 0x8000000000000001 else 0x8000000000000000) then
    .ok (if negative then -(n : Int) else n)
  else .error (decimal.refusal cs)

/-- a number with a point or an `f` -/
def float (cs : List Char) : Except NumberError UInt32 :=
  let body := if cs.getLast? = some 'f' then cs.dropLast else cs
  match Binary32.ofText? body with
  | none => .error .malformed
  | some x => if x.isFinite then .ok x.bits else .error .outOfRange

/-- the word that a literal denotes -/
def parse (cs : List Char) : Except NumberError UInt32 :=
  match cs with
  | '0' :: 'x' :: rest | '0' :: 'X' :: rest => do
    -- an `f` at the end is a digit here, and a `u` never is
    let digits := if rest.getLast? = some 'u' then rest.dropLast else rest
    if digits.isEmpty then throw .malformed
    word (← hexadecimal.natural digits)
  | _ =>
    if cs.getLast? = some 'u' then do word (← decimal.natural cs.dropLast)
    else if cs.getLast? = some 'f' ∨ '.' ∈ cs then float cs
    else do
      let n ← integer cs
      if n < -0x80000000 ∨ 0x100000000 ≤ n then throw .outOfRange
      return UInt32.ofNat (n % 0x100000000).toNat

end Number

end C15

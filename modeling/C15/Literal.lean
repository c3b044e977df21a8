/-
Literal values: 32-bit words read as signed, as unsigned, or as a single-precision number, and their text in assembly.

A signed word from 2 ^ 31 on is written in hexadecimal, so that the text denotes the same word whatever its sign.
-/
import C15.Binary32.Shortest
import C15.Ty

namespace C15

inductive Literal where
  | int (word : UInt32)
  | uint (word : UInt32)
  | float (number : Binary32)
deriving DecidableEq, Repr

namespace Literal

/-- the word stored for a literal -/
def bits : Literal → UInt32
  | .int w | .uint w => w
  | .float x => x.bits

def base : Literal → Base
  | .int _ => .int
  | .uint _ => .uint
  | .float _ => .float

/-- two's complement for words, the other sign for numbers -/
def negate : Literal → Literal
  | .int w => .int (-w)
  | .uint w => .uint (-w)
  | .float x => .float x.negate

/-- the zero of a family, the signed one for `void` -/
def zero : Option Family → Literal
  | some .unsigned => .uint 0
  | some .float => .float ⟨0⟩
  | _ => .int 0

/-- upper-case hexadecimal digits -/
def hexText (n : Nat) : String := String.ofList ((Nat.toDigits 16 n).map Char.toUpper)

/-- the literal in assembly -/
def text : Literal → String
  | .int w => if 0x80000000 ≤ w.toNat then "0x" ++ hexText w.toNat else toString w.toNat
  | .uint w => toString w.toNat ++ "u"
  | .float x => x.text ++ "f"

end Literal

end C15

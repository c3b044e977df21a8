/-
Line and column of a byte offset, both counted from 1.

Inside the text a column counts characters. At or past the end of the text the position is the end of the last line,
whose column counts the bytes of that line.
-/
import C15.Text.Lines

namespace C15

open C15.Text

structure Position where
  line : Nat
  column : Nat
deriving DecidableEq, Repr

namespace Position

/-- the position reached from `p` by passing the characters that start within the next `n` bytes -/
def advance (p : Position) : Nat → List Char → Position
  | 0, _ => p
  | _, [] => p
  | n + 1, c :: cs =>
    let next : Position := if c = '\n' then ⟨p.line + 1, 1⟩ else ⟨p.line, p.column + 1⟩
    advance next (n + 1 - c.utf8Size) cs

/-- the end of the last line -/
def atEnd (cs : List Char) : Position :=
  let ls := lines cs
  ⟨max ls.length 1, width (ls.getLast?.getD []) + 1⟩

/-- position of a byte offset -/
def ofOffset (cs : List Char) (offset : Nat) : Position :=
  if width cs ≤ offset then atEnd cs else advance ⟨1, 1⟩ offset cs

end Position

end C15

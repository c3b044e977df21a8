/-
Assembly: the lines a program is written in for the assembler, and their text.
-/
import C15.Instruction
import C15.Span

namespace C15

/-- one line of assembly -/
inductive Line where
  /-- binds a label to the position of the next word -/
  | label (name : String)
  | instr (i : Instruction)
  /-- a word as it is -/
  | data (value : Literal)
  /-- a data address the host can read, under a name -/
  | read (a : Address) (name : String)
  | comment (text : String)
deriving DecidableEq, Repr

namespace Line

def text : Line → String
  | .label name => name ++ ":"
  | .instr i => "    " ++ i.text
  | .data value => "    .data " ++ value.text
  | .read a name => s!".read {a.text} {name}"
  | .comment text => "# " ++ text

/-- words the line takes once assembled -/
def wordCount : Line → Nat
  | .instr i => i.wordCount
  | .data _ => 1
  | _ => 0

end Line

/-- lines as text, each ended by a newline -/
def Line.print (lines : List Line) : String := String.join (lines.map fun l => l.text ++ "\n")

/-- storage of one variable, or of the result of one function -/
structure Destination where
  address : Address
  name : String
  ty : Ty
  span : Span
deriving DecidableEq, Repr

/-- what a span of a source is, for an editor -/
inductive SymbolClass where
  | function
  | variable_
  | parameter
  | constant
  | intrinsic
deriving DecidableEq, Repr

namespace SymbolClass

def text : SymbolClass → String
  | .function => "function"
  | .variable_ => "variable"
  | .parameter => "parameter"
  | .constant => "constant"
  | .intrinsic => "intrinsic"

/-- the style class an editor gives such a span -/
def styleName (c : SymbolClass) : String := "symbol-" ++ c.text

end SymbolClass

/-- a span of a source with what it is -/
abbrev SourceSymbol := Located SymbolClass

end C15

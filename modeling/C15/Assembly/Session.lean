/-
Assembling line by line.

A session collects what lines say: words, the positions of labels, pending reads, and one past the highest data address
touched. A label binds to the number of words before it; defined again, it moves, with a warning.
-/
import C15.Assembly.Statement
import C15.Diagnostic

namespace C15

open C15.Text

/-- a word of the program before it is resolved -/
inductive Word where
  | op (span : Span) (opcode : Nat) (args : List Operand)
  | raw (value : UInt32)
deriving DecidableEq, Repr

/-- a request to read a data address under a name -/
structure PendingRead where
  span : Span
  target : Operand
  name : String
deriving DecidableEq, Repr

structure Session where
  words : Array Word
  /-- position of each label, every name once -/
  labels : List (String × Nat)
  reads : Array PendingRead
  /-- one past the highest data address touched -/
  memorySize : Nat
  diagnostics : Array Diagnostic

namespace Session

def empty : Session := ⟨#[], [], #[], 0, #[]⟩

/-- words so far, and the position the next label binds to -/
def stackSize (s : Session) : Nat := s.words.size

def position? (s : Session) (name : String) : Option Nat := s.labels.lookup name

def report (s : Session) (d : Diagnostic) : Session := { s with diagnostics := s.diagnostics.push d }

def warn (s : Session) (span : Span) (cause : AssemblyCause) : Session :=
  s.report (.warningAt .assembly span cause.message)

def refuse (s : Session) (span : Span) (cause : AssemblyCause) : Session :=
  s.report (.errorAt .assembly span cause.message)

/-- bind a label to the next word -/
def define (s : Session) (span : Span) (name : String) : Session :=
  -- the old position goes, so every name is there once
  let bound := { s with labels := (name, s.stackSize) :: s.labels.filter (·.1 != name) }
  if (s.position? name).isSome then bound.warn span (.labelRedefined name) else bound

/-- a label means the position it was bound to last -/
theorem position?_define (s : Session) (span : Span) (name : String) :
    (s.define span name).position? name = some s.stackSize := by
  simp only [define]
  split <;> simp [position?, warn, report]

/-- add what a line contributes -/
def add (s : Session) (span : Span) : Content → Session
  | .nothing => s
  | .label name trailing =>
    let bound := s.define span name
    if trailing then bound.warn span (.textAfterLabel name) else bound
  | .operation opcode args literal ignored =>
    let warned := ignored.elim s fun m => s.warn span (.extraText m)
    { warned with words := warned.words.push (.op span opcode args) ++ literal.toArray.map .raw }
  | .datum value => { s with words := s.words.push (.raw value) }
  | .read target name => { s with reads := s.reads.push ⟨span, target, name⟩ }
  | .refused causes => causes.foldl (fun s c => s.refuse span c) s

/-- one past the highest of some addresses and what was touched before -/
def touch (s : Session) (addresses : List Nat) : Session :=
  { s with memorySize := addresses.foldl (fun m a => max m (a + 1)) s.memorySize }

/-- take one line at a span -/
def scanLine (s : Session) (line : List Char) (span : Span) : Session :=
  let statement := Statement.ofLine line
  (s.touch statement.touched).add span statement.content

/-- take lines, the first at an offset; each ends one byte before the next -/
def scanLines (s : Session) (offset : Nat) : List (List Char) → Session
  | [] => s
  | raw :: rest =>
    -- a return before the newline belongs to neither line, but it counts for the offset of the next
    let line := dropReturn raw
    (s.scanLine line ⟨offset, offset + width line⟩).scanLines (offset + width raw + 1) rest

/-- take a whole text -/
def scan (text : String) : Session := empty.scanLines 0 (pieces (· == '\n') text.toList)

end Session

end C15

/-
The instruction set of the CPU.

Instructions are grouped by what they are applied to: nothing, a data address, a label, one slot or two, and the three
that move a word or carry one. A mnemonic names an instruction in assembly; its opcode fills the low byte of the word,
except that the two `SAVETO` opcodes also set a bit above it.
-/
import C15.Literal

namespace C15

/-- instructions without operands -/
inductive BareOp where
  | halt
  | add
  | sub
  | mult
  | div
  | rem
  | inc
  | dec
  | cmp
  | rtn
  | swap
  | rand
  | cmplt
  | cmpgt
  | cmplte
  | cmpgte
  | cmpe
  | cmpne
  | neg
  | nop
  | shiftl
  | shiftr
  | and
  | or
  | xor
  | tick
  | fadd
  | fltoint
  | inttofl
  | fmult
  | fdiv
  | setled
  | sdiv
  | srem
  | smult
  | sadd
  | ssub
  | scmplt
  | scmpgt
  | scmplte
  | scmpgte
  | scmpe
  | scmpne
  | fcmplt
  | fcmpgt
  | fcmplte
  | fcmpgte
  | fcmpe
  | fcmpne
  | fsub
  | sinc
  | finc
  | sdec
  | fdec
  | sneg
  | fneg
  | savepush
  | getpopa
  | getpopb
  | movoutpush
  | movinpop
  | not
  | getpopr
  | land
  | lor
  | popnop
  | savetoa
  | savetob
deriving DecidableEq, Repr

/-- mnemonic and opcode -/
def BareOp.entry : BareOp → String × Nat
  | .halt => ("HALT", 0x00)
  | .add => ("ADD", 0x05)
  | .sub => ("SUB", 0x06)
  | .mult => ("MULT", 0x07)
  | .div => ("DIV", 0x08)
  | .rem => ("REM", 0x09)
  | .inc => ("INC", 0x0B)
  | .dec => ("DEC", 0x0C)
  | .cmp => ("CMP", 0x0E)
  | .rtn => ("RTN", 0x10)
  | .swap => ("SWAP", 0x17)
  | .rand => ("RAND", 0x1A)
  | .cmplt => ("CMPLT", 0x1D)
  | .cmpgt => ("CMPGT", 0x1E)
  | .cmplte => ("CMPLTE", 0x1F)
  | .cmpgte => ("CMPGTE", 0x20)
  | .cmpe => ("CMPE", 0x21)
  | .cmpne => ("CMPNE", 0x22)
  | .neg => ("NEG", 0x25)
  | .nop => ("NOP", 0x26)
  | .shiftl => ("SHIFTL", 0x27)
  | .shiftr => ("SHIFTR", 0x28)
  | .and => ("AND", 0x29)
  | .or => ("OR", 0x2A)
  | .xor => ("XOR", 0x2B)
  | .tick => ("TICK", 0x2C)
  | .fadd => ("FADD", 0x2D)
  | .fltoint => ("FLTOINT", 0x2E)
  | .inttofl => ("INTTOFL", 0x2F)
  | .fmult => ("FMULT", 0x30)
  | .fdiv => ("FDIV", 0x31)
  | .setled => ("SETLED", 0x38)
  | .sdiv => ("SDIV", 0x3A)
  | .srem => ("SREM", 0x3B)
  | .smult => ("SMULT", 0x3C)
  | .sadd => ("SADD", 0x3D)
  | .ssub => ("SSUB", 0x3E)
  | .scmplt => ("SCMPLT", 0x3F)
  | .scmpgt => ("SCMPGT", 0x40)
  | .scmplte => ("SCMPLTE", 0x41)
  | .scmpgte => ("SCMPGTE", 0x42)
  | .scmpe => ("SCMPE", 0x43)
  | .scmpne => ("SCMPNE", 0x44)
  | .fcmplt => ("FCMPLT", 0x45)
  | .fcmpgt => ("FCMPGT", 0x46)
  | .fcmplte => ("FCMPLTE", 0x47)
  | .fcmpgte => ("FCMPGTE", 0x48)
  | .fcmpe => ("FCMPE", 0x49)
  | .fcmpne => ("FCMPNE", 0x4A)
  | .fsub => ("FSUB", 0x4B)
  | .sinc => ("SINC", 0x4C)
  | .finc => ("FINC", 0x4D)
  | .sdec => ("SDEC", 0x4E)
  | .fdec => ("FDEC", 0x4F)
  | .sneg => ("SNEG", 0x50)
  | .fneg => ("FNEG", 0x51)
  | .savepush => ("SAVEPUSH", 0x53)
  | .getpopa => ("GETPOPA", 0x54)
  | .getpopb => ("GETPOPB", 0x55)
  | .movoutpush => ("MOVOUTPUSH", 0x57)
  | .movinpop => ("MOVINPOP", 0x58)
  | .not => ("NOT", 0x59)
  | .getpopr => ("GETPOPR", 0x5A)
  | .land => ("LAND", 0x5B)
  | .lor => ("LOR", 0x5C)
  | .popnop => ("POPNOP", 0x5D)
  | .savetoa => ("SAVETOA", 0x153)
  | .savetob => ("SAVETOB", 0x253)

def BareOp.all : List BareOp :=
  [.halt, .add, .sub, .mult, .div, .rem, .inc, .dec, .cmp, .rtn, .swap, .rand, .cmplt, .cmpgt, .cmplte,
    .cmpgte, .cmpe, .cmpne, .neg, .nop, .shiftl, .shiftr, .and, .or, .xor, .tick, .fadd, .fltoint, .inttofl,
    .fmult, .fdiv, .setled, .sdiv, .srem, .smult, .sadd, .ssub, .scmplt, .scmpgt, .scmplte, .scmpgte, .scmpe,
    .scmpne, .fcmplt, .fcmpgt, .fcmplte, .fcmpgte, .fcmpe, .fcmpne, .fsub, .sinc, .finc, .sdec, .fdec, .sneg,
    .fneg, .savepush, .getpopa, .getpopb, .movoutpush, .movinpop, .not, .getpopr, .land, .lor, .popnop,
    .savetoa, .savetob]

/-- instructions on one data address -/
inductive AddressOp where
  | save
  | geta
  | getb
  | savea
  | saveb
  | push
  | pop
  | movout
  | movin
deriving DecidableEq, Repr

/-- mnemonic and opcode -/
def AddressOp.entry : AddressOp → String × Nat
  | .save => ("SAVE", 0x01)
  | .geta => ("GETA", 0x03)
  | .getb => ("GETB", 0x04)
  | .savea => ("SAVEA", 0x18)
  | .saveb => ("SAVEB", 0x19)
  | .push => ("PUSH", 0x1B)
  | .pop => ("POP", 0x1C)
  | .movout => ("MOVOUT", 0x33)
  | .movin => ("MOVIN", 0x34)

def AddressOp.all : List AddressOp :=
  [.save, .geta, .getb, .savea, .saveb, .push, .pop, .movout, .movin]

/-- jumps and calls, each to a label -/
inductive JumpOp where
  | jmp
  | jz
  | call
  | jnz
  | jlt
  | jlte
  | jgt
  | jgte
  | ja
  | jna
  | rcall
deriving DecidableEq, Repr

/-- mnemonic and opcode -/
def JumpOp.entry : JumpOp → String × Nat
  | .jmp => ("JMP", 0x0A)
  | .jz => ("JZ", 0x0D)
  | .call => ("CALL", 0x0F)
  | .jnz => ("JNZ", 0x11)
  | .jlt => ("JLT", 0x13)
  | .jlte => ("JLTE", 0x14)
  | .jgt => ("JGT", 0x15)
  | .jgte => ("JGTE", 0x16)
  | .ja => ("JA", 0x23)
  | .jna => ("JNA", 0x24)
  | .rcall => ("RCALL", 0x39)

def JumpOp.all : List JumpOp :=
  [.jmp, .jz, .call, .jnz, .jlt, .jlte, .jgt, .jgte, .ja, .jna, .rcall]

/-- instructions on one slot: a data address or a small number -/
inductive SlotOp where
  | vgeta
  | vgetb
  | vpush
deriving DecidableEq, Repr

/-- mnemonic and opcode -/
def SlotOp.entry : SlotOp → String × Nat
  | .vgeta => ("VGETA", 0x35)
  | .vgetb => ("VGETB", 0x36)
  | .vpush => ("VPUSH", 0x52)

def SlotOp.all : List SlotOp :=
  [.vgeta, .vgetb, .vpush]

/-- instructions on two slots -/
inductive PairOp where
  | qadd
  | qstore
  | qladd
  | qlsub
  | qsub
  | getavb
deriving DecidableEq, Repr

/-- mnemonic and opcode -/
def PairOp.entry : PairOp → String × Nat
  | .qadd => ("QADD", 0x32)
  | .qstore => ("QSTORE", 0x37)
  | .qladd => ("QLADD", 0x5E)
  | .qlsub => ("QLSUB", 0x5F)
  | .qsub => ("QSUB", 0x60)
  | .getavb => ("GETAVB", 0x61)

def PairOp.all : List PairOp :=
  [.qadd, .qstore, .qladd, .qlsub, .qsub, .getavb]

/-- what a mnemonic is followed by -/
inductive Shape where
  /-- nothing; more text is ignored -/
  | bare
  /-- a data address or a label -/
  | target
  | twoTargets
  /-- a literal, stored in the word after the instruction -/
  | value
  /-- a literal and a target -/
  | valueTarget
  /-- a data address, a label or a number of 12 bits -/
  | slot
  | twoSlots
deriving DecidableEq, Repr

inductive Mnemonic where
  | bare (op : BareOp)
  | address (op : AddressOp)
  | jump (op : JumpOp)
  | move
  | store
  | storePush
  | slot (op : SlotOp)
  | pair (op : PairOp)
deriving DecidableEq, Repr

namespace Mnemonic

/-- the text and the opcode. Code is printed and assembled by this one table, as by the one of shapes below, so that
printer and assembler agree on mnemonics by construction. -/
def entry : Mnemonic → String × Nat
  | .bare op => op.entry
  | .address op => op.entry
  | .jump op => op.entry
  | .move => ("MOV", 0x12)
  | .store => ("STORE", 0x02)
  | .storePush => ("STOREPUSH", 0x56)
  | .slot op => op.entry
  | .pair op => op.entry

def text (m : Mnemonic) : String := m.entry.1

def opcode (m : Mnemonic) : Nat := m.entry.2

/-- the operands that a mnemonic takes -/
def shape : Mnemonic → Shape
  | .bare _ => .bare
  | .address _ | .jump _ => .target
  | .move => .twoTargets
  | .store => .valueTarget
  | .storePush => .value
  | .slot _ => .slot
  | .pair _ => .twoSlots

/-- every mnemonic, by opcode -/
def all : List Mnemonic :=
  [.bare .halt, .address .save, .store, .address .geta, .address .getb, .bare .add, .bare .sub, .bare .mult,
    .bare .div, .bare .rem, .jump .jmp, .bare .inc, .bare .dec, .jump .jz, .bare .cmp, .jump .call, .bare .rtn,
    .jump .jnz, .move, .jump .jlt, .jump .jlte, .jump .jgt, .jump .jgte, .bare .swap, .address .savea, .address
    .saveb, .bare .rand, .address .push, .address .pop, .bare .cmplt, .bare .cmpgt, .bare .cmplte, .bare
    .cmpgte, .bare .cmpe, .bare .cmpne, .jump .ja, .jump .jna, .bare .neg, .bare .nop, .bare .shiftl, .bare
    .shiftr, .bare .and, .bare .or, .bare .xor, .bare .tick, .bare .fadd, .bare .fltoint, .bare .inttofl, .bare
    .fmult, .bare .fdiv, .pair .qadd, .address .movout, .address .movin, .slot .vgeta, .slot .vgetb, .pair
    .qstore, .bare .setled, .jump .rcall, .bare .sdiv, .bare .srem, .bare .smult, .bare .sadd, .bare .ssub,
    .bare .scmplt, .bare .scmpgt, .bare .scmplte, .bare .scmpgte, .bare .scmpe, .bare .scmpne, .bare .fcmplt,
    .bare .fcmpgt, .bare .fcmplte, .bare .fcmpgte, .bare .fcmpe, .bare .fcmpne, .bare .fsub, .bare .sinc, .bare
    .finc, .bare .sdec, .bare .fdec, .bare .sneg, .bare .fneg, .slot .vpush, .bare .savepush, .bare .getpopa,
    .bare .getpopb, .storePush, .bare .movoutpush, .bare .movinpop, .bare .not, .bare .getpopr, .bare .land,
    .bare .lor, .bare .popnop, .pair .qladd, .pair .qlsub, .pair .qsub, .pair .getavb, .bare .savetoa, .bare
    .savetob]

/-- the mnemonic with this text; case counts -/
def ofText? (s : String) : Option Mnemonic := all.find? fun m => m.text == s

theorem text_of_ofText? {s : String} {m : Mnemonic} (h : ofText? s = some m) : m.text = s := by
  have := List.find?_some h
  exact eq_of_beq this

end Mnemonic

/-- a cell of data memory, counted from the end of the code -/
structure Address where
  index : Nat
deriving DecidableEq, Repr

/-- the greatest value of an operand field -/
def maxAddress : Nat := 0xFFF

def Address.text (a : Address) : String := s!"a{a.index}"

/-- operand of an instruction on slots -/
inductive Slot where
  | address (a : Address)
  | immediate (value : Nat)
deriving DecidableEq, Repr

def Slot.text : Slot → String
  | .address a => a.text
  | .immediate value => toString value

/-- one machine operation with symbolic operands -/
inductive Instruction where
  | bare (op : BareOp)
  | address (op : AddressOp) (a : Address)
  | jump (op : JumpOp) (label : String)
  | move (source destination : Address)
  | store (value : Literal) (a : Address)
  | storePush (value : Literal)
  | slot (op : SlotOp) (x : Slot)
  | pair (op : PairOp) (x y : Slot)
deriving DecidableEq, Repr

namespace Instruction

def mnemonic : Instruction → Mnemonic
  | .bare op => .bare op
  | .address op _ => .address op
  | .jump op _ => .jump op
  | .move _ _ => .move
  | .store _ _ => .store
  | .storePush _ => .storePush
  | .slot op _ => .slot op
  | .pair op _ _ => .pair op

/-- the operands as they are written, in order -/
def operands : Instruction → List String
  | .bare _ => []
  | .address _ a => [a.text]
  | .jump _ label => [label]
  | .move source destination => [source.text, destination.text]
  | .store value a => [value.text, a.text]
  | .storePush value => [value.text]
  | .slot _ x => [x.text]
  | .pair _ x y => [x.text, y.text]

/-- words the instruction takes once assembled -/
def wordCount : Instruction → Nat
  | .store _ _ | .storePush _ => 2
  | _ => 1

def text (i : Instruction) : String := " ".intercalate (i.mnemonic.text :: i.operands)

end Instruction

end C15

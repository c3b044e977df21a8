/-
Which instruction an operator uses on a family: the plain form on unsigned values, the `S` form on signed ones, the `F`
form on floats. Bitwise operators and shifts have one form for both integer families, logical ones one form for all.
-/
import C15.Instruction
import C15.Program

namespace C15

/-- the instruction for `R = A op B`, if the operator has a form for the family -/
def BinOp.select : BinOp → Family → Option BareOp
  | .add, .unsigned => some .add
  | .add, .signed => some .sadd
  | .add, .float => some .fadd
  | .sub, .unsigned => some .sub
  | .sub, .signed => some .ssub
  | .sub, .float => some .fsub
  | .mul, .unsigned => some .mult
  | .mul, .signed => some .smult
  | .mul, .float => some .fmult
  | .div, .unsigned => some .div
  | .div, .signed => some .sdiv
  | .div, .float => some .fdiv
  | .rem, .unsigned => some .rem
  | .rem, .signed => some .srem
  | .lt, .unsigned => some .cmplt
  | .lt, .signed => some .scmplt
  | .lt, .float => some .fcmplt
  | .gt, .unsigned => some .cmpgt
  | .gt, .signed => some .scmpgt
  | .gt, .float => some .fcmpgt
  | .le, .unsigned => some .cmplte
  | .le, .signed => some .scmplte
  | .le, .float => some .fcmplte
  | .ge, .unsigned => some .cmpgte
  | .ge, .signed => some .scmpgte
  | .ge, .float => some .fcmpgte
  | .eq, .unsigned => some .cmpe
  | .eq, .signed => some .scmpe
  | .eq, .float => some .fcmpe
  | .ne, .unsigned => some .cmpne
  | .ne, .signed => some .scmpne
  | .ne, .float => some .fcmpne
  | .and, _ => some .land
  | .or, _ => some .lor
  | .rem, .float | .bitAnd, .float | .bitOr, .float | .bitXor, .float | .shl, .float | .shr, .float => none
  | .bitAnd, _ => some .and
  | .bitOr, _ => some .or
  | .bitXor, _ => some .xor
  | .shl, _ => some .shiftl
  | .shr, _ => some .shiftr

/-- an operator lacks a form exactly on floats, when it is for integers only -/
theorem BinOp.select_eq_none_iff (op : BinOp) (f : Family) :
    op.select f = none ↔ op.isIntegerOnly = true ∧ f = .float := by
  cases op <;> cases f <;> simp [BinOp.select, BinOp.isIntegerOnly]

namespace Family

/-- the instruction for `R = -A` -/
def negation : Family → BareOp
  | .unsigned => .neg
  | .signed => .sneg
  | .float => .fneg

/-- the conversion from one family to another; integers are read as they are -/
def conversion : Family → Family → Option BareOp
  | .float, .signed | .float, .unsigned => some .fltoint
  | .signed, .float | .unsigned, .float => some .inttofl
  | _, _ => none

end Family

/-- the instruction for a step up or down -/
def UpdateOp.select (op : UpdateOp) (f : Family) : BareOp :=
  match op.isIncrement, f with
  | true, .unsigned => .inc
  | true, .signed => .sinc
  | true, .float => .finc
  | false, .unsigned => .dec
  | false, .signed => .sdec
  | false, .float => .fdec

end C15

/-
Types of C15 and its built-in functions.

Every value belongs to one of three families, which decide the machine instructions an operation uses; `void` has no
values. A declared type is a base type that may be marked constant.
-/
namespace C15

/-- numeric family of a value -/
inductive Family where
  | signed
  | unsigned
  | float
deriving DecidableEq, Repr

/-- a type without qualifiers -/
inductive Base where
  | int
  | uint
  | float
  | void
deriving DecidableEq, Repr

namespace Base

def text : Base → String
  | .int => "int"
  | .uint => "uint"
  | .float => "float"
  | .void => "void"

/-- the family of the values of a type, none for `void` -/
def family : Base → Option Family
  | .int => some .signed
  | .uint => some .unsigned
  | .float => some .float
  | .void => none

end Base

namespace Family

/-- the type whose values form the family -/
def base : Family → Base
  | .signed => .int
  | .unsigned => .uint
  | .float => .float

def isInteger : Family → Bool
  | .float => false
  | _ => true

def text (f : Family) : String := f.base.text

@[simp] theorem family_base (f : Family) : f.base.family = some f := by cases f <;> rfl

end Family

/-- a declared type -/
structure Ty where
  isConst : Bool
  base : Base
deriving DecidableEq, Repr

namespace Ty

/-- the type without `const` -/
def plain (b : Base) : Ty := ⟨false, b⟩

def isVoid (t : Ty) : Bool := t.base == .void

def family (t : Ty) : Option Family := t.base.family

def text (t : Ty) : String := if t.isConst then s!"const {t.base.text}" else t.base.text

end Ty

/-- built-in functions, each a fixed sequence of machine instructions -/
inductive Intrinsic where
  | setLed
  | loadA
  | loadB
  | tick
  | urand
  | push
  | popInt
  | popUInt
  | popFloat
deriving DecidableEq, Repr

namespace Intrinsic

def all : List Intrinsic := [.setLed, .loadA, .loadB, .tick, .urand, .push, .popInt, .popUInt, .popFloat]

def name : Intrinsic → String
  | .setLed => "_setled"
  | .loadA => "_load_a"
  | .loadB => "_load_b"
  | .tick => "_tick"
  | .urand => "_urand"
  | .push => "_push"
  | .popInt => "_pop_int"
  | .popUInt => "_pop_uint"
  | .popFloat => "_pop_float"

def ofName? (s : String) : Option Intrinsic := all.find? fun i => i.name == s

/-- number of arguments -/
def arity : Intrinsic → Nat
  | .setLed | .loadA | .loadB | .push => 1
  | _ => 0

def result : Intrinsic → Base
  | .setLed | .loadA | .loadB | .push => .void
  | .tick | .urand | .popUInt => .uint
  | .popInt => .int
  | .popFloat => .float

end Intrinsic

end C15

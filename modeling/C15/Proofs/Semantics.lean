/-
What a program does: a big-step semantics.

Every variable and every result of a function is one static cell. Values are words read in a family; a variable's family
is that of its declared type. Operators are functions of the operator and the family of its operands, built-in functions
are events with the outside. Names mean what the scopes say, the innermost declaration first. The relations:
- `Eval`: the value of an expression, none for a call of a `void` function; `EvalAll`: values from left to right;
- `Call`: the arguments go to the cells of the parameters, the body runs, the value is in the result's cell;
- `Test`: whether a condition holds; an absent one does;
- `Exec`, `ExecAll`, `Loop`: how a statement, statements, and a `for` after its start complete;
- `Program.Runs`: the globals get their initial values in order, then `main` is called.
A run that does not terminate has no derivation.
-/
import C15.Proofs.Storage

namespace C15

namespace Semantics

/-! ## Values, operators, events -/

/-- a word and the family it is read in -/
structure Value where
  family : Family
  word : UInt32
deriving DecidableEq, Repr

end Semantics

/-- operators on the bits of integers, which do not depend on the sign -/
def BinOp.isBits : BinOp → Bool
  | .bitAnd | .bitOr | .bitXor | .shl | .shr => true
  | _ => false

/-- the family of the result of an operator -/
def BinOp.resultFamily (op : BinOp) (f : Family) : Family := if op.isComparison || op.isLogical then .signed else f

def UnOp.resultFamily (op : UnOp) (f : Family) : Family := if op = .not then .signed else f

def Literal.family : Literal → Family
  | .int _ => .signed
  | .uint _ => .unsigned
  | .float _ => .float

namespace Semantics

/-- meanings of the operators, any functions of the operator and the family of the operands. The equations are
assumptions: they say where the machine has one instruction for two families, and that `~x` is `x ^ 0xFFFFFFFF`. -/
structure Operators where
  binary : BinOp → Family → UInt32 → UInt32 → UInt32
  unary : UnOp → Family → UInt32 → UInt32
  /-- one step up, if true, or down -/
  step : Bool → Family → UInt32 → UInt32
  /-- from the first family to the second -/
  convert : Family → Family → UInt32 → UInt32
  binary_bits : ∀ op, op.isBits = true → binary op .signed = binary op .unsigned
  binary_logical : ∀ op f, op.isLogical = true → binary op f = binary op .unsigned
  unary_not : ∀ f, unary .not f = unary .not .unsigned
  unary_bitNot : ∀ f w, f ≠ .float → unary .bitNot f w = binary .bitXor f w 0xFFFFFFFF
  convert_self : ∀ f w, convert f f w = w
  convert_sign : ∀ w, convert .signed .unsigned w = w ∧ convert .unsigned .signed w = w
  convert_toFloat : convert .signed .float = convert .unsigned .float
  convert_ofFloat : convert .float .signed = convert .float .unsigned

/-- what happens between a program and the outside; a load of a register is not seen there -/
inductive Event where
  | led (w : UInt32)
  | sent (w : UInt32)
  | received (w : UInt32)
  | ticked (w : UInt32)
  | drew (w : UInt32)
  | loadedA (w : UInt32)
  | loadedB (w : UInt32)
deriving DecidableEq, Repr

def Event.isSeen : Event → Bool
  | .loadedA _ | .loadedB _ => false
  | _ => true

/-- what the outside answers after the events it has seen -/
structure Device where
  receive : List Event → UInt32
  tick : List Event → UInt32
  random : List Event → UInt32

/-- the contents of the cells and the events so far -/
structure World where
  store : Cell → UInt32
  trace : List Event

namespace World

def write (σ : World) (c : Cell) (w : UInt32) : World := { σ with store := Function.update σ.store c w }

def emit (σ : World) (e : Event) : World := { σ with trace := σ.trace ++ [e] }

/-- the events seen from outside -/
def seen (σ : World) : List Event := σ.trace.filter Event.isSeen

/-- words to cells, the first to the first -/
def writeAll (σ : World) : List Cell → List UInt32 → World
  | c :: cs, w :: ws => (σ.write c w).writeAll cs ws
  | _, _ => σ

end World

/-- what a built-in function does with its arguments, its value if it has one -/
def perform (dev : Device) (σ : World) : Intrinsic → List UInt32 → Option (Option Value × World)
  | .setLed, [w] => some (none, σ.emit (.led w))
  | .loadA, [w] => some (none, σ.emit (.loadedA w))
  | .loadB, [w] => some (none, σ.emit (.loadedB w))
  | .push, [w] => some (none, σ.emit (.sent w))
  | .tick, [] => some (some ⟨.unsigned, dev.tick σ.seen⟩, σ.emit (.ticked (dev.tick σ.seen)))
  | .urand, [] => some (some ⟨.unsigned, dev.random σ.seen⟩, σ.emit (.drew (dev.random σ.seen)))
  | .popInt, [] => some (some ⟨.signed, dev.receive σ.seen⟩, σ.emit (.received (dev.receive σ.seen)))
  | .popUInt, [] => some (some ⟨.unsigned, dev.receive σ.seen⟩, σ.emit (.received (dev.receive σ.seen)))
  | .popFloat, [] => some (some ⟨.float, dev.receive σ.seen⟩, σ.emit (.received (dev.receive σ.seen)))
  | _, _ => none

/-! ## Control -/

/-- how a statement ends -/
inductive Completion where
  | normal
  | broke
  | continued
  | returned
deriving DecidableEq, Repr

/-- how a loop ends if its body ends so, none if it goes on -/
def Completion.leaves : Completion → Option Completion
  | .broke => some .normal
  | .returned => some .returned
  | .normal | .continued => none

/-- the function of a name, with the globals declared before it, the last first -/
def definition? (name : String) : List Variable → List Item → Option (List Variable × FunctionDecl)
  | _, [] => none
  | globals, .global d :: rest => definition? name (d.variable .global :: globals) rest
  | globals, .function f :: rest => if f.name = name then some (globals, f) else definition? name globals rest

/-! ## Runs -/

section Runs

variable (ops : Operators) (dev : Device) (p : Program)

mutual

inductive Eval : Scopes → Expr → World → Option Value → World → Prop
  | literal {scopes id span value σ} : Eval scopes (.literal id span value) σ (some ⟨value.family, value.bits⟩) σ
  | ident {scopes id span name v f σ} : scopes.find? name = some v → v.ty.family = some f →
      Eval scopes (.ident id span name) σ (some ⟨f, σ.store (.variable v.decl)⟩) σ
  | binary {scopes id span op lhs rhs x y σ σ₁ σ₂} : Eval scopes lhs σ (some x) σ₁ → Eval scopes rhs σ₁ (some y) σ₂ →
      Eval scopes (.binary id span op lhs rhs) σ
        (some ⟨op.resultFamily x.family, ops.binary op x.family x.word y.word⟩) σ₂
  | unary {scopes id span op operand x σ σ'} : Eval scopes operand σ (some x) σ' →
      Eval scopes (.unary id span op operand) σ (some ⟨op.resultFamily x.family, ops.unary op x.family x.word⟩) σ'
  | update {scopes id span op targetId targetSpan target v f old new σ} : scopes.find? target = some v →
      v.ty.family = some f → old = σ.store (.variable v.decl) → new = ops.step op.isIncrement f old →
      Eval scopes (.update id span op targetId targetSpan target) σ (some ⟨f, if op.isPost then old else new⟩)
        (σ.write (.variable v.decl) new)
  | assign {scopes id span target targetSpan value v f x σ σ'} : scopes.find? target = some v → v.ty.family = some f →
      Eval scopes value σ (some x) σ' →
      Eval scopes (.assign id span none target targetSpan value) σ (some ⟨f, x.word⟩)
        (σ'.write (.variable v.decl) x.word)
  -- the variable is read before the value
  | compound {scopes id span op target targetSpan value v f x w σ σ'} : scopes.find? target = some v →
      v.ty.family = some f → Eval scopes value σ (some x) σ' → w = ops.binary op f (σ.store (.variable v.decl)) x.word →
      Eval scopes (.assign id span (some op) target targetSpan value) σ (some ⟨f, w⟩) (σ'.write (.variable v.decl) w)
  | call {scopes id span callee calleeSpan args words r σ σ₁ σ₂} : EvalAll scopes args σ words σ₁ →
      Call callee words σ₁ r σ₂ → Eval scopes (.call id span callee calleeSpan args) σ r σ₂
  | intrinsic {scopes id span callee calleeSpan args words r σ σ₁ σ₂} : EvalAll scopes args σ words σ₁ →
      perform dev σ₁ callee words = some (r, σ₂) → Eval scopes (.intrinsic id span callee calleeSpan args) σ r σ₂
  | cast {scopes id span base operand x f σ σ'} : Eval scopes operand σ (some x) σ' → base.family = some f →
      Eval scopes (.cast id span base operand) σ (some ⟨f, ops.convert x.family f x.word⟩) σ'

inductive EvalAll : Scopes → List Expr → World → List UInt32 → World → Prop
  | nil {scopes σ} : EvalAll scopes [] σ [] σ
  | cons {scopes arg args x words σ σ₁ σ₂} : Eval scopes arg σ (some x) σ₁ → EvalAll scopes args σ₁ words σ₂ →
      EvalAll scopes (arg :: args) σ (x.word :: words) σ₂

/-- a function body ends by a `return` or at its end; the value is then in the result's cell -/
inductive Call : String → List UInt32 → World → Option Value → World → Prop
  | mk {name globals f words c r σ σ'} : definition? name [] p.items = some (globals, f) →
      ExecAll f.name (Scopes.ofFunction globals f) f.body (σ.writeAll (f.params.map Param.cell) words) c σ' →
      c = .normal ∨ c = .returned → r = (f.result.family.map fun family => ⟨family, σ'.store (.result f.name)⟩) →
      Call name words σ r σ'

inductive Test : Scopes → Option Expr → World → Bool → World → Prop
  | always {scopes σ} : Test scopes none σ true σ
  | value {scopes e x holds σ σ'} : Eval scopes e σ (some x) σ' → holds = (x.word != 0) →
      Test scopes (some e) σ holds σ'

/-- statements of the function with this name -/
inductive Exec : String → Scopes → Stmt → World → Completion → World → Prop
  | declare {fn scopes d σ} : d.init = none → Exec fn scopes (.decl d) σ .normal σ
  | define {fn scopes d e x σ σ'} : d.init = some e → Eval scopes e σ (some x) σ' →
      Exec fn scopes (.decl d) σ .normal (σ'.write d.cell x.word)
  | thenTaken {fn scopes span cond yes c σ σ₁ σ₂} : Test scopes (some cond) σ true σ₁ →
      Exec fn ([] :: scopes) yes σ₁ c σ₂ → Exec fn scopes (.ifThen span cond yes) σ c σ₂
  | thenSkipped {fn scopes span cond yes σ σ₁} : Test scopes (some cond) σ false σ₁ →
      Exec fn scopes (.ifThen span cond yes) σ .normal σ₁
  | elseYes {fn scopes span cond yes no c σ σ₁ σ₂} : Test scopes (some cond) σ true σ₁ →
      Exec fn ([] :: scopes) yes σ₁ c σ₂ → Exec fn scopes (.ifElse span cond yes no) σ c σ₂
  | elseNo {fn scopes span cond yes no c σ σ₁ σ₂} : Test scopes (some cond) σ false σ₁ →
      Exec fn ([] :: scopes) no σ₁ c σ₂ → Exec fn scopes (.ifElse span cond yes no) σ c σ₂
  | whileDone {fn scopes span cond body σ σ₁} : Test scopes (some cond) σ false σ₁ →
      Exec fn scopes (.while_ span cond body) σ .normal σ₁
  | whileLeft {fn scopes span cond body b c σ σ₁ σ₂} : Test scopes (some cond) σ true σ₁ → Exec fn scopes body σ₁ b σ₂ →
      b.leaves = some c → Exec fn scopes (.while_ span cond body) σ c σ₂
  | whileAgain {fn scopes span cond body b c σ σ₁ σ₂ σ₃} : Test scopes (some cond) σ true σ₁ →
      Exec fn scopes body σ₁ b σ₂ → b.leaves = none → Exec fn scopes (.while_ span cond body) σ₂ c σ₃ →
      Exec fn scopes (.while_ span cond body) σ c σ₃
  | doLeft {fn scopes span body cond b c σ σ₁} : Exec fn scopes body σ b σ₁ → b.leaves = some c →
      Exec fn scopes (.doWhile span body cond) σ c σ₁
  | doDone {fn scopes span body cond b σ σ₁ σ₂} : Exec fn scopes body σ b σ₁ → b.leaves = none →
      Test (scopes.after body) (some cond) σ₁ false σ₂ → Exec fn scopes (.doWhile span body cond) σ .normal σ₂
  | doAgain {fn scopes span body cond b c σ σ₁ σ₂ σ₃} : Exec fn scopes body σ b σ₁ → b.leaves = none →
      Test (scopes.after body) (some cond) σ₁ true σ₂ → Exec fn scopes (.doWhile span body cond) σ₂ c σ₃ →
      Exec fn scopes (.doWhile span body cond) σ c σ₃
  | for_ {fn scopes span init cond step body c σ σ₁ σ₂} : Exec fn ([] :: scopes) (init.stmt span) σ .normal σ₁ →
      Loop fn (Scopes.declare ([] :: scopes) init.declared) cond (.ofStep span step) body σ₁ c σ₂ →
      Exec fn scopes (.for_ span init cond step body) σ c σ₂
  | break_ {fn scopes span σ} : Exec fn scopes (.break_ span) σ .broke σ
  | continue_ {fn scopes span σ} : Exec fn scopes (.continue_ span) σ .continued σ
  | return_ {fn scopes span σ} : Exec fn scopes (.return_ span none) σ .returned σ
  | returnValue {fn scopes span e x σ σ'} : Eval scopes e σ (some x) σ' →
      Exec fn scopes (.return_ span (some e)) σ .returned (σ'.write (.result fn) x.word)
  | expr {fn scopes span e r σ σ'} : Eval scopes e σ r σ' → Exec fn scopes (.expr span e) σ .normal σ'
  | block {fn scopes span body c σ σ'} : ExecAll fn ([] :: scopes) body σ c σ' →
      Exec fn scopes (.block span body) σ c σ'
  | empty {fn scopes span σ} : Exec fn scopes (.empty span) σ .normal σ

inductive ExecAll : String → Scopes → List Stmt → World → Completion → World → Prop
  | nil {fn scopes σ} : ExecAll fn scopes [] σ .normal σ
  | cons {fn scopes s rest c σ σ₁ σ₂} : Exec fn scopes s σ .normal σ₁ → ExecAll fn (scopes.after s) rest σ₁ c σ₂ →
      ExecAll fn scopes (s :: rest) σ c σ₂
  | stop {fn scopes s rest c σ σ₁} : Exec fn scopes s σ c σ₁ → c ≠ .normal → ExecAll fn scopes (s :: rest) σ c σ₁

/-- a `for` after its start: test, body, step, and again -/
inductive Loop : String → Scopes → Option Expr → Stmt → Stmt → World → Completion → World → Prop
  | done {fn scopes cond step body σ σ₁} : Test scopes cond σ false σ₁ → Loop fn scopes cond step body σ .normal σ₁
  | left {fn scopes cond step body b c σ σ₁ σ₂} : Test scopes cond σ true σ₁ → Exec fn scopes body σ₁ b σ₂ →
      b.leaves = some c → Loop fn scopes cond step body σ c σ₂
  | again {fn scopes cond step body b c σ σ₁ σ₂ σ₃ σ₄} : Test scopes cond σ true σ₁ → Exec fn scopes body σ₁ b σ₂ →
      b.leaves = none → Exec fn scopes step σ₂ .normal σ₃ → Loop fn scopes cond step body σ₃ c σ₄ →
      Loop fn scopes cond step body σ c σ₄

end

/-- the globals among items get their initial values, a zero where none is given -/
inductive Initialize : List Variable → List Item → World → World → Prop
  | done {globals σ} : Initialize globals [] σ σ
  | function {globals f rest σ σ'} : Initialize globals rest σ σ' → Initialize globals (.function f :: rest) σ σ'
  | zero {globals d rest σ σ'} : d.init = none → Initialize (d.variable .global :: globals) rest (σ.write d.cell 0) σ' →
      Initialize globals (.global d :: rest) σ σ'
  | value {globals d e x rest σ σ₁ σ'} : d.init = some e → Eval ops dev p [globals] e σ (some x) σ₁ →
      Initialize (d.variable .global :: globals) rest (σ₁.write d.cell x.word) σ' →
      Initialize globals (.global d :: rest) σ σ'

end Runs

end Semantics

open Semantics in
/-- a whole run: the globals, then `main` -/
def Program.Runs (ops : Operators) (dev : Device) (p : Program) (σ σ' : World) : Prop :=
  ∃ started r, Initialize ops dev p [] p.items σ started ∧ Call ops dev p "main" [] started r σ'

end C15

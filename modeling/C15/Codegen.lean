/-
Assembly of a checked program.

Every expression leaves one value on the hardware stack, none for `void`. An operator takes its operands off the stack
into the registers A and B, computes into R and pushes R. Every variable, parameter and result owns one data address for
the whole run: globals first, then per function its result and parameters, then locals in the order their declarations
are reached.

Code is put together from fragments: the lines of a part of the program, with the editor's symbols and the warnings
found on the way, each in order. A statement after one that diverges produces nothing but a warning.
-/
import C15.Assembly
import C15.CallGraph
import C15.Diagnostic
import C15.Selection
import C15.Typing

namespace C15

/-- why no assembly is generated -/
inductive CodegenCause where
  | outOfMemory
  | unresolvedVariable
  | noStorage (name : String)
  | noForm (symbol : String) (family : Family)
  | noNumericType
  | unknownFunction (name : String)
  | valueFromVoid
  | breakOutsideLoop
  | continueOutsideLoop
deriving DecidableEq, Repr

def CodegenCause.message : CodegenCause → String
  | .outOfMemory => s!"Out of data memory: at most {maxAddress + 1} variables"
  | .unresolvedVariable => "Unresolved variable"
  | .noStorage name => s!"No storage for '{name}'"
  | .noForm symbol family => s!"Operator '{symbol}' has no {family.text} form"
  | .noNumericType => "Expression has no numeric type"
  | .unknownFunction name => s!"Unknown function: {name}"
  | .valueFromVoid => "Return value from void function"
  | .breakOutsideLoop => "'break' outside of a loop"
  | .continueOutsideLoop => "'continue' outside of a loop"

abbrev CodegenError := Located CodegenCause

namespace Codegen

/-! ## Fragments -/

/-- the output for a part of a program -/
structure Fragment where
  lines : List Line := []
  symbols : List SourceSymbol := []
  warnings : List Diagnostic := []
deriving DecidableEq, Repr

namespace Fragment

def append (a b : Fragment) : Fragment := ⟨a.lines ++ b.lines, a.symbols ++ b.symbols, a.warnings ++ b.warnings⟩

instance : Append Fragment := ⟨append⟩

@[simp] theorem lines_append (a b : Fragment) : (a ++ b).lines = a.lines ++ b.lines := rfl

@[simp] theorem symbols_append (a b : Fragment) : (a ++ b).symbols = a.symbols ++ b.symbols := rfl

@[simp] theorem warnings_append (a b : Fragment) : (a ++ b).warnings = a.warnings ++ b.warnings := rfl

def emit (is : List Instruction) : Fragment := ⟨is.map .instr, [], []⟩

def place (label : String) : Fragment := ⟨[.label label], [], []⟩

def symbol (span : Span) (c : SymbolClass) : Fragment := ⟨[], [⟨c, span⟩], []⟩

def warn (span : Span) (message : String) : Fragment := ⟨[], [], [.warningAt .source span message]⟩

end Fragment

/-! ## Instructions used -/

def pushA (a : Address) : Instruction := .address .push a

def popA (a : Address) : Instruction := .address .pop a

def saveA (a : Address) : Instruction := .address .save a

def loadA (a : Address) : Instruction := .address .geta a

/-- take two operands off the stack, compute, push the result -/
def computeTwo (op : BareOp) : List Instruction := [.bare .getpopb, .bare .getpopa, .bare op, .bare .savepush]

/-- take one operand off the stack, compute, push the result -/
def computeOne (op : BareOp) : List Instruction := [.bare .getpopa, .bare op, .bare .savepush]

def functionLabel (name : String) : String := "fn_" ++ name

/-! ## Expressions -/

/-- storage of a function's parameters and result -/
structure Frame where
  params : List Address
  result : Option Address
deriving DecidableEq, Repr

/-- addresses of variables; of two entries for one declaration the first counts -/
abbrev Slots := List (NodeId × Address)

/-- what code generation for one function looks up -/
structure Context where
  info : TypeInfo
  graph : CallGraph
  frames : List (String × Frame)
  /-- the function being generated; empty for the entry code -/
  function : String

/-- address and class of the variable that an occurrence means -/
def Context.slotOf (cx : Context) (slots : Slots) (id : NodeId) (span : Span) :
    Except CodegenError (Address × SymbolClass) :=
  match cx.info.variableOf id with
  | none => .error ⟨.unresolvedVariable, span⟩
  | some v =>
    match slots.lookup v.decl with
    | none => .error ⟨.noStorage v.name, span⟩
    | some a => .ok (a, if v.ty.isConst then .constant else if v.kind = .param then .parameter else .variable_)

/-- family of a checked expression -/
def Context.family (cx : Context) (id : NodeId) (span : Span) : Except CodegenError Family :=
  match cx.info.familyOf id with
  | some f => .ok f
  | none => .error ⟨.noNumericType, span⟩

/-- the instruction of an operator on a family -/
def select (op : BinOp) (family : Family) (symbol : String) (span : Span) : Except CodegenError BareOp :=
  match op.select family with
  | some i => .ok i
  | none => .error ⟨.noForm symbol family, span⟩

/-- the instructions of a built-in function after its arguments -/
def intrinsicCode : Intrinsic → List Instruction
  | .setLed => [.bare .getpopa, .bare .setled]
  | .loadA => [.bare .getpopa]
  | .loadB => [.bare .getpopb]
  | .push => [.bare .movoutpush]
  | .popInt | .popUInt | .popFloat => [.bare .movinpop]
  | .tick => [.bare .tick, .bare .savepush]
  | .urand => [.bare .rand, .bare .savepush]

/-- `++` and `--`: load into A, step, store R back; push the old or the new value if it is used -/
def updateCode (op : UpdateOp) (family : Family) (a : Address) (used : Bool) : List Instruction :=
  (if used && op.isPost then [pushA a] else []) ++ [loadA a, .bare (op.select family), saveA a] ++
    (if used && !op.isPost then [pushA a] else [])

def recursionWarning (callee : String) : String :=
  s!"Recursive call to '{callee}': parameters and locals are statically allocated"

mutual

/-- code that pushes the value of an expression; if the value is not used, an assignment, an update and a call leave
nothing on the stack -/
def lowerExpr (cx : Context) (slots : Slots) (used : Bool) : Expr → Except CodegenError Fragment
  | .literal _ _ value => return .emit [.storePush value]
  | .ident id span _ => do
    let (a, c) ← cx.slotOf slots id span
    return .symbol span c ++ .emit [pushA a]
  | .binary _ span op lhs rhs => do
    let family ← cx.family lhs.id lhs.span
    let i ← select op family op.symbol span
    let left ← lowerExpr cx slots true lhs
    let right ← lowerExpr cx slots true rhs
    return left ++ right ++ .emit (computeTwo i)
  | .unary _ _ op operand => do
    let family ← cx.family operand.id operand.span
    let inner ← lowerExpr cx slots true operand
    match op with
    | .bitNot =>
      let ones : Literal := if family = .unsigned then .uint 0xFFFFFFFF else .int 0xFFFFFFFF
      return inner ++ .emit (.storePush ones :: computeTwo .xor)
    | .not => return inner ++ .emit (computeOne .not)
    | .neg => return inner ++ .emit (computeOne family.negation)
  | .update id span op _ targetSpan _ => do
    let (a, c) ← cx.slotOf slots id span
    let family ← cx.family id span
    return .symbol targetSpan c ++ .emit (updateCode op family a used)
  | .assign id span op _ targetSpan value => do
    let (a, c) ← cx.slotOf slots id span
    let result := Fragment.emit (if used then [pushA a] else [])
    match op with
    | none =>
      let inner ← lowerExpr cx slots true value
      return .symbol targetSpan c ++ inner ++ .emit [popA a] ++ result
    | some op =>
      let family ← cx.family value.id value.span
      let i ← select op family (op.symbol ++ "=") targetSpan
      let inner ← lowerExpr cx slots true value
      return .symbol targetSpan c ++ .emit [pushA a] ++ inner ++
        .emit [.bare .getpopb, .bare .getpopa, .bare i, saveA a] ++ result
  | .call _ span callee calleeSpan args => do
    let warning := if cx.graph.reaches callee cx.function then Fragment.warn span (recursionWarning callee) else {}
    let inner ← lowerArgs cx slots args
    match cx.frames.lookup callee with
    | none => throw ⟨.unknownFunction callee, calleeSpan⟩
    | some frame =>
      let result := if used then frame.result.toList.map pushA else []
      -- the last argument is on top of the stack, so the parameters are filled from the last one on
      return .symbol calleeSpan .function ++ warning ++ inner ++
        .emit (frame.params.reverse.map popA ++ .jump .call (functionLabel callee) :: result)
  | .intrinsic _ _ callee calleeSpan args => do
    let inner ← lowerArgs cx slots args
    return .symbol calleeSpan .intrinsic ++ inner ++ .emit (intrinsicCode callee)
  | .cast _ span base operand => do
    let source ← cx.family operand.id operand.span
    match base.family with
    | none => throw ⟨.noNumericType, span⟩
    | some target =>
      let inner ← lowerExpr cx slots true operand
      match source.conversion target with
      | some i => return inner ++ .emit (computeOne i)
      | none => return inner

/-- code that pushes the values of arguments from left to right -/
def lowerArgs (cx : Context) (slots : Slots) : List Expr → Except CodegenError Fragment
  | [] => return {}
  | arg :: args => do
    let first ← lowerExpr cx slots true arg
    let rest ← lowerArgs cx slots args
    return first ++ rest

end

/-- code for the effects of an expression, which leaves the stack as it was -/
def lowerEffect (cx : Context) (slots : Slots) (e : Expr) : Except CodegenError Fragment :=
  match e with
  | .assign .. | .call .. | .update .. => lowerExpr cx slots false e
  | _ => do
    let inner ← lowerExpr cx slots true e
    match cx.info.typeOf e.id with
    | some .void | none => return inner
    | some _ => return inner ++ .emit [.bare .popnop]

/-- code that leaves the value of a condition in R -/
def lowerCondition (cx : Context) (slots : Slots) (e : Expr) : Except CodegenError Fragment := do
  let inner ← lowerExpr cx slots true e
  return inner ++ .emit [.bare .getpopr]

/-! ## Storage and labels -/

/-- addresses given out so far, and the next number for labels -/
structure Storage where
  destinations : Array Destination
  slots : Slots
  /-- a counter of 32 bits gives the same numbers up to `2 ^ 32` constructs -/
  nextLabel : Nat

/-- generation with storage that grows as declarations are reached -/
abbrev Gen := StateT Storage (Except CodegenError)

/-- give out the next data address -/
def allocate (name : String) (ty : Ty) (span : Span) : Gen Address := do
  let s ← get
  if s.destinations.size ≤ maxAddress then
    let a : Address := ⟨s.destinations.size⟩
    set { s with destinations := s.destinations.push ⟨a, name, ty, span⟩ }
    return a
  else throw ⟨.outOfMemory, span⟩

/-- give a declaration its address -/
def bindSlot (decl : NodeId) (name : String) (ty : Ty) (span : Span) : Gen Address := do
  let a ← allocate name ty span
  modify fun s => { s with slots := (decl, a) :: s.slots }
  return a

/-- a number for the labels of one construct -/
def freshLabel : Gen Nat := modifyGet fun s => (s.nextLabel, { s with nextLabel := s.nextLabel + 1 })

def label (kind : String) (n : Nat) : String := s!"{kind}_{n}"

/-- run a step that only looks at the addresses -/
def withSlots (f : Slots → Except CodegenError Fragment) : Gen Fragment := do f (← get).slots

/-! ## Statements -/

/-- where `break` and `continue` go -/
structure LoopLabels where
  breakTo : String
  continueTo : String
deriving DecidableEq, Repr

def declClass (ty : Ty) : SymbolClass := if ty.isConst then .constant else .variable_

/-- a local declaration: the initializer is evaluated before the variable has its address -/
def lowerLocal (cx : Context) (d : VarDecl) : Gen Fragment := do
  let unread := if cx.info.isUsed d.id then {} else Fragment.warn d.nameSpan s!"Variable '{d.name}' is never read"
  let head := .symbol d.nameSpan (declClass d.ty) ++ unread
  match d.init with
  | none =>
    let _ ← bindSlot d.id d.name d.ty d.nameSpan
    return head
  | some e =>
    let inner ← withSlots fun slots => lowerExpr cx slots true e
    let a ← bindSlot d.id d.name d.ty d.nameSpan
    return head ++ inner ++ .emit [popA a]

def lowerForInit (cx : Context) : ForInit → Gen Fragment
  | .nothing => return {}
  | .decl d => lowerLocal cx d
  | .expr _ e => withSlots fun slots => lowerEffect cx slots e

/-- the condition of a `for` with the jump out of it -/
def lowerForCondition (cx : Context) (exit : String) : Option Expr → Gen Fragment
  | none => return {}
  | some e => do
    let inner ← withSlots fun slots => lowerCondition cx slots e
    return inner ++ .emit [.jump .jz exit]

def lowerStep (cx : Context) : Option Expr → Gen Fragment
  | none => return {}
  | some e => withSlots fun slots => lowerEffect cx slots e

/-- a `return`, with its value stored if it has one -/
def lowerReturn (cx : Context) : Option Expr → Gen Fragment
  | none => return .emit [.bare .rtn]
  | some e => do
    let inner ← withSlots fun slots => lowerExpr cx slots true e
    match (cx.frames.lookup cx.function).bind (·.result) with
    | none => throw ⟨.valueFromVoid, e.span⟩
    | some a => return inner ++ .emit [popA a, .bare .rtn]

/-- a warning at the first statement that does something -/
def unreachableWarning (rest : List Stmt) : Fragment :=
  match rest.find? (!·.isEmpty) with
  | none => {}
  | some s => .warn s.span "Unreachable statement"

mutual

/-- code of a statement, inside a loop with these labels if there is one -/
def lowerStmt (cx : Context) (loop : Option LoopLabels) : Stmt → Gen Fragment
  | .decl d => lowerLocal cx d
  | .ifThen _ cond yes => do
    let n ← freshLabel
    let test ← withSlots fun slots => lowerCondition cx slots cond
    let yesCode ← lowerStmt cx loop yes
    return test ++ .emit [.jump .jz (label "if_end" n)] ++ yesCode ++ .place (label "if_end" n)
  | .ifElse _ cond yes no => do
    let n ← freshLabel
    let test ← withSlots fun slots => lowerCondition cx slots cond
    let yesCode ← lowerStmt cx loop yes
    -- control that never leaves `yes` at its end needs no way around `no`
    let skip := Fragment.emit (if yes.diverges then [] else [.jump .jmp (label "if_end" n)])
    let noCode ← lowerStmt cx loop no
    return test ++ .emit [.jump .jz (label "if_else" n)] ++ yesCode ++ skip ++ .place (label "if_else" n) ++ noCode ++
      .place (label "if_end" n)
  | .while_ _ cond body => do
    let n ← freshLabel
    let head := label "while_head" n
    let exit := label "while_end" n
    let test ← withSlots fun slots => lowerCondition cx slots cond
    let bodyCode ← lowerStmt cx (some ⟨exit, head⟩) body
    return .place head ++ test ++ .emit [.jump .jz exit] ++ bodyCode ++ .emit [.jump .jmp head] ++ .place exit
  | .doWhile _ body cond => do
    let n ← freshLabel
    let start := label "do_body" n
    let again := label "do_cond" n
    let exit := label "do_end" n
    let bodyCode ← lowerStmt cx (some ⟨exit, again⟩) body
    let test ← withSlots fun slots => lowerCondition cx slots cond
    return .place start ++ bodyCode ++ .place again ++ test ++ .emit [.jump .jnz start] ++ .place exit
  | .for_ _ init cond step body => do
    let n ← freshLabel
    let head := label "for_head" n
    let again := label "for_step" n
    let exit := label "for_end" n
    let initCode ← lowerForInit cx init
    let test ← lowerForCondition cx exit cond
    let bodyCode ← lowerStmt cx (some ⟨exit, again⟩) body
    let stepCode ← lowerStep cx step
    return initCode ++ .place head ++ test ++ bodyCode ++ .place again ++ stepCode ++ .emit [.jump .jmp head] ++
      .place exit
  | .break_ span =>
    match loop with
    | some l => return .emit [.jump .jmp l.breakTo]
    | none => throw ⟨.breakOutsideLoop, span⟩
  | .continue_ span =>
    match loop with
    | some l => return .emit [.jump .jmp l.continueTo]
    | none => throw ⟨.continueOutsideLoop, span⟩
  | .return_ _ value => lowerReturn cx value
  | .expr _ e => withSlots fun slots => lowerEffect cx slots e
  | .block _ body => lowerStmts cx loop body
  | .empty _ => return {}

/-- code of statements up to the first that diverges -/
def lowerStmts (cx : Context) (loop : Option LoopLabels) : List Stmt → Gen Fragment
  | [] => return {}
  | s :: rest => do
    let first ← lowerStmt cx loop s
    if s.diverges then return first ++ unreachableWarning rest
    else
      let more ← lowerStmts cx loop rest
      return first ++ more

end

/-! ## Programs -/

def bindGlobals : List VarDecl → Gen (List Address)
  | [] => return []
  | d :: rest => do
    let a ← bindSlot d.id d.name d.ty d.nameSpan
    let more ← bindGlobals rest
    return a :: more

def bindParams : List Param → Gen (List Address)
  | [] => return []
  | p :: rest => do
    let a ← bindSlot p.id p.name p.ty p.span
    let more ← bindParams rest
    return a :: more

/-- the storage of a function: its result, unless it is `void`, then its parameters -/
def bindFrame (f : FunctionDecl) : Gen Frame := do
  let result ← if f.result.isVoid then pure none else some <$> allocate (f.name ++ ".return") f.result f.nameSpan
  let params ← bindParams f.params
  return ⟨params, result⟩

/-- the frames of functions, the last first -/
def bindFrames (seen : List (String × Frame)) : List FunctionDecl → Gen (List (String × Frame))
  | [] => return seen
  | f :: rest => do
    let frame ← bindFrame f
    bindFrames ((f.name, frame) :: seen) rest

/-- initial values of the globals, a zero where none is given -/
def lowerGlobals (cx : Context) : List (VarDecl × Address) → Gen Fragment
  | [] => return {}
  | (d, a) :: rest => do
    let first ←
      match d.init with
      | some e => do
        let inner ← withSlots fun slots => lowerExpr cx slots true e
        pure (inner ++ .emit [popA a])
      | none => pure (.emit [.store (.zero d.ty.family) a])
    let more ← lowerGlobals cx rest
    return first ++ more

/-- a function: its label and body, with a final return if control can reach the end -/
def lowerFunction (cx : Context) (f : FunctionDecl) : Gen Fragment := do
  let symbols := f.params.foldl (fun acc p => acc ++ .symbol p.span .parameter) (Fragment.symbol f.nameSpan .function)
  let body ← lowerStmts { cx with function := f.name } none f.body
  let last := Fragment.emit (if Stmt.anyDiverges f.body then [] else [.bare .rtn])
  return symbols ++ .place (functionLabel f.name) ++ body ++ last

def lowerFunctions (cx : Context) : List FunctionDecl → Gen Fragment
  | [] => return {}
  | f :: rest => do
    let first ← lowerFunction cx f
    let more ← lowerFunctions cx rest
    return first ++ more

/-- lines that let the host read the globals -/
def readLines (globals : List (VarDecl × Address)) : Fragment := ⟨globals.map fun (d, a) => .read a d.name, [], []⟩

def globalSymbols (globals : List VarDecl) : Fragment := ⟨[], globals.map fun d => ⟨declClass d.ty, d.nameSpan⟩, []⟩

/-- the whole program: readable globals, their initial values, the call of `main`, then the functions -/
def lowerProgram (info : TypeInfo) (p : Program) : Gen Fragment := do
  -- every frame has its addresses before any code is made, so a call may come before the function
  let addresses ← bindGlobals p.globals
  let frames ← bindFrames [] p.functions
  let globals := p.globals.zip addresses
  let cx : Context := ⟨info, .ofFunctions p.functions, frames, ""⟩
  let entry ← lowerGlobals cx globals
  let functions ← lowerFunctions cx p.functions
  return globalSymbols p.globals ++ readLines globals ++ entry ++
    .emit [.jump .call (functionLabel "main"), .bare .halt] ++ functions

end Codegen

/-- the output of code generation -/
structure Generated where
  lines : List Line
  destinations : List Destination
  symbols : List SourceSymbol
  warnings : List Diagnostic
deriving DecidableEq, Repr

/-- assembly of a program by the facts found for it -/
def Program.generate (p : Program) (info : TypeInfo) : Except CodegenError Generated := do
  let (out, storage) ← (Codegen.lowerProgram info p).run ⟨#[], [], 0⟩
  return ⟨out.lines, storage.destinations.toList, out.symbols, out.warnings⟩

end C15

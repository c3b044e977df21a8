/-
Types of a program: every expression gets a type, every name the declaration it means.

The rules. Both sides of an operator, an assignment, an initializer, an argument and a `return` have one family; only a
cast changes it. Comparisons, logical operators and `!` give `int`. `void` is no value and no variable. A constant is
initialized and never written. Functions are visible everywhere, globals from their declaration on, locals to the end of
their scope: the innermost declaration of a name wins, and a scope declares a name once. A function body, a block, a
branch of an `if` and a whole `for` are scopes; the body of a `while` or `do` that is no block belongs to the scope
around it.

Checking yields facts: the type of each expression, the declaration of each variable occurrence, the variables, and
which of them are read.
-/
import C15.Program

namespace C15

/-- where a variable is declared -/
inductive VarKind where
  | global
  | localVar
  | param
deriving DecidableEq, Repr

structure Variable where
  decl : NodeId
  name : String
  ty : Ty
  kind : VarKind
deriving DecidableEq, Repr

structure Signature where
  params : List Ty
  result : Ty
deriving DecidableEq, Repr

/-- what a value is used for where one type is asked for -/
inductive Use where
  | initializer (name : String)
  | assign (name : String)
  | argument (number : Nat) (callee : String)
  | result (function : String)
deriving DecidableEq, Repr

def Use.text : Use → String
  | .initializer name => s!"Cannot initialize '{name}'"
  | .assign name => s!"Cannot assign to '{name}'"
  | .argument number callee => s!"Argument {number} of '{callee}'"
  | .result function => s!"Return type mismatch in '{function}'"

/-- why a program is refused -/
inductive TypeCause where
  | functionRedefined (name : String)
  | noMain
  | mainHasParameters
  | nameOfFunction (name : String)
  | redeclared (name : String)
  | functionAsVariable (name : String)
  | unknownVariable (name : String)
  | voidParameter (name : String)
  | voidVariable (name : String)
  | uninitializedConstant (name : String)
  | mismatch (use : Use) (expected actual : Base)
  | breakOutsideLoop
  | continueOutsideLoop
  | valueFromVoid (function : String)
  | missingValue (function : String) (result : Ty)
  | voidValue
  | operandMismatch (op : BinOp) (left right : Family)
  | undefinedOnFloat (symbol : String)
  | updatedConstant (name : String)
  | assignedConstant (name : String)
  | variableAsFunction (name : String)
  | unknownFunction (name : String)
  | functionArity (name : String) (expected actual : Nat)
  | intrinsicArity (callee : Intrinsic) (actual : Nat)
deriving DecidableEq, Repr

def TypeCause.message : TypeCause → String
  | .functionRedefined name => s!"Function '{name}' is already defined"
  | .noMain => "No main function found"
  | .mainHasParameters => "Function 'main' cannot take parameters"
  | .nameOfFunction name => s!"'{name}' is already declared as a function"
  | .redeclared name => s!"'{name}' is already declared in this scope"
  | .functionAsVariable name => s!"'{name}' is a function, not a variable"
  | .unknownVariable name => s!"Unknown variable: {name}"
  | .voidParameter name => s!"Parameter '{name}' cannot be void"
  | .voidVariable name => s!"Variable '{name}' cannot be void"
  | .uninitializedConstant name => s!"Constant '{name}' must be initialized"
  | .mismatch use expected actual => s!"{use.text}: expected {expected.text}, got {actual.text}"
  | .breakOutsideLoop => "'break' outside of a loop"
  | .continueOutsideLoop => "'continue' outside of a loop"
  | .valueFromVoid function => s!"Void function '{function}' cannot return a value"
  | .missingValue function result => s!"Function '{function}' must return a value of type {result.text}"
  | .voidValue => "Void value cannot be used in an expression"
  | .operandMismatch op left right => s!"Type mismatch: '{op.symbol}' operands are {left.text} and {right.text}"
  | .undefinedOnFloat symbol => s!"Operator '{symbol}' is not defined for float"
  | .updatedConstant name => s!"Cannot modify constant '{name}'"
  | .assignedConstant name => s!"Cannot assign to constant '{name}'"
  | .variableAsFunction name => s!"'{name}' is a variable, not a function"
  | .unknownFunction name => s!"Unknown function: {name}"
  | .functionArity name expected actual => s!"Function '{name}' expects {expected} argument(s), got {actual}"
  | .intrinsicArity callee actual => s!"'{callee.name}' expects {callee.arity} argument(s), got {actual}"

abbrev TypeError := Located TypeCause

/-! ## Facts -/

/-- what checking finds out, in the order it does. The lists serve as tables from identities, and the first entry of an
identity counts; a program that is read has distinct identities, so that none has a second entry. -/
structure Facts where
  /-- type of each expression, without `const` -/
  types : List (NodeId × Base) := []
  /-- declaration of each variable occurrence -/
  resolved : List (NodeId × NodeId) := []
  vars : List Variable := []
  /-- declarations whose value is read -/
  used : List NodeId := []
deriving DecidableEq, Repr

namespace Facts

def append (a b : Facts) : Facts :=
  ⟨a.types ++ b.types, a.resolved ++ b.resolved, a.vars ++ b.vars, a.used ++ b.used⟩

instance : Append Facts := ⟨append⟩

@[simp] theorem types_append (a b : Facts) : (a ++ b).types = a.types ++ b.types := rfl

@[simp] theorem resolved_append (a b : Facts) : (a ++ b).resolved = a.resolved ++ b.resolved := rfl

@[simp] theorem vars_append (a b : Facts) : (a ++ b).vars = a.vars ++ b.vars := rfl

@[simp] theorem used_append (a b : Facts) : (a ++ b).used = a.used ++ b.used := rfl

/-- the type of an expression -/
def typed (id : NodeId) (base : Base) : Facts := ⟨[(id, base)], [], [], []⟩

/-- the declaration of an occurrence -/
def resolves (id decl : NodeId) : Facts := ⟨[], [(id, decl)], [], []⟩

/-- a declared variable -/
def declares (v : Variable) : Facts := ⟨[], [], [v], []⟩

/-- a read variable -/
def reads (decl : NodeId) : Facts := ⟨[], [], [], [decl]⟩

end Facts

/-- the facts of a program and its functions -/
structure TypeInfo where
  facts : Facts
  functions : List (String × Signature)
deriving DecidableEq, Repr

namespace TypeInfo

/-- type of the expression with an identity, by its first entry, which is its only one where identities are distinct -/
def typeOf (info : TypeInfo) (id : NodeId) : Option Base := info.facts.types.lookup id

def familyOf (info : TypeInfo) (id : NodeId) : Option Family := (info.typeOf id).bind Base.family

/-- variable that the occurrence with an identity means -/
def variableOf (info : TypeInfo) (id : NodeId) : Option Variable :=
  (info.facts.resolved.lookup id).bind fun decl => info.facts.vars.find? (·.decl == decl)

def isUsed (info : TypeInfo) (decl : NodeId) : Bool := info.facts.used.contains decl

end TypeInfo

namespace Typing

/-! ## Environments -/

/-- what is visible at a point of a program, the innermost scope first -/
structure Env where
  functions : List (String × Signature)
  scopes : List (List Variable)
  function : String
  result : Ty
  inLoop : Bool
deriving Repr

namespace Env

def signature? (env : Env) (name : String) : Option Signature := env.functions.lookup name

/-- the innermost declaration of a name -/
def find? (env : Env) (name : String) : Option Variable :=
  env.scopes.findSome? fun scope => scope.find? (·.name == name)

def enter (env : Env) : Env := { env with scopes := [] :: env.scopes }

/-- add a variable to the innermost scope -/
def declare (env : Env) (v : Variable) (span : Span) : Except TypeError Env :=
  -- only a global keeps away from the names of functions: a parameter or local may have one, and calls still mean the
  -- function
  if env.scopes.length = 1 ∧ (env.signature? v.name).isSome then .error ⟨.nameOfFunction v.name, span⟩
  else
    match env.scopes with
    | [] => .ok { env with scopes := [[v]] }
    | scope :: outer =>
      if scope.any (·.name == v.name) then .error ⟨.redeclared v.name, span⟩
      else .ok { env with scopes := (v :: scope) :: outer }

/-- the variable that a name means -/
def resolve (env : Env) (name : String) (span : Span) : Except TypeError Variable :=
  match env.find? name with
  | some v => .ok v
  | none =>
    if (env.signature? name).isSome then .error ⟨.functionAsVariable name, span⟩
    else .error ⟨.unknownVariable name, span⟩

end Env

/-! ## Expressions -/

/-- the family of a type whose value is used -/
def family (base : Base) (span : Span) : Except TypeError Family :=
  match base.family with
  | some f => .ok f
  | none => .error ⟨.voidValue, span⟩

/-- a value of this family where a type is asked for -/
def expectFamily (expected : Base) (actual : Family) (use : Use) (span : Span) : Except TypeError Unit :=
  if expected.family = some actual then .ok () else .error ⟨.mismatch use expected actual.base, span⟩

/-- an update; the variable is read unless the value is dropped -/
def checkUpdate (env : Env) (dropped : Bool) (id : NodeId) (span : Span) (targetId : NodeId) (targetSpan : Span)
    (target : String) : Except TypeError (Base × Facts) := do
  let v ← env.resolve target targetSpan
  if v.ty.isConst then throw ⟨.updatedConstant target, span⟩
  let read := if dropped then {} else Facts.reads v.decl
  return (v.ty.base, .resolves targetId v.decl ++ .resolves id v.decl ++ read ++ .typed targetId v.ty.base ++
    .typed id v.ty.base)

mutual

/-- the type of an expression and the facts of its nodes -/
def checkExpr (env : Env) : Expr → Except TypeError (Base × Facts)
  | .literal id _ value => return (value.base, .typed id value.base)
  | .ident id span name => do
    let v ← env.resolve name span
    return (v.ty.base, .resolves id v.decl ++ .reads v.decl ++ .typed id v.ty.base)
  | .binary id span op lhs rhs => do
    let (leftBase, leftFacts) ← checkExpr env lhs
    let left ← family leftBase lhs.span
    let (rightBase, rightFacts) ← checkExpr env rhs
    let right ← family rightBase rhs.span
    if left ≠ right then throw ⟨.operandMismatch op left right, span⟩
    if op.isIntegerOnly && !left.isInteger then throw ⟨.undefinedOnFloat op.symbol, span⟩
    let base := if op.isComparison || op.isLogical then .int else left.base
    return (base, leftFacts ++ rightFacts ++ .typed id base)
  | .unary id span op operand => do
    let (operandBase, facts) ← checkExpr env operand
    let f ← family operandBase operand.span
    if op = .bitNot && !f.isInteger then throw ⟨.undefinedOnFloat "~", span⟩
    let base := if op = .not then .int else f.base
    return (base, facts ++ .typed id base)
  | .update id span _ targetId targetSpan target => checkUpdate env false id span targetId targetSpan target
  | .assign id _ op target targetSpan value => do
    -- what is wrong with the target is reported before anything in the value
    let v ← env.resolve target targetSpan
    if v.ty.isConst then throw ⟨.assignedConstant target, targetSpan⟩
    let (valueBase, facts) ← checkExpr env value
    let f ← family valueBase value.span
    expectFamily v.ty.base f (.assign target) value.span
    match op with
    | none => return (v.ty.base, .resolves id v.decl ++ facts ++ .typed id v.ty.base)
    | some op =>
      if op.isIntegerOnly && v.ty.base == .float then throw ⟨.undefinedOnFloat (op.symbol ++ "="), targetSpan⟩
      return (v.ty.base, .resolves id v.decl ++ facts ++ .reads v.decl ++ .typed id v.ty.base)
  | .call id span callee calleeSpan args => do
    match env.signature? callee with
    | none =>
      if (env.find? callee).isSome then throw ⟨.variableAsFunction callee, calleeSpan⟩
      else throw ⟨.unknownFunction callee, calleeSpan⟩
    | some sig =>
      if sig.params.length ≠ args.length then throw ⟨.functionArity callee sig.params.length args.length, span⟩
      let facts ← checkArguments env callee 1 sig.params args
      return (sig.result.base, facts ++ .typed id sig.result.base)
  | .intrinsic id span callee _ args => do
    if args.length ≠ callee.arity then throw ⟨.intrinsicArity callee args.length, span⟩
    let facts ← checkValues env args
    return (callee.result, facts ++ .typed id callee.result)
  | .cast id _ base operand => do
    let (operandBase, facts) ← checkExpr env operand
    let _ ← family operandBase operand.span
    return (base, facts ++ .typed id base)

/-- arguments against the types of the parameters -/
def checkArguments (env : Env) (callee : String) : Nat → List Ty → List Expr → Except TypeError Facts
  | number, param :: params, arg :: args => do
    let (base, facts) ← checkExpr env arg
    let f ← family base arg.span
    expectFamily param.base f (.argument number callee) arg.span
    let rest ← checkArguments env callee (number + 1) params args
    return facts ++ rest
  | _, _, _ => return {}

/-- values of any family -/
def checkValues (env : Env) : List Expr → Except TypeError Facts
  | [] => return {}
  | arg :: args => do
    let (base, facts) ← checkExpr env arg
    let _ ← family base arg.span
    let rest ← checkValues env args
    return facts ++ rest

end

/-- an expression whose value is used -/
def checkValue (env : Env) (e : Expr) : Except TypeError (Family × Facts) := do
  let (base, facts) ← checkExpr env e
  let f ← family base e.span
  return (f, facts)

/-- an expression whose value is dropped: an update then writes its variable without reading it -/
def checkEffect (env : Env) : Expr → Except TypeError Facts
  | .update id span _ targetId targetSpan target => do
    let (_, facts) ← checkUpdate env true id span targetId targetSpan target
    return facts
  | e => do
    let (_, facts) ← checkExpr env e
    return facts

/-- an expression that may be absent, its value used -/
def checkOptional (env : Env) : Option Expr → Except TypeError Facts
  | none => return {}
  | some e => do
    let (_, facts) ← checkValue env e
    return facts

/-! ## Statements -/

/-- a variable declaration: its initializer does not see it -/
def checkDecl (env : Env) (kind : VarKind) (d : VarDecl) : Except TypeError (Env × Facts) := do
  if d.ty.isVoid then throw ⟨.voidVariable d.name, d.nameSpan⟩
  let facts ←
    match d.init with
    | some e => do
      let (f, facts) ← checkValue env e
      expectFamily d.ty.base f (.initializer d.name) e.span
      pure facts
    | none => if d.ty.isConst then throw ⟨.uninitializedConstant d.name, d.nameSpan⟩ else pure {}
  let v : Variable := ⟨d.id, d.name, d.ty, kind⟩
  let env ← env.declare v d.nameSpan
  return (env, facts ++ .declares v)

/-- a `return` against the result of the function -/
def checkReturn (env : Env) (span : Span) : Option Expr → Except TypeError Facts
  | none => if env.result.isVoid then return {} else throw ⟨.missingValue env.function env.result, span⟩
  | some e => do
    if env.result.isVoid then throw ⟨.valueFromVoid env.function, e.span⟩
    let (f, facts) ← checkValue env e
    expectFamily env.result.base f (.result env.function) e.span
    return facts

def checkForInit (env : Env) : ForInit → Except TypeError (Env × Facts)
  | .nothing => return (env, {})
  | .decl d => checkDecl env .localVar d
  | .expr _ e => do
    let facts ← checkEffect env e
    return (env, facts)

/-- the step of a `for`, its value dropped -/
def checkStep (env : Env) : Option Expr → Except TypeError Facts
  | none => return {}
  | some e => checkEffect env e

mutual

/-- the environment after a statement, and its facts -/
def checkStmt (env : Env) : Stmt → Except TypeError (Env × Facts)
  | .decl d => checkDecl env .localVar d
  | .ifThen _ cond yes => do
    let (_, condFacts) ← checkValue env cond
    let (_, yesFacts) ← checkStmt env.enter yes
    return (env, condFacts ++ yesFacts)
  | .ifElse _ cond yes no => do
    let (_, condFacts) ← checkValue env cond
    let (_, yesFacts) ← checkStmt env.enter yes
    let (_, noFacts) ← checkStmt env.enter no
    return (env, condFacts ++ yesFacts ++ noFacts)
  | .while_ _ cond body => do
    let (_, condFacts) ← checkValue env cond
    -- no scope is entered: what the body declares is still there behind the loop
    let (after, bodyFacts) ← checkStmt { env with inLoop := true } body
    return ({ after with inLoop := env.inLoop }, condFacts ++ bodyFacts)
  | .doWhile _ body cond => do
    let (after, bodyFacts) ← checkStmt { env with inLoop := true } body
    let outside := { after with inLoop := env.inLoop }
    let (_, condFacts) ← checkValue outside cond
    return (outside, bodyFacts ++ condFacts)
  | .for_ _ init cond step body => do
    let (inner, initFacts) ← checkForInit env.enter init
    let condFacts ← checkOptional inner cond
    -- the step is checked before the body, though it comes after it
    let stepFacts ← checkStep inner step
    let (_, bodyFacts) ← checkStmt { inner with inLoop := true } body
    return (env, initFacts ++ condFacts ++ stepFacts ++ bodyFacts)
  | .break_ span => if env.inLoop then return (env, {}) else throw ⟨.breakOutsideLoop, span⟩
  | .continue_ span => if env.inLoop then return (env, {}) else throw ⟨.continueOutsideLoop, span⟩
  | .return_ span value => do
    let facts ← checkReturn env span value
    return (env, facts)
  | .expr _ e => do
    let facts ← checkEffect env e
    return (env, facts)
  | .block _ body => do
    let (_, facts) ← checkStmts env.enter body
    return (env, facts)
  | .empty _ => return (env, {})

/-- statements one after the other -/
def checkStmts (env : Env) : List Stmt → Except TypeError (Env × Facts)
  | [] => return (env, {})
  | s :: rest => do
    let (env, facts) ← checkStmt env s
    let (env, restFacts) ← checkStmts env rest
    return (env, facts ++ restFacts)

end

/-! ## Programs -/

def checkParams (env : Env) : List Param → Except TypeError (Env × Facts)
  | [] => return (env, {})
  | p :: rest => do
    if p.ty.isVoid then throw ⟨.voidParameter p.name, p.span⟩
    let v : Variable := ⟨p.id, p.name, p.ty, .param⟩
    let env ← env.declare v p.span
    let (env, facts) ← checkParams env rest
    return (env, .declares v ++ facts)

/-- a function: its parameters share the scope of the body -/
def checkFunction (env : Env) (f : FunctionDecl) : Except TypeError Facts := do
  let inner : Env := { env.enter with function := f.name, result := f.result }
  let (inner, paramFacts) ← checkParams inner f.params
  let (_, bodyFacts) ← checkStmts inner f.body
  return paramFacts ++ bodyFacts

def checkItems (env : Env) : List Item → Except TypeError Facts
  | [] => return {}
  | .global d :: rest => do
    let (env, facts) ← checkDecl env .global d
    let restFacts ← checkItems env rest
    return facts ++ restFacts
  | .function f :: rest => do
    let facts ← checkFunction env f
    let restFacts ← checkItems env rest
    return facts ++ restFacts

/-- the signatures of functions, each name once -/
def collect (seen : List (String × Signature)) : List FunctionDecl → Except TypeError (List (String × Signature))
  | [] => return seen
  | f :: rest =>
    if (seen.lookup f.name).isSome then throw ⟨.functionRedefined f.name, f.nameSpan⟩
    else collect (seen ++ [(f.name, ⟨f.params.map (·.ty), f.result⟩)]) rest

/-- `main` exists and takes no parameters -/
def checkMain (p : Program) : Except TypeError Unit :=
  match p.functions.find? (·.name == "main") with
  | none => .error ⟨.noMain, ⟨0, 0⟩⟩
  | some f => if f.params.isEmpty then .ok () else .error ⟨.mainHasParameters, f.nameSpan⟩

end Typing

/-- the facts of a program, or the first rule it breaks -/
def Program.check (p : Program) : Except TypeError TypeInfo := do
  let functions ← Typing.collect [] p.functions
  Typing.checkMain p
  let facts ← Typing.checkItems ⟨functions, [[]], "", .plain .void, false⟩ p.items
  return ⟨facts, functions⟩

end C15

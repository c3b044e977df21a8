/-
The type system, as rules.

A scope is what a place sees: the declarations before it that are still in force, the latest first, and the names that
the innermost block has declared so far. Nothing is taken out of a scope; after a block the scope in front of it goes
on. The rules:
- `Scope.Means`: a name means its latest declaration;
- `HasType`: the type of an expression, without `const`. Operands have one type, and only a cast changes it;
- `Declares`, `Accepts`: declarations and statements;
- `Program.WellTyped`: functions are visible everywhere, a global from its declaration on.
Where a place is depends on the text alone: `Stmt.exprs` and `Program.exprs` list the expressions of a program with the
scopes they stand in, `Expr.nodes` the nodes of an expression and `Expr.occurrences` the places in it where a variable
is meant.
-/
import C15.Proofs.Scopes

namespace C15

/-! ## Scopes -/

/-- declarations in force at a place, the latest first, and the names that the innermost block has declared -/
structure Scope where
  visible : List Variable
  own : List String
deriving DecidableEq, Repr

namespace Scope

def empty : Scope := ⟨[], []⟩

def add (Γ : Scope) (v : Variable) : Scope := ⟨v :: Γ.visible, v.name :: Γ.own⟩

def addAll (Γ : Scope) (vs : List Variable) : Scope := vs.foldl add Γ

/-- inside a block that starts here -/
def enter (Γ : Scope) : Scope := ⟨Γ.visible, []⟩

/-- behind local declarations -/
def declare (Γ : Scope) (ds : List VarDecl) : Scope := Γ.addAll (ds.map (·.variable .localVar))

/-- behind a statement -/
def after (Γ : Scope) (s : Stmt) : Scope := Γ.declare s.declared

/-- inside a function: its parameters are declared in the block of its body -/
def inside (Γ : Scope) (f : FunctionDecl) : Scope := Γ.enter.addAll (f.params.map Param.variable)

/-- a name means the latest declaration of it -/
inductive Latest : List Variable → String → Variable → Prop where
  | here {v : Variable} {vs : List Variable} : Latest (v :: vs) v.name v
  | before {v w : Variable} {vs : List Variable} {name : String} (hw : w.name ≠ name) (h : Latest vs name v) :
      Latest (w :: vs) name v

/-- the declaration that a name means at a place -/
def Means (Γ : Scope) (name : String) (v : Variable) : Prop := Latest Γ.visible name v

theorem latest_iff {vs : List Variable} {name : String} {v : Variable} :
    Latest vs name v ↔ vs.find? (·.name == name) = some v := by
  constructor
  · intro h
    induction h with
    | here => simp
    | before hw _ ih => simpa [List.find?_cons, hw] using ih
  · intro h
    induction vs with
    | nil => cases h
    | cons w vs ih =>
      by_cases hw : w.name = name
      · subst hw
        simp only [List.find?_cons, beq_self_eq_true, Option.some.injEq] at h
        subst h
        exact .here
      · simp only [List.find?_cons, beq_false_of_ne hw] at h
        exact .before hw (ih h)

end Scope

/-! ## Expressions -/

/-- comparisons and logical operators give a truth value -/
def BinOp.IsTest (op : BinOp) : Prop := op.isComparison = true ∨ op.isLogical = true

instance (op : BinOp) : Decidable op.IsTest := inferInstanceAs (Decidable (_ ∨ _))

section Rules

variable (fs : List FunctionDecl)

mutual

/-- the type of an expression at a place, in a program with the functions `fs` -/
inductive HasType (Γ : Scope) : Expr → Base → Prop where
  | literal {id : NodeId} {span : Span} (value : Literal) : HasType Γ (.literal id span value) value.base
  | ident {id : NodeId} {span : Span} {name : String} {v : Variable} (hv : Γ.Means name v) :
      HasType Γ (.ident id span name) v.ty.base
  | arithmetic {id : NodeId} {span : Span} {op : BinOp} {lhs rhs : Expr} {b : Base} (hop : ¬ op.IsTest)
      (hl : HasType Γ lhs b) (hr : HasType Γ rhs b) (hb : b ≠ .void) (hinteger : op.isIntegerOnly = true → b ≠ .float) :
      HasType Γ (.binary id span op lhs rhs) b
  | test {id : NodeId} {span : Span} {op : BinOp} {lhs rhs : Expr} {b : Base} (hop : op.IsTest)
      (hl : HasType Γ lhs b) (hr : HasType Γ rhs b) (hb : b ≠ .void) : HasType Γ (.binary id span op lhs rhs) .int
  | neg {id : NodeId} {span : Span} {e : Expr} {b : Base} (he : HasType Γ e b) (hb : b ≠ .void) :
      HasType Γ (.unary id span .neg e) b
  | not {id : NodeId} {span : Span} {e : Expr} {b : Base} (he : HasType Γ e b) (hb : b ≠ .void) :
      HasType Γ (.unary id span .not e) .int
  | bitNot {id : NodeId} {span : Span} {e : Expr} {b : Base} (he : HasType Γ e b) (hb : b ≠ .void)
      (hinteger : b ≠ .float) : HasType Γ (.unary id span .bitNot e) b
  | update {id : NodeId} {span : Span} {op : UpdateOp} {targetId : NodeId} {targetSpan : Span} {target : String}
      {v : Variable} (hv : Γ.Means target v) (hconst : v.ty.isConst = false) :
      HasType Γ (.update id span op targetId targetSpan target) v.ty.base
  | assign {id : NodeId} {span : Span} {target : String} {targetSpan : Span} {value : Expr} {v : Variable}
      (hv : Γ.Means target v) (hconst : v.ty.isConst = false) (he : HasType Γ value v.ty.base)
      (hb : v.ty.base ≠ .void) :
      HasType Γ (.assign id span none target targetSpan value) v.ty.base
  | compound {id : NodeId} {span : Span} {op : BinOp} {target : String} {targetSpan : Span} {value : Expr}
      {v : Variable} (hv : Γ.Means target v) (hconst : v.ty.isConst = false) (he : HasType Γ value v.ty.base)
      (hb : v.ty.base ≠ .void) (hinteger : op.isIntegerOnly = true → v.ty.base ≠ .float) :
      HasType Γ (.assign id span (some op) target targetSpan value) v.ty.base
  /-- a name in front of arguments is that of a function, whatever variable has it too -/
  | call {id : NodeId} {span : Span} {calleeSpan : Span} {args : List Expr} {f : FunctionDecl} (hf : f ∈ fs)
      (hargs : HasTypes Γ (f.params.map (·.ty)) args) : HasType Γ (.call id span f.name calleeSpan args) f.result.base
  | intrinsic {id : NodeId} {span : Span} {callee : Intrinsic} {calleeSpan : Span} {args : List Expr}
      (hlength : args.length = callee.arity) (hargs : HasValues Γ args) :
      HasType Γ (.intrinsic id span callee calleeSpan args) callee.result
  | cast {id : NodeId} {span : Span} {base b : Base} {e : Expr} (he : HasType Γ e b) (hb : b ≠ .void) :
      HasType Γ (.cast id span base e) base

/-- arguments of the types of the parameters, one for each -/
inductive HasTypes (Γ : Scope) : List Ty → List Expr → Prop where
  | nil : HasTypes Γ [] []
  | cons {param : Ty} {params : List Ty} {arg : Expr} {args : List Expr} (harg : HasType Γ arg param.base)
      (hb : param.base ≠ .void) (hargs : HasTypes Γ params args) : HasTypes Γ (param :: params) (arg :: args)

/-- arguments of any type but `void` -/
inductive HasValues (Γ : Scope) : List Expr → Prop where
  | nil : HasValues Γ []
  | cons {arg : Expr} {args : List Expr} {b : Base} (harg : HasType Γ arg b) (hb : b ≠ .void)
      (hargs : HasValues Γ args) : HasValues Γ (arg :: args)

end

/-- an expression that has a value -/
def HasValue (Γ : Scope) (e : Expr) : Prop := ∃ b, HasType fs Γ e b ∧ b ≠ .void

/-! ## Statements -/

/-- a declaration of a name that is new in its block; the initializer does not see it, and a constant has one -/
structure Declares (Γ : Scope) (d : VarDecl) : Prop where
  value : d.ty.base ≠ .void
  fresh : d.name ∉ Γ.own
  init : ∀ e ∈ d.init, HasType fs Γ e d.ty.base
  const : d.ty.isConst = true → d.init ≠ none

/-- what the header of a `for` starts with -/
inductive Starts (Γ : Scope) : ForInit → Prop where
  | nothing : Starts Γ .nothing
  | decl {d : VarDecl} (hd : Declares fs Γ d) : Starts Γ (.decl d)
  | expr {span : Span} {e : Expr} {b : Base} (he : HasType fs Γ e b) : Starts Γ (.expr span e)

mutual

/-- a statement in a function with the result `result`, in a loop or not. A branch of an `if`, a block and a `for` are
blocks of their own; the body of a `while` or `do` is not. -/
inductive Accepts (result : Ty) : Bool → Scope → Stmt → Prop where
  | decl {loop : Bool} {Γ : Scope} {d : VarDecl} (hd : Declares fs Γ d) : Accepts result loop Γ (.decl d)
  | ifThen {loop : Bool} {Γ : Scope} {span : Span} {cond : Expr} {yes : Stmt} (hcond : HasValue fs Γ cond)
      (hyes : Accepts result loop Γ.enter yes) : Accepts result loop Γ (.ifThen span cond yes)
  | ifElse {loop : Bool} {Γ : Scope} {span : Span} {cond : Expr} {yes no : Stmt} (hcond : HasValue fs Γ cond)
      (hyes : Accepts result loop Γ.enter yes) (hno : Accepts result loop Γ.enter no) :
      Accepts result loop Γ (.ifElse span cond yes no)
  | while_ {loop : Bool} {Γ : Scope} {span : Span} {cond : Expr} {body : Stmt} (hcond : HasValue fs Γ cond)
      (hbody : Accepts result true Γ body) : Accepts result loop Γ (.while_ span cond body)
  | doWhile {loop : Bool} {Γ : Scope} {span : Span} {body : Stmt} {cond : Expr} (hbody : Accepts result true Γ body)
      (hcond : HasValue fs (Γ.after body) cond) : Accepts result loop Γ (.doWhile span body cond)
  | for_ {loop : Bool} {Γ : Scope} {span : Span} {init : ForInit} {cond step : Option Expr} {body : Stmt}
      (hinit : Starts fs Γ.enter init) (hcond : ∀ e ∈ cond, HasValue fs (Γ.enter.declare init.declared) e)
      (hstep : ∀ e ∈ step, ∃ b, HasType fs (Γ.enter.declare init.declared) e b)
      (hbody : Accepts result true (Γ.enter.declare init.declared) body) :
      Accepts result loop Γ (.for_ span init cond step body)
  | break_ {Γ : Scope} {span : Span} : Accepts result true Γ (.break_ span)
  | continue_ {Γ : Scope} {span : Span} : Accepts result true Γ (.continue_ span)
  | return_ {loop : Bool} {Γ : Scope} {span : Span} (hresult : result.base = .void) :
      Accepts result loop Γ (.return_ span none)
  | returnValue {loop : Bool} {Γ : Scope} {span : Span} {e : Expr} (he : HasType fs Γ e result.base)
      (hresult : result.base ≠ .void) : Accepts result loop Γ (.return_ span (some e))
  | expr {loop : Bool} {Γ : Scope} {span : Span} {e : Expr} {b : Base} (he : HasType fs Γ e b) :
      Accepts result loop Γ (.expr span e)
  | block {loop : Bool} {Γ : Scope} {span : Span} {body : List Stmt} (hbody : AcceptsAll result loop Γ.enter body) :
      Accepts result loop Γ (.block span body)
  | empty {loop : Bool} {Γ : Scope} {span : Span} : Accepts result loop Γ (.empty span)

/-- statements one after the other -/
inductive AcceptsAll (result : Ty) : Bool → Scope → List Stmt → Prop where
  | nil {loop : Bool} {Γ : Scope} : AcceptsAll result loop Γ []
  | cons {loop : Bool} {Γ : Scope} {s : Stmt} {rest : List Stmt} (hs : Accepts result loop Γ s)
      (hrest : AcceptsAll result loop (Γ.after s) rest) : AcceptsAll result loop Γ (s :: rest)

end

/-! ## Programs -/

/-- a function whose parameters have values and different names -/
structure FunctionTyped (Γ : Scope) (f : FunctionDecl) : Prop where
  values : ∀ q ∈ f.params, q.ty.base ≠ .void
  names : (f.params.map (·.name)).Nodup
  body : AcceptsAll fs f.result false (Γ.inside f) f.body

/-- items one after the other: a global has no name of a function, and is visible from its declaration on -/
inductive ItemsTyped : Scope → List Item → Prop where
  | nil {Γ : Scope} : ItemsTyped Γ []
  | global {Γ : Scope} {d : VarDecl} {rest : List Item} (hd : Declares fs Γ d) (hname : ∀ f ∈ fs, f.name ≠ d.name)
      (hrest : ItemsTyped (Γ.add (d.variable .global)) rest) : ItemsTyped Γ (.global d :: rest)
  | function {Γ : Scope} {f : FunctionDecl} {rest : List Item} (hf : FunctionTyped fs Γ f) (hrest : ItemsTyped Γ rest) :
      ItemsTyped Γ (.function f :: rest)

end Rules

/-- a program that the rules accept: its functions have different names, and `main` is one of them, without
parameters -/
structure Program.WellTyped (p : Program) : Prop where
  names : (p.functions.map (·.name)).Nodup
  main : ∃ f ∈ p.functions, f.name = "main" ∧ f.params = []
  items : ItemsTyped p.functions .empty p.items

/-! ## Places -/

mutual

/-- the nodes of an expression, each after its operands; the variable of an update is a node of its own -/
def Expr.nodes : Expr → List Expr
  | .literal id span value => [.literal id span value]
  | .ident id span name => [.ident id span name]
  | .binary id span op lhs rhs => lhs.nodes ++ rhs.nodes ++ [.binary id span op lhs rhs]
  | .unary id span op e => e.nodes ++ [.unary id span op e]
  | .update id span op targetId targetSpan target =>
    [.ident targetId targetSpan target, .update id span op targetId targetSpan target]
  | .call id span callee calleeSpan args => Expr.nodesOf args ++ [.call id span callee calleeSpan args]
  | .intrinsic id span callee calleeSpan args => Expr.nodesOf args ++ [.intrinsic id span callee calleeSpan args]
  | .assign id span op target targetSpan value => value.nodes ++ [.assign id span op target targetSpan value]
  | .cast id span base e => e.nodes ++ [.cast id span base e]

def Expr.nodesOf : List Expr → List Expr
  | [] => []
  | e :: es => e.nodes ++ Expr.nodesOf es

end

mutual

/-- the nodes that mean a variable, with its name: its value, its update and the node updated, its assignment -/
def Expr.occurrences : Expr → List (NodeId × String)
  | .literal .. => []
  | .ident id _ name => [(id, name)]
  | .binary _ _ _ lhs rhs => lhs.occurrences ++ rhs.occurrences
  | .unary _ _ _ e | .cast _ _ _ e => e.occurrences
  | .update id _ _ targetId _ target => [(targetId, target), (id, target)]
  | .call _ _ _ _ args | .intrinsic _ _ _ _ args => Expr.occurrencesOf args
  | .assign id _ _ target _ value => (id, target) :: value.occurrences

def Expr.occurrencesOf : List Expr → List (NodeId × String)
  | [] => []
  | e :: es => e.occurrences ++ Expr.occurrencesOf es

end

/-- an expression that may be absent, where it stands -/
def Scope.place (Γ : Scope) (e : Option Expr) : List (Scope × Expr) := e.toList.map (Γ, ·)

def ForInit.exprs (Γ : Scope) : ForInit → List (Scope × Expr)
  | .nothing => []
  | .decl d => Γ.place d.init
  | .expr _ e => [(Γ, e)]

mutual

/-- the expressions of a statement with the scopes they stand in -/
def Stmt.exprs (Γ : Scope) : Stmt → List (Scope × Expr)
  | .decl d => Γ.place d.init
  | .ifThen _ cond yes => (Γ, cond) :: yes.exprs Γ.enter
  | .ifElse _ cond yes no => (Γ, cond) :: (yes.exprs Γ.enter ++ no.exprs Γ.enter)
  | .while_ _ cond body => (Γ, cond) :: body.exprs Γ
  | .doWhile _ body cond => body.exprs Γ ++ [(Γ.after body, cond)]
  | .for_ _ init cond step body =>
    init.exprs Γ.enter ++ (Γ.enter.declare init.declared).place cond ++ (Γ.enter.declare init.declared).place step ++
      body.exprs (Γ.enter.declare init.declared)
  | .return_ _ value => Γ.place value
  | .expr _ e => [(Γ, e)]
  | .block _ body => Stmt.exprsOf Γ.enter body
  | .break_ _ | .continue_ _ | .empty _ => []

def Stmt.exprsOf (Γ : Scope) : List Stmt → List (Scope × Expr)
  | [] => []
  | s :: rest => s.exprs Γ ++ Stmt.exprsOf (Γ.after s) rest

end

def Item.exprsOf (Γ : Scope) : List Item → List (Scope × Expr)
  | [] => []
  | .global d :: rest => Γ.place d.init ++ Item.exprsOf (Γ.add (d.variable .global)) rest
  | .function f :: rest => Stmt.exprsOf (Γ.inside f) f.body ++ Item.exprsOf Γ rest

/-- the expressions of a program with the scopes they stand in -/
def Program.exprs (p : Program) : List (Scope × Expr) := Item.exprsOf .empty p.items

end C15

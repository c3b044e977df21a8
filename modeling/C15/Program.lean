/-
Programs: expressions, statements, declarations.

Every expression, variable declaration and parameter carries an identity, by which the results of checking are looked
up, and every node the span it was read from. An `if` without an `else` is a form of its own; the header of a `for` may
declare a variable or evaluate an expression.
-/
import C15.Literal
import C15.Span

namespace C15

/-- identity of a declaration or an expression; a counter of 32 bits gives the same up to `2 ^ 32` of them -/
abbrev NodeId := Nat

inductive BinOp where
  | add
  | sub
  | mul
  | div
  | rem
  | bitAnd
  | bitOr
  | bitXor
  | shl
  | shr
  | lt
  | gt
  | le
  | ge
  | eq
  | ne
  | and
  | or
deriving DecidableEq, Repr

namespace BinOp

def isComparison : BinOp → Bool
  | .lt | .gt | .le | .ge | .eq | .ne => true
  | _ => false

def isLogical : BinOp → Bool
  | .and | .or => true
  | _ => false

/-- operators defined on the integer families only -/
def isIntegerOnly : BinOp → Bool
  | .rem | .bitAnd | .bitOr | .bitXor | .shl | .shr => true
  | _ => false

def symbol : BinOp → String
  | .add => "+"
  | .sub => "-"
  | .mul => "*"
  | .div => "/"
  | .rem => "%"
  | .bitAnd => "&"
  | .bitOr => "|"
  | .bitXor => "^"
  | .shl => "<<"
  | .shr => ">>"
  | .lt => "<"
  | .gt => ">"
  | .le => "<="
  | .ge => ">="
  | .eq => "=="
  | .ne => "!="
  | .and => "&&"
  | .or => "||"

end BinOp

/-- operators on one value -/
inductive UnOp where
  | neg
  | not
  | bitNot
deriving DecidableEq, Repr

/-- `++` and `--` before or after a variable -/
inductive UpdateOp where
  | preInc
  | preDec
  | postInc
  | postDec
deriving DecidableEq, Repr

namespace UpdateOp

def symbol : UpdateOp → String
  | .preInc | .postInc => "++"
  | .preDec | .postDec => "--"

/-- the value is the one before the step -/
def isPost : UpdateOp → Bool
  | .postInc | .postDec => true
  | _ => false

def isIncrement : UpdateOp → Bool
  | .preInc | .postInc => true
  | _ => false

end UpdateOp

inductive Expr where
  | literal (id : NodeId) (span : Span) (value : Literal)
  | ident (id : NodeId) (span : Span) (name : String)
  | binary (id : NodeId) (span : Span) (op : BinOp) (lhs rhs : Expr)
  | unary (id : NodeId) (span : Span) (op : UnOp) (operand : Expr)
  /-- `x++` and the like; the variable is a node of its own -/
  | update (id : NodeId) (span : Span) (op : UpdateOp) (targetId : NodeId) (targetSpan : Span) (target : String)
  | call (id : NodeId) (span : Span) (callee : String) (calleeSpan : Span) (args : List Expr)
  | intrinsic (id : NodeId) (span : Span) (callee : Intrinsic) (calleeSpan : Span) (args : List Expr)
  /-- `x = v`, or `x op= v` -/
  | assign (id : NodeId) (span : Span) (op : Option BinOp) (target : String) (targetSpan : Span) (value : Expr)
  | cast (id : NodeId) (span : Span) (base : Base) (operand : Expr)
deriving Repr

namespace Expr

def id : Expr → NodeId
  | .literal id .. | .ident id .. | .binary id .. | .unary id .. | .update id .. | .call id .. | .intrinsic id ..
  | .assign id .. | .cast id .. => id

def span : Expr → Span
  | .literal _ s _ | .ident _ s _ | .binary _ s _ _ _ | .unary _ s _ _ | .update _ s _ _ _ _ | .call _ s _ _ _
  | .intrinsic _ s _ _ _ | .assign _ s _ _ _ _ | .cast _ s _ _ => s

end Expr

/-- `const float k = 1.5;`, global or local -/
structure VarDecl where
  id : NodeId
  span : Span
  name : String
  nameSpan : Span
  ty : Ty
  init : Option Expr
deriving Repr

/-- what the header of a `for` starts with -/
inductive ForInit where
  | nothing
  | decl (d : VarDecl)
  | expr (span : Span) (e : Expr)
deriving Repr

inductive Stmt where
  | decl (d : VarDecl)
  | ifThen (span : Span) (cond : Expr) (yes : Stmt)
  | ifElse (span : Span) (cond : Expr) (yes no : Stmt)
  | for_ (span : Span) (init : ForInit) (cond step : Option Expr) (body : Stmt)
  | while_ (span : Span) (cond : Expr) (body : Stmt)
  | doWhile (span : Span) (body : Stmt) (cond : Expr)
  | break_ (span : Span)
  | continue_ (span : Span)
  | return_ (span : Span) (value : Option Expr)
  | expr (span : Span) (e : Expr)
  | block (span : Span) (body : List Stmt)
  | empty (span : Span)
deriving Repr

namespace Stmt

def span : Stmt → Span
  | .decl d => d.span
  | .ifThen s .. | .ifElse s .. | .for_ s .. | .while_ s .. | .doWhile s .. | .break_ s | .continue_ s | .return_ s ..
  | .expr s .. | .block s .. | .empty s => s

mutual

/-- control never passes the end of the statement -/
def diverges : Stmt → Bool
  | .return_ .. | .break_ _ | .continue_ _ => true
  | .block _ body => anyDiverges body
  | .ifElse _ _ yes no => yes.diverges && no.diverges
  | _ => false

/-- some statement of a list diverges -/
def anyDiverges : List Stmt → Bool
  | [] => false
  | s :: rest => s.diverges || anyDiverges rest

end

def isEmpty : Stmt → Bool
  | .empty _ => true
  | _ => false

end Stmt

structure Param where
  id : NodeId
  span : Span
  name : String
  ty : Ty
deriving Repr

structure FunctionDecl where
  span : Span
  name : String
  nameSpan : Span
  result : Ty
  params : List Param
  bodySpan : Span
  body : List Stmt
deriving Repr

inductive Item where
  | function (f : FunctionDecl)
  | global (d : VarDecl)
deriving Repr

structure Program where
  items : List Item
  span : Span
deriving Repr

namespace Program

def globals (p : Program) : List VarDecl :=
  p.items.filterMap fun
    | .global d => some d
    | .function _ => none

def functions (p : Program) : List FunctionDecl :=
  p.items.filterMap fun
    | .function f => some f
    | .global _ => none

end Program

end C15

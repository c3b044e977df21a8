/-
The grammar of programs, and the trees it derives.

A word of the grammar is a list of kinds of tokens, without the end of the source. Each nonterminal is a relation
between a word and a tree: `Expression`, `Binary`, `Unary`, `Postfix`, `Primary` and `Arguments` for expressions,
`Declaration` and `Statement` for statements, `Item` and `Items` for programs. A tree is a program without identities
and spans (`Expr.tree`, `Stmt.tree`, `Program.tree`).
- Binary operators have ten levels (`BinOp.level`), all to the left; assignment stands below them and goes to the right.
- Parentheses and a unary plus leave nothing in the tree, and a minus goes into a literal (`ExprTree.negate`). So an
  operand that may be assigned or updated is one whose tree is a name.
- A statement is open if an `else` after it would belong to an `if` inside. Only a statement that is not open stands
  before an `else`, so each `else` belongs to the nearest `if` that has none.

No rule looks ahead or counts, so nothing here says how a word is read.
-/
import C15.Program
import C15.Token
import Mathlib.Tactic

namespace C15

/-! ## Trees -/

/-- an expression without identities and spans -/
inductive ExprTree where
  | literal (value : Literal)
  | ident (name : String)
  | binary (op : BinOp) (lhs rhs : ExprTree)
  | unary (op : UnOp) (operand : ExprTree)
  | update (op : UpdateOp) (target : String)
  | call (callee : String) (args : List ExprTree)
  | intrinsic (callee : Intrinsic) (args : List ExprTree)
  | assign (op : Option BinOp) (target : String) (value : ExprTree)
  | cast (base : Base) (operand : ExprTree)
deriving Repr

/-- a minus in front becomes part of a literal -/
def ExprTree.negate : ExprTree → ExprTree
  | .literal value => .literal value.negate
  | operand => .unary .neg operand

structure DeclTree where
  ty : Ty
  name : String
  init : Option ExprTree
deriving Repr

/-- what the header of a `for` starts with -/
inductive ForTree where
  | nothing
  | decl (d : DeclTree)
  | expr (e : ExprTree)
deriving Repr

inductive StmtTree where
  | decl (d : DeclTree)
  | ifThen (cond : ExprTree) (yes : StmtTree)
  | ifElse (cond : ExprTree) (yes no : StmtTree)
  | for_ (init : ForTree) (cond step : Option ExprTree) (body : StmtTree)
  | while_ (cond : ExprTree) (body : StmtTree)
  | doWhile (body : StmtTree) (cond : ExprTree)
  | break_
  | continue_
  | return_ (value : Option ExprTree)
  | expr (e : ExprTree)
  | block (body : List StmtTree)
  | empty
deriving Repr

structure ParamTree where
  ty : Ty
  name : String
deriving Repr

structure FunctionTree where
  result : Ty
  name : String
  params : List ParamTree
  body : List StmtTree
deriving Repr

inductive ItemTree where
  | function (f : FunctionTree)
  | global (d : DeclTree)
deriving Repr

mutual

/-- the expression without identities and spans -/
def Expr.tree : Expr → ExprTree
  | .literal _ _ value => .literal value
  | .ident _ _ name => .ident name
  | .binary _ _ op lhs rhs => .binary op lhs.tree rhs.tree
  | .unary _ _ op operand => .unary op operand.tree
  | .update _ _ op _ _ target => .update op target
  | .call _ _ callee _ args => .call callee (Expr.trees args)
  | .intrinsic _ _ callee _ args => .intrinsic callee (Expr.trees args)
  | .assign _ _ op target _ value => .assign op target value.tree
  | .cast _ _ base operand => .cast base operand.tree

def Expr.trees : List Expr → List ExprTree
  | [] => []
  | e :: es => e.tree :: Expr.trees es

end

def VarDecl.tree (d : VarDecl) : DeclTree := ⟨d.ty, d.name, d.init.map Expr.tree⟩

def ForInit.tree : ForInit → ForTree
  | .nothing => .nothing
  | .decl d => .decl d.tree
  | .expr _ e => .expr e.tree

mutual

/-- the statement without identities and spans -/
def Stmt.tree : Stmt → StmtTree
  | .decl d => .decl d.tree
  | .ifThen _ cond yes => .ifThen cond.tree yes.tree
  | .ifElse _ cond yes no => .ifElse cond.tree yes.tree no.tree
  | .for_ _ init cond step body => .for_ init.tree (cond.map Expr.tree) (step.map Expr.tree) body.tree
  | .while_ _ cond body => .while_ cond.tree body.tree
  | .doWhile _ body cond => .doWhile body.tree cond.tree
  | .break_ _ => .break_
  | .continue_ _ => .continue_
  | .return_ _ value => .return_ (value.map Expr.tree)
  | .expr _ e => .expr e.tree
  | .block _ body => .block (Stmt.trees body)
  | .empty _ => .empty

def Stmt.trees : List Stmt → List StmtTree
  | [] => []
  | s :: ss => s.tree :: Stmt.trees ss

end

def Param.tree (p : Param) : ParamTree := ⟨p.ty, p.name⟩

def FunctionDecl.tree (f : FunctionDecl) : FunctionTree :=
  ⟨f.result, f.name, f.params.map Param.tree, Stmt.trees f.body⟩

def Item.tree : Item → ItemTree
  | .function f => .function f.tree
  | .global d => .global d.tree

/-- the program without identities and spans -/
def Program.tree (p : Program) : List ItemTree := p.items.map Item.tree

/-- a tree that is a name comes from a name -/
theorem Expr.eq_ident_of_tree {e : Expr} {x : String} (h : e.tree = .ident x) : ∃ id span, e = .ident id span x := by
  cases e <;> simp only [Expr.tree, ExprTree.ident.injEq, reduceCtorEq] at h
  subst h
  exact ⟨_, _, rfl⟩

/-! ## Marks -/

namespace BinOp

/-- how tightly an operator binds, from 1 to 10 -/
def level : BinOp → Nat
  | .or => 1
  | .and => 2
  | .bitOr => 3
  | .bitXor => 4
  | .bitAnd => 5
  | .eq | .ne => 6
  | .lt | .le | .gt | .ge => 7
  | .shl | .shr => 8
  | .add | .sub => 9
  | .mul | .div | .rem => 10

def mark : BinOp → Punct
  | .or => .orOr
  | .and => .andAnd
  | .bitOr => .pipe
  | .bitXor => .caret
  | .bitAnd => .amp
  | .eq => .eq
  | .ne => .ne
  | .lt => .lt
  | .le => .le
  | .gt => .gt
  | .ge => .ge
  | .shl => .shl
  | .shr => .shr
  | .add => .plus
  | .sub => .minus
  | .mul => .star
  | .div => .slash
  | .rem => .percent

theorem level_bounds (op : BinOp) : 1 ≤ op.level ∧ op.level ≤ 10 := by
  cases op <;> decide

end BinOp

/-- the mark of an assignment, plain or with one of the operators that have one -/
def assignMark? : Option BinOp → Option Punct
  | none => some .assign
  | some .add => some .plusAssign
  | some .sub => some .minusAssign
  | some .mul => some .starAssign
  | some .div => some .slashAssign
  | some .rem => some .percentAssign
  | some .bitAnd => some .ampAssign
  | some .bitOr => some .pipeAssign
  | some .bitXor => some .caretAssign
  | some .shl => some .shlAssign
  | some .shr => some .shrAssign
  | some .lt | some .gt | some .le | some .ge | some .eq | some .ne | some .and | some .or => none

def Base.keyword : Base → Keyword
  | .int => .int
  | .uint => .uint
  | .float => .float
  | .void => .void

/-! ## Expressions -/

namespace Grammar

/-- a word of the grammar -/
abbrev Kinds := List TokenKind

mutual

/-- an assignment, or an expression that binds tighter -/
inductive Expression : Kinds → ExprTree → Prop where
  | plain {w : Kinds} {t : ExprTree} (h : Binary 1 w t) : Expression w t
  | assign {w v : Kinds} {x : String} {t : ExprTree} {op : Option BinOp} {mark : Punct} (target : Unary w (.ident x))
      (hmark : assignMark? op = some mark) (value : Expression v t) :
      Expression (w ++ .punct mark :: v) (.assign op x t)

/-- operands joined by operators of at least a level -/
inductive Binary : Nat → Kinds → ExprTree → Prop where
  | operand {w : Kinds} {t : ExprTree} (h : Unary w t) : Binary 11 w t
  | tighter {k : Nat} {w : Kinds} {t : ExprTree} (h : Binary (k + 1) w t) : Binary k w t
  | join {w v : Kinds} {a b : ExprTree} (op : BinOp) (lhs : Binary op.level w a) (rhs : Binary (op.level + 1) v b) :
      Binary op.level (w ++ .punct op.mark :: v) (.binary op a b)

/-- an operand with what stands in front of it -/
inductive Unary : Kinds → ExprTree → Prop where
  | plain {w : Kinds} {t : ExprTree} (h : Postfix w t) : Unary w t
  | plus {w : Kinds} {t : ExprTree} (h : Unary w t) : Unary (.punct .plus :: w) t
  | minus {w : Kinds} {t : ExprTree} (h : Unary w t) : Unary (.punct .minus :: w) t.negate
  | not {w : Kinds} {t : ExprTree} (h : Unary w t) : Unary (.punct .not :: w) (.unary .not t)
  | tilde {w : Kinds} {t : ExprTree} (h : Unary w t) : Unary (.punct .tilde :: w) (.unary .bitNot t)
  | plusPlus {w : Kinds} {x : String} (h : Unary w (.ident x)) : Unary (.punct .plusPlus :: w) (.update .preInc x)
  | minusMinus {w : Kinds} {x : String} (h : Unary w (.ident x)) : Unary (.punct .minusMinus :: w) (.update .preDec x)
  | cast {w : Kinds} {t : ExprTree} {b : Base} (hb : b ≠ .void) (h : Unary w t) :
      Unary (.punct .lparen :: .keyword b.keyword :: .punct .rparen :: w) (.cast b t)

/-- an operand with the update mark after it, if there is one -/
inductive Postfix : Kinds → ExprTree → Prop where
  | plain {w : Kinds} {t : ExprTree} (h : Primary w t) : Postfix w t
  | plusPlus {w : Kinds} {x : String} (h : Primary w (.ident x)) :
      Postfix (w ++ [.punct .plusPlus]) (.update .postInc x)
  | minusMinus {w : Kinds} {x : String} (h : Primary w (.ident x)) :
      Postfix (w ++ [.punct .minusMinus]) (.update .postDec x)

inductive Primary : Kinds → ExprTree → Prop where
  | literal (value : Literal) : Primary [.literal value] (.literal value)
  | ident (name : String) : Primary [.ident name] (.ident name)
  | call {w : Kinds} {ts : List ExprTree} (name : String) (h : Arguments w ts) :
      Primary (.ident name :: .punct .lparen :: w ++ [.punct .rparen]) (.call name ts)
  | intrinsic {w : Kinds} {ts : List ExprTree} (i : Intrinsic) (h : Arguments w ts) :
      Primary (.intrinsic i :: .punct .lparen :: w ++ [.punct .rparen]) (.intrinsic i ts)
  | parens {w : Kinds} {t : ExprTree} (h : Expression w t) : Primary (.punct .lparen :: w ++ [.punct .rparen]) t

/-- arguments with commas between them; one may stand behind the last -/
inductive Arguments : Kinds → List ExprTree → Prop where
  | none : Arguments [] []
  | last {w : Kinds} {t : ExprTree} (h : Expression w t) : Arguments w [t]
  | more {w v : Kinds} {t : ExprTree} {ts : List ExprTree} (h : Expression w t) (rest : Arguments v ts) :
      Arguments (w ++ .punct .comma :: v) (t :: ts)

end

/-- an expression that may be absent -/
inductive Optional : Kinds → Option ExprTree → Prop where
  | none : Optional [] none
  | some {w : Kinds} {t : ExprTree} (h : Expression w t) : Optional w (some t)

/-! ## Statements -/

/-- a declared type; `void` cannot be constant -/
inductive TypeName : Kinds → Ty → Prop where
  | plain (b : Base) : TypeName [.keyword b.keyword] ⟨false, b⟩
  | const {b : Base} (hb : b ≠ .void) : TypeName [.keyword .const, .keyword b.keyword] ⟨true, b⟩

/-- what may stand after the name of a variable -/
inductive Initializer : Kinds → Option ExprTree → Prop where
  | none : Initializer [] none
  | some {w : Kinds} {t : ExprTree} (h : Expression w t) : Initializer (.punct .assign :: w) (some t)

inductive Declaration : Kinds → DeclTree → Prop where
  | named {w v : Kinds} {ty : Ty} {init : Option ExprTree} (name : String) (hty : TypeName w ty)
      (hinit : Initializer v init) : Declaration (w ++ .ident name :: v ++ [.punct .semicolon]) ⟨ty, name, init⟩

/-- an expression in parentheses -/
inductive Condition : Kinds → ExprTree → Prop where
  | parens {w : Kinds} {t : ExprTree} (h : Expression w t) : Condition (.punct .lparen :: w ++ [.punct .rparen]) t

/-- what the header of a `for` starts with, its semicolon included -/
inductive ForStart : Kinds → ForTree → Prop where
  | nothing : ForStart [.punct .semicolon] .nothing
  | decl {w : Kinds} {d : DeclTree} (h : Declaration w d) : ForStart w (.decl d)
  | expr {w : Kinds} {t : ExprTree} (h : Expression w t) : ForStart (w ++ [.punct .semicolon]) (.expr t)

mutual

/-- a statement, and whether it is open -/
inductive Statement : Bool → Kinds → StmtTree → Prop where
  | block {w : Kinds} {ts : List StmtTree} (h : Statements w ts) :
      Statement false (.punct .lbrace :: w ++ [.punct .rbrace]) (.block ts)
  | empty : Statement false [.punct .semicolon] .empty
  | decl {w : Kinds} {d : DeclTree} (h : Declaration w d) : Statement false w (.decl d)
  | ifThen {isOpen : Bool} {c w : Kinds} {cond : ExprTree} {t : StmtTree} (hcond : Condition c cond)
      (yes : Statement isOpen w t) : Statement true (.keyword .if_ :: c ++ w) (.ifThen cond t)
  | ifElse {isOpen : Bool} {c w v : Kinds} {cond : ExprTree} {t u : StmtTree} (hcond : Condition c cond)
      (yes : Statement false w t) (no : Statement isOpen v u) :
      Statement isOpen (.keyword .if_ :: c ++ w ++ .keyword .else_ :: v) (.ifElse cond t u)
  | while_ {isOpen : Bool} {c w : Kinds} {cond : ExprTree} {t : StmtTree} (hcond : Condition c cond)
      (body : Statement isOpen w t) : Statement isOpen (.keyword .while_ :: c ++ w) (.while_ cond t)
  | doWhile {isOpen : Bool} {c w : Kinds} {cond : ExprTree} {t : StmtTree} (body : Statement isOpen w t)
      (hcond : Condition c cond) :
      Statement false (.keyword .do_ :: w ++ .keyword .while_ :: c ++ [.punct .semicolon]) (.doWhile t cond)
  | for_ {isOpen : Bool} {i c p w : Kinds} {init : ForTree} {cond step : Option ExprTree} {t : StmtTree}
      (hinit : ForStart i init) (hcond : Optional c cond) (hstep : Optional p step) (body : Statement isOpen w t) :
      Statement isOpen (.keyword .for_ :: .punct .lparen :: i ++ c ++ .punct .semicolon :: p ++ .punct .rparen :: w)
        (.for_ init cond step t)
  | break_ : Statement false [.keyword .break_, .punct .semicolon] .break_
  | continue_ : Statement false [.keyword .continue_, .punct .semicolon] .continue_
  | return_ {w : Kinds} {value : Option ExprTree} (h : Optional w value) :
      Statement false (.keyword .return_ :: w ++ [.punct .semicolon]) (.return_ value)
  | expr {w : Kinds} {t : ExprTree} (h : Expression w t) : Statement false (w ++ [.punct .semicolon]) (.expr t)

inductive Statements : Kinds → List StmtTree → Prop where
  | nil : Statements [] []
  | cons {isOpen : Bool} {w v : Kinds} {t : StmtTree} {ts : List StmtTree} (h : Statement isOpen w t)
      (rest : Statements v ts) : Statements (w ++ v) (t :: ts)

end

/-! ## Items -/

inductive Parameter : Kinds → ParamTree → Prop where
  | named {w : Kinds} {ty : Ty} (name : String) (hty : TypeName w ty) : Parameter (w ++ [.ident name]) ⟨ty, name⟩

/-- parameters with commas between them; one may stand behind the last -/
inductive Parameters : Kinds → List ParamTree → Prop where
  | none : Parameters [] []
  | last {w : Kinds} {p : ParamTree} (h : Parameter w p) : Parameters w [p]
  | more {w v : Kinds} {p : ParamTree} {ps : List ParamTree} (h : Parameter w p) (rest : Parameters v ps) :
      Parameters (w ++ .punct .comma :: v) (p :: ps)

/-- what stands between the parentheses of a function -/
inductive ParameterList : Kinds → List ParamTree → Prop where
  | listed {w : Kinds} {ps : List ParamTree} (h : Parameters w ps) : ParameterList w ps
  | void : ParameterList [.keyword .void] []

/-- a function, whose result is not constant, or a global variable -/
inductive Item : Kinds → ItemTree → Prop where
  | function {p w : Kinds} {ps : List ParamTree} {ts : List StmtTree} (b : Base) (name : String)
      (hparams : ParameterList p ps) (hbody : Statements w ts) :
      Item (.keyword b.keyword :: .ident name :: .punct .lparen :: p ++ .punct .rparen :: .punct .lbrace :: w ++
        [.punct .rbrace]) (.function ⟨⟨false, b⟩, name, ps, ts⟩)
  | global {w : Kinds} {d : DeclTree} (h : Declaration w d) : Item w (.global d)

/-- a program -/
inductive Items : Kinds → List ItemTree → Prop where
  | nil : Items [] []
  | cons {w v : Kinds} {t : ItemTree} {ts : List ItemTree} (h : Item w t) (rest : Items v ts) : Items (w ++ v) (t :: ts)

/-! ## First tokens -/

/-- a literal, a name, a built-in function or an opening parenthesis -/
def startsPrimary : TokenKind → Bool
  | .literal _ | .ident _ | .intrinsic _ | .punct .lparen => true
  | _ => false

/-- what an expression can start with -/
def startsExpression (kind : TokenKind) : Bool :=
  startsPrimary kind || match kind with
    | .punct .plus | .punct .minus | .punct .not | .punct .tilde | .punct .plusPlus | .punct .minusMinus => true
    | _ => false

/-- what a statement can start with -/
def startsStatement (kind : TokenKind) : Bool :=
  kind.startsType || startsExpression kind || match kind with
    | .punct .lbrace | .punct .semicolon | .keyword .if_ | .keyword .while_ | .keyword .do_ | .keyword
        .for_ | .keyword .break_
    | .keyword .continue_ | .keyword .return_ => true
    | _ => false

/-- a word that starts with a token of a class -/
def Begins (p : TokenKind → Bool) (w : Kinds) : Prop := ∃ kind v, w = kind :: v ∧ p kind = true

theorem begins_cons {p : TokenKind → Bool} {kind : TokenKind} (w : Kinds) (h : p kind = true) : Begins p (kind :: w) :=
  ⟨kind, w, rfl, h⟩

namespace Begins

variable {p q : TokenKind → Bool} {w : Kinds}

theorem append (h : Begins p w) (v : Kinds) : Begins p (w ++ v) := by
  obtain ⟨kind, u, rfl, hkind⟩ := h
  exact ⟨kind, u ++ v, rfl, hkind⟩

theorem mono (h : Begins p w) (hpq : ∀ kind, p kind = true → q kind = true) : Begins q w := by
  obtain ⟨kind, u, rfl, hkind⟩ := h
  exact ⟨kind, u, rfl, hpq kind hkind⟩

theorem length_pos (h : Begins p w) : 0 < w.length := by
  obtain ⟨kind, u, rfl, -⟩ := h
  exact Nat.succ_pos _

end Begins

theorem Primary.begins {w : Kinds} {t : ExprTree} (h : Primary w t) : Begins startsPrimary w := by
  cases h <;> exact begins_cons _ rfl

theorem Postfix.begins {w : Kinds} {t : ExprTree} (h : Postfix w t) : Begins startsPrimary w := by
  cases h with
  | plain h => exact h.begins
  | plusPlus h => exact h.begins.append _
  | minusMinus h => exact h.begins.append _

theorem Unary.begins {w : Kinds} {t : ExprTree} (h : Unary w t) : Begins startsExpression w := by
  cases h with
  | plain h =>
    refine h.begins.mono ?_
    intro kind hkind
    simp [startsExpression, hkind]
  | plus | minus | not | tilde | plusPlus | minusMinus | cast => exact begins_cons _ rfl

theorem Binary.begins {k : Nat} {w : Kinds} {t : ExprTree} : Binary k w t → Begins startsExpression w
  | .operand h => h.begins
  | .tighter h => h.begins
  | .join _ lhs _ => lhs.begins.append _

theorem Expression.begins {w : Kinds} {t : ExprTree} (h : Expression w t) : Begins startsExpression w := by
  cases h with
  | plain h => exact h.begins
  | assign target _ _ => exact target.begins.append _

theorem Arguments.begins {w : Kinds} {ts : List ExprTree} (h : Arguments w ts) :
    w = [] ∧ ts = [] ∨ Begins startsExpression w := by
  cases h with
  | none => exact .inl ⟨rfl, rfl⟩
  | last h => exact .inr h.begins
  | more h _ => exact .inr (h.begins.append _)

theorem TypeName.begins {w : Kinds} {ty : Ty} (h : TypeName w ty) : Begins TokenKind.startsType w := by
  cases h with
  | plain b => cases b <;> exact begins_cons _ rfl
  | const => exact begins_cons _ rfl

theorem Declaration.begins {w : Kinds} {d : DeclTree} (h : Declaration w d) : Begins TokenKind.startsType w := by
  cases h with
  | named name hty hinit => exact (hty.begins.append _).append _

theorem Statement.begins {isOpen : Bool} {w : Kinds} {t : StmtTree} (h : Statement isOpen w t) :
    Begins startsStatement w := by
  cases h with
  | decl h =>
    refine h.begins.mono ?_
    intro kind hkind
    simp [startsStatement, hkind]
  | expr h =>
    refine (h.begins.append _).mono ?_
    intro kind hkind
    simp [startsStatement, hkind]
  | _ => exact begins_cons _ rfl

theorem Statements.begins {w : Kinds} {ts : List StmtTree} (h : Statements w ts) :
    w = [] ∧ ts = [] ∨ Begins startsStatement w := by
  cases h with
  | nil => exact .inl ⟨rfl, rfl⟩
  | cons h _ => exact .inr (h.begins.append _)

theorem Parameter.begins {w : Kinds} {p : ParamTree} (h : Parameter w p) : Begins TokenKind.startsType w := by
  cases h with
  | named name hty => exact hty.begins.append _

theorem Parameters.begins {w : Kinds} {ps : List ParamTree} (h : Parameters w ps) :
    w = [] ∧ ps = [] ∨ Begins TokenKind.startsType w := by
  cases h with
  | none => exact .inl ⟨rfl, rfl⟩
  | last h => exact .inr h.begins
  | more h _ => exact .inr (h.begins.append _)

theorem Item.begins {w : Kinds} {t : ItemTree} (h : Item w t) : Begins TokenKind.startsType w := by
  cases h with
  | function b => cases b <;> exact begins_cons _ rfl
  | global h => exact h.begins

/-- joining operators leave their mark in the tree, so a tree that is a name comes from an operand -/
theorem Binary.unary_of_ident {k : Nat} {w : Kinds} {t : ExprTree} {x : String} :
    Binary k w t → t = .ident x → Unary w t
  | .operand h, _ => h
  | .tighter h, ht => h.unary_of_ident ht
  | .join .., ht => nomatch ht

/-- an expression at a level is one at every lower level -/
theorem Binary.lower {k k' : Nat} {w : Kinds} {t : ExprTree} (h : Binary k w t) (hk : k' ≤ k) : Binary k' w t := by
  induction hk with
  | refl => exact h
  | step _ ih => exact ih (.tighter h)

end Grammar

end C15

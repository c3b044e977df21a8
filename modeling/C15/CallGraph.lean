/-
Which functions call which, and whether a call can lead back to a function.

An edge stands for a call expression anywhere in a body, unreachable statements included. The search keeps the names
still to be visited; each name is expanded once, so the names waiting plus the callees not yet expanded shrink with
every step.
-/
import C15.Program

namespace C15

mutual

/-- names called in an expression -/
def Expr.callees : Expr → List String
  | .literal .. | .ident .. | .update .. => []
  | .binary _ _ _ lhs rhs => lhs.callees ++ rhs.callees
  | .unary _ _ _ e | .assign _ _ _ _ _ e | .cast _ _ _ e => e.callees
  | .call _ _ callee _ args => callee :: Expr.calleesOf args
  | .intrinsic _ _ _ _ args => Expr.calleesOf args

/-- names called in expressions -/
def Expr.calleesOf : List Expr → List String
  | [] => []
  | e :: es => e.callees ++ Expr.calleesOf es

end

def VarDecl.callees (d : VarDecl) : List String := d.init.elim [] Expr.callees

def ForInit.callees : ForInit → List String
  | .nothing => []
  | .decl d => d.callees
  | .expr _ e => e.callees

mutual

/-- names called in a statement -/
def Stmt.callees : Stmt → List String
  | .decl d => d.callees
  | .ifThen _ cond yes => cond.callees ++ yes.callees
  | .ifElse _ cond yes no => cond.callees ++ yes.callees ++ no.callees
  | .for_ _ init cond step body =>
    init.callees ++ cond.elim [] Expr.callees ++ step.elim [] Expr.callees ++ body.callees
  | .while_ _ cond body | .doWhile _ body cond => cond.callees ++ body.callees
  | .return_ _ value => value.elim [] Expr.callees
  | .expr _ e => e.callees
  | .block _ body => Stmt.calleesOf body
  | .break_ _ | .continue_ _ | .empty _ => []

/-- names called in statements -/
def Stmt.calleesOf : List Stmt → List String
  | [] => []
  | s :: ss => s.callees ++ Stmt.calleesOf ss

end

/-- the names each function calls; of two entries for one name the first counts -/
structure CallGraph where
  entries : List (String × List String)
deriving Repr

namespace CallGraph

def ofFunctions (fs : List FunctionDecl) : CallGraph :=
  -- of two functions with one name the last one counts
  ⟨(fs.map fun f => (f.name, (Stmt.calleesOf f.body).eraseDups)).reverse⟩

def callees (g : CallGraph) (name : String) : List String := (g.entries.lookup name).getD []

/-- callees of the functions not yet seen -/
def weight (entries : List (String × List String)) (seen : List String) : Nat :=
  match entries with
  | [] => 0
  | (name, callees) :: rest => (if name ∈ seen then 0 else callees.length) + weight rest seen

theorem weight_cons_le (entries : List (String × List String)) (name : String) (seen : List String) :
    weight entries (name :: seen) ≤ weight entries seen := by
  induction entries with
  | nil => simp [weight]
  | cons e rest ih =>
    obtain ⟨n, cs⟩ := e
    simp only [weight]
    by_cases hn : n ∈ seen
    · rw [if_pos hn, if_pos (List.mem_cons_of_mem name hn)]
      omega
    · rw [if_neg hn]
      split <;> omega

theorem weight_expand (entries : List (String × List String)) {name : String} {seen : List String} (h : name ∉ seen) :
    ((entries.lookup name).getD []).length + weight entries (name :: seen) ≤ weight entries seen := by
  induction entries with
  | nil => simp [weight]
  | cons e rest ih =>
    obtain ⟨n, cs⟩ := e
    by_cases hn : name = n
    · subst hn
      have := weight_cons_le rest name seen
      simp only [List.lookup_cons, beq_self_eq_true, Option.getD_some, weight, List.mem_cons, true_or,
        if_true, h, if_false]
      omega
    · have hb : (name == n) = false := by simpa using hn
      simp only [List.lookup_cons, hb, weight, List.mem_cons]
      have : ¬ n = name := fun h => hn h.symm
      simp only [this, false_or]
      omega

/-- whether the target is among the pending names or called from them, names already seen left out -/
def search (g : CallGraph) (target : String) (seen pending : List String) : Bool :=
  match pending with
  | [] => false
  | name :: rest =>
    if name = target then true
    else if _h : name ∈ seen then search g target seen rest
    else search g target (name :: seen) (g.callees name ++ rest)
termination_by pending.length + weight g.entries seen
decreasing_by
  · simp only [List.length_cons]; omega
  · have := weight_expand g.entries _h
    simp only [callees, List.length_append, List.length_cons]
    omega

/-- whether calls lead from one function to another, in any number of steps -/
def reaches (g : CallGraph) (source target : String) : Bool := g.search target [] [source]

end CallGraph

end C15

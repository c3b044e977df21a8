/-
Scopes: which declaration a name means, and what a statement adds to the scope it stands in.

Scopes are lists of variables, the innermost scope and the latest variable first; a name means the first variable of
that name. Only a declaration adds to its scope, and so does a `while` or `do` whose body is one, since such a body has
no scope of its own. What is added depends on the statement alone, not on whether it is executed.
-/
import C15.Typing
import Mathlib.Tactic

namespace C15

/-- the variables in scope, the innermost scope first -/
abbrev Scopes := List (List Variable)

namespace Scopes

/-- the innermost variable of a name -/
def find? (scopes : Scopes) (name : String) : Option Variable :=
  scopes.findSome? fun scope => scope.find? (·.name == name)

/-- add a variable to the innermost scope -/
def bind (scopes : Scopes) (v : Variable) : Scopes :=
  match scopes with
  | [] => [[v]]
  | scope :: outer => (v :: scope) :: outer

theorem find?_bind (scopes : Scopes) (v : Variable) (name : String) :
    (scopes.bind v).find? name = if v.name = name then some v else scopes.find? name := by
  cases scopes with
  | nil => by_cases h : v.name = name <;> simp [find?, bind, List.findSome?, h]
  | cons scope outer => by_cases h : v.name = name <;> simp [find?, bind, List.findSome?, h]

@[simp] theorem find?_enter (scopes : Scopes) (name : String) : find? ([] :: scopes) name = scopes.find? name := by
  simp [find?, List.findSome?]

end Scopes

/-- the variable that a declaration introduces -/
def VarDecl.variable (d : VarDecl) (kind : VarKind) : Variable := ⟨d.id, d.name, d.ty, kind⟩

/-- the variable that a parameter is -/
def Param.variable (p : Param) : Variable := ⟨p.id, p.name, p.ty, .param⟩

/-- declarations that a statement adds to the scope it stands in -/
def Stmt.declared : Stmt → List VarDecl
  | .decl d => [d]
  | .while_ _ _ body | .doWhile _ body _ => body.declared
  | _ => []

def ForInit.declared : ForInit → List VarDecl
  | .decl d => [d]
  | _ => []

/-- the start of a `for` as a statement -/
def ForInit.stmt (span : Span) : ForInit → Stmt
  | .nothing => .empty span
  | .decl d => .decl d
  | .expr span e => .expr span e

/-- the step of a `for` as a statement -/
def Stmt.ofStep (span : Span) : Option Expr → Stmt
  | none => .empty span
  | some e => .expr span e

@[simp] theorem ForInit.declared_stmt (span : Span) (init : ForInit) : (init.stmt span).declared = init.declared := by
  cases init <;> rfl

namespace Scopes

/-- scopes with local declarations added, the first of them first -/
def declare (scopes : Scopes) (ds : List VarDecl) : Scopes :=
  ds.foldl (fun acc d => acc.bind (d.variable .localVar)) scopes

/-- scopes after a statement -/
def after (scopes : Scopes) (s : Stmt) : Scopes := scopes.declare s.declared

/-- scopes of a function body: its parameters, then the globals -/
def ofFunction (globals : List Variable) (f : FunctionDecl) : Scopes := [(f.params.map Param.variable).reverse, globals]

end Scopes

end C15

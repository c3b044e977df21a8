/-
What checking a program leaves in its tables.

Checking collects facts; the tables of a checked program are looked up by identity. `Recorded` says, node by node and
without the checker, what is found there: an expression has the type that the rules give it in its environment, and an
occurrence of a variable means the declaration that its name means there. Results:
- `checkExpr_checked`, `checkStmt_continues`: the facts of a part are keyed by its own identities, and tables that hold
  these facts record the part;
- `recorded_of_check`: the tables of a checked program whose identities are distinct record the whole program.
-/
import C15.Proofs.Checking
import C15.Proofs.Identity

namespace C15

/-- what callers of a function see -/
def FunctionDecl.signature (f : FunctionDecl) : Signature := ⟨f.params.map (·.ty), f.result⟩

/-! ## Tables -/

/-- an entry of a table with distinct keys is found -/
theorem lookup_eq_of_mem {α β : Type} [BEq α] [LawfulBEq α] {l : List (α × β)} {x : α × β} (hl : (l.map Prod.fst).Nodup)
    (hx : x ∈ l) : l.lookup x.1 = some x.2 := by
  induction l with
  | nil => cases hx
  | cons y rest ih =>
    rw [List.map_cons, List.nodup_cons] at hl
    obtain ⟨key, value⟩ := y
    rcases List.mem_cons.1 hx with rfl | hx
    · simp
    · have hne : (x.1 == key) = false := by
        rw [beq_eq_false_iff_ne]
        intro heq
        exact hl.1 (List.mem_map.2 ⟨x, hx, heq⟩)
      simpa [List.lookup_cons, hne] using ih hl.2 hx

theorem nodup_of_subperm {α : Type} {xs ys : List α} (h : xs.Subperm ys) (hys : ys.Nodup) : xs.Nodup := by
  obtain ⟨zs, hperm, hsub⟩ := h
  exact hperm.nodup_iff.1 (hys.sublist hsub)

theorem find?_eq_of_mem {l : List Variable} {v : Variable} (hl : (l.map (·.decl)).Nodup) (hv : v ∈ l) :
    l.find? (·.decl == v.decl) = some v := by
  induction l with
  | nil => cases hv
  | cons w rest ih =>
    rw [List.map_cons, List.nodup_cons] at hl
    rcases List.mem_cons.1 hv with rfl | hv
    · simp
    · have hne : (w.decl == v.decl) = false := by
        rw [beq_eq_false_iff_ne]
        exact fun heq => hl.1 (heq ▸ List.mem_map_of_mem hv)
      simpa [List.find?_cons, hne] using ih hl.2 hv

/-- the entries of facts are what the tables are looked up for -/
structure TypeInfo.Knows (info : TypeInfo) (facts : Facts) : Prop where
  types : ∀ x ∈ facts.types, info.typeOf x.1 = some x.2
  resolved : ∀ x ∈ facts.resolved, info.facts.resolved.lookup x.1 = some x.2
  vars : ∀ v ∈ facts.vars, info.facts.vars.find? (·.decl == v.decl) = some v

theorem TypeInfo.knows_append {info : TypeInfo} {a b : Facts} : info.Knows (a ++ b) ↔ info.Knows a ∧ info.Knows b := by
  constructor
  · intro h
    refine ⟨⟨fun x hx => ?_, fun x hx => ?_, fun v hv => ?_⟩, ⟨fun x hx => ?_, fun x hx => ?_, fun v hv => ?_⟩⟩
    · exact h.types x (List.mem_append_left _ hx)
    · exact h.resolved x (List.mem_append_left _ hx)
    · exact h.vars v (List.mem_append_left _ hv)
    · exact h.types x (List.mem_append_right _ hx)
    · exact h.resolved x (List.mem_append_right _ hx)
    · exact h.vars v (List.mem_append_right _ hv)
  · rintro ⟨ha, hb⟩
    refine ⟨fun x hx => ?_, fun x hx => ?_, fun v hv => ?_⟩
    · exact (List.mem_append.1 hx).elim (ha.types x) (hb.types x)
    · exact (List.mem_append.1 hx).elim (ha.resolved x) (hb.resolved x)
    · exact (List.mem_append.1 hv).elim (ha.vars v) (hb.vars v)

theorem TypeInfo.Knows.typed {info : TypeInfo} {id : NodeId} {b : Base} (h : info.Knows (.typed id b)) :
    info.typeOf id = some b := h.types (id, b) (List.mem_singleton_self _)

/-- a known variable that an occurrence resolves to is what the occurrence means -/
theorem TypeInfo.Knows.variableOf {info : TypeInfo} {id : NodeId} {v : Variable} (h : info.Knows (.resolves id v.decl))
    (hv : info.facts.vars.find? (·.decl == v.decl) = some v) : info.variableOf id = some v := by
  have := h.resolved (id, v.decl) (List.mem_singleton_self _)
  simp only [TypeInfo.variableOf, this, Option.bind_some, hv]

/-- the variables in scope are in the table of variables, and none is `void` -/
structure Typing.Env.Known (info : TypeInfo) (env : Typing.Env) : Prop where
  vars : ∀ name v, env.find? name = some v → info.facts.vars.find? (·.decl == v.decl) = some v
  values : ∀ name v, env.find? name = some v → v.ty.base ≠ .void

namespace Typing.Env

theorem Known.of_scopes {info : TypeInfo} {env env' : Env} (h : env.Known info) (hs : env'.scopes = env.scopes) :
    env'.Known info :=
  ⟨fun name v hv => h.vars name v (by rwa [find?_eq, ← hs]), fun name v hv => h.values name v (by rwa [find?_eq, ← hs])⟩

theorem Known.enter {info : TypeInfo} {env : Env} (h : env.Known info) : env.enter.Known info :=
  ⟨fun name v hv => h.vars name v (by simpa [find?_eq, Env.enter] using hv),
    fun name v hv => h.values name v (by simpa [find?_eq, Env.enter] using hv)⟩

theorem Known.bind {info : TypeInfo} {env : Env} {v : Variable} (h : env.Known info) (hv : info.Knows (.declares v))
    (hvalue : v.ty.base ≠ .void) : (env.bind v).Known info := by
  have cases : ∀ name w, (env.bind v).find? name = some w → w = v ∨ env.find? name = some w := by
    intro name w hw
    rw [find?_eq, Env.bind, Scopes.find?_bind] at hw
    split at hw
    · exact Or.inl (Option.some.inj hw).symm
    · exact Or.inr hw
  constructor
  · intro name w hw
    rcases cases name w hw with rfl | hw
    · exact hv.vars w (List.mem_singleton_self _)
    · exact h.vars name w hw
  · intro name w hw
    rcases cases name w hw with rfl | hw
    · exact hvalue
    · exact h.values name w hw

end Typing.Env

/-! ## Identities of facts -/

/-- facts keyed by some of these identities, each at most once -/
structure Facts.Within (facts : Facts) (ids : List NodeId) : Prop where
  types : (facts.types.map Prod.fst).Subperm ids
  resolved : (facts.resolved.map Prod.fst).Subperm ids
  vars : (facts.vars.map (·.decl)).Subperm ids

theorem Facts.append_empty (a : Facts) : a ++ ({} : Facts) = a := by
  change Facts.append a {} = a
  simp [Facts.append]

theorem Facts.append_assoc (a b c : Facts) : a ++ b ++ c = a ++ (b ++ c) := by
  change Facts.append (Facts.append a b) c = Facts.append a (Facts.append b c)
  simp [Facts.append]

namespace Facts.Within

theorem empty (ids : List NodeId) : ({} : Facts).Within ids := ⟨List.nil_subperm, List.nil_subperm, List.nil_subperm⟩

theorem append {a b : Facts} {xs ys : List NodeId} (ha : a.Within xs) (hb : b.Within ys) :
    (a ++ b).Within (xs ++ ys) := by
  refine ⟨?_, ?_, ?_⟩
  · rw [Facts.types_append, List.map_append]
    exact ha.types.append hb.types
  · rw [Facts.resolved_append, List.map_append]
    exact ha.resolved.append hb.resolved
  · rw [Facts.vars_append, List.map_append]
    exact ha.vars.append hb.vars

theorem typed (id : NodeId) (b : Base) : (Facts.typed id b).Within [id] :=
  ⟨List.Subperm.refl _, List.nil_subperm, List.nil_subperm⟩

theorem reads (decl : NodeId) (ids : List NodeId) : (Facts.reads decl).Within ids :=
  ⟨List.nil_subperm, List.nil_subperm, List.nil_subperm⟩

theorem declares (v : Variable) : (Facts.declares v).Within [v.decl] :=
  ⟨List.nil_subperm, List.nil_subperm, List.Subperm.refl _⟩

/-- facts of an operand, then the type of the node around it -/
theorem snoc_typed {a : Facts} {xs : List NodeId} (h : a.Within xs) (id : NodeId) (b : Base) :
    (a ++ .typed id b).Within (xs ++ [id]) := h.append (typed id b)

/-- an occurrence and facts around its own type: resolution and type are kept in different tables -/
theorem occurrence {a b : Facts} {xs : List NodeId} {id decl : NodeId} (ha : a.Within xs) (hb : b.Within [])
    (base : Base) : (.resolves id decl ++ a ++ b ++ .typed id base : Facts).Within (xs ++ [id]) := by
  have htypes : b.types = [] := by simpa using hb.types
  have hresolved : b.resolved = [] := by simpa using hb.resolved
  have hvars : b.vars = [] := by simpa using hb.vars
  refine ⟨?_, ?_, ?_⟩
  · simpa [Facts.resolves, Facts.typed, htypes] using ha.types.append (List.Subperm.refl [id])
  · simp only [Facts.resolves, Facts.typed, Facts.resolved_append, hresolved, List.append_nil, List.map_append]
    exact ((List.Subperm.refl [id]).append ha.resolved).trans (List.perm_append_comm.subperm)
  · simpa [Facts.resolves, Facts.typed, hvars] using ha.vars.trans (List.sublist_append_left xs [id]).subperm

/-- facts with distinct keys hide none of their entries -/
theorem knows {facts : Facts} {ids : List NodeId} {functions : List (String × Signature)} (h : facts.Within ids)
    (hids : ids.Nodup) : TypeInfo.Knows ⟨facts, functions⟩ facts where
  types _ hx := lookup_eq_of_mem (nodup_of_subperm h.types hids) hx
  resolved _ hx := lookup_eq_of_mem (nodup_of_subperm h.resolved hids) hx
  vars _ hv := find?_eq_of_mem (nodup_of_subperm h.vars hids) hv

end Facts.Within

/-! ## Recorded expressions -/

section Recorded

open Typing

variable (info : TypeInfo)

mutual

/-- every node of an expression has in the tables the type, and every occurrence the variable, that it has in the
environment; the type of the whole is `b` -/
def Expr.Recorded (env : Env) : Expr → Base → Prop
  | .literal id _ value, b => b = value.base ∧ info.typeOf id = some b
  | .ident id _ name, b =>
    ∃ v, env.find? name = some v ∧ info.variableOf id = some v ∧ v.ty.base ≠ .void ∧ b = v.ty.base ∧
      info.typeOf id = some b
  | .binary id _ op lhs rhs, b =>
    ∃ f : Family, lhs.Recorded env f.base ∧ rhs.Recorded env f.base ∧ (op.isIntegerOnly = true → f ≠ .float) ∧
      b = (if op.isComparison || op.isLogical then .int else f.base) ∧ info.typeOf id = some b
  | .unary id _ op operand, b =>
    ∃ f : Family, operand.Recorded env f.base ∧ (op = .bitNot → f ≠ .float) ∧ b = (if op = .not then .int else f.base) ∧
      info.typeOf id = some b
  | .update id _ _ _ _ target, b =>
    ∃ v, env.find? target = some v ∧ info.variableOf id = some v ∧ v.ty.isConst = false ∧ v.ty.base ≠ .void ∧
      b = v.ty.base ∧ info.typeOf id = some b
  | .assign id _ op target _ value, b =>
    ∃ v, ∃ f : Family, env.find? target = some v ∧ info.variableOf id = some v ∧ v.ty.isConst = false ∧
      v.ty.base = f.base ∧ value.Recorded env f.base ∧ (∀ o ∈ op, o.isIntegerOnly = true → f ≠ .float) ∧
      b = f.base ∧ info.typeOf id = some b
  | .call id _ callee _ args, b =>
    ∃ sig, env.signature? callee = some sig ∧ Expr.RecordedArgs env sig.params args ∧ b = sig.result.base ∧
      info.typeOf id = some b
  | .intrinsic id _ callee _ args, b =>
    args.length = callee.arity ∧ Expr.RecordedValues env args ∧ b = callee.result ∧ info.typeOf id = some b
  | .cast id _ base operand, b => (∃ f : Family, operand.Recorded env f.base) ∧ b = base ∧ info.typeOf id = some b

/-- arguments of the types of the parameters -/
def Expr.RecordedArgs (env : Env) : List Ty → List Expr → Prop
  | [], [] => True
  | param :: params, arg :: args =>
    (∃ f : Family, param.base = f.base ∧ arg.Recorded env f.base) ∧ Expr.RecordedArgs env params args
  | _, _ => False

/-- values of any family -/
def Expr.RecordedValues (env : Env) : List Expr → Prop
  | [] => True
  | arg :: args => (∃ f : Family, arg.Recorded env f.base) ∧ Expr.RecordedValues env args

end

/-- an initializer has the type of its variable, which is not `void` -/
def VarDecl.Recorded (env : Env) (d : VarDecl) : Prop :=
  d.ty.base ≠ .void ∧ ∀ e ∈ d.init, ∃ f : Family, d.ty.base = f.base ∧ e.Recorded info env f.base

/-- a condition has a value -/
def Expr.RecordedValue (env : Env) (e : Expr) : Prop := ∃ f : Family, e.Recorded info env f.base

def ForInit.Recorded (env : Env) : ForInit → Prop
  | .nothing => True
  | .decl d => d.Recorded info env
  | .expr _ e => ∃ b, e.Recorded info env b

mutual

/-- every expression of a statement is recorded in the environment where it stands, `break` and `continue` stand in a
loop, and a `return` has a value if the function has a result -/
def Stmt.Recorded (env : Env) : Stmt → Prop
  | .decl d => d.Recorded info env
  | .ifThen _ cond yes => cond.RecordedValue info env ∧ yes.Recorded env.enter
  | .ifElse _ cond yes no => cond.RecordedValue info env ∧ yes.Recorded env.enter ∧ no.Recorded env.enter
  | .while_ _ cond body => cond.RecordedValue info env ∧ body.Recorded { env with inLoop := true }
  | .doWhile _ body cond => body.Recorded { env with inLoop := true } ∧ cond.RecordedValue info (env.after body)
  | .for_ _ init cond step body =>
    init.Recorded info env.enter ∧ (∀ e ∈ cond, e.RecordedValue info (env.enter.declareAll init.declared)) ∧
      (∀ e ∈ step, ∃ b, e.Recorded info (env.enter.declareAll init.declared) b) ∧
      body.Recorded { env.enter.declareAll init.declared with inLoop := true }
  | .break_ _ | .continue_ _ => env.inLoop = true
  | .return_ _ none => env.result.base = .void
  | .return_ _ (some e) => ∃ f : Family, env.result.base = f.base ∧ e.Recorded info env f.base
  | .expr _ e => ∃ b, e.Recorded info env b
  | .block _ body => Stmt.RecordedAll env.enter body
  | .empty _ => True

/-- statements one after the other -/
def Stmt.RecordedAll (env : Env) : List Stmt → Prop
  | [] => True
  | s :: rest => s.Recorded env ∧ Stmt.RecordedAll (env.after s) rest

end

/-- parameters have values, and the body is recorded with the parameters in scope -/
def FunctionDecl.Recorded (env : Env) (f : FunctionDecl) : Prop :=
  (∀ p ∈ f.params, p.ty.base ≠ .void) ∧ Stmt.RecordedAll info (env.ofFunction f) f.body

/-- items one after the other: a global is visible from its declaration on -/
def Item.RecordedAll (env : Env) : List Item → Prop
  | [] => True
  | .global d :: rest => d.Recorded info env ∧ Item.RecordedAll (env.bind (d.variable .global)) rest
  | .function f :: rest => f.Recorded info env ∧ Item.RecordedAll env rest

end Recorded

theorem Expr.Recorded.typeOf {info : TypeInfo} {env : Typing.Env} {e : Expr} {b : Base} (h : e.Recorded info env b) :
    info.typeOf e.id = some b := by
  cases e with
  | literal => exact h.2
  | ident =>
    obtain ⟨_, -, -, -, -, ht⟩ := h
    exact ht
  | binary =>
    obtain ⟨_, -, -, -, -, ht⟩ := h
    exact ht
  | unary =>
    obtain ⟨_, -, -, -, ht⟩ := h
    exact ht
  | update =>
    obtain ⟨_, -, -, -, -, -, ht⟩ := h
    exact ht
  | assign =>
    obtain ⟨_, _, -, -, -, -, -, -, -, ht⟩ := h
    exact ht
  | call =>
    obtain ⟨_, -, -, -, ht⟩ := h
    exact ht
  | intrinsic => exact h.2.2.2
  | cast => exact h.2.2

theorem Expr.Recorded.familyOf {info : TypeInfo} {env : Typing.Env} {e : Expr} {f : Family}
    (h : e.Recorded info env f.base) : info.familyOf e.id = some f := by
  rw [TypeInfo.familyOf, h.typeOf, Option.bind_some, Family.family_base]

theorem recordedValues_of_args {info : TypeInfo} {env : Typing.Env} (params : List Ty) (args : List Expr)
    (h : Expr.RecordedArgs info env params args) : params.length = args.length ∧ Expr.RecordedValues info env args := by
  induction args generalizing params with
  | nil =>
    cases params with
    | nil => exact ⟨rfl, trivial⟩
    | cons => exact h.elim
  | cons arg rest ih =>
    cases params with
    | nil => exact h.elim
    | cons param params =>
      obtain ⟨⟨f, -, harg⟩, hrest⟩ := h
      obtain ⟨hlength, hvalues⟩ := ih params hrest
      exact ⟨by simp [hlength], ⟨f, harg⟩, hvalues⟩

namespace Typing

/-- facts keyed by their own identities, in tables that record what they are about -/
structure Checked (env : Env) (facts : Facts) (ids : List NodeId) (recorded : TypeInfo → Prop) : Prop where
  within : facts.Within ids
  recorded : ∀ info : TypeInfo, info.Knows facts → env.Known info → recorded info

/-- which variables count as read does not matter -/
theorem Checked.congr {env : Env} {facts full : Facts} {ids : List NodeId} {recorded : TypeInfo → Prop}
    (h : Checked env full ids recorded) (htypes : facts.types = full.types) (hresolved : facts.resolved = full.resolved)
    (hvars : facts.vars = full.vars) : Checked env facts ids recorded := by
  refine ⟨⟨?_, ?_, ?_⟩, fun info hk henv => h.recorded info ⟨?_, ?_, ?_⟩ henv⟩
  · exact htypes ▸ h.within.types
  · exact hresolved ▸ h.within.resolved
  · exact hvars ▸ h.within.vars
  · exact htypes ▸ hk.types
  · exact hresolved ▸ hk.resolved
  · exact hvars ▸ hk.vars

mutual

/-- **Expressions.** The facts of a checked expression are its own, and tables that hold them record the expression. -/
theorem checkExpr_checked {env : Env} (e : Expr) {b : Base} {facts : Facts} (h : checkExpr env e = .ok (b, facts)) :
    Checked env facts e.ids fun info => e.Recorded info env b := by
  cases e with
  | literal id span value =>
    obtain ⟨rfl, rfl⟩ := checkExpr_literal.1 h
    exact ⟨Facts.Within.typed _ _, fun info hk _ => ⟨rfl, hk.typed⟩⟩
  | ident id span name =>
    obtain ⟨v, hv, rfl, rfl⟩ := checkExpr_ident.1 h
    refine ⟨Facts.Within.occurrence (Facts.Within.empty []) (Facts.Within.reads _ _) _, fun info hk henv => ?_⟩
    simp only [TypeInfo.knows_append] at hk
    exact ⟨v, hv, hk.1.1.variableOf (henv.vars name v hv), henv.values name v hv, rfl, hk.2.typed⟩
  | binary id span op lhs rhs =>
    obtain ⟨f, _, _, hl, hr, hop, rfl, rfl⟩ := checkExpr_binary.1 h
    have hl := checkExpr_checked lhs hl
    have hr := checkExpr_checked rhs hr
    refine ⟨(hl.within.append hr.within).snoc_typed _ _, fun info hk henv => ?_⟩
    simp only [TypeInfo.knows_append] at hk
    exact ⟨f, hl.recorded info hk.1.1 henv, hr.recorded info hk.1.2 henv, hop, rfl, hk.2.typed⟩
  | unary id span op operand =>
    obtain ⟨f, _, he, hop, rfl, rfl⟩ := checkExpr_unary.1 h
    have he := checkExpr_checked operand he
    refine ⟨he.within.snoc_typed _ _, fun info hk henv => ?_⟩
    simp only [TypeInfo.knows_append] at hk
    exact ⟨f, he.recorded info hk.1 henv, hop, rfl, hk.2.typed⟩
  | update id span op targetId targetSpan target =>
    obtain ⟨v, hv, hconst, rfl, rfl⟩ := checkExpr_update.1 h
    refine ⟨⟨List.Subperm.refl _, List.Subperm.refl _, List.nil_subperm⟩, fun info hk henv => ?_⟩
    simp only [TypeInfo.knows_append] at hk
    exact ⟨v, hv, hk.1.1.1.2.variableOf (henv.vars target v hv), hconst, henv.values target v hv, rfl, hk.2.typed⟩
  | assign id span op target targetSpan value =>
    cases op with
    | none =>
      obtain ⟨v, f, facts, hv, hconst, he, hty, rfl, rfl⟩ := checkExpr_assign.1 h
      have he := checkExpr_checked value he
      -- an assignment names its target without reading it
      have within : (.resolves id v.decl ++ facts ++ {} ++ .typed id v.ty.base : Facts).Within (value.ids ++ [id]) :=
        Facts.Within.occurrence he.within (Facts.Within.empty []) _
      rw [Facts.append_empty] at within
      refine ⟨within, fun info hk henv => ?_⟩
      simp only [TypeInfo.knows_append] at hk
      exact ⟨v, f, hv, hk.1.1.variableOf (henv.vars target v hv), hconst, hty,
        he.recorded info hk.1.2 henv, by simp, hty, hk.2.typed⟩
    | some op =>
      obtain ⟨v, f, _, hv, hconst, he, hty, hop, rfl, rfl⟩ := checkExpr_compound.1 h
      have he := checkExpr_checked value he
      refine ⟨Facts.Within.occurrence he.within (Facts.Within.reads _ _) _, fun info hk henv => ?_⟩
      simp only [TypeInfo.knows_append] at hk
      refine ⟨v, f, hv, hk.1.1.1.variableOf (henv.vars target v hv), hconst, hty,
        he.recorded info hk.1.1.2 henv, ?_, hty, hk.2.typed⟩
      rintro _ ⟨⟩
      exact hop
  | call id span callee calleeSpan args =>
    obtain ⟨sig, _, hsig, hlength, ha, rfl, rfl⟩ := checkExpr_call.1 h
    have ha := checkArguments_checked args ha hlength
    refine ⟨ha.within.snoc_typed _ _, fun info hk henv => ?_⟩
    simp only [TypeInfo.knows_append] at hk
    exact ⟨sig, hsig, ha.recorded info hk.1 henv, rfl, hk.2.typed⟩
  | intrinsic id span callee calleeSpan args =>
    obtain ⟨_, hlength, ha, rfl, rfl⟩ := checkExpr_intrinsic.1 h
    have ha := checkValues_checked args ha
    refine ⟨ha.within.snoc_typed _ _, fun info hk henv => ?_⟩
    simp only [TypeInfo.knows_append] at hk
    exact ⟨hlength, ha.recorded info hk.1 henv, rfl, hk.2.typed⟩
  | cast id span base operand =>
    obtain ⟨f, _, he, rfl, rfl⟩ := checkExpr_cast.1 h
    have he := checkExpr_checked operand he
    refine ⟨he.within.snoc_typed _ _, fun info hk henv => ?_⟩
    simp only [TypeInfo.knows_append] at hk
    exact ⟨⟨f, he.recorded info hk.1 henv⟩, rfl, hk.2.typed⟩

theorem checkArguments_checked {env : Env} {callee : String} {number : Nat} {params : List Ty} (args : List Expr)
    {facts : Facts} (h : checkArguments env callee number params args = .ok facts)
    (hlen : params.length = args.length) :
    Checked env facts (Expr.idsOf args) fun info => Expr.RecordedArgs info env params args := by
  match params, args with
  | [], [] =>
    obtain rfl := checkArguments_nil.1 h
    exact ⟨Facts.Within.empty _, fun _ _ _ => trivial⟩
  | param :: params, arg :: args =>
    obtain ⟨f, _, _, he, hparam, hr, rfl⟩ := checkArguments_cons.1 h
    have he := checkExpr_checked arg he
    have hr := checkArguments_checked args hr (by simpa using hlen)
    refine ⟨he.within.append hr.within, fun info hk henv => ?_⟩
    rw [TypeInfo.knows_append] at hk
    exact ⟨⟨f, hparam, he.recorded info hk.1 henv⟩, hr.recorded info hk.2 henv⟩
  | [], _ :: _ => simp at hlen
  | _ :: _, [] => simp at hlen

theorem checkValues_checked {env : Env} (args : List Expr) {facts : Facts} (h : checkValues env args = .ok facts) :
    Checked env facts (Expr.idsOf args) fun info => Expr.RecordedValues info env args := by
  match args with
  | [] =>
    obtain rfl := checkValues_nil.1 h
    exact ⟨Facts.Within.empty _, fun _ _ _ => trivial⟩
  | arg :: args =>
    obtain ⟨f, _, _, he, hr, rfl⟩ := checkValues_cons.1 h
    have he := checkExpr_checked arg he
    have hr := checkValues_checked args hr
    refine ⟨he.within.append hr.within, fun info hk henv => ?_⟩
    rw [TypeInfo.knows_append] at hk
    exact ⟨⟨f, he.recorded info hk.1 henv⟩, hr.recorded info hk.2 henv⟩

end

/-! ## Recorded statements -/

theorem checkEffect_checked {env : Env} {e : Expr} {facts : Facts} (h : checkEffect env e = .ok facts) :
    Checked env facts e.ids fun info => ∃ b, e.Recorded info env b := by
  obtain ⟨b, full, he, htypes, hresolved, hvars⟩ := checkEffect_eq_ok h
  have he := (checkExpr_checked e he).congr htypes hresolved hvars
  exact ⟨he.within, fun info hk henv => ⟨b, he.recorded info hk henv⟩⟩

theorem checkOptional_checked {env : Env} {e : Option Expr} {facts : Facts} (h : checkOptional env e = .ok facts) :
    Checked env facts (Expr.optionalIds e) fun info => ∀ x ∈ e, x.RecordedValue info env := by
  cases e with
  | none =>
    obtain rfl := checkOptional_none.1 h
    exact ⟨Facts.Within.empty _, by simp⟩
  | some e =>
    obtain ⟨f, he⟩ := checkOptional_some.1 h
    have he := checkExpr_checked e he
    refine ⟨he.within, fun info hk henv => ?_⟩
    rintro _ ⟨⟩
    exact ⟨f, he.recorded info hk henv⟩

theorem checkStep_checked {env : Env} {e : Option Expr} {facts : Facts} (h : checkStep env e = .ok facts) :
    Checked env facts (Expr.optionalIds e) fun info => ∀ x ∈ e, ∃ b, x.Recorded info env b := by
  cases e with
  | none =>
    obtain rfl := checkStep_none.1 h
    exact ⟨Facts.Within.empty _, by simp⟩
  | some e =>
    have he := checkEffect_checked (checkStep_some ▸ h)
    refine ⟨he.within, fun info hk henv => ?_⟩
    rintro _ ⟨⟩
    exact he.recorded info hk henv

/-- checking a statement: its facts, and the environment after it -/
structure Continues (env env' : Env) (facts : Facts) (ids : List NodeId) (recorded : TypeInfo → Prop) : Prop
    extends Checked env facts ids recorded where
  known : ∀ info : TypeInfo, info.Knows facts → env.Known info → env'.Known info

/-- a part that leaves the environment as it is -/
theorem Checked.continues {env : Env} {facts : Facts} {ids : List NodeId} {recorded : TypeInfo → Prop}
    (h : Checked env facts ids recorded) : Continues env env facts ids recorded := ⟨h, fun _ _ henv => henv⟩

/-- a declaration is checked by its initializer, if it has one, then added to the scope -/
theorem checkDecl_eq_ok {env env' : Env} {kind : VarKind} {d : VarDecl} {facts : Facts}
    (h : checkDecl env kind d = .ok (env', facts)) :
    d.ty.base ≠ .void ∧ env.declare (d.variable kind) d.nameSpan = .ok env' ∧
      ∃ initial : Facts, facts = initial ++ .declares (d.variable kind) ∧ Checked env initial (Expr.optionalIds d.init)
        fun info => ∀ e ∈ d.init, ∃ f : Family, d.ty.base = f.base ∧ e.Recorded info env f.base := by
  cases hinit : d.init with
  | none =>
    obtain ⟨hvoid, -, hdeclare, rfl⟩ := (checkDecl_none hinit).1 h
    exact ⟨hvoid, hdeclare, {}, rfl, Facts.Within.empty _, by simp⟩
  | some e =>
    obtain ⟨f, facts, he, hty, hdeclare, rfl⟩ := (checkDecl_some hinit).1 h
    have he := checkExpr_checked e he
    refine ⟨hty ▸ f.base_ne_void, hdeclare, facts, rfl, he.within, fun info hk henv => ?_⟩
    rintro _ ⟨⟩
    exact ⟨f, hty, he.recorded info hk henv⟩

/-- a declaration: the variable is added to a scope that does not have its name -/
theorem checkDecl_continues {env env' : Env} {kind : VarKind} {d : VarDecl} {facts : Facts}
    (h : checkDecl env kind d = .ok (env', facts)) :
    env' = env.bind (d.variable kind) ∧ (∀ scope ∈ env.scopes.head?, ∀ w ∈ scope, w.name ≠ d.name) ∧
      Continues env env' facts d.ids fun info => d.Recorded info env := by
  obtain ⟨hvoid, hdecl, initial, rfl, hinit⟩ := checkDecl_eq_ok h
  obtain ⟨rfl, hnew⟩ := Env.declare_eq_ok hdecl
  refine ⟨rfl, hnew, ⟨hinit.within.append (Facts.Within.declares (d.variable kind)), fun info hk henv => ?_⟩,
    fun info hk henv => ?_⟩
  · exact ⟨hvoid, hinit.recorded info (TypeInfo.knows_append.1 hk).1 henv⟩
  · exact henv.bind (TypeInfo.knows_append.1 hk).2 hvoid

theorem checkReturn_checked {env : Env} {span : Span} {value : Option Expr} {facts : Facts}
    (h : checkReturn env span value = .ok facts) :
    Checked env facts (Expr.optionalIds value) fun info => Stmt.Recorded info env (.return_ span value) := by
  cases value with
  | none =>
    obtain ⟨hvoid, rfl⟩ := checkReturn_none.1 h
    exact ⟨Facts.Within.empty _, fun info _ _ => by simpa [Stmt.Recorded] using hvoid⟩
  | some e =>
    obtain ⟨f, he, hty⟩ := checkReturn_some.1 h
    have he := checkExpr_checked e he
    refine ⟨he.within, fun info hk henv => ?_⟩
    simp only [Stmt.Recorded]
    exact ⟨f, hty, he.recorded info hk henv⟩

theorem checkForInit_continues {env env' : Env} {init : ForInit} {facts : Facts}
    (h : checkForInit env init = .ok (env', facts)) :
    env' = env.declareAll init.declared ∧ Continues env env' facts init.ids fun info => init.Recorded info env := by
  cases init with
  | nothing =>
    obtain ⟨rfl, rfl⟩ := checkForInit_nothing.1 h
    exact ⟨rfl, Checked.continues ⟨Facts.Within.empty _, fun _ _ _ => trivial⟩⟩
  | decl d =>
    rw [checkForInit_decl] at h
    obtain ⟨henv, -, hd⟩ := checkDecl_continues h
    exact ⟨henv, hd⟩
  | expr span e =>
    obtain ⟨rfl, he⟩ := checkForInit_expr.1 h
    exact ⟨rfl, (checkEffect_checked he).continues⟩

/-- facts and records of two parts, the second checked in an environment known after the first -/
theorem Continues.append {env mid : Env} {a b : Facts} {xs ys : List NodeId} {p q : TypeInfo → Prop}
    (ha : Continues env mid a xs p) (hb : Checked mid b ys q) :
    Checked env (a ++ b) (xs ++ ys) fun info => p info ∧ q info :=
  ⟨ha.within.append hb.within, fun info hk henv =>
    have hk := TypeInfo.knows_append.1 hk
    ⟨ha.recorded info hk.1 henv, hb.recorded info hk.2 (ha.known info hk.1 henv)⟩⟩

theorem Checked.of_known {env env' : Env} {facts : Facts} {ids : List NodeId} {p : TypeInfo → Prop}
    (h : Checked env' facts ids p) (henv : ∀ info : TypeInfo, env.Known info → env'.Known info) :
    Checked env facts ids p :=
  ⟨h.within, fun info hk hknown => h.recorded info hk (henv info hknown)⟩

mutual

/-- the facts of a statement are about its own nodes, record it, and make the environment after it known -/
theorem checkStmt_continues {env env' : Env} (s : Stmt) {facts : Facts} (h : checkStmt env s = .ok (env', facts)) :
    env' = env.after s ∧ Continues env env' facts s.ids fun info => s.Recorded info env := by
  cases s with
  | decl d =>
    rw [checkStmt_decl] at h
    obtain ⟨henv, -, hd⟩ := checkDecl_continues h
    exact ⟨henv, by simpa only [Stmt.ids, Stmt.Recorded] using hd⟩
  | ifThen span cond yes =>
    obtain ⟨f, _, _, _, hc, hy, rfl, rfl⟩ := checkStmt_ifThen.1 h
    have hc := checkExpr_checked cond hc
    have hy := (checkStmt_continues yes hy).2.toChecked.of_known fun _ => Env.Known.enter
    have both := hc.continues.append hy
    refine ⟨rfl, Checked.continues ⟨both.within, fun info hk henv => ?_⟩⟩
    obtain ⟨hcond, hyes⟩ := both.recorded info hk henv
    exact ⟨⟨f, hcond⟩, hyes⟩
  | ifElse span cond yes no =>
    obtain ⟨f, _, _, _, _, _, hc, hy, hn, rfl, rfl⟩ := checkStmt_ifElse.1 h
    have hc := checkExpr_checked cond hc
    have hy := (checkStmt_continues yes hy).2.toChecked.of_known fun _ => Env.Known.enter
    have hn := (checkStmt_continues no hn).2.toChecked.of_known fun _ => Env.Known.enter
    have all := (hc.continues.append hy).continues.append hn
    refine ⟨rfl, Checked.continues ⟨all.within, fun info hk henv => ?_⟩⟩
    obtain ⟨⟨hcond, hyes⟩, hno⟩ := all.recorded info hk henv
    exact ⟨⟨f, hcond⟩, hyes, hno⟩
  | while_ span cond body =>
    obtain ⟨f, _, _, _, hc, hb, rfl, rfl⟩ := checkStmt_while.1 h
    have hc := checkExpr_checked cond hc
    -- a loop opens no scope of its own: what its body declares is known behind it
    obtain ⟨rfl, hb⟩ := checkStmt_continues body hb
    have both := hc.continues.append (hb.toChecked.of_known fun _ h => h.of_scopes rfl)
    refine ⟨rfl, ⟨both.within, fun info hk henv => ?_⟩, fun info hk henv => ?_⟩
    · obtain ⟨hcond, hbody⟩ := both.recorded info hk henv
      exact ⟨⟨f, hcond⟩, hbody⟩
    · exact (hb.known info (TypeInfo.knows_append.1 hk).2 (henv.of_scopes rfl)).of_scopes rfl
  | doWhile span body cond =>
    obtain ⟨_, _, f, _, hb, hc, rfl, rfl⟩ := checkStmt_doWhile.1 h
    have hc := checkExpr_checked cond hc
    obtain ⟨rfl, hb⟩ := checkStmt_continues body hb
    have both := hb.append (hc.of_known fun _ h => h.of_scopes rfl)
    refine ⟨rfl, ⟨both.within, fun info hk henv => ?_⟩, fun info hk henv => ?_⟩
    · obtain ⟨hbody, hcond⟩ := both.recorded info hk (henv.of_scopes rfl)
      exact ⟨hbody, f, hcond⟩
    · exact (hb.known info (TypeInfo.knows_append.1 hk).1 (henv.of_scopes rfl)).of_scopes rfl
  | for_ span init cond step body =>
    obtain ⟨_, _, _, _, _, _, hi, hc, hs, hb, rfl, rfl⟩ := checkStmt_for.1 h
    obtain ⟨rfl, hi⟩ := checkForInit_continues hi
    have hc := checkOptional_checked hc
    have hs := checkStep_checked hs
    have hb := (checkStmt_continues body hb).2.toChecked
    have all := hi.append ((hc.continues.append hs).continues.append (hb.of_known fun _ h => h.of_scopes rfl))
    refine ⟨rfl, Checked.continues ⟨?_, fun info hk henv => ?_⟩⟩
    · simpa [Stmt.ids, ← Facts.append_assoc] using all.within
    · obtain ⟨hinit, ⟨hcond, hstep⟩, hbody⟩ :=
        all.recorded info (by simpa only [Facts.append_assoc] using hk) henv.enter
      exact ⟨hinit, hcond, hstep, hbody⟩
  | break_ span =>
    obtain ⟨hloop, rfl, rfl⟩ := checkStmt_break.1 h
    exact ⟨rfl, Checked.continues ⟨Facts.Within.empty _, fun _ _ _ => by simpa [Stmt.Recorded] using hloop⟩⟩
  | continue_ span =>
    obtain ⟨hloop, rfl, rfl⟩ := checkStmt_continue.1 h
    exact ⟨rfl, Checked.continues ⟨Facts.Within.empty _, fun _ _ _ => by simpa [Stmt.Recorded] using hloop⟩⟩
  | return_ span value =>
    obtain ⟨rfl, hv⟩ := checkStmt_return.1 h
    exact ⟨rfl, Checked.continues (by simpa only [Stmt.ids] using checkReturn_checked hv)⟩
  | expr span e =>
    obtain ⟨rfl, he⟩ := checkStmt_expr.1 h
    exact ⟨rfl, Checked.continues (by simpa only [Stmt.ids, Stmt.Recorded] using checkEffect_checked he)⟩
  | block span body =>
    obtain ⟨rfl, _, hb⟩ := checkStmt_block.1 h
    have hb := (checkStmts_checked body hb).of_known fun _ => Env.Known.enter
    exact ⟨rfl, Checked.continues (by simpa only [Stmt.ids, Stmt.Recorded] using hb)⟩
  | empty span =>
    obtain ⟨rfl, rfl⟩ := checkStmt_empty.1 h
    exact ⟨rfl, Checked.continues ⟨Facts.Within.empty _, fun _ _ _ => by simp [Stmt.Recorded]⟩⟩

theorem checkStmts_checked {env env' : Env} (ss : List Stmt) {facts : Facts}
    (h : checkStmts env ss = .ok (env', facts)) :
    Checked env facts (Stmt.idsOf ss) fun info => Stmt.RecordedAll info env ss := by
  cases ss with
  | nil =>
    obtain ⟨rfl, rfl⟩ := checkStmts_nil.1 h
    exact ⟨Facts.Within.empty _, fun _ _ _ => by simp [Stmt.RecordedAll]⟩
  | cons s rest =>
    obtain ⟨_, _, _, hs, hr, rfl⟩ := checkStmts_cons.1 h
    obtain ⟨rfl, hs⟩ := checkStmt_continues s hs
    simpa only [Stmt.idsOf, Stmt.RecordedAll] using hs.append (checkStmts_checked rest hr)

end

/-! ## Recorded programs -/

theorem checkParams_continues {env env' : Env} (ps : List Param) {facts : Facts}
    (h : checkParams env ps = .ok (env', facts)) :
    env' = ps.foldl (fun acc p => acc.bind p.variable) env ∧
      Continues env env' facts (ps.map (·.id)) fun _ => ∀ p ∈ ps, p.ty.base ≠ .void := by
  induction ps generalizing env facts with
  | nil =>
    obtain ⟨rfl, rfl⟩ := checkParams_nil.1 h
    exact ⟨rfl, Checked.continues ⟨Facts.Within.empty _, by simp⟩⟩
  | cons p rest ih =>
    obtain ⟨_, _, hvoid, hdeclare, hr, rfl⟩ := checkParams_cons.1 h
    obtain ⟨rfl, -⟩ := Env.declare_eq_ok hdeclare
    obtain ⟨henv, hr⟩ := ih hr
    have hp : ∀ info : TypeInfo, info.Knows (.declares p.variable) → env.Known info →
        (env.bind p.variable).Known info :=
      fun info hk hknown => hknown.bind hk hvoid
    refine ⟨henv, ⟨(Facts.Within.declares p.variable).append hr.within, fun info hk hknown => ?_⟩,
      fun info hk hknown => ?_⟩
    · have hk := TypeInfo.knows_append.1 hk
      have hrest := hr.recorded info hk.2 (hp info hk.1 hknown)
      intro q hq
      rcases List.mem_cons.1 hq with rfl | hq
      · exact hvoid
      · exact hrest q hq
    · have hk := TypeInfo.knows_append.1 hk
      exact hr.known info hk.2 (hp info hk.1 hknown)

/-- parameters bound one after the other stand in one scope, the last first -/
theorem foldl_bind_params (ps : List Param) (env : Env) (scope : List Variable) (outer : Scopes)
    (h : env.scopes = scope :: outer) :
    ps.foldl (fun acc p => acc.bind p.variable) env =
      { env with scopes := ((ps.map Param.variable).reverse ++ scope) :: outer } := by
  induction ps generalizing env scope with
  | nil => simp [← h]
  | cons p rest ih =>
    rw [List.foldl_cons, ih (env.bind p.variable) (p.variable :: scope) (by simp [Env.bind, Scopes.bind, h])]
    simp [Env.bind]

theorem checkFunction_checked {env : Env} {f : FunctionDecl} {facts : Facts} (h : checkFunction env f = .ok facts) :
    Checked env facts f.ids fun info => f.Recorded info env := by
  obtain ⟨_, _, _, _, hp, hb, rfl⟩ := checkFunction_eq_ok.1 h
  obtain ⟨rfl, hp⟩ := checkParams_continues f.params hp
  have both := hp.append (checkStmts_checked f.body hb)
  rw [foldl_bind_params f.params _ [] env.scopes rfl, List.append_nil] at both
  exact both.of_known fun _ henv => henv.enter.of_scopes rfl

theorem checkItems_checked {env : Env} (items : List Item) {facts : Facts} (h : checkItems env items = .ok facts) :
    Checked env facts (items.flatMap Item.ids) fun info => Item.RecordedAll info env items := by
  induction items generalizing env facts with
  | nil =>
    obtain rfl := checkItems_nil.1 h
    exact ⟨Facts.Within.empty _, fun _ _ _ => trivial⟩
  | cons item rest ih =>
    cases item with
    | global d =>
      obtain ⟨_, _, _, hd, hr, rfl⟩ := checkItems_global.1 h
      obtain ⟨rfl, -, hd⟩ := checkDecl_continues hd
      exact hd.append (ih hr)
    | function f =>
      obtain ⟨_, _, hf, hr, rfl⟩ := checkItems_function.1 h
      exact (checkFunction_checked hf).continues.append (ih hr)

/-- functions are collected in order, each name once -/
theorem collect_eq_ok {seen sigs : List (String × Signature)} (fs : List FunctionDecl) (h : collect seen fs = .ok sigs)
    (hseen : (seen.map Prod.fst).Nodup) :
    sigs = seen ++ fs.map (fun f => (f.name, f.signature)) ∧ (sigs.map Prod.fst).Nodup := by
  induction fs generalizing seen with
  | nil =>
    simp only [collect, pure_eq_ok] at h
    subst h
    exact ⟨by simp, hseen⟩
  | cons f rest ih =>
    simp only [collect] at h
    split at h
    · rw [throw_eq_ok] at h
      exact h.elim
    · rename_i hnew
      have hnew : f.name ∉ seen.map Prod.fst := by
        intro hmem
        obtain ⟨x, hx, hname⟩ := List.mem_map.1 hmem
        refine hnew ?_
        rw [← hname, lookup_eq_of_mem hseen hx]
        rfl
      obtain ⟨hsigs, hnodup⟩ :=
        ih h (by simpa [List.nodup_append, hseen] using fun x y h heq => hnew (List.mem_map.2 ⟨_, h, heq⟩))
      exact ⟨by simpa [FunctionDecl.signature] using hsigs, hnodup⟩

theorem checkMain_eq_ok {p : Program} {u : Unit} (h : checkMain p = .ok u) :
    ∃ f, p.functions.find? (·.name == "main") = some f ∧ f.params = [] := by
  unfold checkMain at h
  split at h
  · cases h
  · rename_i f hf
    split at h
    · rename_i hparams
      exact ⟨f, hf, by simpa using hparams⟩
    · cases h

end Typing

/-- the environment in which a program's items are checked -/
def TypeInfo.outermost (info : TypeInfo) : Typing.Env := ⟨info.functions, [[]], "", .plain .void, false⟩

/-- the tables describe a program: its items are recorded, its functions have different names and their signatures, and
`main` is one of them and takes no parameters -/
structure Program.Recorded (info : TypeInfo) (p : Program) : Prop where
  items : Item.RecordedAll info info.outermost p.items
  functions : info.functions = p.functions.map fun f => (f.name, f.signature)
  names : (p.functions.map (·.name)).Nodup
  main : ∃ f, p.functions.find? (·.name == "main") = some f ∧ f.params = []

/-- the functions of a checked program have different names, and `main` is one of them -/
theorem names_of_check {p : Program} {info : TypeInfo} (h : p.check = .ok info) :
    (p.functions.map (·.name)).Nodup ∧ "main" ∈ p.functions.map (·.name) := by
  obtain ⟨hcollect, hmain, -⟩ := Program.check_eq_ok.1 h
  obtain ⟨hfunctions, hnames⟩ := Typing.collect_eq_ok p.functions hcollect List.nodup_nil
  obtain ⟨f, hf, -⟩ := Typing.checkMain_eq_ok hmain
  refine ⟨by simpa [hfunctions, List.map_map, Function.comp_def] using hnames, ?_⟩
  exact List.mem_map.2 ⟨f, List.mem_of_find?_eq_some hf, by simpa using List.find?_some hf⟩

/-- the facts of a checked program hide none of their entries -/
theorem Program.knows_of_check {p : Program} {info : TypeInfo} (hids : p.ids.Nodup) (h : p.check = .ok info) :
    info.Knows info.facts := by
  obtain ⟨-, -, hitems⟩ := Program.check_eq_ok.1 h
  exact (Typing.checkItems_checked p.items hitems).within.knows hids

/-- **The tables of a checked program record it.** Its identities are distinct, so no entry hides another. -/
theorem recorded_of_check {p : Program} {info : TypeInfo} (h : p.check = .ok info) (hids : p.ids.Nodup) :
    p.Recorded info := by
  have hnames := (names_of_check h).1
  have hknows := Program.knows_of_check hids h
  obtain ⟨hcollect, hmain, hitems⟩ := Program.check_eq_ok.1 h
  obtain ⟨hfunctions, -⟩ := Typing.collect_eq_ok p.functions hcollect List.nodup_nil
  have hitems := Typing.checkItems_checked p.items hitems
  refine ⟨hitems.recorded _ hknows ⟨?_, ?_⟩, by simpa using hfunctions, hnames, Typing.checkMain_eq_ok hmain⟩
  · intro name v hv
    simp [Typing.Env.find?] at hv
  · intro name v hv
    simp [Typing.Env.find?] at hv

/-! ## Functions of a checked program -/

section Functions

variable {p : Program} {info : TypeInfo}

theorem mem_functions {f : FunctionDecl} : f ∈ p.functions ↔ .function f ∈ p.items := by
  unfold Program.functions
  rw [List.mem_filterMap]
  constructor
  · rintro ⟨item, hitem, h⟩
    cases item with
    | global => cases h
    | function g => cases h; exact hitem
  · exact fun h => ⟨.function f, h, rfl⟩

theorem mem_globals {d : VarDecl} : d ∈ p.globals ↔ .global d ∈ p.items := by
  unfold Program.globals
  rw [List.mem_filterMap]
  constructor
  · rintro ⟨item, hitem, h⟩
    cases item with
    | function => cases h
    | global e => cases h; exact hitem
  · exact fun h => ⟨.global d, h, rfl⟩

theorem Program.Recorded.lookup_function (hrec : p.Recorded info) {f : FunctionDecl} (hf : f ∈ p.functions) :
    info.functions.lookup f.name = some f.signature := by
  rw [hrec.functions]
  have hkeys : ((p.functions.map fun g => (g.name, g.signature)).map Prod.fst).Nodup := by
    rw [List.map_map]
    exact hrec.names
  exact lookup_eq_of_mem hkeys (List.mem_map_of_mem hf)

theorem Program.Recorded.exists_function (hrec : p.Recorded info) {name : String} {sig : Signature}
    (h : info.functions.lookup name = some sig) : ∃ f ∈ p.functions, f.name = name ∧ f.signature = sig := by
  obtain ⟨before, after, hfunctions, -⟩ := List.lookup_eq_some_iff.1 h
  have hmem : (name, sig) ∈ info.functions := hfunctions ▸ List.mem_append_right _ List.mem_cons_self
  rw [hrec.functions] at hmem
  obtain ⟨f, hf, heq⟩ := List.mem_map.1 hmem
  obtain ⟨rfl, rfl⟩ := Prod.mk.inj heq
  exact ⟨f, hf, rfl, rfl⟩

end Functions

end C15

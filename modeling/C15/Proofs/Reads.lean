/-
Which variables the checker takes for read.

`Program.reads` lists the occurrences at which a program reads a variable, whether or not they can be reached: a name
that stands for its value, a compound assignment, and an update whose value is used. The target of a plain assignment is
not among them, whatever becomes of the value. Results:
- `Typing.checkExpr_uses`, `Typing.checkStmt_uses`: the declarations in the facts that are marked as used are those of
  the reads, in order;
- `Program.isUsed_iff`: a declaration of a checked program is marked as used exactly if a read resolves to it.
-/
import C15.Proofs.BlockScope
import C15.Proofs.Reports

namespace C15

/-! ## Reads -/

mutual

/-- the occurrences at which an expression reads a variable -/
def Expr.reads (used : Bool) : Expr → List NodeId
  | .literal .. => []
  | .ident id _ _ => [id]
  | .binary _ _ _ lhs rhs => lhs.reads true ++ rhs.reads true
  | .unary _ _ _ operand | .cast _ _ _ operand => operand.reads true
  | .update id .. => if used then [id] else []
  | .assign _ _ none _ _ value => value.reads true
  | .assign id _ (some _) _ _ value => value.reads true ++ [id]
  | .call _ _ _ _ args | .intrinsic _ _ _ _ args => Expr.readsOf args

def Expr.readsOf : List Expr → List NodeId
  | [] => []
  | e :: es => e.reads true ++ Expr.readsOf es

end

/-- the reads of an expression of which only the effects count -/
def Expr.effectReads (e : Expr) : List NodeId := e.reads (!e.isDroppable)

def Expr.optionalReads (e : Option Expr) : List NodeId := e.elim [] (·.reads true)

def VarDecl.reads (d : VarDecl) : List NodeId := Expr.optionalReads d.init

def ForInit.reads : ForInit → List NodeId
  | .nothing => []
  | .decl d => d.reads
  | .expr _ e => e.effectReads

mutual

/-- the reads of a statement, in the order they are checked: the step of a `for` comes before the body -/
def Stmt.reads : Stmt → List NodeId
  | .decl d => d.reads
  | .ifThen _ cond yes => cond.reads true ++ yes.reads
  | .ifElse _ cond yes no => cond.reads true ++ yes.reads ++ no.reads
  | .while_ _ cond body => cond.reads true ++ body.reads
  | .doWhile _ body cond => body.reads ++ cond.reads true
  | .for_ _ init cond step body => init.reads ++ Expr.optionalReads cond ++ step.elim [] Expr.effectReads ++ body.reads
  | .return_ _ value => Expr.optionalReads value
  | .expr _ e => e.effectReads
  | .block _ body => Stmt.readsOf body
  | .break_ _ | .continue_ _ | .empty _ => []

def Stmt.readsOf : List Stmt → List NodeId
  | [] => []
  | s :: rest => s.reads ++ Stmt.readsOf rest

end

def Item.reads : Item → List NodeId
  | .global d => d.reads
  | .function f => Stmt.readsOf f.body

/-- the occurrences at which a program reads a variable -/
def Program.reads (p : Program) : List NodeId := p.items.flatMap Item.reads

/-! ## Facts -/

/-- the declarations marked as used are those that some occurrences resolve to, one for one -/
def Facts.Uses (facts : Facts) (ids : List NodeId) : Prop :=
  List.Forall₂ (fun decl id => (id, decl) ∈ facts.resolved) facts.used ids

namespace Facts.Uses

variable {a b : Facts} {xs ys : List NodeId}

theorem append (ha : a.Uses xs) (hb : b.Uses ys) : (a ++ b).Uses (xs ++ ys) :=
  List.rel_append (ha.imp fun _ _ h => List.mem_append_left _ h) (hb.imp fun _ _ h => List.mem_append_right _ h)

/-- nothing is marked -/
theorem none (h : a.used = []) : a.Uses [] := by
  unfold Uses
  rw [h]
  exact .nil

theorem snoc (ha : a.Uses xs) (hb : b.used = []) : (a ++ b).Uses xs := by
  have h := ha.append (none hb)
  rwa [List.append_nil] at h

theorem cons (hb : b.used = []) (ha : a.Uses xs) : (b ++ a).Uses xs := (none hb).append ha

/-- a variable that is read where it is resolved -/
theorem read (ha : a.Uses xs) {id decl : NodeId} (hid : (id, decl) ∈ a.resolved) :
    (a ++ .reads decl).Uses (xs ++ [id]) :=
  List.rel_append (ha.imp fun _ _ h => List.mem_append_left _ h) (.cons (List.mem_append_left _ hid) .nil)

end Facts.Uses

/-- a step of which nothing is asked -/
theorem endsAt_any {ε α : Type} (x : Except (Located ε) α) : EndsAt (fun _ => True) (fun _ => True) x := by
  cases x <;> trivial

namespace Typing

/-- a check that, if it succeeds, marks the declarations of these occurrences -/
abbrev Marks {α : Type} (facts : α → Facts) (ids : List NodeId) : Except TypeError α → Prop :=
  EndsAt (fun _ => True) fun a => (facts a).Uses ids

theorem checkUpdate_uses (env : Env) (dropped : Bool) (id : NodeId) (span : Span) (targetId : NodeId)
    (targetSpan : Span) (target : String) :
    Marks Prod.snd (if dropped then [] else [id]) (checkUpdate env dropped id span targetId targetSpan target) := by
  refine (endsAt_any _).bind fun v _ => .guard trivial ?_
  have htarget : (Facts.resolves targetId v.decl ++ .resolves id v.decl).Uses [] := .none rfl
  cases dropped with
  | true => exact endsAt_pure (((htarget.snoc rfl).snoc rfl).snoc rfl)
  | false =>
    exact endsAt_pure
      (((htarget.read (List.mem_append_right _ (List.mem_singleton_self _))).snoc rfl).snoc rfl)

mutual

/-- an expression marks the variables it reads -/
theorem checkExpr_uses (env : Env) (e : Expr) : Marks Prod.snd (e.reads true) (checkExpr env e) := by
  match e with
  | .literal .. => exact endsAt_pure (.none rfl)
  | .ident id .. =>
    simp only [checkExpr, Expr.reads]
    refine (endsAt_any _).bind fun v _ => endsAt_pure ?_
    have hname : (Facts.resolves id v.decl).Uses [] := .none rfl
    exact (hname.read (List.mem_singleton_self _)).snoc rfl
  | .binary _ _ _ lhs rhs =>
    simp only [checkExpr, Expr.reads]
    refine (checkExpr_uses env lhs).bind fun left hleft => (endsAt_any _).bind fun _ _ => ?_
    refine (checkExpr_uses env rhs).bind fun right hright => (endsAt_any _).bind fun _ _ => ?_
    exact .guard trivial (.guard trivial (endsAt_pure ((hleft.append hright).snoc rfl)))
  | .unary _ _ _ operand =>
    simp only [checkExpr, Expr.reads]
    refine (checkExpr_uses env operand).bind fun r hr => (endsAt_any _).bind fun _ _ => ?_
    exact .guard trivial (endsAt_pure (hr.snoc rfl))
  | .update id span _ targetId targetSpan target =>
    simp only [checkExpr, Expr.reads]
    exact checkUpdate_uses env false id span targetId targetSpan target
  | .assign id _ op _ _ value =>
    simp only [checkExpr]
    refine (endsAt_any _).bind fun v _ => .guard trivial ?_
    refine (checkExpr_uses env value).bind fun r hr => (endsAt_any _).bind fun _ _ => (endsAt_any _).bind fun _ _ => ?_
    have hvalue : (Facts.resolves id v.decl ++ r.2).Uses (value.reads true) := .cons rfl hr
    cases op with
    | none => exact endsAt_pure (hvalue.snoc rfl)
    | some op =>
      exact .guard trivial
        (endsAt_pure ((hvalue.read (List.mem_append_left _ (List.mem_singleton_self _))).snoc rfl))
  | .call _ _ callee _ args =>
    simp only [checkExpr, Expr.reads]
    cases env.signature? callee with
    | none =>
      dsimp only
      split <;> exact endsAt_throw trivial
    | some sig =>
      dsimp only
      by_cases hlength : sig.params.length = args.length
      · rw [if_neg (not_not.2 hlength)]
        exact (checkArguments_uses env callee 1 _ _ hlength).bind fun _ hargs => endsAt_pure (hargs.snoc rfl)
      · rw [if_pos hlength]
        exact endsAt_throw trivial
  | .intrinsic _ _ _ _ args =>
    simp only [checkExpr, Expr.reads]
    exact .guard trivial ((checkValues_uses env args).bind fun _ hargs => endsAt_pure (hargs.snoc rfl))
  | .cast _ _ _ operand =>
    simp only [checkExpr, Expr.reads]
    exact (checkExpr_uses env operand).bind fun r hr => (endsAt_any _).bind fun _ _ => endsAt_pure (hr.snoc rfl)

theorem checkArguments_uses (env : Env) (callee : String) (number : Nat) (params : List Ty) (args : List Expr)
    (h : params.length = args.length) :
    Marks id (Expr.readsOf args) (checkArguments env callee number params args) := by
  match args, params with
  | [], [] => exact endsAt_pure (.none rfl)
  | arg :: args, param :: params =>
    simp only [checkArguments, Expr.readsOf]
    refine (checkExpr_uses env arg).bind fun r hr => (endsAt_any _).bind fun _ _ => (endsAt_any _).bind fun _ _ => ?_
    refine (checkArguments_uses env callee _ params args (Nat.succ.inj h)).bind fun _ hrest =>
      endsAt_pure (hr.append hrest)

theorem checkValues_uses (env : Env) (args : List Expr) : Marks id (Expr.readsOf args) (checkValues env args) := by
  match args with
  | [] => exact endsAt_pure (.none rfl)
  | arg :: args =>
    simp only [checkValues, Expr.readsOf]
    refine (checkExpr_uses env arg).bind fun r hr => (endsAt_any _).bind fun _ _ => ?_
    exact (checkValues_uses env args).bind fun _ hrest => endsAt_pure (hr.append hrest)

end

theorem checkValue_uses (env : Env) (e : Expr) : Marks Prod.snd (e.reads true) (checkValue env e) :=
  (checkExpr_uses env e).bind fun _ hr => (endsAt_any _).bind fun _ _ => endsAt_pure hr

theorem checkEffect_uses (env : Env) (e : Expr) : Marks id e.effectReads (checkEffect env e) := by
  have hvalue : Marks id (e.reads true) (do let r ← checkExpr env e; pure r.2) :=
    (checkExpr_uses env e).bind fun _ hr => endsAt_pure hr
  cases e with
  | update id span _ targetId targetSpan target =>
    exact (checkUpdate_uses env true id span targetId targetSpan target).bind fun _ hr => endsAt_pure hr
  | assign _ _ op =>
    -- only for an update does it matter whether the value is used
    cases op <;> exact hvalue
  | literal | ident | binary | unary | call | intrinsic | cast => exact hvalue

theorem checkOptional_uses (env : Env) (e : Option Expr) : Marks id (Expr.optionalReads e) (checkOptional env e) := by
  cases e with
  | none => exact endsAt_pure (.none rfl)
  | some e => exact (checkValue_uses env e).bind fun _ hr => endsAt_pure hr

theorem checkStep_uses (env : Env) (e : Option Expr) : Marks id (e.elim [] Expr.effectReads) (checkStep env e) := by
  cases e with
  | none => exact endsAt_pure (.none rfl)
  | some e => exact checkEffect_uses env e

theorem checkDecl_uses (env : Env) (kind : VarKind) (d : VarDecl) : Marks Prod.snd d.reads (checkDecl env kind d) := by
  obtain ⟨id, span, name, nameSpan, ty, init⟩ := d
  refine .guard trivial ?_
  have hdeclare {facts : Facts} {ids : List NodeId} (h : facts.Uses ids) (v : Variable) :
      Marks Prod.snd ids (do let env ← env.declare v nameSpan; pure (env, facts ++ .declares v)) :=
    (endsAt_any _).bind fun _ _ => endsAt_pure (h.snoc rfl)
  cases init with
  | none =>
    cases ty.isConst with
    | true =>
      simp only [if_true]
      exact endsAt_throw trivial
    | false =>
      simp only [Bool.false_eq_true, if_false]
      exact hdeclare (.none rfl) _
  | some e => exact (checkValue_uses env e).bind fun _ hr => (endsAt_any _).bind fun _ _ => hdeclare hr _

theorem checkReturn_uses (env : Env) (span : Span) (e : Option Expr) :
    Marks id (Expr.optionalReads e) (checkReturn env span e) := by
  cases e with
  | none =>
    simp only [checkReturn]
    split
    · exact endsAt_pure (.none rfl)
    · exact endsAt_throw trivial
  | some e => exact .guard trivial ((checkValue_uses env e).bind fun _ hr => (endsAt_any _).bind fun _ _ =>
    endsAt_pure hr)

theorem checkForInit_uses (env : Env) (init : ForInit) : Marks Prod.snd init.reads (checkForInit env init) := by
  cases init with
  | nothing => exact endsAt_pure (.none rfl)
  | decl d => exact checkDecl_uses env _ d
  | expr _ e => exact (checkEffect_uses env e).bind fun _ hr => endsAt_pure hr

mutual

/-- a statement marks the variables it reads -/
theorem checkStmt_uses (env : Env) (s : Stmt) : Marks Prod.snd s.reads (checkStmt env s) := by
  match s with
  | .decl d => exact checkDecl_uses env _ d
  | .ifThen _ cond yes =>
    simp only [checkStmt, Stmt.reads]
    refine (checkValue_uses env cond).bind fun _ hcond => (checkStmt_uses env.enter yes).bind fun _ hyes => ?_
    exact endsAt_pure (hcond.append hyes)
  | .ifElse _ cond yes no =>
    simp only [checkStmt, Stmt.reads]
    refine (checkValue_uses env cond).bind fun _ hcond => (checkStmt_uses env.enter yes).bind fun _ hyes => ?_
    exact (checkStmt_uses env.enter no).bind fun _ hno => endsAt_pure ((hcond.append hyes).append hno)
  | .while_ _ cond body =>
    simp only [checkStmt, Stmt.reads]
    refine (checkValue_uses env cond).bind fun _ hcond => (checkStmt_uses _ body).bind fun _ hbody => ?_
    exact endsAt_pure (hcond.append hbody)
  | .doWhile _ body cond =>
    simp only [checkStmt, Stmt.reads]
    refine (checkStmt_uses _ body).bind fun _ hbody => (checkValue_uses _ cond).bind fun _ hcond => ?_
    exact endsAt_pure (hbody.append hcond)
  | .for_ _ init cond step body =>
    simp only [checkStmt, Stmt.reads]
    refine (checkForInit_uses env.enter init).bind fun inner hinit =>
      (checkOptional_uses inner.1 cond).bind fun _ hcond => ?_
    refine (checkStep_uses inner.1 step).bind fun _ hstep => (checkStmt_uses _ body).bind fun _ hbody => ?_
    exact endsAt_pure (((hinit.append hcond).append hstep).append hbody)
  | .break_ _ | .continue_ _ =>
    simp only [checkStmt]
    split
    · exact endsAt_pure (.none rfl)
    · exact endsAt_throw trivial
  | .return_ _ value =>
    simp only [checkStmt, Stmt.reads]
    exact (checkReturn_uses env _ value).bind fun _ hvalue => endsAt_pure hvalue
  | .expr _ e =>
    simp only [checkStmt, Stmt.reads]
    exact (checkEffect_uses env e).bind fun _ he => endsAt_pure he
  | .block _ body =>
    simp only [checkStmt, Stmt.reads]
    exact (checkStmts_uses env.enter body).bind fun _ hbody => endsAt_pure hbody
  | .empty _ => exact endsAt_pure (.none rfl)

theorem checkStmts_uses (env : Env) (ss : List Stmt) : Marks Prod.snd (Stmt.readsOf ss) (checkStmts env ss) := by
  match ss with
  | [] => exact endsAt_pure (.none rfl)
  | s :: ss =>
    simp only [checkStmts, Stmt.readsOf]
    refine (checkStmt_uses env s).bind fun first hfirst => (checkStmts_uses first.1 ss).bind fun _ hrest => ?_
    exact endsAt_pure (hfirst.append hrest)

end

theorem checkParams_uses (env : Env) (ps : List Param) : Marks Prod.snd [] (checkParams env ps) := by
  induction ps generalizing env with
  | nil => exact endsAt_pure (.none rfl)
  | cons q ps ih =>
    refine .guard trivial ((endsAt_any _).bind fun env _ => (ih env).bind fun _ hrest => ?_)
    exact endsAt_pure (hrest.cons rfl)

theorem checkItems_uses (env : Env) (items : List Item) :
    Marks id (items.flatMap Item.reads) (checkItems env items) := by
  induction items generalizing env with
  | nil => exact endsAt_pure (.none rfl)
  | cons item items ih =>
    rw [List.flatMap_cons]
    cases item with
    | global d =>
      exact (checkDecl_uses env _ d).bind fun r hd => (ih r.1).bind fun _ hrest => endsAt_pure (hd.append hrest)
    | function f =>
      have hf : Marks id (Stmt.readsOf f.body) (checkFunction env f) :=
        (checkParams_uses _ f.params).bind fun r hparams => (checkStmts_uses r.1 f.body).bind fun _ hbody =>
          endsAt_pure (hparams.append hbody)
      exact hf.bind fun _ hfacts => (ih env).bind fun _ hrest => endsAt_pure (hfacts.append hrest)

end Typing

namespace Program

variable {p : Program} {info : TypeInfo}

/-- the facts of a checked program mark the declarations of its reads -/
theorem uses_of_check (hcheck : p.check = .ok info) : info.facts.Uses p.reads := by
  obtain ⟨-, -, hitems⟩ := check_eq_ok.1 hcheck
  have huses := Typing.checkItems_uses ⟨info.functions, [[]], "", .plain .void, false⟩ p.items
  rw [hitems] at huses
  exact huses

/-- **A variable is marked as used** exactly if a read resolves to it, one that can be reached or not. -/
theorem isUsed_iff (hids : p.ids.Nodup) (hcheck : p.check = .ok info) {decl : NodeId} :
    info.isUsed decl = true ↔ ∃ id ∈ p.reads, info.facts.resolved.lookup id = some decl := by
  have hknows := knows_of_check hids hcheck
  have huses := uses_of_check hcheck
  rw [TypeInfo.isUsed, List.contains_iff_mem]
  constructor
  · intro hdecl
    obtain ⟨id, hid, hmem⟩ := (exists_mem_of_forall₂ huses).1 decl hdecl
    exact ⟨id, hid, hknows.resolved _ hmem⟩
  · rintro ⟨id, hid, hlookup⟩
    obtain ⟨used, hused, hmem⟩ := (exists_mem_of_forall₂ huses).2 id hid
    obtain rfl : used = decl := Option.some.inj ((hknows.resolved _ hmem).symm.trans hlookup)
    exact hused

end Program

end C15

/-
When a check succeeds, form by form.

Checking threads an environment through a program, collects facts and may fail at every step. For each form that is
checked there is one lemma here that says when this succeeds: which parts were checked, in which environment, what was
asked of them, and how the facts of the whole consist of the facts of the parts. The lemmas are equivalences, for those
who have a checked program and for those who show that one is checked; neither looks into the checker itself.
-/
import C15.Proofs.Scopes

namespace C15

/-! ## Steps that succeed -/

theorem bind_eq_ok {ε α β : Type} {x : Except ε α} {f : α → Except ε β} {b : β} :
    (x >>= f) = .ok b ↔ ∃ a, x = .ok a ∧ f a = .ok b := by
  cases x <;> simp [bind, Except.bind]

theorem pure_eq_ok {ε α : Type} {a b : α} : (pure a : Except ε α) = .ok b ↔ a = b := by
  simp [pure, Except.pure]

theorem throw_eq_ok {ε α : Type} {e : ε} {b : α} : (throw e : Except ε α) = .ok b ↔ False := by
  simp [throw, throwThe, MonadExceptOf.throw]

/-- a guard that throws has passed -/
theorem guard_eq_ok {ε α : Type} {c : Prop} [Decidable c] {e : ε} {f : Unit → Except ε α} {y : Except ε α} {b : α} :
    (if c then (throw e >>= f) else y) = .ok b ↔ ¬ c ∧ y = .ok b := by
  by_cases h : c <;> simp [h, bind_eq_ok, throw_eq_ok]

theorem Base.family_eq_some {b : Base} {f : Family} : b.family = some f ↔ b = f.base := by
  cases b <;> cases f <;> simp [Base.family, Family.base]

theorem Base.exists_family {b : Base} (h : b ≠ .void) : ∃ f : Family, b = f.base := by
  cases b with
  | int => exact ⟨.signed, rfl⟩
  | uint => exact ⟨.unsigned, rfl⟩
  | float => exact ⟨.float, rfl⟩
  | void => exact absurd rfl h

namespace Family

theorem base_ne_void (f : Family) : f.base ≠ .void := by cases f <;> simp [Family.base]

theorem base_inj {f g : Family} : f.base = g.base ↔ f = g := by cases f <;> cases g <;> simp [Family.base]

theorem base_eq_float {f : Family} : f.base = .float ↔ f = .float := base_inj (g := .float)

/-- an operation on integers is refused for floats, and for nothing else -/
theorem not_refused_iff {f : Family} {c : Bool} : ¬ (c && !f.isInteger) = true ↔ (c = true → f ≠ .float) := by
  cases f <;> cases c <;> simp [Family.isInteger]

end Family

namespace Typing

theorem isVoid_iff {t : Ty} : t.isVoid = true ↔ t.base = .void := by simp [Ty.isVoid]

theorem family_eq_ok {b : Base} {span : Span} {f : Family} : family b span = .ok f ↔ b = f.base := by
  unfold family
  cases b <;> cases f <;> simp [Base.family, Family.base]

theorem expectFamily_eq_ok {b : Base} {f : Family} {use : Use} {span : Span} {u : Unit} :
    expectFamily b f use span = .ok u ↔ b = f.base := by
  unfold expectFamily
  cases b <;> cases f <;> simp [Base.family, Family.base]

namespace Env

theorem find?_eq (env : Env) (name : String) : env.find? name = Scopes.find? env.scopes name := rfl

theorem resolve_eq_ok {env : Env} {name : String} {span : Span} {v : Variable} :
    env.resolve name span = .ok v ↔ env.find? name = some v := by
  unfold resolve
  cases env.find? name with
  | some w => simp
  | none => by_cases h : (env.signature? name).isSome <;> simp [h]

/-- the environment with a variable added to its innermost scope -/
def bind (env : Env) (v : Variable) : Env := { env with scopes := Scopes.bind env.scopes v }

/-- the environment with local declarations added -/
def declareAll (env : Env) (ds : List VarDecl) : Env := { env with scopes := Scopes.declare env.scopes ds }

/-- the environment after a statement -/
def after (env : Env) (s : Stmt) : Env := env.declareAll s.declared

/-- the environment of a function body -/
def ofFunction (env : Env) (f : FunctionDecl) : Env :=
  { env with
    scopes := (f.params.map Param.variable).reverse :: env.scopes
    function := f.name
    result := f.result }

/-- a declaration adds its variable, and the innermost scope did not have the name -/
theorem declare_eq_ok {env env' : Env} {v : Variable} {span : Span} (h : env.declare v span = .ok env') :
    env' = env.bind v ∧ ∀ scope ∈ env.scopes.head?, ∀ w ∈ scope, w.name ≠ v.name := by
  unfold declare at h
  split at h
  · cases h
  · split at h
    · rename_i hs
      cases h
      simp [bind, Scopes.bind, hs]
    · rename_i scope outer hs
      split at h
      · cases h
      · rename_i hnew
        cases h
        refine ⟨by simp [bind, Scopes.bind, hs], ?_⟩
        intro scope' hscope' w hw heq
        simp only [hs, List.head?_cons, Option.mem_def, Option.some.injEq] at hscope'
        subst hscope'
        exact hnew (List.any_eq_true.2 ⟨w, hw, by simpa using heq⟩)

end Env

/-! ## Expressions -/

section Expressions

variable {env : Env} {id : NodeId} {span targetSpan calleeSpan : Span} {target callee : String} {value operand : Expr}
  {args : List Expr} {b : Base} {facts : Facts}

theorem checkExpr_literal {literal : Literal} :
    checkExpr env (.literal id span literal) = .ok (b, facts) ↔ b = literal.base ∧ facts = .typed id literal.base := by
  rw [checkExpr, pure_eq_ok, Prod.mk.injEq, eq_comm, @eq_comm _ facts]

theorem checkExpr_ident {name : String} :
    checkExpr env (.ident id span name) = .ok (b, facts) ↔
      ∃ v, env.find? name = some v ∧ b = v.ty.base ∧
        facts = .resolves id v.decl ++ .reads v.decl ++ .typed id v.ty.base := by
  simp only [checkExpr, bind_eq_ok, pure_eq_ok, Env.resolve_eq_ok, Prod.mk.injEq]
  constructor
  · rintro ⟨v, hv, rfl, rfl⟩
    exact ⟨v, hv, rfl, rfl⟩
  · rintro ⟨v, hv, rfl, rfl⟩
    exact ⟨v, hv, rfl, rfl⟩

/-- both sides have one family -/
theorem checkExpr_binary {op : BinOp} {lhs rhs : Expr} :
    checkExpr env (.binary id span op lhs rhs) = .ok (b, facts) ↔
      ∃ f left right, checkExpr env lhs = .ok (Family.base f, left) ∧ checkExpr env rhs = .ok (Family.base f, right) ∧
        (op.isIntegerOnly = true → f ≠ .float) ∧ b = (if op.isComparison || op.isLogical then .int else f.base) ∧
        facts = left ++ right ++ .typed id b := by
  simp only [checkExpr, bind_eq_ok, guard_eq_ok, pure_eq_ok, family_eq_ok, Family.not_refused_iff, Prod.exists,
    Prod.mk.injEq, not_not]
  constructor
  · rintro ⟨_, left, hl, f, rfl, _, right, hr, _, rfl, rfl, hop, rfl, rfl⟩
    exact ⟨f, left, right, hl, hr, hop, rfl, rfl⟩
  · rintro ⟨f, left, right, hl, hr, hop, rfl, rfl⟩
    exact ⟨_, left, hl, f, rfl, _, right, hr, f, rfl, rfl, hop, rfl, rfl⟩

theorem checkExpr_unary {op : UnOp} :
    checkExpr env (.unary id span op operand) = .ok (b, facts) ↔
      ∃ f inner, checkExpr env operand = .ok (Family.base f, inner) ∧ (op = .bitNot → f ≠ .float) ∧
        b = (if op = .not then .int else f.base) ∧ facts = inner ++ .typed id b := by
  simp only [checkExpr, bind_eq_ok, guard_eq_ok, pure_eq_ok, family_eq_ok, Family.not_refused_iff,
    decide_eq_true_eq, Prod.exists, Prod.mk.injEq]
  constructor
  · rintro ⟨_, inner, he, f, rfl, hop, rfl, rfl⟩
    exact ⟨f, inner, he, hop, rfl, rfl⟩
  · rintro ⟨f, inner, he, hop, rfl, rfl⟩
    exact ⟨_, inner, he, f, rfl, hop, rfl, rfl⟩

theorem checkUpdate_eq_ok {dropped : Bool} {targetId : NodeId} :
    checkUpdate env dropped id span targetId targetSpan target = .ok (b, facts) ↔
      ∃ v, env.find? target = some v ∧ v.ty.isConst = false ∧ b = v.ty.base ∧
        facts = .resolves targetId v.decl ++ .resolves id v.decl ++ (if dropped then {} else .reads v.decl) ++
          .typed targetId v.ty.base ++ .typed id v.ty.base := by
  simp only [checkUpdate, bind_eq_ok, guard_eq_ok, pure_eq_ok, Env.resolve_eq_ok, Prod.mk.injEq, Bool.not_eq_true]
  constructor
  · rintro ⟨v, hv, hconst, rfl, rfl⟩
    exact ⟨v, hv, hconst, rfl, rfl⟩
  · rintro ⟨v, hv, hconst, rfl, rfl⟩
    exact ⟨v, hv, hconst, rfl, rfl⟩

theorem checkExpr_update {op : UpdateOp} {targetId : NodeId} :
    checkExpr env (.update id span op targetId targetSpan target) = .ok (b, facts) ↔
      ∃ v, env.find? target = some v ∧ v.ty.isConst = false ∧ b = v.ty.base ∧
        facts = .resolves targetId v.decl ++ .resolves id v.decl ++ .reads v.decl ++ .typed targetId v.ty.base ++
          .typed id v.ty.base := by
  rw [checkExpr]
  exact checkUpdate_eq_ok

theorem checkExpr_assign :
    checkExpr env (.assign id span none target targetSpan value) = .ok (b, facts) ↔
      ∃ v f inner, env.find? target = some v ∧ v.ty.isConst = false ∧ checkExpr env value = .ok (Family.base f, inner) ∧
        v.ty.base = f.base ∧ b = v.ty.base ∧ facts = .resolves id v.decl ++ inner ++ .typed id v.ty.base := by
  simp only [checkExpr, bind_eq_ok, guard_eq_ok, pure_eq_ok, family_eq_ok, expectFamily_eq_ok,
    Env.resolve_eq_ok, Prod.exists, Prod.mk.injEq, Bool.not_eq_true]
  constructor
  · rintro ⟨v, hv, hconst, _, inner, he, f, rfl, -, hty, rfl, rfl⟩
    exact ⟨v, f, inner, hv, hconst, he, hty, rfl, rfl⟩
  · rintro ⟨v, f, inner, hv, hconst, he, hty, rfl, rfl⟩
    exact ⟨v, hv, hconst, _, inner, he, f, rfl, (), hty, rfl, rfl⟩

/-- unlike a plain assignment, this one reads its variable -/
theorem checkExpr_compound {op : BinOp} :
    checkExpr env (.assign id span (some op) target targetSpan value) = .ok (b, facts) ↔
      ∃ v f inner, env.find? target = some v ∧ v.ty.isConst = false ∧ checkExpr env value = .ok (Family.base f, inner) ∧
        v.ty.base = f.base ∧ (op.isIntegerOnly = true → f ≠ .float) ∧ b = v.ty.base ∧
        facts = .resolves id v.decl ++ inner ++ .reads v.decl ++ .typed id v.ty.base := by
  simp only [checkExpr, bind_eq_ok, guard_eq_ok, pure_eq_ok, family_eq_ok, expectFamily_eq_ok,
    Env.resolve_eq_ok, Prod.exists, Prod.mk.injEq, Bool.not_eq_true]
  have hrefused (v : Variable) (f : Family) (hty : v.ty.base = f.base) :
      (op.isIntegerOnly && v.ty.base == .float) = false ↔ (op.isIntegerOnly = true → f ≠ .float) := by
    rw [hty, Bool.and_eq_false_imp, beq_eq_false_iff_ne, ne_eq, Family.base_eq_float]
  constructor
  · rintro ⟨v, hv, hconst, _, inner, he, f, rfl, -, hty, hop, rfl, rfl⟩
    exact ⟨v, f, inner, hv, hconst, he, hty, (hrefused v f hty).1 hop, rfl, rfl⟩
  · rintro ⟨v, f, inner, hv, hconst, he, hty, hop, rfl, rfl⟩
    exact ⟨v, hv, hconst, _, inner, he, f, rfl, (), hty, (hrefused v f hty).2 hop, rfl, rfl⟩

theorem checkExpr_call :
    checkExpr env (.call id span callee calleeSpan args) = .ok (b, facts) ↔
      ∃ sig inner, env.signature? callee = some sig ∧ sig.params.length = args.length ∧
        checkArguments env callee 1 sig.params args = .ok inner ∧ b = sig.result.base ∧
          facts = inner ++ .typed id b := by
  simp only [checkExpr]
  cases hsig : env.signature? callee with
  | none =>
    dsimp only
    split <;> simp [throw_eq_ok]
  | some sig =>
    simp only [bind_eq_ok, guard_eq_ok, pure_eq_ok, Prod.mk.injEq, not_not]
    constructor
    · rintro ⟨hlength, inner, ha, rfl, rfl⟩
      exact ⟨sig, inner, rfl, hlength, ha, rfl, rfl⟩
    · rintro ⟨_, inner, ⟨⟩, hlength, ha, rfl, rfl⟩
      exact ⟨hlength, inner, ha, rfl, rfl⟩

theorem checkExpr_intrinsic {callee : Intrinsic} :
    checkExpr env (.intrinsic id span callee calleeSpan args) = .ok (b, facts) ↔
      ∃ inner, args.length = callee.arity ∧ checkValues env args = .ok inner ∧ b = callee.result ∧
        facts = inner ++ .typed id b := by
  simp only [checkExpr, bind_eq_ok, guard_eq_ok, pure_eq_ok, Prod.mk.injEq, not_not]
  constructor
  · rintro ⟨hlength, inner, ha, rfl, rfl⟩
    exact ⟨inner, hlength, ha, rfl, rfl⟩
  · rintro ⟨inner, hlength, ha, rfl, rfl⟩
    exact ⟨hlength, inner, ha, rfl, rfl⟩

theorem checkExpr_cast {base : Base} :
    checkExpr env (.cast id span base operand) = .ok (b, facts) ↔
      ∃ f inner, checkExpr env operand = .ok (Family.base f, inner) ∧ b = base ∧ facts = inner ++ .typed id b := by
  simp only [checkExpr, bind_eq_ok, pure_eq_ok, family_eq_ok, Prod.exists, Prod.mk.injEq]
  constructor
  · rintro ⟨_, inner, he, f, rfl, rfl, rfl⟩
    exact ⟨f, inner, he, rfl, rfl⟩
  · rintro ⟨f, inner, he, rfl, rfl⟩
    exact ⟨_, inner, he, f, rfl, rfl, rfl⟩

theorem checkArguments_nil {number : Nat} : checkArguments env callee number [] [] = .ok facts ↔ facts = {} := by
  rw [checkArguments, pure_eq_ok, eq_comm]
  simp

theorem checkArguments_cons {number : Nat} {param : Ty} {params : List Ty} {arg : Expr} :
    checkArguments env callee number (param :: params) (arg :: args) = .ok facts ↔
      ∃ f first rest, checkExpr env arg = .ok (Family.base f, first) ∧ param.base = f.base ∧
        checkArguments env callee (number + 1) params args = .ok rest ∧ facts = first ++ rest := by
  simp only [checkArguments, bind_eq_ok, pure_eq_ok, family_eq_ok, expectFamily_eq_ok, Prod.exists]
  constructor
  · rintro ⟨_, first, he, f, rfl, -, hparam, rest, hr, rfl⟩
    exact ⟨f, first, rest, he, hparam, hr, rfl⟩
  · rintro ⟨f, first, rest, he, hparam, hr, rfl⟩
    exact ⟨_, first, he, f, rfl, (), hparam, rest, hr, rfl⟩

theorem checkValues_nil : checkValues env [] = .ok facts ↔ facts = {} := by rw [checkValues, pure_eq_ok, eq_comm]

theorem checkValues_cons {arg : Expr} :
    checkValues env (arg :: args) = .ok facts ↔
      ∃ f first rest, checkExpr env arg = .ok (Family.base f, first) ∧ checkValues env args = .ok rest ∧
        facts = first ++ rest := by
  simp only [checkValues, bind_eq_ok, pure_eq_ok, family_eq_ok, Prod.exists]
  constructor
  · rintro ⟨_, first, he, f, rfl, rest, hr, rfl⟩
    exact ⟨f, first, rest, he, hr, rfl⟩
  · rintro ⟨f, first, rest, he, hr, rfl⟩
    exact ⟨_, first, he, f, rfl, rest, hr, rfl⟩

/-- an expression whose value is used is one that is not `void` -/
theorem checkValue_eq_ok {e : Expr} {f : Family} :
    checkValue env e = .ok (f, facts) ↔ checkExpr env e = .ok (f.base, facts) := by
  simp only [checkValue, bind_eq_ok, pure_eq_ok, family_eq_ok, Prod.exists, Prod.mk.injEq]
  constructor
  · rintro ⟨_, _, he, _, rfl, rfl, rfl⟩
    exact he
  · intro he
    exact ⟨_, _, he, f, rfl, rfl, rfl⟩

/-- that the value is dropped only changes which variables count as read -/
theorem checkEffect_eq_ok {e : Expr} (h : checkEffect env e = .ok facts) :
    ∃ b full, checkExpr env e = .ok (b, full) ∧ facts.types = full.types ∧ facts.resolved = full.resolved ∧
      facts.vars = full.vars := by
  cases e with
  | update id span op targetId targetSpan target =>
    simp only [checkEffect, bind_eq_ok, pure_eq_ok, checkUpdate_eq_ok, Prod.exists] at h
    obtain ⟨_, _, ⟨v, hv, hconst, rfl, rfl⟩, rfl⟩ := h
    exact ⟨v.ty.base, _, checkExpr_update.2 ⟨v, hv, hconst, rfl, rfl⟩, rfl, rfl, rfl⟩
  | literal | ident | binary | unary | assign | call | intrinsic | cast =>
    simp only [checkEffect, bind_eq_ok, pure_eq_ok, Prod.exists] at h
    obtain ⟨b, _, he, rfl⟩ := h
    exact ⟨b, _, he, rfl, rfl, rfl⟩

theorem exists_checkEffect {e : Expr} (h : checkExpr env e = .ok (b, facts)) :
    ∃ facts', checkEffect env e = .ok facts' := by
  cases e with
  | update id span op targetId targetSpan target =>
    obtain ⟨v, hv, hconst, -, -⟩ := checkExpr_update.1 h
    simp only [checkEffect, bind_eq_ok, pure_eq_ok, checkUpdate_eq_ok, Prod.exists]
    exact ⟨_, _, _, ⟨v, hv, hconst, rfl, rfl⟩, rfl⟩
  | literal | ident | binary | unary | assign | call | intrinsic | cast =>
    simp only [checkEffect, bind_eq_ok, pure_eq_ok, Prod.exists]
    exact ⟨facts, b, facts, h, rfl⟩

theorem checkOptional_none :
    checkOptional env none = .ok facts ↔ facts = {} := by rw [checkOptional, pure_eq_ok, eq_comm]

theorem checkOptional_some {e : Expr} :
    checkOptional env (some e) = .ok facts ↔ ∃ f, checkExpr env e = .ok (Family.base f, facts) := by
  simp only [checkOptional, bind_eq_ok, pure_eq_ok, checkValue_eq_ok, Prod.exists, exists_eq_right]

theorem checkStep_none : checkStep env none = .ok facts ↔ facts = {} := by rw [checkStep, pure_eq_ok, eq_comm]

theorem checkStep_some {e : Expr} : checkStep env (some e) = checkEffect env e := rfl

end Expressions

/-! ## Statements -/

section Statements

variable {env env' : Env} {span : Span} {facts : Facts}

theorem checkDecl_none {kind : VarKind} {d : VarDecl} (hinit : d.init = none) :
    checkDecl env kind d = .ok (env', facts) ↔
      d.ty.base ≠ .void ∧ d.ty.isConst = false ∧ env.declare (d.variable kind) d.nameSpan = .ok env' ∧
        facts = .declares (d.variable kind) := by
  simp only [checkDecl, guard_eq_ok, isVoid_iff, hinit]
  cases d.ty.isConst with
  | true => simp [bind_eq_ok, throw_eq_ok]
  | false =>
    simp only [Bool.false_eq_true, if_false, bind_eq_ok, pure_eq_ok, exists_eq_left', Prod.mk.injEq, true_and]
    constructor
    · rintro ⟨hvoid, _, hdeclare, rfl, rfl⟩
      exact ⟨hvoid, hdeclare, rfl⟩
    · rintro ⟨hvoid, hdeclare, rfl⟩
      exact ⟨hvoid, env', hdeclare, rfl, rfl⟩

/-- the initializer does not see the variable -/
theorem checkDecl_some {kind : VarKind} {d : VarDecl} {e : Expr} (hinit : d.init = some e) :
    checkDecl env kind d = .ok (env', facts) ↔
      ∃ f inner, checkExpr env e = .ok (Family.base f, inner) ∧ d.ty.base = f.base ∧
        env.declare (d.variable kind) d.nameSpan = .ok env' ∧ facts = inner ++ .declares (d.variable kind) := by
  simp only [checkDecl, guard_eq_ok, isVoid_iff, hinit, bind_eq_ok, pure_eq_ok, checkValue_eq_ok, expectFamily_eq_ok,
    exists_eq_left', Prod.exists, Prod.mk.injEq]
  constructor
  · rintro ⟨-, f, inner, he, -, hty, _, hdeclare, rfl, rfl⟩
    exact ⟨f, inner, he, hty, hdeclare, rfl⟩
  · rintro ⟨f, inner, he, hty, hdeclare, rfl⟩
    exact ⟨hty ▸ f.base_ne_void, f, inner, he, (), hty, env', hdeclare, rfl, rfl⟩

theorem checkReturn_none : checkReturn env span none = .ok facts ↔ env.result.base = .void ∧ facts = {} := by
  rw [← isVoid_iff]
  by_cases hvoid : env.result.isVoid = true
  · rw [checkReturn, if_pos hvoid, pure_eq_ok, eq_comm, and_iff_right hvoid]
  · simp [checkReturn, hvoid, throw_eq_ok]

theorem checkReturn_some {e : Expr} :
    checkReturn env span (some e) = .ok facts ↔ ∃ f, checkExpr env e = .ok (Family.base f, facts) ∧
      env.result.base = f.base := by
  simp only [checkReturn, guard_eq_ok, bind_eq_ok, pure_eq_ok, checkValue_eq_ok, expectFamily_eq_ok,
    isVoid_iff, Prod.exists]
  constructor
  · rintro ⟨-, f, _, he, -, hty, rfl⟩
    exact ⟨f, he, hty⟩
  · rintro ⟨f, he, hty⟩
    exact ⟨hty ▸ f.base_ne_void, f, facts, he, (), hty, rfl⟩

theorem checkForInit_nothing : checkForInit env .nothing = .ok (env', facts) ↔ env' = env ∧ facts = {} := by
  rw [checkForInit, pure_eq_ok, Prod.mk.injEq, eq_comm, @eq_comm _ facts]

theorem checkForInit_decl {d : VarDecl} : checkForInit env (.decl d) = checkDecl env .localVar d := rfl

theorem checkForInit_expr {e : Expr} :
    checkForInit env (.expr span e) = .ok (env', facts) ↔ env' = env ∧ checkEffect env e = .ok facts := by
  simp only [checkForInit, bind_eq_ok, pure_eq_ok, Prod.mk.injEq]
  constructor
  · rintro ⟨_, he, rfl, rfl⟩
    exact ⟨rfl, he⟩
  · rintro ⟨rfl, he⟩
    exact ⟨facts, he, rfl, rfl⟩

theorem checkStmt_decl {d : VarDecl} : checkStmt env (.decl d) = checkDecl env .localVar d := by rw [checkStmt]

theorem checkStmt_ifThen {cond : Expr} {yes : Stmt} :
    checkStmt env (.ifThen span cond yes) = .ok (env', facts) ↔
      ∃ f test inner branch, checkExpr env cond = .ok (Family.base f, test) ∧
        checkStmt env.enter yes = .ok (inner, branch) ∧ env' = env ∧ facts = test ++ branch := by
  simp only [checkStmt, bind_eq_ok, pure_eq_ok, checkValue_eq_ok, Prod.exists, Prod.mk.injEq]
  constructor
  · rintro ⟨f, test, hc, inner, branch, hy, rfl, rfl⟩
    exact ⟨f, test, inner, branch, hc, hy, rfl, rfl⟩
  · rintro ⟨f, test, inner, branch, hc, hy, rfl, rfl⟩
    exact ⟨f, test, hc, inner, branch, hy, rfl, rfl⟩

theorem checkStmt_ifElse {cond : Expr} {yes no : Stmt} :
    checkStmt env (.ifElse span cond yes no) = .ok (env', facts) ↔
      ∃ f test inner branch inner' branch', checkExpr env cond = .ok (Family.base f, test) ∧
        checkStmt env.enter yes = .ok (inner, branch) ∧ checkStmt env.enter no = .ok (inner', branch') ∧ env' = env ∧
        facts = test ++ branch ++ branch' := by
  simp only [checkStmt, bind_eq_ok, pure_eq_ok, checkValue_eq_ok, Prod.exists, Prod.mk.injEq]
  constructor
  · rintro ⟨f, test, hc, inner, branch, hy, inner', branch', hn, rfl, rfl⟩
    exact ⟨f, test, inner, branch, inner', branch', hc, hy, hn, rfl, rfl⟩
  · rintro ⟨f, test, inner, branch, inner', branch', hc, hy, hn, rfl, rfl⟩
    exact ⟨f, test, hc, inner, branch, hy, inner', branch', hn, rfl, rfl⟩

/-- the body of a loop is checked in the scope around it, and what it declares stays -/
theorem checkStmt_while {cond : Expr} {body : Stmt} :
    checkStmt env (.while_ span cond body) = .ok (env', facts) ↔
      ∃ f test after inner, checkExpr env cond = .ok (Family.base f, test) ∧
        checkStmt { env with inLoop := true } body = .ok (after, inner) ∧ env' = { after with inLoop := env.inLoop } ∧
        facts = test ++ inner := by
  simp only [checkStmt, bind_eq_ok, pure_eq_ok, checkValue_eq_ok, Prod.exists, Prod.mk.injEq]
  constructor
  · rintro ⟨f, test, hc, after, inner, hb, rfl, rfl⟩
    exact ⟨f, test, after, inner, hc, hb, rfl, rfl⟩
  · rintro ⟨f, test, after, inner, hc, hb, rfl, rfl⟩
    exact ⟨f, test, hc, after, inner, hb, rfl, rfl⟩

theorem checkStmt_doWhile {body : Stmt} {cond : Expr} :
    checkStmt env (.doWhile span body cond) = .ok (env', facts) ↔
      ∃ after inner f test, checkStmt { env with inLoop := true } body = .ok (after, inner) ∧
        checkExpr { after with inLoop := env.inLoop } cond = .ok (Family.base f, test) ∧
          env' = { after with inLoop := env.inLoop } ∧
        facts = inner ++ test := by
  simp only [checkStmt, bind_eq_ok, pure_eq_ok, checkValue_eq_ok, Prod.exists, Prod.mk.injEq]
  constructor
  · rintro ⟨after, inner, hb, f, test, hc, rfl, rfl⟩
    exact ⟨after, inner, f, test, hb, hc, rfl, rfl⟩
  · rintro ⟨after, inner, f, test, hb, hc, rfl, rfl⟩
    exact ⟨after, inner, hb, f, test, hc, rfl, rfl⟩

/-- the step is checked before the body, and neither sees what the other declares -/
theorem checkStmt_for {init : ForInit} {cond step : Option Expr} {body : Stmt} :
    checkStmt env (.for_ span init cond step body) = .ok (env', facts) ↔
      ∃ inner first test last after rest, checkForInit env.enter init = .ok (inner, first) ∧
        checkOptional inner cond = .ok test ∧ checkStep inner step = .ok last ∧
        checkStmt { inner with inLoop := true } body = .ok (after, rest) ∧ env' = env ∧
        facts = first ++ test ++ last ++ rest := by
  simp only [checkStmt, bind_eq_ok, pure_eq_ok, Prod.exists, Prod.mk.injEq]
  constructor
  · rintro ⟨inner, first, hi, test, hc, last, hs, after, rest, hb, rfl, rfl⟩
    exact ⟨inner, first, test, last, after, rest, hi, hc, hs, hb, rfl, rfl⟩
  · rintro ⟨inner, first, test, last, after, rest, hi, hc, hs, hb, rfl, rfl⟩
    exact ⟨inner, first, hi, test, hc, last, hs, after, rest, hb, rfl, rfl⟩

theorem checkStmt_break :
    checkStmt env (.break_ span) = .ok (env', facts) ↔ env.inLoop = true ∧ env' = env ∧ facts = {} := by
  rw [checkStmt]
  by_cases hloop : env.inLoop = true
  · rw [if_pos hloop, pure_eq_ok, Prod.mk.injEq, eq_comm, @eq_comm _ facts, and_iff_right hloop]
  · simp [hloop, throw_eq_ok]

theorem checkStmt_continue :
    checkStmt env (.continue_ span) = .ok (env', facts) ↔ env.inLoop = true ∧ env' = env ∧ facts = {} := by
  rw [checkStmt]
  by_cases hloop : env.inLoop = true
  · rw [if_pos hloop, pure_eq_ok, Prod.mk.injEq, eq_comm, @eq_comm _ facts, and_iff_right hloop]
  · simp [hloop, throw_eq_ok]

theorem checkStmt_return {e : Option Expr} :
    checkStmt env (.return_ span e) = .ok (env', facts) ↔ env' = env ∧ checkReturn env span e = .ok facts := by
  simp only [checkStmt, bind_eq_ok, pure_eq_ok, Prod.mk.injEq]
  constructor
  · rintro ⟨_, he, rfl, rfl⟩
    exact ⟨rfl, he⟩
  · rintro ⟨rfl, he⟩
    exact ⟨facts, he, rfl, rfl⟩

theorem checkStmt_expr {e : Expr} :
    checkStmt env (.expr span e) = .ok (env', facts) ↔ env' = env ∧ checkEffect env e = .ok facts := by
  simp only [checkStmt, bind_eq_ok, pure_eq_ok, Prod.mk.injEq]
  constructor
  · rintro ⟨_, he, rfl, rfl⟩
    exact ⟨rfl, he⟩
  · rintro ⟨rfl, he⟩
    exact ⟨facts, he, rfl, rfl⟩

theorem checkStmt_block {body : List Stmt} :
    checkStmt env (.block span body) = .ok (env', facts) ↔ env' = env ∧
      ∃ inner, checkStmts env.enter body = .ok (inner, facts) := by
  simp only [checkStmt, bind_eq_ok, pure_eq_ok, Prod.exists, Prod.mk.injEq]
  constructor
  · rintro ⟨inner, _, hb, rfl, rfl⟩
    exact ⟨rfl, inner, hb⟩
  · rintro ⟨rfl, inner, hb⟩
    exact ⟨inner, facts, hb, rfl, rfl⟩

theorem checkStmt_empty : checkStmt env (.empty span) = .ok (env', facts) ↔ env' = env ∧ facts = {} := by
  rw [checkStmt, pure_eq_ok, Prod.mk.injEq, eq_comm, @eq_comm _ facts]

theorem checkStmts_nil : checkStmts env [] = .ok (env', facts) ↔ env' = env ∧ facts = {} := by
  rw [checkStmts, pure_eq_ok, Prod.mk.injEq, eq_comm, @eq_comm _ facts]

theorem checkStmts_cons {s : Stmt} {ss : List Stmt} :
    checkStmts env (s :: ss) = .ok (env', facts) ↔
      ∃ mid first rest, checkStmt env s = .ok (mid, first) ∧ checkStmts mid ss = .ok (env', rest) ∧
        facts = first ++ rest := by
  simp only [checkStmts, bind_eq_ok, pure_eq_ok, Prod.exists, Prod.mk.injEq]
  constructor
  · rintro ⟨mid, first, hs, _, rest, hr, rfl, rfl⟩
    exact ⟨mid, first, rest, hs, hr, rfl⟩
  · rintro ⟨mid, first, rest, hs, hr, rfl⟩
    exact ⟨mid, first, hs, env', rest, hr, rfl, rfl⟩

end Statements

/-! ## Programs -/

section Programs

variable {env env' : Env} {facts : Facts}

theorem checkParams_nil : checkParams env [] = .ok (env', facts) ↔ env' = env ∧ facts = {} := by
  rw [checkParams, pure_eq_ok, Prod.mk.injEq, eq_comm, @eq_comm _ facts]

theorem checkParams_cons {p : Param} {ps : List Param} :
    checkParams env (p :: ps) = .ok (env', facts) ↔
      ∃ mid rest, p.ty.base ≠ .void ∧ env.declare p.variable p.span = .ok mid ∧ checkParams mid ps = .ok (env', rest) ∧
        facts = .declares p.variable ++ rest := by
  simp only [checkParams, guard_eq_ok, isVoid_iff, bind_eq_ok, pure_eq_ok, Prod.exists, Prod.mk.injEq]
  constructor
  · rintro ⟨hvoid, mid, hdeclare, _, rest, hr, rfl, rfl⟩
    exact ⟨mid, rest, hvoid, hdeclare, hr, rfl⟩
  · rintro ⟨mid, rest, hvoid, hdeclare, hr, rfl⟩
    exact ⟨hvoid, mid, hdeclare, env', rest, hr, rfl, rfl⟩

theorem checkFunction_eq_ok {f : FunctionDecl} :
    checkFunction env f = .ok facts ↔
      ∃ inner first after rest, checkParams { env.enter with function := f.name, result := f.result } f.params =
        .ok (inner, first) ∧ checkStmts inner f.body = .ok (after, rest) ∧ facts = first ++ rest := by
  simp only [checkFunction, bind_eq_ok, pure_eq_ok, Prod.exists]
  constructor
  · rintro ⟨inner, first, hp, after, rest, hb, rfl⟩
    exact ⟨inner, first, after, rest, hp, hb, rfl⟩
  · rintro ⟨inner, first, after, rest, hp, hb, rfl⟩
    exact ⟨inner, first, hp, after, rest, hb, rfl⟩

theorem checkItems_nil : checkItems env [] = .ok facts ↔ facts = {} := by rw [checkItems, pure_eq_ok, eq_comm]

/-- a global is visible in the items after it -/
theorem checkItems_global {d : VarDecl} {items : List Item} :
    checkItems env (.global d :: items) = .ok facts ↔
      ∃ mid first rest, checkDecl env .global d = .ok (mid, first) ∧ checkItems mid items = .ok rest ∧
        facts = first ++ rest := by
  simp only [checkItems, bind_eq_ok, pure_eq_ok, Prod.exists]
  constructor
  · rintro ⟨mid, first, hd, rest, hr, rfl⟩
    exact ⟨mid, first, rest, hd, hr, rfl⟩
  · rintro ⟨mid, first, rest, hd, hr, rfl⟩
    exact ⟨mid, first, hd, rest, hr, rfl⟩

theorem checkItems_function {f : FunctionDecl} {items : List Item} :
    checkItems env (.function f :: items) = .ok facts ↔
      ∃ first rest, checkFunction env f = .ok first ∧ checkItems env items = .ok rest ∧ facts = first ++ rest := by
  simp only [checkItems, bind_eq_ok, pure_eq_ok]
  constructor
  · rintro ⟨first, hf, rest, hr, rfl⟩
    exact ⟨first, rest, hf, hr, rfl⟩
  · rintro ⟨first, rest, hf, hr, rfl⟩
    exact ⟨first, hf, rest, hr, rfl⟩

end Programs

end Typing

/-- signatures are collected, then `main` is looked for, then the items are checked -/
theorem Program.check_eq_ok {p : Program} {info : TypeInfo} :
    p.check = .ok info ↔
      Typing.collect [] p.functions = .ok info.functions ∧ Typing.checkMain p = .ok () ∧
        Typing.checkItems ⟨info.functions, [[]], "", .plain .void, false⟩ p.items = .ok info.facts := by
  simp only [Program.check, bind_eq_ok, pure_eq_ok]
  constructor
  · rintro ⟨functions, hcollect, _, hmain, facts, hitems, rfl⟩
    exact ⟨hcollect, hmain, hitems⟩
  · rintro ⟨hcollect, hmain, hitems⟩
    exact ⟨info.functions, hcollect, (), hmain, info.facts, hitems, rfl⟩

end C15

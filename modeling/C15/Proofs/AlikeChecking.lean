/-
Programs that differ in places only are checked alike.

The checker decides by identities, names and types; places it only passes on to its reports. Each of its functions is
followed in two runs at once, by recursion over the trees that are alike. `Agree` says that the runs fail together or
succeed together: here with the same fault, at two places, or the same facts. `Program.check_agrees` is the result for
whole programs.
-/
import C15.Proofs.Alike
import C15.Typing

namespace C15

/-! ## Two runs -/

/-- the same value at two places -/
def Located.SameValue {α : Type} (e e' : Located α) : Prop := e.value = e'.value

section Calculus

variable {ε δ α β γ κ : Type} {E : ε → δ → Prop} {x : Except ε α} {y : Except δ β} {R : α → β → Prop} {S : γ → κ → Prop}

/-- the two ways in which runs agree -/
theorem Agree.together (hx : Agree E R x y) :
    (∃ a b, x = .ok a ∧ y = .ok b ∧ R a b) ∨ ∃ e e', x = .error e ∧ y = .error e' ∧ E e e' := by
  cases x with
  | ok a =>
    cases y with
    | ok b => exact .inl ⟨a, b, rfl, rfl, hx⟩
    | error e => exact hx.elim
  | error e =>
    cases y with
    | ok b => exact hx.elim
    | error e' => exact .inr ⟨e, e', rfl, rfl, hx⟩

theorem Agree.bind {f : α → Except ε γ} {g : β → Except δ κ} (hx : Agree E R x y)
    (hf : ∀ a b, R a b → Agree E S (f a) (g b)) : Agree E S (x >>= f) (y >>= g) := by
  rcases hx.together with ⟨a, b, rfl, rfl, hab⟩ | ⟨e, e', rfl, rfl, he⟩
  · exact hf a b hab
  · exact he

/-- after equal results -/
theorem Agree.andThen {y : Except δ α} {f : α → Except ε γ} {g : α → Except δ κ} (hx : Agree E Eq x y)
    (hf : ∀ a, Agree E S (f a) (g a)) : Agree E S (x >>= f) (y >>= g) := hx.bind fun a _ hab => hab ▸ hf a

theorem Agree.map {f : α → γ} {g : β → κ} (hx : Agree E R x y) (hf : ∀ a b, R a b → S (f a) (g b)) :
    Agree E S (x.map f) (y.map g) := by
  rcases hx.together with ⟨a, b, rfl, rfl, hab⟩ | ⟨e, e', rfl, rfl, he⟩
  · exact hf a b hab
  · exact he

theorem Agree.mapError {ε' δ' : Type} {E' : ε' → δ' → Prop} {f : ε → ε'} {g : δ → δ'} (hx : Agree E R x y)
    (hE : ∀ e e', E e e' → E' (f e) (g e')) : Agree E' R (x.mapError f) (y.mapError g) := by
  rcases hx.together with ⟨a, b, rfl, rfl, hab⟩ | ⟨e, e', rfl, rfl, he⟩
  · exact hab
  · exact hE e e' he

/-- runs succeed together -/
theorem Agree.isOk (hx : Agree E R x y) : (∃ a, x = .ok a) ↔ ∃ b, y = .ok b := by
  rcases hx.together with ⟨a, b, rfl, rfl, -⟩ | ⟨e, e', rfl, rfl, -⟩
  · exact iff_of_true ⟨a, rfl⟩ ⟨b, rfl⟩
  · exact iff_of_false nofun nofun

theorem agree_pure {a : α} {b : β} (h : R a b) : Agree E R (pure a) (pure b) := h

theorem agree_throw {e : ε} {e' : δ} (h : E e e') : Agree E R (throw e) (throw e') := h

/-- one guard in both runs -/
theorem Agree.guard {c : Prop} [Decidable c] {e : ε} {e' : δ} {f : Unit → Except ε α} {g : Unit → Except δ β}
    (he : E e e') (hx : Agree E R x y) :
    Agree E R (if c then (throw e >>= f) else x) (if c then (throw e' >>= g) else y) := by
  by_cases hc : c
  · rw [if_pos hc, if_pos hc]
    exact he
  · rw [if_neg hc, if_neg hc]
    exact hx

end Calculus

namespace Typing

/-! ## Checking -/

/-- the checker finds the same, or the same fault at two places -/
abbrev AgreeChecked {α : Type} : Except TypeError α → Except TypeError α → Prop := Agree Located.SameValue Eq

theorem resolve_agrees (env : Env) (name : String) (span span' : Span) :
    AgreeChecked (env.resolve name span) (env.resolve name span') := by
  unfold Env.resolve
  split
  · rfl
  · split <;> rfl

theorem family_agrees (b : Base) (span span' : Span) : AgreeChecked (family b span) (family b span') := by
  unfold family
  split <;> rfl

theorem expectFamily_agrees (b : Base) (f : Family) (use : Use) (span span' : Span) :
    AgreeChecked (expectFamily b f use span) (expectFamily b f use span') := by
  unfold expectFamily
  split <;> rfl

theorem declare_agrees (env : Env) (v : Variable) (span span' : Span) :
    AgreeChecked (env.declare v span) (env.declare v span') := by
  unfold Env.declare
  split
  · rfl
  · split
    · rfl
    · split <;> rfl

theorem checkUpdate_agrees (env : Env) (dropped : Bool) (id : NodeId) (span span' : Span) (targetId : NodeId)
    (targetSpan targetSpan' : Span) (target : String) :
    AgreeChecked (checkUpdate env dropped id span targetId targetSpan target)
      (checkUpdate env dropped id span' targetId targetSpan' target) := by
  refine (resolve_agrees env target targetSpan targetSpan').andThen fun v => ?_
  exact .guard rfl (agree_pure rfl)

mutual

theorem checkExpr_agrees (env : Env) {e e' : Expr} (h : e.Alike e') :
    AgreeChecked (checkExpr env e) (checkExpr env e') := by
  cases h with
  | literal => exact agree_pure rfl
  | ident =>
    simp only [checkExpr]
    exact (resolve_agrees env _ _ _).andThen fun v => agree_pure rfl
  | binary hl hr =>
    simp only [checkExpr]
    refine (checkExpr_agrees env hl).andThen fun left => (family_agrees left.1 _ _).andThen fun f => ?_
    refine (checkExpr_agrees env hr).andThen fun right => (family_agrees right.1 _ _).andThen fun f' => ?_
    exact .guard rfl (.guard rfl (agree_pure rfl))
  | unary he =>
    simp only [checkExpr]
    refine (checkExpr_agrees env he).andThen fun r => (family_agrees r.1 _ _).andThen fun f => ?_
    exact .guard rfl (agree_pure rfl)
  | update =>
    simp only [checkExpr]
    exact checkUpdate_agrees ..
  | @assign _ _ _ op _ _ _ _ _ he =>
    simp only [checkExpr]
    refine (resolve_agrees env _ _ _).andThen fun v => .guard rfl ?_
    refine (checkExpr_agrees env he).andThen fun r => (family_agrees r.1 _ _).andThen fun f => ?_
    refine (expectFamily_agrees _ _ _ _ _).andThen fun _ => ?_
    cases op with
    | none => exact agree_pure rfl
    | some op => exact .guard rfl (agree_pure rfl)
  | @call _ _ _ callee _ _ _ _ ha =>
    simp only [checkExpr, ha.length]
    cases env.signature? callee with
    | none =>
      dsimp only
      split <;> rfl
    | some sig => exact .guard rfl ((checkArguments_agrees env _ _ _ ha).andThen fun _ => agree_pure rfl)
  | intrinsic ha =>
    simp only [checkExpr, ha.length]
    exact .guard rfl ((checkValues_agrees env ha).andThen fun _ => agree_pure rfl)
  | cast he =>
    simp only [checkExpr]
    exact (checkExpr_agrees env he).andThen fun r => (family_agrees r.1 _ _).andThen fun _ => agree_pure rfl

theorem checkArguments_agrees (env : Env) (callee : String) (number : Nat) (params : List Ty) {args args' : List Expr}
    (h : Expr.AllAlike args args') :
    AgreeChecked (checkArguments env callee number params args) (checkArguments env callee number params args') := by
  cases h with
  | nil => cases params <;> exact agree_pure rfl
  | cons he hs =>
    cases params with
    | nil => exact agree_pure rfl
    | cons param params =>
      simp only [checkArguments]
      refine (checkExpr_agrees env he).andThen fun r => (family_agrees r.1 _ _).andThen fun f => ?_
      refine (expectFamily_agrees _ _ _ _ _).andThen fun _ => ?_
      exact (checkArguments_agrees env callee _ params hs).andThen fun _ => agree_pure rfl

theorem checkValues_agrees (env : Env) {args args' : List Expr} (h : Expr.AllAlike args args') :
    AgreeChecked (checkValues env args) (checkValues env args') := by
  cases h with
  | nil => exact agree_pure rfl
  | cons he hs =>
    simp only [checkValues]
    refine (checkExpr_agrees env he).andThen fun r => (family_agrees r.1 _ _).andThen fun f => ?_
    exact (checkValues_agrees env hs).andThen fun _ => agree_pure rfl

end

theorem checkValue_agrees (env : Env) {e e' : Expr} (h : e.Alike e') :
    AgreeChecked (checkValue env e) (checkValue env e') :=
  (checkExpr_agrees env h).andThen fun r => (family_agrees r.1 _ _).andThen fun _ => agree_pure rfl

theorem checkEffect_agrees (env : Env) {e e' : Expr} (h : e.Alike e') :
    AgreeChecked (checkEffect env e) (checkEffect env e') := by
  have hvalue : AgreeChecked (do let r ← checkExpr env e; pure r.2) (do let r ← checkExpr env e'; pure r.2) :=
    (checkExpr_agrees env h).andThen fun _ => agree_pure rfl
  cases h with
  | update => exact (checkUpdate_agrees ..).andThen fun _ => agree_pure rfl
  | _ => exact hvalue

theorem checkOptional_agrees (env : Env) {e e' : Option Expr} (h : Option.Rel Expr.Alike e e') :
    AgreeChecked (checkOptional env e) (checkOptional env e') := by
  cases h with
  | none => exact agree_pure rfl
  | some he => exact (checkValue_agrees env he).andThen fun _ => agree_pure rfl

theorem checkStep_agrees (env : Env) {e e' : Option Expr} (h : Option.Rel Expr.Alike e e') :
    AgreeChecked (checkStep env e) (checkStep env e') := by
  cases h with
  | none => exact agree_pure rfl
  | some he => exact checkEffect_agrees env he

theorem checkDecl_agrees (env : Env) (kind : VarKind) {d d' : VarDecl} (h : d.Alike d') :
    AgreeChecked (checkDecl env kind d) (checkDecl env kind d') := by
  obtain ⟨id, span, name, nameSpan, ty, init⟩ := d
  obtain ⟨id', span', name', nameSpan', ty', init'⟩ := d'
  obtain ⟨rfl, rfl, rfl, hinit⟩ := h
  refine .guard rfl ?_
  have hdeclare (facts : Facts) :
      AgreeChecked
        (do let env ← env.declare ⟨id, name, ty, kind⟩ nameSpan
            pure (env, facts ++ .declares ⟨id, name, ty, kind⟩))
        (do let env ← env.declare ⟨id, name, ty, kind⟩ nameSpan'
            pure (env, facts ++ .declares ⟨id, name, ty, kind⟩)) :=
    (declare_agrees _ _ _ _).andThen fun _ => agree_pure rfl
  cases hinit with
  | none =>
    by_cases hconst : ty.isConst = true
    · simp only [hconst, if_true]
      rfl
    · simp only [hconst, Bool.false_eq_true, if_false]
      exact hdeclare {}
  | some he =>
    exact (checkValue_agrees env he).andThen fun r => (expectFamily_agrees _ _ _ _ _).andThen fun _ => hdeclare r.2

theorem checkReturn_agrees (env : Env) (span span' : Span) {e e' : Option Expr} (h : Option.Rel Expr.Alike e e') :
    AgreeChecked (checkReturn env span e) (checkReturn env span' e') := by
  cases h with
  | none =>
    simp only [checkReturn]
    split <;> rfl
  | some he =>
    refine .guard rfl ((checkValue_agrees env he).andThen fun r => ?_)
    exact (expectFamily_agrees _ _ _ _ _).andThen fun _ => agree_pure rfl

theorem checkForInit_agrees (env : Env) {init init' : ForInit} (h : init.Alike init') :
    AgreeChecked (checkForInit env init) (checkForInit env init') := by
  cases h with
  | nothing => exact agree_pure rfl
  | decl hd => exact checkDecl_agrees env _ hd
  | expr he => exact (checkEffect_agrees env he).andThen fun _ => agree_pure rfl

mutual

theorem checkStmt_agrees (env : Env) {s s' : Stmt} (h : s.Alike s') :
    AgreeChecked (checkStmt env s) (checkStmt env s') := by
  cases h with
  | decl hd => exact checkDecl_agrees env _ hd
  | ifThen hc hy =>
    simp only [checkStmt]
    exact (checkValue_agrees env hc).andThen fun _ => (checkStmt_agrees env.enter hy).andThen fun _ => agree_pure rfl
  | ifElse hc hy hn =>
    simp only [checkStmt]
    refine (checkValue_agrees env hc).andThen fun _ => (checkStmt_agrees env.enter hy).andThen fun _ => ?_
    exact (checkStmt_agrees env.enter hn).andThen fun _ => agree_pure rfl
  | while_ hc hb =>
    simp only [checkStmt]
    exact (checkValue_agrees env hc).andThen fun _ => (checkStmt_agrees _ hb).andThen fun _ => agree_pure rfl
  | doWhile hb hc =>
    simp only [checkStmt]
    exact (checkStmt_agrees _ hb).andThen fun _ => (checkValue_agrees _ hc).andThen fun _ => agree_pure rfl
  | for_ hi hc hs hb =>
    simp only [checkStmt]
    refine (checkForInit_agrees env.enter hi).andThen fun inner => (checkOptional_agrees inner.1 hc).andThen fun _ => ?_
    exact (checkStep_agrees inner.1 hs).andThen fun _ => (checkStmt_agrees _ hb).andThen fun _ => agree_pure rfl
  | break_ | continue_ =>
    simp only [checkStmt]
    split <;> rfl
  | return_ hv =>
    simp only [checkStmt]
    exact (checkReturn_agrees env _ _ hv).andThen fun _ => agree_pure rfl
  | expr he =>
    simp only [checkStmt]
    exact (checkEffect_agrees env he).andThen fun _ => agree_pure rfl
  | block hb =>
    simp only [checkStmt]
    exact (checkStmts_agrees env.enter hb).andThen fun _ => agree_pure rfl
  | empty => exact agree_pure rfl

theorem checkStmts_agrees (env : Env) {ss ss' : List Stmt} (h : Stmt.AllAlike ss ss') :
    AgreeChecked (checkStmts env ss) (checkStmts env ss') := by
  cases h with
  | nil => exact agree_pure rfl
  | cons hs hss =>
    simp only [checkStmts]
    exact (checkStmt_agrees env hs).andThen fun r => (checkStmts_agrees r.1 hss).andThen fun _ => agree_pure rfl

end

theorem checkParams_agrees (env : Env) {ps ps' : List Param} (h : List.Forall₂ Param.Alike ps ps') :
    AgreeChecked (checkParams env ps) (checkParams env ps') := by
  induction h generalizing env with
  | nil => exact agree_pure rfl
  | @cons p p' _ _ hp _ ih =>
    obtain ⟨id, span, name, ty⟩ := p
    obtain ⟨id', span', name', ty'⟩ := p'
    obtain ⟨rfl, rfl, rfl⟩ := hp
    exact .guard rfl ((declare_agrees _ _ _ _).andThen fun env => (ih env).andThen fun _ => agree_pure rfl)

theorem checkFunction_agrees (env : Env) {f f' : FunctionDecl} (h : f.Alike f') :
    AgreeChecked (checkFunction env f) (checkFunction env f') := by
  unfold checkFunction
  rw [h.name, h.result]
  exact (checkParams_agrees _ h.params).andThen fun r => (checkStmts_agrees r.1 h.body).andThen fun _ => agree_pure rfl

theorem checkItems_agrees (env : Env) {is is' : List Item} (h : List.Forall₂ Item.Alike is is') :
    AgreeChecked (checkItems env is) (checkItems env is') := by
  induction h generalizing env with
  | nil => exact agree_pure rfl
  | cons hi _ ih =>
    cases hi with
    | global hd => exact (checkDecl_agrees env _ hd).andThen fun r => (ih r.1).andThen fun _ => agree_pure rfl
    | function hf => exact (checkFunction_agrees env hf).andThen fun _ => (ih env).andThen fun _ => agree_pure rfl

theorem params_ty {ps ps' : List Param} (h : List.Forall₂ Param.Alike ps ps') : ps.map (·.ty) = ps'.map (·.ty) := by
  induction h with
  | nil => rfl
  | cons hp _ ih => rw [List.map_cons, List.map_cons, hp.ty, ih]

theorem collect_agrees (seen : List (String × Signature)) {fs fs' : List FunctionDecl}
    (h : List.Forall₂ FunctionDecl.Alike fs fs') : AgreeChecked (collect seen fs) (collect seen fs') := by
  induction h generalizing seen with
  | nil => exact agree_pure rfl
  | cons hf _ ih =>
    simp only [collect, hf.name, hf.result, params_ty hf.params]
    split
    · rfl
    · exact ih _

end Typing

namespace Program

theorem functions_alike {p p' : Program} (h : p.Alike p') :
    List.Forall₂ FunctionDecl.Alike p.functions p'.functions := by
  obtain ⟨is, span⟩ := p
  obtain ⟨is', span'⟩ := p'
  replace h : List.Forall₂ Item.Alike is is' := h
  unfold functions
  induction h with
  | nil => exact .nil
  | cons hi _ ih =>
    cases hi with
    | function hf => exact .cons hf ih
    | global hd => exact ih

theorem globals_alike {p p' : Program} (h : p.Alike p') : List.Forall₂ VarDecl.Alike p.globals p'.globals := by
  obtain ⟨is, span⟩ := p
  obtain ⟨is', span'⟩ := p'
  replace h : List.Forall₂ Item.Alike is is' := h
  unfold globals
  induction h with
  | nil => exact .nil
  | cons hi _ ih =>
    cases hi with
    | function hf => exact ih
    | global hd => exact .cons hd ih

theorem find?_alike {fs fs' : List FunctionDecl} (h : List.Forall₂ FunctionDecl.Alike fs fs') (name : String) :
    Option.Rel FunctionDecl.Alike (fs.find? (·.name == name)) (fs'.find? (·.name == name)) := by
  induction h with
  | nil => exact .none
  | cons hf _ ih =>
    rw [List.find?_cons, List.find?_cons, hf.name]
    split
    · exact .some hf
    · exact ih

theorem checkMain_agrees {p p' : Program} (h : p.Alike p') :
    Typing.AgreeChecked (Typing.checkMain p) (Typing.checkMain p') := by
  have hmain := find?_alike (functions_alike h) "main"
  unfold Typing.checkMain
  generalize p.functions.find? (·.name == "main") = found, p'.functions.find? (·.name == "main") = found' at hmain ⊢
  cases hmain with
  | none => rfl
  | @some f f' hf =>
    have hempty : f.params.isEmpty = f'.params.isEmpty := by
      rw [Bool.eq_iff_iff, List.isEmpty_iff_length_eq_zero, List.isEmpty_iff_length_eq_zero, hf.params.length_eq]
    dsimp only
    rw [hempty]
    split <;> rfl

/-- **Programs that are alike are checked alike**: the same tables, or the same fault. -/
theorem check_agrees {p p' : Program} (h : p.Alike p') : Typing.AgreeChecked p.check p'.check := by
  refine (Typing.collect_agrees [] (functions_alike h)).andThen fun functions =>
    (checkMain_agrees h).andThen fun _ => ?_
  exact (Typing.checkItems_agrees _ h).andThen fun _ => agree_pure rfl

end Program

end C15

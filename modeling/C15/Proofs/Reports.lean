/-
What is reported lies at spans of the program, and what is warned about at its calls.

The checker and the generator make no spans: each error, symbol, destination and warning has the span of a node.
`EndsAt` follows one run, failing or not; `Fragment.Reports` describes the reports of generated code: where they are,
and that the warnings about recursion are those of the calls for which code was generated, in order. Results:
- `Program.check_at`: an error of the checker is at a span of the program, or in front of it;
- `Program.generate_reports`: so is all that the generator reports, and one recursion warning stands for each call that
  leads back.
-/
import C15.Proofs.Lowering
import C15.Proofs.Nesting

namespace C15

/-! ## One run -/

/-- a result satisfies `Q`, and a failure is at a span that satisfies `P` -/
def EndsAt {ε α : Type} (P : Span → Prop) (Q : α → Prop) : Except (Located ε) α → Prop
  | .ok a => Q a
  | .error e => P e.span

/-- the relation of all spans that satisfy a property to any other -/
abbrev everywhere (P : Span → Prop) : Span → Span → Prop := fun s _ => P s

section Calculus

variable {ε α β : Type} {P : Span → Prop} {Q : α → Prop} {R : β → Prop} {x : Except (Located ε) α}

theorem EndsAt.bind {f : α → Except (Located ε) β} (hx : EndsAt P Q x) (hf : ∀ a, Q a → EndsAt P R (f a)) :
    EndsAt P R (x >>= f) := by
  cases x with
  | error e => exact hx
  | ok a => exact hf a hx

theorem EndsAt.imp {R : α → Prop} (hx : EndsAt P Q x) (hQR : ∀ a, Q a → R a) : EndsAt P R x := by
  cases x with
  | error e => exact hx
  | ok a => exact hQR a hx

theorem EndsAt.map {f : α → β} (hx : EndsAt P Q x) (hf : ∀ a, Q a → R (f a)) : EndsAt P R (x.map f) := by
  cases x with
  | error e => exact hx
  | ok a => exact hf a hx

theorem endsAt_pure {a : α} (h : Q a) : EndsAt P Q (pure a : Except (Located ε) α) := h

theorem endsAt_throw {e : Located ε} (h : P e.span) : EndsAt P Q (throw e : Except (Located ε) α) := h

theorem EndsAt.guard {c : Prop} [Decidable c] {e : Located ε} {f : Unit → Except (Located ε) α} (he : P e.span)
    (hx : EndsAt P Q x) : EndsAt P Q (if c then (throw e >>= f) else x) := by
  by_cases hc : c
  · rw [if_pos hc]
    exact he
  · rw [if_neg hc]
    exact hx

end Calculus

namespace Typing

/-! ## Checking -/

/-- a fault is at a span that satisfies a property -/
abbrev FaultAt {α : Type} (P : Span → Prop) : Except TypeError α → Prop := EndsAt P fun _ => True

theorem FaultAt.andThen {α β : Type} {P : Span → Prop} {x : Except TypeError α} {f : α → Except TypeError β}
    (hx : FaultAt P x) (hf : ∀ a, FaultAt P (f a)) : FaultAt P (x >>= f) := hx.bind fun a _ => hf a

variable (P : Span → Prop)

theorem resolve_at (env : Env) (name : String) {span : Span} (h : P span) : FaultAt P (env.resolve name span) := by
  unfold Env.resolve
  split
  · trivial
  · split <;> exact h

theorem family_at (b : Base) {span : Span} (h : P span) : FaultAt P (family b span) := by
  unfold family
  split
  · trivial
  · exact h

theorem expectFamily_at (b : Base) (f : Family) (use : Use) {span : Span} (h : P span) :
    FaultAt P (expectFamily b f use span) := by
  unfold expectFamily
  split
  · trivial
  · exact h

theorem declare_at (env : Env) (v : Variable) {span : Span} (h : P span) : FaultAt P (env.declare v span) := by
  unfold Env.declare
  split
  · exact h
  · split
    · trivial
    · split
      · exact h
      · trivial

theorem checkUpdate_at (env : Env) (dropped : Bool) (id targetId : NodeId) (target : String) {span targetSpan : Span}
    (h : P span) (htarget : P targetSpan) : FaultAt P (checkUpdate env dropped id span targetId targetSpan target) :=
  (resolve_at P env target htarget).andThen fun _ => .guard h trivial

variable {P}

mutual

theorem checkExpr_at (env : Env) {outer : Span} {e : Expr} (h : e.Lies (everywhere P) outer) :
    FaultAt P (checkExpr env e) := by
  match e with
  | .literal .. => trivial
  | .ident .. =>
    simp only [checkExpr]
    exact (resolve_at P env _ h).andThen fun _ => trivial
  | .binary _ _ _ lhs rhs =>
    simp only [checkExpr]
    refine (checkExpr_at env h.2.1).andThen fun left => (family_at P left.1 h.2.1.span).andThen fun _ => ?_
    refine (checkExpr_at env h.2.2).andThen fun right => (family_at P right.1 h.2.2.span).andThen fun _ => ?_
    exact .guard h.1 (.guard h.1 trivial)
  | .unary .. =>
    simp only [checkExpr]
    refine (checkExpr_at env h.2).andThen fun r => (family_at P r.1 h.2.span).andThen fun _ => ?_
    exact .guard h.1 trivial
  | .update .. =>
    simp only [checkExpr]
    exact checkUpdate_at P env false _ _ _ h.1 h.2
  | .assign _ _ op .. =>
    simp only [checkExpr]
    refine (resolve_at P env _ h.2.1).andThen fun _ => .guard h.2.1 ?_
    refine (checkExpr_at env h.2.2).andThen fun r => (family_at P r.1 h.2.2.span).andThen fun _ => ?_
    refine (expectFamily_at P _ _ _ h.2.2.span).andThen fun _ => ?_
    cases op with
    | none => trivial
    | some op => exact .guard h.2.1 trivial
  | .call _ _ callee _ _ =>
    simp only [checkExpr]
    cases env.signature? callee with
    | none =>
      dsimp only
      split <;> exact h.2.1
    | some sig => exact .guard h.1 ((checkArguments_at env _ _ _ h.2.2).andThen fun _ => trivial)
  | .intrinsic .. =>
    simp only [checkExpr]
    exact .guard h.1 ((checkValues_at env h.2.2).andThen fun _ => trivial)
  | .cast .. =>
    simp only [checkExpr]
    exact (checkExpr_at env h.2).andThen fun r => (family_at P r.1 h.2.span).andThen fun _ => trivial

theorem checkArguments_at (env : Env) (callee : String) (number : Nat) (params : List Ty) {outer : Span}
    {args : List Expr} (h : Expr.AllLie (everywhere P) outer args) :
    FaultAt P (checkArguments env callee number params args) := by
  match args, params with
  | [], [] | [], _ :: _ | _ :: _, [] => trivial
  | arg :: args, param :: params =>
    simp only [checkArguments]
    refine (checkExpr_at env h.1).andThen fun r => (family_at P r.1 h.1.span).andThen fun _ => ?_
    refine (expectFamily_at P _ _ _ h.1.span).andThen fun _ => ?_
    exact (checkArguments_at env callee _ params h.2).andThen fun _ => trivial

theorem checkValues_at (env : Env) {outer : Span} {args : List Expr} (h : Expr.AllLie (everywhere P) outer args) :
    FaultAt P (checkValues env args) := by
  match args with
  | [] => trivial
  | arg :: args =>
    simp only [checkValues]
    refine (checkExpr_at env h.1).andThen fun r => (family_at P r.1 h.1.span).andThen fun _ => ?_
    exact (checkValues_at env h.2).andThen fun _ => trivial

end

theorem checkValue_at (env : Env) {outer : Span} {e : Expr} (h : e.Lies (everywhere P) outer) :
    FaultAt P (checkValue env e) :=
  (checkExpr_at env h).andThen fun r => (family_at P r.1 h.span).andThen fun _ => trivial

theorem checkEffect_at (env : Env) {outer : Span} {e : Expr} (h : e.Lies (everywhere P) outer) :
    FaultAt P (checkEffect env e) := by
  have hvalue : FaultAt P (do let r ← checkExpr env e; pure r.2) := (checkExpr_at env h).andThen fun _ => trivial
  cases e with
  | update => exact (checkUpdate_at P env true _ _ _ h.1 h.2).andThen fun _ => trivial
  | _ => exact hvalue

theorem checkOptional_at (env : Env) {outer : Span} {e : Option Expr} (h : ∀ x ∈ e, x.Lies (everywhere P) outer) :
    FaultAt P (checkOptional env e) := by
  cases e with
  | none => trivial
  | some e => exact (checkValue_at env (h e rfl)).andThen fun _ => trivial

theorem checkStep_at (env : Env) {outer : Span} {e : Option Expr} (h : ∀ x ∈ e, x.Lies (everywhere P) outer) :
    FaultAt P (checkStep env e) := by
  cases e with
  | none => trivial
  | some e => exact checkEffect_at env (h e rfl)

theorem checkDecl_at (env : Env) (kind : VarKind) {outer : Span} {d : VarDecl} (h : d.Lies (everywhere P) outer) :
    FaultAt P (checkDecl env kind d) := by
  obtain ⟨id, span, name, nameSpan, ty, init⟩ := d
  obtain ⟨-, hname, hinit⟩ := h
  refine .guard hname ?_
  have hdeclare (facts : Facts) :
      FaultAt P
        (do let env ← env.declare ⟨id, name, ty, kind⟩ nameSpan
            pure (env, facts ++ .declares ⟨id, name, ty, kind⟩)) :=
    (declare_at P _ _ hname).andThen fun _ => trivial
  cases init with
  | none =>
    by_cases hconst : ty.isConst = true
    · simp only [hconst, if_true]
      exact hname
    · simp only [hconst, Bool.false_eq_true, if_false]
      exact hdeclare {}
  | some e =>
    have he := hinit e rfl
    exact (checkValue_at env he).andThen fun r => (expectFamily_at P _ _ _ he.span).andThen fun _ => hdeclare r.2

theorem checkReturn_at (env : Env) {outer span : Span} (hspan : everywhere P span outer) {e : Option Expr}
    (h : ∀ x ∈ e, x.Lies (everywhere P) span) : FaultAt P (checkReturn env span e) := by
  cases e with
  | none =>
    simp only [checkReturn]
    split
    · trivial
    · exact hspan
  | some e =>
    have he := h e rfl
    exact .guard he.span
      ((checkValue_at env he).andThen fun r => (expectFamily_at P _ _ _ he.span).andThen fun _ => trivial)

theorem checkForInit_at (env : Env) {outer : Span} {init : ForInit} (h : init.Lies (everywhere P) outer) :
    FaultAt P (checkForInit env init) := by
  cases init with
  | nothing => trivial
  | decl d => exact checkDecl_at env _ h
  | expr _ e => exact (checkEffect_at env h.2).andThen fun _ => trivial

mutual

theorem checkStmt_at (env : Env) {outer : Span} {s : Stmt} (h : s.Lies (everywhere P) outer) :
    FaultAt P (checkStmt env s) := by
  match s with
  | .decl d => exact checkDecl_at env _ h
  | .ifThen .. =>
    simp only [checkStmt]
    exact (checkValue_at env h.2.1).andThen fun _ => (checkStmt_at env.enter h.2.2).andThen fun _ => trivial
  | .ifElse .. =>
    simp only [checkStmt]
    refine (checkValue_at env h.2.1).andThen fun _ => (checkStmt_at env.enter h.2.2.1).andThen fun _ => ?_
    exact (checkStmt_at env.enter h.2.2.2).andThen fun _ => trivial
  | .while_ .. =>
    simp only [checkStmt]
    exact (checkValue_at env h.2.1).andThen fun _ => (checkStmt_at _ h.2.2).andThen fun _ => trivial
  | .doWhile .. =>
    simp only [checkStmt]
    exact (checkStmt_at _ h.2.2).andThen fun _ => (checkValue_at _ h.2.1).andThen fun _ => trivial
  | .for_ .. =>
    simp only [checkStmt]
    refine (checkForInit_at env.enter h.2.1).andThen fun inner => (checkOptional_at inner.1 h.2.2.1).andThen fun _ => ?_
    exact (checkStep_at inner.1 h.2.2.2.1).andThen fun _ => (checkStmt_at _ h.2.2.2.2).andThen fun _ => trivial
  | .break_ _ | .continue_ _ =>
    simp only [checkStmt]
    split
    · trivial
    · exact h
  | .return_ .. =>
    simp only [checkStmt]
    exact (checkReturn_at env h.1 h.2).andThen fun _ => trivial
  | .expr .. =>
    simp only [checkStmt]
    exact (checkEffect_at env h.2).andThen fun _ => trivial
  | .block .. =>
    simp only [checkStmt]
    exact (checkStmts_at env.enter h.2).andThen fun _ => trivial
  | .empty _ => trivial

theorem checkStmts_at (env : Env) {outer : Span} {ss : List Stmt} (h : Stmt.AllLie (everywhere P) outer ss) :
    FaultAt P (checkStmts env ss) := by
  match ss with
  | [] => trivial
  | s :: ss =>
    simp only [checkStmts]
    exact (checkStmt_at env h.1).andThen fun r => (checkStmts_at r.1 h.2).andThen fun _ => trivial

end

theorem checkParams_at (env : Env) {ps : List Param} (h : ∀ q ∈ ps, P q.span) : FaultAt P (checkParams env ps) := by
  induction ps generalizing env with
  | nil => trivial
  | cons q ps ih =>
    obtain ⟨hq, hps⟩ := List.forall_mem_cons.1 h
    exact .guard hq ((declare_at P _ _ hq).andThen fun env => (ih env hps).andThen fun _ => trivial)

theorem checkItems_at (env : Env) {outer : Span} {is : List Item} (h : ∀ i ∈ is, i.Lies (everywhere P) outer) :
    FaultAt P (checkItems env is) := by
  induction is generalizing env with
  | nil => trivial
  | cons i is ih =>
    obtain ⟨hi, his⟩ := List.forall_mem_cons.1 h
    cases i with
    | global d => exact (checkDecl_at env _ hi).andThen fun r => (ih r.1 his).andThen fun _ => trivial
    | function f =>
      have hf : FaultAt P (checkFunction env f) :=
        (checkParams_at _ hi.2.2.1).andThen fun r => (checkStmts_at r.1 hi.2.2.2.2).andThen fun _ => trivial
      exact hf.andThen fun _ => (ih env his).andThen fun _ => trivial

theorem collect_at (seen : List (String × Signature)) {fs : List FunctionDecl} (h : ∀ f ∈ fs, P f.nameSpan) :
    FaultAt P (collect seen fs) := by
  induction fs generalizing seen with
  | nil => trivial
  | cons f fs ih =>
    obtain ⟨hf, hfs⟩ := List.forall_mem_cons.1 h
    simp only [collect]
    split
    · exact hf
    · exact ih _ hfs

end Typing

namespace Program

variable {P : Span → Prop} {p : Program}

theorem function_lies (h : p.Lies (everywhere P)) {f : FunctionDecl} (hf : f ∈ p.functions) :
    f.Lies (everywhere P) p.span :=
  h _ (mem_functions.1 hf)

theorem global_lies (h : p.Lies (everywhere P)) {d : VarDecl} (hd : d ∈ p.globals) : d.Lies (everywhere P) p.span :=
  h _ (mem_globals.1 hd)

/-- **Faults of a program** are at its spans; that there is no `main` is reported in front of it. -/
theorem check_at (h : p.Lies (everywhere P)) (hzero : P ⟨0, 0⟩) : Typing.FaultAt P p.check := by
  have hnames : ∀ f ∈ p.functions, P f.nameSpan := fun f hf => (p.function_lies h hf).2.1
  refine (Typing.collect_at [] hnames).andThen fun functions => ?_
  have hmain : Typing.FaultAt P (Typing.checkMain p) := by
    unfold Typing.checkMain
    split
    · exact hzero
    · rename_i f hf
      split
      · trivial
      · exact hnames f (List.mem_of_find?_eq_some hf)
  exact hmain.andThen fun _ => (Typing.checkItems_at _ h).andThen fun _ => trivial

end Program

/-! ## Calls that are lowered -/

mutual

/-- calls of a statement for which code is generated: nothing behind a statement that diverges has any -/
def Stmt.lowered : Stmt → List CallSite
  | .decl d => d.sites
  | .ifThen _ cond yes => cond.sites ++ yes.lowered
  | .ifElse _ cond yes no => cond.sites ++ yes.lowered ++ no.lowered
  | .for_ _ init cond step body => init.sites ++ Expr.optionalSites cond ++ body.lowered ++ Expr.optionalSites step
  | .while_ _ cond body => cond.sites ++ body.lowered
  | .doWhile _ body cond => body.lowered ++ cond.sites
  | .return_ _ value => Expr.optionalSites value
  | .expr _ e => e.sites
  | .block _ body => Stmt.loweredOf body
  | .break_ _ | .continue_ _ | .empty _ => []

/-- calls of statements for which code is generated -/
def Stmt.loweredOf : List Stmt → List CallSite
  | [] => []
  | s :: rest => s.lowered ++ if s.diverges then [] else Stmt.loweredOf rest

end

def FunctionDecl.lowered (f : FunctionDecl) : List CallSite := Stmt.loweredOf f.body

/-- the warning about a call that leads back -/
def CallSite.warning (c : CallSite) : Diagnostic := .warningAt .source c.span (Codegen.recursionWarning c.callee)

/-- the warnings about those of some calls in a function that lead back to it -/
def CallGraph.recursion (g : CallGraph) (function : String) (sites : List CallSite) : List Diagnostic :=
  (sites.filter fun c => g.reaches c.callee function).map CallSite.warning

/-- the warnings about calls of a program that lead back; the entry code is a function without a name -/
def Program.recursion (p : Program) : List Diagnostic :=
  (CallGraph.ofFunctions p.functions).recursion "" (p.globals.flatMap VarDecl.sites) ++
    p.functions.flatMap fun f => (CallGraph.ofFunctions p.functions).recursion f.name f.lowered

/-- a warning about recursion, by its first words -/
def Diagnostic.isRecursion (d : Diagnostic) : Bool := "Recursive call to '".toList.isPrefixOf d.message.toList

theorem isRecursion_warning (c : CallSite) : c.warning.isRecursion = true := by
  have hmessage : Codegen.recursionWarning c.callee =
      "Recursive call to '" ++ (c.callee ++ "': parameters and locals are statically allocated") := String.append_assoc
  rw [Diagnostic.isRecursion, List.isPrefixOf_iff_prefix]
  change _ <+: (Codegen.recursionWarning c.callee).toList
  rw [hmessage, String.toList_append]
  exact List.prefix_append _ _

/-- a message with another first letter -/
theorem isRecursion_of_head {span : Span} {c : Char} {message : String} (h : message.toList.head? = some c)
    (hc : c ≠ 'R') : (Diagnostic.warningAt .source span message).isRecursion = false := by
  obtain ⟨cs, hcs⟩ := List.head?_eq_some_iff.1 h
  have hwords : "Recursive call to '".toList = 'R' :: "ecursive call to '".toList := by decide
  rw [Diagnostic.isRecursion, Diagnostic.warningAt, hcs, hwords, List.isPrefixOf, beq_eq_false_iff_ne.2 hc.symm,
    Bool.false_and]

theorem isRecursion_unread (span : Span) (name : String) :
    (Diagnostic.warningAt .source span s!"Variable '{name}' is never read").isRecursion = false := by
  have hmessage : s!"Variable '{name}' is never read" = "Variable '" ++ (name ++ "' is never read") :=
    String.append_assoc
  have hwords : "Variable '".toList = 'V' :: "ariable '".toList := by decide
  refine isRecursion_of_head (c := 'V') ?_ (by decide)
  rw [hmessage, String.toList_append, hwords]
  rfl

theorem isRecursion_unreachable (span : Span) :
    (Diagnostic.warningAt .source span "Unreachable statement").isRecursion = false :=
  isRecursion_of_head (c := 'U') (by decide) (by decide)

namespace Codegen

/-! ## Generating -/

/-- reports at spans that satisfy a property, and the warnings about recursion among them -/
structure Fragment.Reports (P : Span → Prop) (recursion : List Diagnostic) (frag : Fragment) : Prop where
  symbols : ∀ s ∈ frag.symbols, P s.span
  warnings : ∀ w ∈ frag.warnings, ∃ span, w.location = some ⟨.source, span⟩ ∧ P span
  recursion : frag.warnings.filter Diagnostic.isRecursion = recursion

namespace Fragment.Reports

variable {P : Span → Prop} {xs ys : List Diagnostic} {a b : Fragment}

theorem append (ha : a.Reports P xs) (hb : b.Reports P ys) : (a ++ b).Reports P (xs ++ ys) := by
  refine ⟨?_, ?_, ?_⟩
  · rw [symbols_append, List.forall_mem_append]
    exact ⟨ha.symbols, hb.symbols⟩
  · rw [warnings_append, List.forall_mem_append]
    exact ⟨ha.warnings, hb.warnings⟩
  · rw [warnings_append, List.filter_append, ha.recursion, hb.recursion]

/-- no reports -/
theorem none (hsymbols : a.symbols = []) (hwarnings : a.warnings = []) : a.Reports P [] := by
  refine ⟨?_, ?_, ?_⟩
  · rw [hsymbols]
    exact List.forall_mem_nil _
  · rw [hwarnings]
    exact List.forall_mem_nil _
  · rw [hwarnings, List.filter_nil]

theorem emit (is : List Instruction) : (Fragment.emit is).Reports P [] := .none rfl rfl

theorem place (label : String) : (Fragment.place label).Reports P [] := .none rfl rfl

theorem symbol (P : Span → Prop) {span : Span} (h : P span) (c : SymbolClass) : (Fragment.symbol span c).Reports P [] :=
  ⟨List.forall_mem_singleton.2 h, List.forall_mem_nil _, rfl⟩

theorem warn (P : Span → Prop) {span : Span} (h : P span) {message : String} {warnings : List Diagnostic}
    (hwarnings : [Diagnostic.warningAt .source span message].filter Diagnostic.isRecursion = warnings) :
    (Fragment.warn span message).Reports P warnings :=
  ⟨List.forall_mem_nil _, List.forall_mem_singleton.2 ⟨span, rfl, h⟩, hwarnings⟩

/-- lines without reports behind others -/
theorem snoc (ha : a.Reports P xs) (hb : b.Reports P []) : (a ++ b).Reports P xs := by
  have h := ha.append hb
  rwa [List.append_nil] at h

/-- lines without reports in front of others -/
theorem cons (hb : b.Reports P []) (ha : a.Reports P xs) : (b ++ a).Reports P xs := hb.append ha

end Fragment.Reports

/-- the warnings about calls that lead back to the function being generated -/
def Context.recursion (cx : Context) (sites : List CallSite) : List Diagnostic := cx.graph.recursion cx.function sites

theorem Context.recursion_append (cx : Context) (xs ys : List CallSite) :
    cx.recursion (xs ++ ys) = cx.recursion xs ++ cx.recursion ys := by
  rw [Context.recursion, CallGraph.recursion, List.filter_append, List.map_append]
  rfl

theorem Context.recursion_singleton (cx : Context) (c : CallSite) :
    cx.recursion [c] = if cx.graph.reaches c.callee cx.function then [c.warning] else [] := by
  rw [Context.recursion, CallGraph.recursion, List.filter_cons]
  split <;> rfl

section Expressions

variable {P : Span → Prop} (cx : Context) (slots : Slots)

/-- lookups fail at the span they are made for -/
abbrev FoundAt {α : Type} (P : Span → Prop) : Except CodegenError α → Prop := EndsAt P fun _ => True

theorem FoundAt.andThen {α β : Type} {R : β → Prop} {x : Except CodegenError α} {f : α → Except CodegenError β}
    (hx : FoundAt P x) (hf : ∀ a, EndsAt P R (f a)) : EndsAt P R (x >>= f) := hx.bind fun a _ => hf a

variable (P)

theorem slotOf_at (id : NodeId) {span : Span} (h : P span) : FoundAt P (cx.slotOf slots id span) := by
  unfold Context.slotOf
  split
  · exact h
  · split
    · exact h
    · trivial

theorem family_at (id : NodeId) {span : Span} (h : P span) : FoundAt P (cx.family id span) := by
  unfold Context.family
  split
  · trivial
  · exact h

theorem select_at (op : BinOp) (f : Family) (symbol : String) {span : Span} (h : P span) :
    FoundAt P (select op f symbol span) := by
  unfold select
  split
  · trivial
  · exact h

variable {P}

mutual

theorem lowerExpr_reports (used : Bool) {outer : Span} {e : Expr} (h : e.Lies (everywhere P) outer) :
    EndsAt P (Fragment.Reports P (cx.recursion e.sites)) (lowerExpr cx slots used e) := by
  match e with
  | .literal .. => exact endsAt_pure (.emit _)
  | .ident .. =>
    simp only [lowerExpr]
    exact (slotOf_at P cx slots _ h).andThen fun _ => endsAt_pure ((Fragment.Reports.symbol P h _).snoc (.emit _))
  | .binary .. =>
    simp only [lowerExpr, Expr.sites, cx.recursion_append]
    refine (family_at P cx _ h.2.1.span).andThen fun f => (select_at P _ f _ h.1).andThen fun i => ?_
    refine (lowerExpr_reports true h.2.1).bind fun left hleft =>
      (lowerExpr_reports true h.2.2).bind fun right hright => ?_
    exact endsAt_pure ((hleft.append hright).snoc (.emit _))
  | .unary _ _ op _ =>
    simp only [lowerExpr, Expr.sites]
    refine (family_at P cx _ h.2.span).andThen fun f => (lowerExpr_reports true h.2).bind fun inner hinner => ?_
    cases op <;> exact endsAt_pure (hinner.snoc (.emit _))
  | .update .. =>
    simp only [lowerExpr]
    refine (slotOf_at P cx slots _ h.1).andThen fun _ => (family_at P cx _ h.1).andThen fun f => ?_
    exact endsAt_pure ((Fragment.Reports.symbol P h.2 _).snoc (.emit _))
  | .assign _ _ op _ _ _ =>
    simp only [lowerExpr, Expr.sites]
    refine (slotOf_at P cx slots _ h.1).andThen fun slot => ?_
    have htarget := Fragment.Reports.symbol P h.2.1 slot.2
    cases op with
    | none =>
      refine (lowerExpr_reports true h.2.2).bind fun inner hinner => ?_
      exact endsAt_pure (((htarget.cons hinner).snoc (.emit _)).snoc (.emit _))
    | some op =>
      refine (family_at P cx _ h.2.2.span).andThen fun f => (select_at P _ f _ h.2.1).andThen fun i => ?_
      refine (lowerExpr_reports true h.2.2).bind fun inner hinner => ?_
      exact endsAt_pure ((((htarget.snoc (.emit _)).cons hinner).snoc (.emit _)).snoc (.emit _))
  | .call _ span callee _ args =>
    simp only [lowerExpr, Expr.sites]
    refine (lowerArgs_reports h.2.2).bind fun inner hinner => ?_
    have hwarning : Fragment.Reports P (cx.recursion [⟨span, callee⟩])
        (if cx.graph.reaches callee cx.function then .warn span (recursionWarning callee) else {}) := by
      rw [cx.recursion_singleton]
      split
      · exact .warn P h.1 (List.filter_cons_of_pos (isRecursion_warning ⟨span, callee⟩))
      · exact .none rfl rfl
    cases cx.frames.lookup callee with
    | none => exact endsAt_throw h.2.1
    | some frame =>
      have hall := (((Fragment.Reports.symbol P h.2.1 .function).cons hwarning).append hinner)
      rw [← cx.recursion_append] at hall
      exact endsAt_pure (hall.snoc (.emit _))
  | .intrinsic .. =>
    simp only [lowerExpr, Expr.sites]
    refine (lowerArgs_reports h.2.2).bind fun inner hinner => ?_
    exact endsAt_pure (((Fragment.Reports.symbol P h.2.1 _).cons hinner).snoc (.emit _))
  | .cast _ _ base _ =>
    simp only [lowerExpr, Expr.sites]
    refine (family_at P cx _ h.2.span).andThen fun source => ?_
    cases base.family with
    | none => exact endsAt_throw h.1
    | some target =>
      refine (lowerExpr_reports true h.2).bind fun inner hinner => ?_
      cases source.conversion target with
      | none => exact endsAt_pure hinner
      | some i => exact endsAt_pure (hinner.snoc (.emit _))

theorem lowerArgs_reports {outer : Span} {args : List Expr} (h : Expr.AllLie (everywhere P) outer args) :
    EndsAt P (Fragment.Reports P (cx.recursion (Expr.sitesOf args))) (lowerArgs cx slots args) := by
  match args with
  | [] => exact endsAt_pure (.none rfl rfl)
  | arg :: args =>
    simp only [lowerArgs, Expr.sitesOf, cx.recursion_append]
    refine (lowerExpr_reports true h.1).bind fun first hfirst => (lowerArgs_reports h.2).bind fun rest hrest => ?_
    exact endsAt_pure (hfirst.append hrest)

end

theorem lowerEffect_reports {outer : Span} {e : Expr} (h : e.Lies (everywhere P) outer) :
    EndsAt P (Fragment.Reports P (cx.recursion e.sites)) (lowerEffect cx slots e) := by
  have hdropped := lowerExpr_reports cx slots false h
  have hvalue := lowerExpr_reports cx slots true h
  cases e with
  | assign | call | update => exact hdropped
  | _ =>
    refine hvalue.bind fun inner hinner => ?_
    dsimp only [Expr.id]
    split
    · exact endsAt_pure hinner
    · exact endsAt_pure hinner
    · exact endsAt_pure (hinner.snoc (.emit _))

theorem lowerCondition_reports {outer : Span} {e : Expr} (h : e.Lies (everywhere P) outer) :
    EndsAt P (Fragment.Reports P (cx.recursion e.sites)) (lowerCondition cx slots e) :=
  (lowerExpr_reports cx slots true h).bind fun _ hinner => endsAt_pure (hinner.snoc (.emit _))

end Expressions

/-! ## Storage -/

/-- a step that keeps destinations at spans that satisfy a property, fails at such a span, and gives a result that
satisfies `Q` -/
def Generates {α : Type} (P : Span → Prop) (Q : α → Prop) (x : Gen α) : Prop :=
  ∀ st : Storage, (∀ d ∈ st.destinations.toList, P d.span) →
    EndsAt P (fun r => Q r.1 ∧ ∀ d ∈ r.2.destinations.toList, P d.span) (x.run st)

section Steps

variable {α β : Type} {P : Span → Prop} {Q : α → Prop} {R : β → Prop}

theorem Generates.bind {x : Gen α} {f : α → Gen β} (hx : Generates P Q x) (hf : ∀ a, Q a → Generates P R (f a)) :
    Generates P R (x >>= f) := by
  intro st hst
  rw [StateT.run_bind]
  exact (hx st hst).bind fun r hr => hf r.1 hr.1 r.2 hr.2

theorem generates_pure {a : α} (h : Q a) : Generates P Q (pure a) := fun _ hst => ⟨h, hst⟩

theorem generates_throw {e : CodegenError} (h : P e.span) : Generates P Q (throw e : Gen α) := fun _ _ => h

theorem generates_freshLabel : Generates P (fun _ => True) freshLabel := fun _ hst => ⟨trivial, hst⟩

theorem generates_allocate (P : Span → Prop) (name : String) (ty : Ty) {span : Span} (h : P span) :
    Generates P (fun _ => True) (allocate name ty span) := by
  intro st hst
  rw [run_allocate]
  split
  · refine ⟨trivial, fun d hd => ?_⟩
    rw [Storage.grow, Array.toList_push, List.mem_append, List.mem_singleton] at hd
    rcases hd with hd | rfl
    · exact hst d hd
    · exact h
  · exact h

theorem generates_bindSlot (P : Span → Prop) (decl : NodeId) (name : String) (ty : Ty) {span : Span} (h : P span) :
    Generates P (fun _ => True) (bindSlot decl name ty span) :=
  (generates_allocate P name ty h).bind fun _ _ _ hst => ⟨trivial, hst⟩

theorem generates_withSlots {Q : Fragment → Prop} {f : Slots → Except CodegenError Fragment}
    (h : ∀ slots, EndsAt P Q (f slots)) : Generates P Q (withSlots f) := by
  intro st hst
  rw [run_withSlots]
  exact (h st.slots).map fun _ hcode => ⟨hcode, hst⟩

end Steps

/-! ## Statements -/

section Statements

variable {P : Span → Prop} (cx : Context)

theorem lowerLocal_reports {outer : Span} {d : VarDecl} (h : d.Lies (everywhere P) outer) :
    Generates P (Fragment.Reports P (cx.recursion d.sites)) (lowerLocal cx d) := by
  obtain ⟨-, hname, hinit⟩ := h
  have hhead : Fragment.Reports P [] (.symbol d.nameSpan (declClass d.ty) ++
      if cx.info.isUsed d.id then {} else .warn d.nameSpan s!"Variable '{d.name}' is never read") := by
    refine (Fragment.Reports.symbol P hname _).snoc ?_
    split
    · exact .none rfl rfl
    · exact .warn P hname (List.filter_cons_of_neg (by simp [isRecursion_unread]))
  unfold lowerLocal VarDecl.sites
  generalize d.init = init at hinit ⊢
  cases init with
  | none => exact (generates_bindSlot P _ _ _ hname).bind fun _ _ => generates_pure hhead
  | some e =>
    refine (generates_withSlots fun slots => lowerExpr_reports cx slots true (hinit e rfl)).bind fun inner hinner => ?_
    exact (generates_bindSlot P _ _ _ hname).bind fun _ _ => generates_pure ((hhead.cons hinner).snoc (.emit _))

theorem lowerForInit_reports {outer : Span} {i : ForInit} (h : i.Lies (everywhere P) outer) :
    Generates P (Fragment.Reports P (cx.recursion i.sites)) (lowerForInit cx i) := by
  cases i with
  | nothing => exact generates_pure (.none rfl rfl)
  | decl d => exact lowerLocal_reports cx h
  | expr _ e => exact generates_withSlots fun slots => lowerEffect_reports cx slots h.2

theorem lowerForCondition_reports (exit : String) {outer : Span} {e : Option Expr}
    (h : ∀ x ∈ e, x.Lies (everywhere P) outer) :
    Generates P (Fragment.Reports P (cx.recursion (Expr.optionalSites e))) (lowerForCondition cx exit e) := by
  cases e with
  | none => exact generates_pure (.none rfl rfl)
  | some e =>
    refine (generates_withSlots fun slots => lowerCondition_reports cx slots (h e rfl)).bind fun _ htest => ?_
    exact generates_pure (htest.snoc (.emit _))

theorem lowerStep_reports {outer : Span} {e : Option Expr} (h : ∀ x ∈ e, x.Lies (everywhere P) outer) :
    Generates P (Fragment.Reports P (cx.recursion (Expr.optionalSites e))) (lowerStep cx e) := by
  cases e with
  | none => exact generates_pure (.none rfl rfl)
  | some e => exact generates_withSlots fun slots => lowerEffect_reports cx slots (h e rfl)

theorem lowerReturn_reports {outer : Span} {e : Option Expr} (h : ∀ x ∈ e, x.Lies (everywhere P) outer) :
    Generates P (Fragment.Reports P (cx.recursion (Expr.optionalSites e))) (lowerReturn cx e) := by
  cases e with
  | none => exact generates_pure (.emit _)
  | some e =>
    refine (generates_withSlots fun slots => lowerExpr_reports cx slots true (h e rfl)).bind fun inner hinner => ?_
    cases (cx.frames.lookup cx.function).bind (·.result) with
    | none => exact generates_throw (h e rfl).span
    | some a => exact generates_pure (hinner.snoc (.emit _))

theorem unreachableWarning_reports {outer : Span} {ss : List Stmt} (h : Stmt.AllLie (everywhere P) outer ss) :
    (unreachableWarning ss).Reports P [] := by
  induction ss with
  | nil => exact .none rfl rfl
  | cons s ss ih =>
    have hrest := ih h.2
    unfold unreachableWarning at hrest ⊢
    rw [List.find?_cons]
    cases s.isEmpty with
    | true => exact hrest
    | false => exact .warn P h.1.span (List.filter_cons_of_neg (by simp [isRecursion_unreachable]))

mutual

theorem lowerStmt_reports (loop : Option LoopLabels) {outer : Span} {st : Stmt} (h : st.Lies (everywhere P) outer) :
    Generates P (Fragment.Reports P (cx.recursion st.lowered)) (lowerStmt cx loop st) := by
  match st with
  | .decl d => exact lowerLocal_reports cx h
  | .ifThen .. =>
    simp only [lowerStmt, Stmt.lowered, cx.recursion_append]
    refine generates_freshLabel.bind fun n _ => ?_
    refine (generates_withSlots fun slots => lowerCondition_reports cx slots h.2.1).bind fun _ htest => ?_
    exact (lowerStmt_reports loop h.2.2).bind fun _ hyes =>
      generates_pure (((htest.snoc (.emit _)).append hyes).snoc (.place _))
  | .ifElse .. =>
    simp only [lowerStmt, Stmt.lowered, cx.recursion_append]
    refine generates_freshLabel.bind fun n _ => ?_
    refine (generates_withSlots fun slots => lowerCondition_reports cx slots h.2.1).bind fun _ htest => ?_
    refine (lowerStmt_reports loop h.2.2.1).bind fun _ hyes => (lowerStmt_reports loop h.2.2.2).bind fun _ hno => ?_
    exact generates_pure
      ((((((htest.snoc (.emit _)).append hyes).snoc (.emit _)).snoc (.place _)).append hno).snoc (.place _))
  | .while_ .. =>
    simp only [lowerStmt, Stmt.lowered, cx.recursion_append]
    refine generates_freshLabel.bind fun n _ => ?_
    refine (generates_withSlots fun slots => lowerCondition_reports cx slots h.2.1).bind fun _ htest => ?_
    refine (lowerStmt_reports _ h.2.2).bind fun _ hbody => generates_pure ?_
    exact (((((Fragment.Reports.place _).cons htest).snoc (.emit _)).append hbody).snoc (.emit _)).snoc (.place _)
  | .doWhile .. =>
    simp only [lowerStmt, Stmt.lowered, cx.recursion_append]
    refine generates_freshLabel.bind fun n _ => (lowerStmt_reports _ h.2.2).bind fun _ hbody => ?_
    refine (generates_withSlots fun slots => lowerCondition_reports cx slots h.2.1).bind fun _ htest =>
      generates_pure ?_
    exact (((((Fragment.Reports.place _).cons hbody).snoc (.place _)).append htest).snoc (.emit _)).snoc (.place _)
  | .for_ .. =>
    simp only [lowerStmt, Stmt.lowered, cx.recursion_append]
    refine generates_freshLabel.bind fun n _ => (lowerForInit_reports cx h.2.1).bind fun _ hinit => ?_
    refine (lowerForCondition_reports cx _ h.2.2.1).bind fun _ htest =>
      (lowerStmt_reports _ h.2.2.2.2).bind fun _ hbody => ?_
    refine (lowerStep_reports cx h.2.2.2.1).bind fun _ hstep => generates_pure ?_
    exact ((((((hinit.snoc (.place _)).append htest).append hbody).snoc (.place _)).append hstep).snoc (.emit _)).snoc
      (.place _)
  | .break_ _ | .continue_ _ =>
    cases loop with
    | none => exact generates_throw h
    | some l => exact generates_pure (.emit _)
  | .return_ .. => exact lowerReturn_reports cx h.2
  | .expr .. => exact generates_withSlots fun slots => lowerEffect_reports cx slots h.2
  | .block .. => exact lowerStmts_reports loop h.2
  | .empty _ => exact generates_pure (.none rfl rfl)

theorem lowerStmts_reports (loop : Option LoopLabels) {outer : Span} {ss : List Stmt}
    (h : Stmt.AllLie (everywhere P) outer ss) :
    Generates P (Fragment.Reports P (cx.recursion (Stmt.loweredOf ss))) (lowerStmts cx loop ss) := by
  match ss with
  | [] => exact generates_pure (.none rfl rfl)
  | s :: ss =>
    simp only [lowerStmts, Stmt.loweredOf, cx.recursion_append]
    refine (lowerStmt_reports loop h.1).bind fun _ hfirst => ?_
    split
    · exact generates_pure (hfirst.append (unreachableWarning_reports h.2))
    · exact (lowerStmts_reports loop h.2).bind fun _ hmore => generates_pure (hfirst.append hmore)

end

end Statements

/-! ## Programs -/

variable {P : Span → Prop}

theorem bindGlobals_at {ds : List VarDecl} (h : ∀ d ∈ ds, P d.nameSpan) :
    Generates P (fun as => as.length = ds.length) (bindGlobals ds) := by
  induction ds with
  | nil => exact generates_pure rfl
  | cons d ds ih =>
    obtain ⟨hd, hds⟩ := List.forall_mem_cons.1 h
    refine (generates_bindSlot P _ _ _ hd).bind fun _ _ => (ih hds).bind fun _ hlength => generates_pure ?_
    rw [List.length_cons, List.length_cons, hlength]

theorem bindParams_at {ps : List Param} (h : ∀ q ∈ ps, P q.span) : Generates P (fun _ => True) (bindParams ps) := by
  induction ps with
  | nil => exact generates_pure trivial
  | cons q ps ih =>
    obtain ⟨hq, hps⟩ := List.forall_mem_cons.1 h
    exact (generates_bindSlot P _ _ _ hq).bind fun _ _ => (ih hps).bind fun _ _ => generates_pure trivial

theorem bindFrame_at {outer : Span} {f : FunctionDecl} (h : f.Lies (everywhere P) outer) :
    Generates P (fun _ => True) (bindFrame f) := by
  have hparams := bindParams_at h.2.2.1
  simp only [bindFrame, map_eq_pure_bind]
  split
  · exact (generates_pure (Q := fun _ => True) trivial).bind fun _ _ => hparams.bind fun _ _ => generates_pure trivial
  · refine Generates.bind (Q := fun _ => True) ?_ fun _ _ => hparams.bind fun _ _ => generates_pure trivial
    exact (generates_allocate P _ _ h.2.1).bind fun _ _ => generates_pure trivial

theorem bindFrames_at (seen : List (String × Frame)) {outer : Span} {fs : List FunctionDecl}
    (h : ∀ f ∈ fs, f.Lies (everywhere P) outer) : Generates P (fun _ => True) (bindFrames seen fs) := by
  induction fs generalizing seen with
  | nil => exact generates_pure trivial
  | cons f fs ih =>
    obtain ⟨hf, hfs⟩ := List.forall_mem_cons.1 h
    exact (bindFrame_at hf).bind fun _ _ => ih _ hfs

theorem lowerGlobals_reports (cx : Context) {outer : Span} {gs : List (VarDecl × Address)}
    (h : ∀ g ∈ gs, g.1.Lies (everywhere P) outer) :
    Generates P (Fragment.Reports P (cx.recursion ((gs.map (·.1)).flatMap VarDecl.sites))) (lowerGlobals cx gs) := by
  induction gs with
  | nil => exact generates_pure (.none rfl rfl)
  | cons g gs ih =>
    obtain ⟨d, a⟩ := g
    obtain ⟨hd, hgs⟩ := List.forall_mem_cons.1 h
    have hmore := ih hgs
    simp only [lowerGlobals, List.map_cons, List.flatMap_cons, cx.recursion_append, VarDecl.sites]
    obtain ⟨-, -, hinit⟩ := hd
    generalize d.init = init at hinit ⊢
    cases init with
    | none =>
      exact (generates_pure (Q := Fragment.Reports P []) (.emit _)).bind fun _ hfirst => hmore.bind fun _ hmore =>
        generates_pure (hfirst.cons hmore)
    | some e =>
      refine (generates_withSlots fun slots => lowerExpr_reports cx slots true (hinit e rfl)).bind fun _ hinner => ?_
      exact hmore.bind fun _ hmore => generates_pure ((hinner.snoc (.emit _)).append hmore)

theorem paramSymbols_reports {ps : List Param} (h : ∀ q ∈ ps, P q.span) {a : Fragment} (ha : a.Reports P []) :
    (ps.foldl (fun acc p => acc ++ .symbol p.span .parameter) a).Reports P [] := by
  induction ps generalizing a with
  | nil => exact ha
  | cons q ps ih =>
    obtain ⟨hq, hps⟩ := List.forall_mem_cons.1 h
    exact ih hps (ha.snoc (.symbol P hq _))

theorem lowerFunction_reports (cx : Context) {outer : Span} {f : FunctionDecl} (h : f.Lies (everywhere P) outer) :
    Generates P (Fragment.Reports P (cx.graph.recursion f.name f.lowered)) (lowerFunction cx f) := by
  have hsymbols := paramSymbols_reports h.2.2.1 (.symbol P h.2.1 .function)
  refine (lowerStmts_reports { cx with function := f.name } none h.2.2.2.2).bind fun _ hbody => ?_
  exact generates_pure (((hsymbols.snoc (.place _)).cons hbody).snoc (.emit _))

theorem lowerFunctions_reports (cx : Context) {outer : Span} {fs : List FunctionDecl}
    (h : ∀ f ∈ fs, f.Lies (everywhere P) outer) :
    Generates P (Fragment.Reports P (fs.flatMap fun f => cx.graph.recursion f.name f.lowered))
      (lowerFunctions cx fs) := by
  induction fs with
  | nil => exact generates_pure (.none rfl rfl)
  | cons f fs ih =>
    obtain ⟨hf, hfs⟩ := List.forall_mem_cons.1 h
    exact (lowerFunction_reports cx hf).bind fun _ hfirst => (ih hfs).bind fun _ hmore =>
      generates_pure (hfirst.append hmore)

theorem globalSymbols_reports {ds : List VarDecl} (h : ∀ d ∈ ds, P d.nameSpan) : (globalSymbols ds).Reports P [] := by
  refine ⟨fun s hs => ?_, List.forall_mem_nil _, rfl⟩
  obtain ⟨d, hd, rfl⟩ := List.mem_map.1 hs
  exact h d hd

theorem lowerProgram_reports (info : TypeInfo) {p : Program} (h : p.Lies (everywhere P)) :
    Generates P (Fragment.Reports P p.recursion) (lowerProgram info p) := by
  have hglobals : ∀ d ∈ p.globals, d.Lies (everywhere P) p.span := fun _ hd => Program.global_lies h hd
  have hfunctions : ∀ f ∈ p.functions, f.Lies (everywhere P) p.span := fun _ hf => Program.function_lies h hf
  have hnames : ∀ d ∈ p.globals, P d.nameSpan := fun d hd => (hglobals d hd).2.1
  refine (bindGlobals_at hnames).bind fun as hlength => (bindFrames_at [] hfunctions).bind fun frames _ => ?_
  have hfst : (p.globals.zip as).map (·.1) = p.globals := List.map_fst_zip hlength.ge
  refine (lowerGlobals_reports _ fun g hg => hglobals g.1 (List.of_mem_zip hg).1).bind fun entry hentry => ?_
  refine (lowerFunctions_reports _ hfunctions).bind fun code hcode => generates_pure ?_
  rw [hfst] at hentry
  exact ((((globalSymbols_reports hnames).snoc (.none rfl rfl)).cons hentry).snoc (.emit _)).append hcode

end Codegen

/-- reports at spans that satisfy a property, and the warnings about recursion among them -/
structure Generated.Reports (P : Span → Prop) (recursion : List Diagnostic) (g : Generated) : Prop where
  symbols : ∀ s ∈ g.symbols, P s.span
  destinations : ∀ d ∈ g.destinations, P d.span
  warnings : ∀ w ∈ g.warnings, ∃ span, w.location = some ⟨.source, span⟩ ∧ P span
  recursion : g.warnings.filter Diagnostic.isRecursion = recursion

/-- **Reports of the generator** are at spans of the program, and it warns about recursion once for each call with code
that leads back. -/
theorem Program.generate_reports {P : Span → Prop} (info : TypeInfo) {p : Program} (h : p.Lies (everywhere P)) :
    EndsAt P (Generated.Reports P p.recursion) (p.generate info) := by
  refine (Codegen.lowerProgram_reports info h ⟨#[], [], 0⟩ (List.forall_mem_nil _)).bind fun r hr => ?_
  exact endsAt_pure ⟨hr.1.symbols, hr.2, hr.1.warnings, hr.1.recursion⟩

end C15

/-
What every generated line is for.

`Program.purposes` goes through a program as the generator does and says for each line what it is there for: to read or
write the variable that an occurrence means, to give a declaration its first value, to pass an argument, to take up or
leave a result, or only to compute and jump. `Line.Serves` says what a line must be to do that, with the address it has
to use. Results:
- `lowerExpr_serves`, `lowerStmt_serves`: code of expressions and statements, line by line;
- `Program.purposes_closed`: what the purposes of expressions have, and a list has if its parts have it, the purposes of
  a program have;
- `Program.purposes_within`: a line that reads or writes a variable is there for an occurrence in the text;
- `Program.generate_serves`: the lines of a generated program serve its purposes, one for one. Nothing is assumed of the
  program or of the facts it is generated by.
-/
import C15.Proofs.LineText
import C15.Proofs.Storage
import C15.Proofs.TypeRules

namespace C15

/-! ## Purposes -/

/-- what a line is for -/
inductive Purpose where
  /-- to compute, jump or mark a place; no address is used -/
  | work
  /-- to let the host read a global -/
  | expose (decl : NodeId)
  /-- to read the variable that an occurrence means -/
  | load (id : NodeId)
  /-- to write the variable that an occurrence means -/
  | store (id : NodeId)
  /-- to take the value of its initializer into a variable -/
  | init (decl : NodeId)
  /-- to zero a global that has no initializer -/
  | reset (decl : NodeId)
  /-- to take an argument into a parameter -/
  | pass (callee : String) (param : NodeId)
  | call (callee : String)
  /-- to push the result of a call -/
  | fetch (callee : String)
  /-- to take a returned value into the result of the function -/
  | leave (function : String)
deriving DecidableEq, Repr

/-- a line does what it is for, with the address of the cell that it is about -/
def Line.Serves (cells : List Cell) (info : TypeInfo) (l : Line) : Purpose → Prop
  | .work => l.addresses = []
  | .expose decl => ∃ a name, l = .read a name ∧ cells[a.index]? = some (.variable decl)
  | .load id => ∃ a v, (l = .instr (Codegen.pushA a) ∨ l = .instr (Codegen.loadA a)) ∧ info.variableOf id = some v ∧
      cells[a.index]? = some (.variable v.decl)
  | .store id => ∃ a v, (l = .instr (Codegen.popA a) ∨ l = .instr (Codegen.saveA a)) ∧ info.variableOf id = some v ∧
      cells[a.index]? = some (.variable v.decl)
  | .init decl | .pass _ decl => ∃ a, l = .instr (Codegen.popA a) ∧ cells[a.index]? = some (.variable decl)
  | .reset decl => ∃ a value, l = .instr (.store value a) ∧ cells[a.index]? = some (.variable decl)
  | .call callee => l = .instr (.jump .call (Codegen.functionLabel callee))
  | .fetch callee => ∃ a, l = .instr (Codegen.pushA a) ∧ cells[a.index]? = some (.result callee)
  | .leave function => ∃ a, l = .instr (Codegen.popA a) ∧ cells[a.index]? = some (.result function)

/-- lines serve purposes, one for one -/
abbrev Served (cells : List Cell) (info : TypeInfo) : List Line → List Purpose → Prop :=
  List.Forall₂ (Line.Serves cells info)

section Purposes

variable (fs : List FunctionDecl) (info : TypeInfo)

/-- a call after its arguments are pushed: the last argument is taken off first -/
def callPurposes (used : Bool) (callee : String) : List Purpose :=
  (calledFunction fs callee).elim [] fun f =>
    f.params.reverse.map (fun q => .pass callee q.id) ++ [.call callee] ++ if used && !f.result.isVoid
      then [.fetch callee] else []

mutual

/-- what the lines of an expression are for -/
def Expr.purposes (used : Bool) : Expr → List Purpose
  | .literal .. => [.work]
  | .ident id _ _ => [.load id]
  | .binary _ _ _ lhs rhs => lhs.purposes true ++ rhs.purposes true ++ List.replicate 4 .work
  | .unary _ _ op e => e.purposes true ++ List.replicate (if op = .bitNot then 5 else 3) .work
  | .update id _ op _ _ _ =>
    (if used && op.isPost then [.load id] else []) ++ [.load id, .work, .store id] ++ if used &&
      !op.isPost then [.load id] else []
  | .assign id _ none _ _ value => value.purposes true ++ [.store id] ++ if used then [.load id] else []
  | .assign id _ (some _) _ _ value =>
    .load id :: value.purposes true ++ [.work, .work, .work, .store id] ++ if used then [.load id] else []
  | .call _ _ callee _ args => Expr.purposesOf args ++ callPurposes fs used callee
  | .intrinsic _ _ callee _ args => Expr.purposesOf args ++ List.replicate (Codegen.intrinsicCode callee).length .work
  | .cast _ _ base e =>
    e.purposes true ++
      ((info.familyOf e.id).bind fun source => base.family.bind source.conversion).elim [] fun _ =>
        List.replicate 3 .work

def Expr.purposesOf : List Expr → List Purpose
  | [] => []
  | e :: es => e.purposes true ++ Expr.purposesOf es

end

/-- the lines of an expression of which only the effects count -/
def Expr.effectPurposes (e : Expr) : List Purpose :=
  if e.isDroppable then e.purposes fs info false
  else e.purposes fs info true ++ (info.familyOf e.id).elim [] fun _ => [.work]

/-- the lines of a condition with the jump behind it, if there is a condition -/
def Expr.testPurposes (e : Option Expr) : List Purpose := e.elim [] fun e => e.purposes fs info true ++ [.work, .work]

def VarDecl.purposes (d : VarDecl) : List Purpose := d.init.elim [] fun e => e.purposes fs info true ++ [.init d.id]

def ForInit.purposes : ForInit → List Purpose
  | .nothing => []
  | .decl d => d.purposes fs info
  | .expr _ e => e.effectPurposes fs info

mutual

/-- what the lines of a statement are for, in a function with this name -/
def Stmt.purposes (function : String) : Stmt → List Purpose
  | .decl d => d.purposes fs info
  | .ifThen _ cond yes => Expr.testPurposes fs info (some cond) ++ yes.purposes function ++ [.work]
  | .ifElse _ cond yes no =>
    Expr.testPurposes fs info (some cond) ++ yes.purposes function ++ (if yes.diverges then [] else [.work]) ++
      .work :: no.purposes function ++ [.work]
  | .while_ _ cond body => .work :: Expr.testPurposes fs info (some cond) ++ body.purposes function ++ [.work, .work]
  | .doWhile _ body cond => .work :: body.purposes function ++ .work :: Expr.testPurposes fs info (some cond) ++ [.work]
  | .for_ _ init cond step body =>
    init.purposes fs info ++ .work :: Expr.testPurposes fs info cond ++ body.purposes function ++
      .work :: step.elim [] (·.effectPurposes fs info) ++ [.work, .work]
  | .break_ _ | .continue_ _ => [.work]
  | .return_ _ value => value.elim [.work] fun e => e.purposes fs info true ++ [.leave function, .work]
  | .expr _ e => e.effectPurposes fs info
  | .block _ body => Stmt.purposesOf function body
  | .empty _ => []

def Stmt.purposesOf (function : String) : List Stmt → List Purpose
  | [] => []
  | s :: rest => s.purposes function ++ if s.diverges then [] else Stmt.purposesOf function rest

end

/-- the first value of a global -/
def VarDecl.globalPurposes (d : VarDecl) : List Purpose := if d.init.isNone then [.reset d.id] else d.purposes fs info

def FunctionDecl.purposes (f : FunctionDecl) : List Purpose :=
  .work :: Stmt.purposesOf fs info f.name f.body ++ if Stmt.anyDiverges f.body then [] else [.work]

end Purposes

/-- what the lines of a program are for -/
def Program.purposes (p : Program) (info : TypeInfo) : List Purpose :=
  p.globals.map (fun d => .expose d.id) ++ p.globals.flatMap (·.globalPurposes p.functions info) ++
    [.call "main", .work] ++ p.functions.flatMap (·.purposes p.functions info)

/-! ## Where purposes come from -/

namespace Purpose

/-- a purpose of a line that belongs to no expression -/
def isPlain : Purpose → Bool
  | .load _ | .store _ | .pass .. | .fetch _ => false
  | _ => true

/-- what holds of purposes next to each other if it holds of both, and of all that belong to no expression -/
structure Closed (P : List Purpose → Prop) : Prop where
  plain : ∀ qs, (∀ q ∈ qs, q.isPlain = true) → P qs
  append : ∀ {xs ys}, P xs → P ys → P (xs ++ ys)

end Purpose

section Closed

variable {fs : List FunctionDecl} {info : TypeInfo} {P : List Purpose → Prop}

theorem Purpose.Closed.cons (hP : Purpose.Closed P) {q : Purpose} {qs : List Purpose} (hq : q.isPlain = true)
    (h : P qs) : P (q :: qs) :=
  hP.append (hP.plain [q] (List.forall_mem_singleton.2 hq)) h

theorem Expr.effectPurposes_closed (hP : Purpose.Closed P) {e : Expr} (h : ∀ used, P (e.purposes fs info used)) :
    P (e.effectPurposes fs info) := by
  unfold effectPurposes
  split
  · exact h false
  · refine hP.append (h true) (hP.plain _ ?_)
    cases info.familyOf e.id with
    | none => exact List.forall_mem_nil _
    | some f => exact List.forall_mem_singleton.2 rfl

theorem Expr.testPurposes_closed (hP : Purpose.Closed P) {e : Option Expr} (h : ∀ x ∈ e, P (x.purposes fs info true)) :
    P (Expr.testPurposes fs info e) := by
  cases e with
  | none => exact hP.plain [] (List.forall_mem_nil _)
  | some e => exact hP.append (h e rfl) (hP.plain _ (by decide))

theorem VarDecl.purposes_closed (hP : Purpose.Closed P) {d : VarDecl} (h : ∀ e ∈ d.init, P (e.purposes fs info true)) :
    P (d.purposes fs info) := by
  unfold VarDecl.purposes
  cases hd : d.init with
  | none => exact hP.plain [] (List.forall_mem_nil _)
  | some e => exact hP.append (h e hd) (hP.plain _ (List.forall_mem_singleton.2 rfl))

/-- an expression that may be absent stands in its scope if it is there -/
theorem Scope.mem_place {Γ : Scope} {e : Option Expr} {x : Expr} (h : x ∈ e) : (Γ, x) ∈ Γ.place e := by
  obtain rfl : e = some x := h
  exact List.mem_singleton_self _

theorem ForInit.purposes_closed (hP : Purpose.Closed P) {init : ForInit} {Γ : Scope}
    (h : ∀ x ∈ init.exprs Γ, ∀ used, P (x.2.purposes fs info used)) : P (init.purposes fs info) := by
  cases init with
  | nothing => exact hP.plain [] (List.forall_mem_nil _)
  | decl d => exact VarDecl.purposes_closed hP fun e he => h (Γ, e) (Scope.mem_place he) true
  | expr _ e => exact Expr.effectPurposes_closed hP (h (Γ, e) (List.mem_singleton_self _))

mutual

/-- what the purposes of the expressions in a statement have, the purposes of the statement have -/
theorem Stmt.purposes_closed (hP : Purpose.Closed P) (s : Stmt) {Γ : Scope} (function : String)
    (h : ∀ x ∈ s.exprs Γ, ∀ used, P (x.2.purposes fs info used)) : P (s.purposes fs info function) := by
  cases s with
  | decl d => exact VarDecl.purposes_closed hP fun e he => h (Γ, e) (Scope.mem_place he) true
  | ifThen _ cond yes =>
    rw [Stmt.exprs, List.forall_mem_cons] at h
    have htest := Expr.testPurposes_closed hP (e := some cond) fun x hx => Option.mem_some.1 hx ▸ h.1 true
    exact hP.append (hP.append htest (Stmt.purposes_closed hP yes function h.2)) (hP.plain _ (by decide))
  | ifElse _ cond yes no =>
    rw [Stmt.exprs, List.forall_mem_cons, List.forall_mem_append] at h
    have htest := Expr.testPurposes_closed hP (e := some cond) fun x hx => Option.mem_some.1 hx ▸ h.1 true
    have hyes := Stmt.purposes_closed hP yes function h.2.1
    have hno := Stmt.purposes_closed hP no function h.2.2
    refine hP.append (hP.append (hP.append (hP.append htest hyes) (hP.plain _ ?_)) (hP.cons rfl hno))
      (hP.plain _ (by decide))
    split
    · exact List.forall_mem_nil _
    · exact List.forall_mem_singleton.2 rfl
  | while_ _ cond body =>
    rw [Stmt.exprs, List.forall_mem_cons] at h
    have htest := Expr.testPurposes_closed hP (e := some cond) fun x hx => Option.mem_some.1 hx ▸ h.1 true
    exact hP.append (hP.append (hP.cons rfl htest) (Stmt.purposes_closed hP body function h.2)) (hP.plain _ (by decide))
  | doWhile _ body cond =>
    rw [Stmt.exprs, List.forall_mem_append, List.forall_mem_singleton] at h
    have htest := Expr.testPurposes_closed hP (e := some cond) fun x hx => Option.mem_some.1 hx ▸ h.2 true
    exact hP.append (hP.append (hP.cons rfl (Stmt.purposes_closed hP body function h.1)) (hP.cons rfl htest))
      (hP.plain _ (by decide))
  | for_ _ init cond step body =>
    rw [Stmt.exprs, List.forall_mem_append, List.forall_mem_append, List.forall_mem_append] at h
    obtain ⟨⟨⟨hinit, hcond⟩, hstep⟩, hbody⟩ := h
    have htest := Expr.testPurposes_closed hP (e := cond) fun x hx => hcond _ (Scope.mem_place hx) true
    have hagain : P (step.elim [] (·.effectPurposes fs info)) := by
      cases step with
      | none => exact hP.plain [] (List.forall_mem_nil _)
      | some e => exact Expr.effectPurposes_closed hP (hstep _ (Scope.mem_place rfl))
    refine hP.append (hP.append (hP.append (hP.append ?_ (hP.cons rfl htest)) ?_) (hP.cons rfl hagain))
      (hP.plain _ (by decide))
    · exact ForInit.purposes_closed hP hinit
    · exact Stmt.purposes_closed hP body function hbody
  | break_ | continue_ => exact hP.plain _ (List.forall_mem_singleton.2 rfl)
  | return_ _ value =>
    cases value with
    | none => exact hP.plain _ (List.forall_mem_singleton.2 rfl)
    | some e =>
      exact hP.append (h _ (Scope.mem_place rfl) true)
        (hP.cons rfl (hP.plain _ (List.forall_mem_singleton.2 rfl)))
  | expr _ e => exact Expr.effectPurposes_closed hP (h (Γ, e) (List.mem_singleton_self _))
  | block _ body => exact Stmt.purposesOf_closed hP body function h
  | empty => exact hP.plain [] (List.forall_mem_nil _)

theorem Stmt.purposesOf_closed (hP : Purpose.Closed P) (ss : List Stmt) {Γ : Scope} (function : String)
    (h : ∀ x ∈ Stmt.exprsOf Γ ss, ∀ used, P (x.2.purposes fs info used)) : P (Stmt.purposesOf fs info function ss) := by
  cases ss with
  | nil => exact hP.plain [] (List.forall_mem_nil _)
  | cons s rest =>
    rw [Stmt.exprsOf, List.forall_mem_append] at h
    refine hP.append (Stmt.purposes_closed hP s function h.1) ?_
    split
    · exact hP.plain [] (List.forall_mem_nil _)
    · exact Stmt.purposesOf_closed hP rest function h.2

end

theorem FunctionDecl.purposes_closed (hP : Purpose.Closed P) {f : FunctionDecl} {Γ : Scope}
    (h : ∀ x ∈ Stmt.exprsOf Γ f.body, ∀ used, P (x.2.purposes fs info used)) : P (f.purposes fs info) := by
  refine hP.append (hP.cons rfl (Stmt.purposesOf_closed hP f.body f.name h)) (hP.plain _ ?_)
  split
  · exact List.forall_mem_nil _
  · exact List.forall_mem_singleton.2 rfl

theorem VarDecl.globalPurposes_closed (hP : Purpose.Closed P) {d : VarDecl}
    (h : ∀ e ∈ d.init, P (e.purposes fs info true)) : P (d.globalPurposes fs info) := by
  unfold VarDecl.globalPurposes
  split
  · exact hP.plain _ (List.forall_mem_singleton.2 rfl)
  · exact VarDecl.purposes_closed hP h

theorem Purpose.Closed.flatMap (hP : Purpose.Closed P) {α : Type} {xs : List α} {f : α → List Purpose}
    (h : ∀ x ∈ xs, P (f x)) : P (xs.flatMap f) := by
  induction xs with
  | nil => exact hP.plain [] (List.forall_mem_nil _)
  | cons x xs ih =>
    rw [List.forall_mem_cons] at h
    exact hP.append h.1 (ih h.2)

/-- the expressions of a global and of a function are among those of the items -/
theorem Item.exprsOf_global {Γ : Scope} {items : List Item} {d : VarDecl} (hd : .global d ∈ items) {e : Expr}
    (he : e ∈ d.init) :
    ∃ x ∈ Item.exprsOf Γ items, x.2 = e := by
  induction items generalizing Γ with
  | nil => cases hd
  | cons item rest ih =>
    rcases List.mem_cons.1 hd with rfl | hrest
    · exact ⟨(Γ, e), List.mem_append_left _ (Scope.mem_place he), rfl⟩
    · cases item with
      | global d' =>
        obtain ⟨x, hx, rfl⟩ := ih (Γ := Γ.add (d'.variable .global)) hrest
        exact ⟨x, List.mem_append_right _ hx, rfl⟩
      | function f =>
        obtain ⟨x, hx, rfl⟩ := ih (Γ := Γ) hrest
        exact ⟨x, List.mem_append_right _ hx, rfl⟩

theorem Item.exprsOf_function {Γ : Scope} {items : List Item} {f : FunctionDecl} (hf : .function f ∈ items) :
    ∃ Γ', ∀ x ∈ Stmt.exprsOf Γ' f.body, x ∈ Item.exprsOf Γ items := by
  induction items generalizing Γ with
  | nil => cases hf
  | cons item rest ih =>
    rcases List.mem_cons.1 hf with rfl | hrest
    · exact ⟨Γ.inside f, fun x hx => List.mem_append_left _ hx⟩
    · cases item with
      | global d =>
        obtain ⟨Γ', h⟩ := ih (Γ := Γ.add (d.variable .global)) hrest
        exact ⟨Γ', fun x hx => List.mem_append_right _ (h x hx)⟩
      | function g =>
        obtain ⟨Γ', h⟩ := ih (Γ := Γ) hrest
        exact ⟨Γ', fun x hx => List.mem_append_right _ (h x hx)⟩

/-- what the purposes of the expressions of a program have, the purposes of the program have -/
theorem Program.purposes_closed {p : Program} (hP : Purpose.Closed P)
    (h : ∀ x ∈ p.exprs, ∀ used, P (x.2.purposes p.functions info used)) : P (p.purposes info) := by
  refine hP.append (hP.append (hP.append (hP.plain _ ?_) (hP.flatMap ?_)) (hP.plain _ (by decide))) (hP.flatMap ?_)
  · exact List.forall_mem_map.2 fun _ _ => rfl
  · intro d hd
    refine VarDecl.globalPurposes_closed hP ?_
    intro e he
    obtain ⟨x, hx, rfl⟩ := Item.exprsOf_global (Γ := .empty) (mem_globals.1 hd) he
    exact h x hx true
  · intro f hf
    obtain ⟨Γ, hΓ⟩ := Item.exprsOf_function (Γ := .empty) (mem_functions.1 hf)
    exact FunctionDecl.purposes_closed hP fun x hx => h x (hΓ x hx)

end Closed

/-- the occurrence that an assignment or an update is, with the name it changes -/
def Expr.target? : Expr → Option (NodeId × String)
  | .update id _ _ _ _ target => some (id, target)
  | .assign id _ _ target _ _ => some (id, target)
  | _ => none

/-- a purpose of an expression with these nodes and occurrences: variables are read for an occurrence, and written for
one that is an assignment or an update -/
def Purpose.Within (nodes : List Expr) (occurrences : List (NodeId × String)) : Purpose → Prop
  | .load id => ∃ name, (id, name) ∈ occurrences
  | .store id => ∃ name, (id, name) ∈ occurrences ∧ ∃ n ∈ nodes, n.target? = some (id, name)
  | .init _ | .reset _ | .expose _ | .leave _ => False
  | .work | .pass .. | .call _ | .fetch _ => True

theorem Purpose.Within.mono {nodes nodes' : List Expr} {occurrences occurrences' : List (NodeId × String)} {q : Purpose}
    (h : q.Within nodes occurrences) (hnodes : nodes ⊆ nodes') (hoccurrences : occurrences ⊆ occurrences') :
    q.Within nodes' occurrences' := by
  cases q with
  | load id =>
    obtain ⟨name, ho⟩ := h
    exact ⟨name, hoccurrences ho⟩
  | store id =>
    obtain ⟨name, ho, n, hn, htarget⟩ := h
    exact ⟨name, hoccurrences ho, n, hnodes hn, htarget⟩
  | init | reset | expose | leave => cases h
  | work | pass | call | fetch => trivial

section Within

variable {fs : List FunctionDecl} {info : TypeInfo} {nodes : List Expr} {occurrences : List (NodeId × String)}

/-- all purposes of a list are within these nodes and occurrences -/
abbrev AllWithin (nodes : List Expr) (occurrences : List (NodeId × String)) (qs : List Purpose) : Prop :=
  ∀ q ∈ qs, q.Within nodes occurrences

theorem allWithin_work (n : Nat) : AllWithin nodes occurrences (List.replicate n .work) := by
  intro q hq
  obtain rfl := List.eq_of_mem_replicate hq
  trivial

theorem allWithin_load {id : NodeId} {name : String} (h : (id, name) ∈ occurrences) (b : Bool) :
    AllWithin nodes occurrences (if b then [.load id] else []) := by
  cases b with
  | false => exact List.forall_mem_nil _
  | true => exact List.forall_mem_singleton.2 ⟨name, h⟩

theorem allWithin_callPurposes (used : Bool) (callee : String) :
    AllWithin nodes occurrences (callPurposes fs used callee) := by
  unfold callPurposes
  cases calledFunction fs callee with
  | none => exact List.forall_mem_nil _
  | some f =>
    refine List.forall_mem_append.2 ⟨List.forall_mem_append.2 ⟨?_, List.forall_mem_singleton.2 trivial⟩, ?_⟩
    · exact List.forall_mem_map.2 fun _ _ => trivial
    · split
      · exact List.forall_mem_singleton.2 trivial
      · exact List.forall_mem_nil _

theorem AllWithin.mono {nodes' : List Expr} {occurrences' : List (NodeId × String)} {qs : List Purpose}
    (h : AllWithin nodes occurrences qs) (hnodes : nodes ⊆ nodes') (hoccurrences : occurrences ⊆ occurrences') :
    AllWithin nodes' occurrences' qs :=
  fun q hq => (h q hq).mono hnodes hoccurrences

mutual

theorem Expr.purposes_within (e : Expr) (used : Bool) : AllWithin e.nodes e.occurrences (e.purposes fs info used) := by
  cases e with
  | literal => exact List.forall_mem_singleton.2 trivial
  | ident id span name => exact List.forall_mem_singleton.2 ⟨name, List.mem_singleton_self _⟩
  | binary id span op lhs rhs =>
    refine List.forall_mem_append.2 ⟨List.forall_mem_append.2 ⟨?_, ?_⟩, allWithin_work 4⟩
    · refine (lhs.purposes_within true).mono ?_ (List.subset_append_left _ _)
      exact List.Subset.trans (List.subset_append_left _ _) (List.subset_append_left _ _)
    · refine (rhs.purposes_within true).mono ?_ (List.subset_append_right _ _)
      exact List.Subset.trans (List.subset_append_right _ _) (List.subset_append_left _ _)
  | unary id span op operand =>
    refine List.forall_mem_append.2 ⟨?_, allWithin_work _⟩
    exact (operand.purposes_within true).mono (List.subset_append_left _ _) (List.Subset.refl _)
  | update id span op targetId targetSpan target =>
    have hid : (id, target) ∈ (Expr.update id span op targetId targetSpan target).occurrences := by simp [occurrences]
    refine List.forall_mem_append.2 ⟨List.forall_mem_append.2 ⟨allWithin_load hid _, ?_⟩, allWithin_load hid _⟩
    have hstore : Purpose.Within (Expr.update id span op targetId targetSpan target).nodes _ (.store id) :=
      ⟨target, hid, .update id span op targetId targetSpan target, by simp [Expr.nodes], rfl⟩
    exact List.forall_mem_cons.2 ⟨⟨target, hid⟩, List.forall_mem_cons.2 ⟨trivial, List.forall_mem_singleton.2 hstore⟩⟩
  | assign id span op target targetSpan value =>
    have hid : (id, target) ∈ (Expr.assign id span op target targetSpan value).occurrences := List.mem_cons_self
    have hvalue : AllWithin (Expr.assign id span op target targetSpan value).nodes ((id, target) :: value.occurrences)
        (value.purposes fs info true) :=
      (value.purposes_within true).mono (List.subset_append_left _ _) (List.subset_cons_self _ _)
    have hstore : Purpose.Within (Expr.assign id span op target targetSpan value).nodes _ (.store id) :=
      ⟨target, hid, .assign id span op target targetSpan value,
        List.mem_append_right _ (List.mem_singleton_self _), rfl⟩
    cases op with
    | none =>
      refine List.forall_mem_append.2 ⟨List.forall_mem_append.2 ⟨hvalue, ?_⟩, allWithin_load hid used⟩
      exact List.forall_mem_singleton.2 hstore
    | some op =>
      refine List.forall_mem_append.2 ⟨List.forall_mem_append.2 ⟨List.forall_mem_cons.2 ⟨⟨target, hid⟩, hvalue⟩, ?_⟩,
        allWithin_load hid used⟩
      exact List.forall_mem_append.2 ⟨allWithin_work 3, List.forall_mem_singleton.2 hstore⟩
  | call id span callee calleeSpan args =>
    refine List.forall_mem_append.2 ⟨?_, allWithin_callPurposes used callee⟩
    exact (Expr.purposesOf_within args).mono (List.subset_append_left _ _) (List.Subset.refl _)
  | intrinsic id span callee calleeSpan args =>
    refine List.forall_mem_append.2 ⟨?_, allWithin_work _⟩
    exact (Expr.purposesOf_within args).mono (List.subset_append_left _ _) (List.Subset.refl _)
  | cast id span base operand =>
    refine List.forall_mem_append.2 ⟨?_, ?_⟩
    · exact (operand.purposes_within true).mono (List.subset_append_left _ _) (List.Subset.refl _)
    · cases (info.familyOf operand.id).bind fun source => base.family.bind source.conversion with
      | none => exact List.forall_mem_nil _
      | some i => exact allWithin_work 3

theorem Expr.purposesOf_within (es : List Expr) :
    AllWithin (Expr.nodesOf es) (Expr.occurrencesOf es) (Expr.purposesOf fs info es) := by
  cases es with
  | nil => exact List.forall_mem_nil _
  | cons e es =>
    refine List.forall_mem_append.2 ⟨?_, ?_⟩
    · exact (e.purposes_within true).mono (List.subset_append_left _ _) (List.subset_append_left _ _)
    · exact (Expr.purposesOf_within es).mono (List.subset_append_right _ _) (List.subset_append_right _ _)

end

/-- the purposes of a program that belong to expressions are within expressions of the program -/
theorem Program.purposes_within {p : Program} {q : Purpose} (hq : q ∈ p.purposes info) (hplain : q.isPlain = false) :
    ∃ x ∈ p.exprs, q.Within x.2.nodes x.2.occurrences := by
  have hclosed : Purpose.Closed fun qs => ∀ q ∈ qs, q.isPlain = false →
      ∃ x ∈ p.exprs, q.Within x.2.nodes x.2.occurrences := by
    constructor
    · intro qs hqs q hq hplain
      rw [hqs q hq] at hplain
      cases hplain
    · intro xs ys hxs hys q hq
      exact (List.mem_append.1 hq).elim (hxs q) (hys q)
  refine Program.purposes_closed hclosed ?_ q hq hplain
  intro x hx used q hq _
  exact ⟨x, hx, x.2.purposes_within used q hq⟩

end Within

namespace Codegen

/-! ## Expressions -/

/-- a frame has an address for the result exactly if the function has one -/
theorem Frame.Placed.result_cases {frame : Frame} {cells : List Cell} {f : FunctionDecl} (h : frame.Placed cells f) :
    (frame.result = none ∧ f.result.isVoid = true) ∨
      ∃ a, frame.result = some a ∧ f.result.isVoid = false ∧ cells[a.index]? = some (.result f.name) := by
  have hresult := h.result
  cases hvoid : f.result.isVoid with
  | true =>
    rw [hvoid] at hresult
    cases hr : frame.result with
    | none => exact Or.inl ⟨rfl, rfl⟩
    | some a =>
      rw [hr] at hresult
      cases hresult
  | false =>
    rw [hvoid] at hresult
    cases hr : frame.result with
    | none =>
      rw [hr] at hresult
      cases hresult
    | some a =>
      rw [hr] at hresult
      obtain ⟨ha, -⟩ := List.forall₂_cons.1 hresult
      exact Or.inr ⟨a, rfl, rfl, ha⟩

theorem Framing.result {frames : List (String × Frame)} {fs : List FunctionDecl} {cells : List Cell}
    (h : Framing frames fs cells) {name : String} {frame : Frame} (hframe : frames.lookup name = some frame)
    {a : Address} (ha : frame.result = some a) : cells[a.index]? = some (.result name) := by
  obtain ⟨f, hf, hplaced⟩ := h.sound name frame hframe
  have hname := (calledFunction_spec hf).2
  rcases hplaced.result_cases with ⟨hr, -⟩ | ⟨b, hr, -, hb⟩
  · rw [hr] at ha
    cases ha
  · rw [hr] at ha
    cases ha
    exact hname ▸ hb

section Expr

variable {cx : Context} {slots : Slots} {cells : List Cell} {fs : List FunctionDecl} {info : TypeInfo}

theorem serves_cons {l : Line} {ls : List Line} {qs : List Purpose} (hl : l.addresses = [])
    (h : Served cells info ls qs) : Served cells info (l :: ls) (.work :: qs) := .cons hl h

theorem serves_work {ls : List Line} {n : Nat} (hn : ls.length = n) (h : ∀ l ∈ ls, l.addresses = []) :
    Served cells info ls (List.replicate n .work) := by
  subst hn
  induction ls with
  | nil => exact .nil
  | cons l ls ih =>
    rw [List.forall_mem_cons] at h
    exact .cons h.1 (ih h.2)

/-- instructions that compute on the stack and the registers alone -/
theorem serves_bare (ops : List BareOp) :
    Served cells info (ops.map fun op => .instr (.bare op)) (List.replicate ops.length .work) :=
  serves_work (List.length_map _) (List.forall_mem_map.2 fun _ _ => rfl)

theorem serves_computeTwo (op : BareOp) :
    Served cells info ((computeTwo op).map .instr) (List.replicate 4 .work) :=
  serves_bare [.getpopb, .getpopa, op, .savepush]

theorem serves_computeOne (op : BareOp) :
    Served cells info ((computeOne op).map .instr) (List.replicate 3 .work) :=
  serves_bare [.getpopa, op, .savepush]

theorem serves_unaryCode (op : UnOp) (f : Family) :
    Served cells info ((unaryCode op f).map .instr) (List.replicate (if op = .bitNot then 5 else 3) .work) := by
  cases op with
  | bitNot => exact .cons rfl (serves_computeTwo .xor)
  | not => exact serves_computeOne .not
  | neg => exact serves_computeOne f.negation

theorem serves_intrinsicCode (callee : Intrinsic) :
    Served cells info ((intrinsicCode callee).map .instr) (List.replicate (intrinsicCode callee).length .work) :=
  serves_work (List.length_map _) (by cases callee <;> decide)

theorem serves_updateCode (op : UpdateOp) (f : Family) {a : Address} {id : NodeId} {v : Variable}
    (hv : info.variableOf id = some v) (ha : cells[a.index]? = some (.variable v.decl)) (used : Bool) :
    Served cells info ((updateCode op f a used).map .instr)
      ((if used && op.isPost then [.load id] else []) ++ [.load id, .work, .store id] ++
        if used && !op.isPost then [.load id] else []) := by
  have hpush : Served cells info [.instr (pushA a)] [.load id] := .cons ⟨a, v, Or.inl rfl, hv, ha⟩ .nil
  have hstep : Served cells info ([loadA a, .bare (op.select f), saveA a].map .instr) [.load id, .work, .store id] :=
    .cons ⟨a, v, Or.inr rfl, hv, ha⟩ (.cons rfl (.cons ⟨a, v, Or.inr rfl, hv, ha⟩ .nil))
  unfold updateCode
  rw [List.map_append, List.map_append]
  refine List.rel_append (List.rel_append ?_ hstep) ?_
  · split
    · exact hpush
    · exact .nil
  · split
    · exact hpush
    · exact .nil

/-- the arguments are taken into the parameters, the last first -/
theorem serves_pass {as : List Address} {ps : List Param} (h : Places cells as (ps.map Param.cell)) (callee : String) :
    Served cells info ((as.reverse.map popA).map .instr) (ps.reverse.map fun q => .pass callee q.id) := by
  have hpass : Served cells info ((as.map popA).map .instr) (ps.map fun q => .pass callee q.id) := by
    rw [List.map_map]
    apply List.forall₂_map_left_iff.2
    apply List.forall₂_map_right_iff.2
    exact (List.forall₂_map_right_iff.1 h).imp fun a q ha => ⟨a, rfl, ha⟩
  rw [List.map_reverse, List.map_reverse, List.map_reverse]
  exact List.rel_reverse hpass

theorem serves_call {frames : List (String × Frame)} (hframes : Framing frames fs cells) {callee : String}
    {frame : Frame} (hframe : frames.lookup callee = some frame) (used : Bool) :
    Served cells info
      ((frame.params.reverse.map popA).map .instr ++ [.instr (.jump .call (functionLabel callee))] ++
        (if used then frame.result.toList.map pushA else []).map .instr)
      (callPurposes fs used callee) := by
  obtain ⟨f, hf, hplaced⟩ := hframes.sound callee frame hframe
  have hname := (calledFunction_spec hf).2
  have hcall : Served cells info [.instr (.jump .call (functionLabel callee))] [.call callee] := .cons rfl .nil
  rw [callPurposes, hf]
  refine List.rel_append (List.rel_append (serves_pass hplaced.params callee) hcall) ?_
  cases used with
  | false => exact .nil
  | true =>
    rcases hplaced.result_cases with ⟨hr, hvoid⟩ | ⟨a, hr, hvoid, ha⟩
    · rw [hr, hvoid]
      exact .nil
    · rw [hr, hvoid]
      exact .cons ⟨a, rfl, hname ▸ ha⟩ .nil

/-- addresses that variables are looked up at are those of their cells -/
abbrev Slots.Sound (slots : Slots) (cells : List Cell) : Prop :=
  ∀ decl a, slots.lookup decl = some a → cells[a.index]? = some (.variable decl)

mutual

/-- the code of an expression serves its purposes, one for one -/
theorem lowerExpr_serves (hslots : slots.Sound cells) (hframes : Framing cx.frames fs cells) (e : Expr) {used : Bool}
    {frag : Fragment} (h : lowerExpr cx slots used e = .ok frag) :
    Served cells cx.info frag.lines (e.purposes fs cx.info used) := by
  cases e with
  | literal id span value =>
    rw [lowerExpr_literal h]
    exact .cons rfl .nil
  | ident id span name =>
    obtain ⟨v, a, hv, ha, hlines⟩ := lowerExpr_ident h
    rw [hlines]
    exact .cons ⟨a, v, Or.inl rfl, hv, hslots _ _ ha⟩ .nil
  | binary id span op lhs rhs =>
    obtain ⟨f, i, left, right, -, -, hl, hr, hlines⟩ := lowerExpr_binary h
    rw [hlines]
    exact List.rel_append
      (List.rel_append (lowerExpr_serves hslots hframes lhs hl) (lowerExpr_serves hslots hframes rhs hr))
      (serves_computeTwo i)
  | unary id span op operand =>
    obtain ⟨f, inner, -, hi, hlines⟩ := lowerExpr_unary h
    rw [hlines]
    exact List.rel_append (lowerExpr_serves hslots hframes operand hi) (serves_unaryCode op f)
  | update id span op targetId targetSpan target =>
    obtain ⟨v, a, f, hv, ha, -, hlines⟩ := lowerExpr_update h
    rw [hlines]
    exact serves_updateCode op f hv (hslots _ _ ha) used
  | assign id span op target targetSpan value =>
    cases op with
    | none =>
      obtain ⟨v, a, inner, hv, ha, hi, hlines⟩ := lowerExpr_assign h
      rw [hlines]
      refine List.rel_append (List.rel_append (lowerExpr_serves hslots hframes value hi) ?_) ?_
      · exact .cons ⟨a, v, Or.inl rfl, hv, hslots _ _ ha⟩ .nil
      · cases used with
        | false => exact .nil
        | true => exact .cons ⟨a, v, Or.inl rfl, hv, hslots _ _ ha⟩ .nil
    | some op =>
      obtain ⟨v, a, f, i, inner, hv, ha, -, -, hi, hlines⟩ := lowerExpr_compound h
      rw [hlines]
      have hvalue := lowerExpr_serves hslots hframes value hi
      refine List.rel_append (.cons ⟨a, v, Or.inl rfl, hv, hslots _ _ ha⟩ (List.rel_append hvalue ?_)) ?_
      · exact .cons rfl (.cons rfl (.cons rfl (.cons ⟨a, v, Or.inr rfl, hv, hslots _ _ ha⟩ .nil)))
      · cases used with
        | false => exact .nil
        | true => exact .cons ⟨a, v, Or.inl rfl, hv, hslots _ _ ha⟩ .nil
  | call id span callee calleeSpan args =>
    obtain ⟨frame, inner, hframe, hi, hlines⟩ := lowerExpr_call h
    rw [hlines, List.append_assoc, List.append_assoc, ← List.append_assoc (List.map _ _)]
    exact List.rel_append (lowerArgs_serves hslots hframes args hi) (serves_call hframes hframe used)
  | intrinsic id span callee calleeSpan args =>
    obtain ⟨inner, hi, hlines⟩ := lowerExpr_intrinsic h
    rw [hlines]
    exact List.rel_append (lowerArgs_serves hslots hframes args hi) (serves_intrinsicCode callee)
  | cast id span base operand =>
    obtain ⟨source, target, inner, hs, ht, hi, hlines⟩ := lowerExpr_cast h
    rw [hlines]
    refine List.rel_append (lowerExpr_serves hslots hframes operand hi) ?_
    rw [hs, ht, Option.bind_some, Option.bind_some]
    cases source.conversion target with
    | none => exact .nil
    | some i => exact serves_computeOne i

theorem lowerArgs_serves (hslots : slots.Sound cells) (hframes : Framing cx.frames fs cells) (es : List Expr)
    {frag : Fragment} (h : lowerArgs cx slots es = .ok frag) :
    Served cells cx.info frag.lines (Expr.purposesOf fs cx.info es) := by
  cases es with
  | nil =>
    rw [lowerArgs_nil h]
    exact .nil
  | cons e es =>
    obtain ⟨first, rest, hf, hr, hlines⟩ := lowerArgs_cons h
    rw [hlines]
    exact List.rel_append (lowerExpr_serves hslots hframes e hf) (lowerArgs_serves hslots hframes es hr)

end

theorem lowerEffect_serves (hslots : slots.Sound cells) (hframes : Framing cx.frames fs cells) {e : Expr}
    {frag : Fragment} (h : lowerEffect cx slots e = .ok frag) :
    Served cells cx.info frag.lines (e.effectPurposes fs cx.info) := by
  unfold Expr.effectPurposes
  cases hdrop : e.isDroppable with
  | true =>
    cases e with
    | assign | call | update => exact lowerExpr_serves hslots hframes _ h
    | literal | ident | binary | unary | intrinsic | cast => cases hdrop
  | false =>
    rw [lowerEffect_of_not_droppable cx slots hdrop, bind_eq_ok] at h
    obtain ⟨inner, hi, h⟩ := h
    rw [pure_eq_ok] at h
    subst h
    have hinner := lowerExpr_serves hslots hframes e hi
    cases cx.info.familyOf e.id with
    | none => simpa using hinner
    | some f => exact List.rel_append hinner (.cons rfl .nil)

theorem lowerCondition_serves (hslots : slots.Sound cells) (hframes : Framing cx.frames fs cells) {e : Expr}
    {frag : Fragment} (h : lowerCondition cx slots e = .ok frag) (op : JumpOp) (exit : String) :
    Served cells cx.info (frag.lines ++ [.instr (.jump op exit)]) (Expr.testPurposes fs cx.info (some e)) := by
  obtain ⟨inner, hi, hlines⟩ := lowerCondition_eq_ok h
  rw [hlines, List.append_assoc]
  exact List.rel_append (lowerExpr_serves hslots hframes e hi) (.cons rfl (.cons rfl .nil))

theorem testCode_serves (hslots : slots.Sound cells) (hframes : Framing cx.frames fs cells) {e : Option Expr}
    {exit : String} {lines : List Line} (h : TestCode cx slots exit lines e) :
    Served cells cx.info lines (Expr.testPurposes fs cx.info e) := by
  cases e with
  | none =>
    rw [show lines = [] from h]
    exact .nil
  | some e =>
    obtain ⟨test, ht, hlines⟩ := h
    rw [hlines]
    exact lowerCondition_serves hslots hframes ht .jz exit

end Expr

/-! ## Statements -/

section Stmt

variable {cx : Context} {all : List Cell} {fs : List FunctionDecl}

/-- storage that tracks the first cells of a program looks up their addresses -/
theorem Storage.Tracks.slots_sound {st : Storage} {cells : List Cell} (ht : st.Tracks cells) (hall : cells <+: all) :
    st.slots.Sound all := by
  obtain ⟨more, rfl⟩ := hall
  intro decl a ha
  exact Storage.Tracks.get_append (ht.sound decl a ha) more

theorem lowerLocal_serves (hframes : Framing cx.frames fs all) {d : VarDecl} {st st' : Storage} {frag : Fragment}
    {cells : List Cell} (h : (lowerLocal cx d).run st = .ok (frag, st')) (ht : st.Tracks cells)
    (hall : cells ++ [d.cell] <+: all) : Served all cx.info frag.lines (d.purposes fs cx.info) := by
  unfold VarDecl.purposes
  cases hd : d.init with
  | none =>
    obtain ⟨-, -, hlines⟩ := lowerLocal_declare hd h
    rw [hlines]
    exact .nil
  | some e =>
    obtain ⟨inner, hi, -, -, hlines⟩ := lowerLocal_value hd h
    have hcell : all[st.destinations.size]? = some d.cell := by
      obtain ⟨more, rfl⟩ := hall
      simp [ht.size]
    rw [hlines]
    refine List.rel_append (lowerExpr_serves (ht.slots_sound ((List.prefix_append _ _).trans hall)) hframes e hi) ?_
    exact .cons ⟨_, rfl, hcell⟩ .nil

theorem lowerForInit_serves (hframes : Framing cx.frames fs all) {init : ForInit} {loop : Option LoopLabels}
    {span : Span} {st st' : Storage} {frag : Fragment} {cells : List Cell}
    (h : (lowerStmt cx loop (init.stmt span)).run st = .ok (frag, st')) (ht : st.Tracks cells)
    (hall : cells ++ init.declared.map VarDecl.cell <+: all) :
    Served all cx.info frag.lines (init.purposes fs cx.info) := by
  cases init with
  | nothing =>
    rw [(lowerStmt_empty h).2]
    exact .nil
  | decl d =>
    simp only [ForInit.stmt, lowerStmt] at h
    exact lowerLocal_serves hframes h ht hall
  | expr span e =>
    exact lowerEffect_serves (ht.slots_sound ((List.prefix_append _ _).trans hall)) hframes (lowerStmt_expr h).1

theorem lowerStep_serves (hframes : Framing cx.frames fs all) {step : Option Expr} {loop : Option LoopLabels}
    {span : Span} {st st' : Storage} {frag : Fragment}
    (h : (lowerStmt cx loop (.ofStep span step)).run st = .ok (frag, st')) (hslots : st.slots.Sound all) :
    Served all cx.info frag.lines (step.elim [] (·.effectPurposes fs cx.info)) := by
  cases step with
  | none =>
    rw [(lowerStmt_empty h).2]
    exact .nil
  | some e => exact lowerEffect_serves hslots hframes (lowerStmt_expr h).1

mutual

/-- the code of a statement serves its purposes, one for one. Its own declarations get the cells next to those that
storage tracks. -/
theorem lowerStmt_serves (hframes : Framing cx.frames fs all) (s : Stmt) {loop : Option LoopLabels} {st st' : Storage}
    {frag : Fragment} {cells : List Cell} (h : (lowerStmt cx loop s).run st = .ok (frag, st')) (ht : st.Tracks cells)
    (hall : cells ++ s.locals.map VarDecl.cell <+: all) :
    Served all cx.info frag.lines (s.purposes fs cx.info cx.function) := by
  have hslots := ht.slots_sound ((List.prefix_append _ _).trans hall)
  cases s with
  | decl d =>
    simp only [lowerStmt] at h
    exact lowerLocal_serves hframes h ht hall
  | ifThen span cond yes =>
    obtain ⟨test, yesCode, htest, hy, hlines⟩ := lowerStmt_ifThen h
    rw [hlines]
    refine List.rel_append (List.rel_append (testCode_serves hslots hframes htest) ?_) (.cons rfl .nil)
    exact lowerStmt_serves hframes yes hy ht.numbered hall
  | ifElse span cond yes no =>
    obtain ⟨test, yesCode, st₁, noCode, htest, hy, hn, hlines⟩ := lowerStmt_ifElse h
    rw [Stmt.locals, List.map_append, ← List.append_assoc] at hall
    have hyes := lowerStmt_serves hframes yes hy ht.numbered ((List.prefix_append _ _).trans hall)
    have hno := lowerStmt_serves hframes no hn (lowerStmt_tracks yes hy ht.numbered) hall
    rw [hlines]
    refine List.rel_append (List.rel_append (List.rel_append ?_ ?_) (serves_cons rfl hno)) (.cons rfl .nil)
    · exact List.rel_append (testCode_serves hslots hframes htest) hyes
    · cases yes.diverges with
      | true => exact .nil
      | false => exact .cons rfl .nil
  | while_ span cond body =>
    obtain ⟨test, bodyCode, htest, hb, hlines⟩ := lowerStmt_while h
    rw [hlines]
    refine List.rel_append (List.rel_append (serves_cons rfl (testCode_serves hslots hframes htest)) ?_)
      (.cons rfl (.cons rfl .nil))
    exact lowerStmt_serves hframes body hb ht.numbered hall
  | doWhile span body cond =>
    obtain ⟨bodyCode, test, hb, htest, hlines⟩ := lowerStmt_doWhile h
    have hbody := lowerStmt_serves hframes body hb ht.numbered hall
    have hslots' := (lowerStmt_tracks body hb ht.numbered).slots_sound hall
    have hcond := lowerCondition_serves hslots' hframes htest .jnz (label "do_body" st.nextLabel)
    have hshape : frag.lines = (.label (label "do_body" st.nextLabel) :: bodyCode.lines) ++
        (.label (label "do_cond" st.nextLabel) ::
          (test.lines ++ [.instr (.jump .jnz (label "do_body" st.nextLabel))])) ++
          [.label (label "do_end" st.nextLabel)] := by simp [hlines]
    rw [hshape]
    exact List.rel_append (List.rel_append (serves_cons rfl hbody) (serves_cons rfl hcond)) (.cons rfl .nil)
  | for_ span init cond step body =>
    obtain ⟨initCode, st₁, test, bodyCode, stepCode, hi, htest, hb, hstep, hlines⟩ := lowerStmt_for h
    rw [Stmt.locals, List.map_append, ← List.append_assoc] at hall
    have hprefix := (List.prefix_append _ _).trans hall
    have ht₁ := lowerForInit_tracks hi ht.numbered
    have hbody := lowerStmt_serves hframes body hb ht₁ hall
    -- the step stands behind the body and is lowered after it, with the slots of the variables in the body
    have hstepCode := lowerStep_serves hframes hstep ((lowerStmt_tracks body hb ht₁).slots_sound hall)
    have htestCode := testCode_serves (ht₁.slots_sound hprefix) hframes htest
    rw [hlines]
    refine List.rel_append (List.rel_append (List.rel_append (List.rel_append ?_ (serves_cons rfl htestCode)) hbody)
      (serves_cons rfl hstepCode)) (.cons rfl (.cons rfl .nil))
    exact lowerForInit_serves hframes hi ht.numbered hprefix
  | break_ span =>
    obtain ⟨l, -, -, hlines⟩ := lowerStmt_break h
    rw [hlines]
    exact .cons rfl .nil
  | continue_ span =>
    obtain ⟨l, -, -, hlines⟩ := lowerStmt_continue h
    rw [hlines]
    exact .cons rfl .nil
  | return_ span value =>
    cases value with
    | none =>
      rw [(lowerStmt_return h).2]
      exact .cons rfl .nil
    | some e =>
      obtain ⟨frame, a, inner, hframe, hresult, hi, -, hlines⟩ := lowerStmt_returnValue h
      rw [hlines]
      exact List.rel_append (lowerExpr_serves hslots hframes e hi)
        (.cons ⟨a, rfl, hframes.result hframe hresult⟩ (.cons rfl .nil))
  | expr span e => exact lowerEffect_serves hslots hframes (lowerStmt_expr h).1
  | block span body =>
    simp only [lowerStmt] at h
    exact lowerStmts_serves hframes body h ht hall
  | empty span =>
    rw [(lowerStmt_empty h).2]
    exact .nil

theorem lowerStmts_serves (hframes : Framing cx.frames fs all) (ss : List Stmt) {loop : Option LoopLabels}
    {st st' : Storage} {frag : Fragment} {cells : List Cell} (h : (lowerStmts cx loop ss).run st = .ok (frag, st'))
    (ht : st.Tracks cells) (hall : cells ++ (Stmt.localsOf ss).map VarDecl.cell <+: all) :
    Served all cx.info frag.lines (Stmt.purposesOf fs cx.info cx.function ss) := by
  cases ss with
  | nil =>
    rw [(lowerStmts_nil h).2]
    exact .nil
  | cons s rest =>
    rw [Stmt.localsOf, List.map_append, ← List.append_assoc] at hall
    have hprefix := (List.prefix_append _ _).trans hall
    cases hs : s.diverges with
    | true =>
      obtain ⟨first, hf, hlines⟩ := lowerStmts_cons_diverges hs h
      rw [hlines, Stmt.purposesOf, hs, if_pos rfl, List.append_nil]
      exact lowerStmt_serves hframes s hf ht hprefix
    | false =>
      obtain ⟨first, st₁, more, hf, hm, hlines⟩ := lowerStmts_cons hs h
      rw [hlines, Stmt.purposesOf, hs]
      rw [hs] at hall
      exact List.rel_append (lowerStmt_serves hframes s hf ht hprefix)
        (lowerStmts_serves hframes rest hm (lowerStmt_tracks s hf ht) hall)

end

end Stmt

/-! ## Programs -/

section Program

variable {cx : Context} {all : List Cell} {fs : List FunctionDecl} {frag : Fragment} {st st' : Storage}

/-- the lines that let the host read the globals -/
theorem readLines_serves {info : TypeInfo} {ds : List VarDecl} {as : List Address}
    (h : Places all as (ds.map VarDecl.cell)) :
    Served all info ((ds.zip as).map fun x => .read x.2 x.1.name) (ds.map fun d => .expose d.id) := by
  induction ds generalizing as with
  | nil => exact .nil
  | cons d ds ih =>
    cases h with
    | cons ha hrest => exact .cons ⟨_, d.name, rfl, ha⟩ (ih hrest)

theorem lowerGlobals_serves (hframes : Framing cx.frames fs all) {ds : List VarDecl} {as : List Address}
    (hplaced : Places all as (ds.map VarDecl.cell)) (hslots : st.slots.Sound all)
    (h : (lowerGlobals cx (ds.zip as)).run st = .ok (frag, st')) :
    Served all cx.info frag.lines (ds.flatMap (·.globalPurposes fs cx.info)) := by
  induction ds generalizing as frag with
  | nil =>
    rw [(lowerGlobals_nil h).2]
    exact .nil
  | cons d ds ih =>
    cases hplaced with
    | @cons a _ as _ ha hrest =>
      rw [List.zip_cons_cons] at h
      rw [List.flatMap_cons, VarDecl.globalPurposes, VarDecl.purposes]
      cases hd : d.init with
      | none =>
        obtain ⟨more, hm, hlines⟩ := lowerGlobals_zero hd h
        rw [hlines]
        exact .cons ⟨a, _, rfl, ha⟩ (ih hrest hm)
      | some e =>
        obtain ⟨inner, more, hi, hm, hlines⟩ := lowerGlobals_value hd h
        have hshape : frag.lines = inner.lines ++ [.instr (popA a)] ++ more.lines := by simp [hlines]
        have hpop : Served all cx.info [.instr (popA a)] [.init d.id] := .cons ⟨a, rfl, ha⟩ .nil
        rw [hshape]
        exact List.rel_append (List.rel_append (lowerExpr_serves hslots hframes e hi) hpop) (ih hrest hm)

theorem lowerFunction_serves (hframes : Framing cx.frames fs all) {f : FunctionDecl} {cells : List Cell}
    (h : (lowerFunction cx f).run st = .ok (frag, st')) (ht : st.Tracks cells) (hall : cells ++ f.localCells <+: all) :
    Served all cx.info frag.lines (f.purposes fs cx.info) := by
  obtain ⟨body, hb, hlines⟩ := lowerFunction_eq_ok h
  have hbody : Served all cx.info body.lines (Stmt.purposesOf fs cx.info f.name f.body) :=
    lowerStmts_serves (by exact hframes) f.body hb ht hall
  rw [hlines]
  refine List.rel_append (serves_cons rfl hbody) ?_
  cases Stmt.anyDiverges f.body with
  | true => exact .nil
  | false => exact .cons rfl .nil

theorem lowerFunctions_serves (hframes : Framing cx.frames fs all) (gs : List FunctionDecl) {cells : List Cell}
    (h : (lowerFunctions cx gs).run st = .ok (frag, st')) (ht : st.Tracks cells)
    (hall : cells ++ gs.flatMap FunctionDecl.localCells <+: all) :
    Served all cx.info frag.lines (gs.flatMap (·.purposes fs cx.info)) := by
  induction gs generalizing st cells frag with
  | nil =>
    rw [(lowerFunctions_nil h).2]
    exact .nil
  | cons g gs ih =>
    obtain ⟨first, st₁, more, hf, hm, hlines⟩ := lowerFunctions_cons h
    obtain ⟨body, hb, -⟩ := lowerFunction_eq_ok hf
    rw [List.flatMap_cons, ← List.append_assoc] at hall
    rw [hlines, List.flatMap_cons]
    refine List.rel_append (lowerFunction_serves hframes hf ht ((List.prefix_append _ _).trans hall)) ?_
    exact ih hm (lowerStmts_tracks g.body hb ht) hall

end Program

end Codegen

namespace Program

variable {p : Program} {info : TypeInfo} {out : Generated}

/-- before the bodies are lowered, globals and frames have their addresses, whatever the names of the functions are -/
theorem Parts.framing (parts : p.Parts info out) :
    parts.framed.Tracks (p.globals.map VarDecl.cell ++ p.functions.flatMap FunctionDecl.frameCells) ∧
      Codegen.Framing parts.frames p.functions p.cells := by
  have hbound := (Codegen.bindGlobals_tracks p.globals parts.bindGlobals .empty).2
  obtain ⟨htrack, hframing⟩ := Codegen.bindFrames_framing p.functions parts.bindFrames hbound (.empty _)
  exact ⟨htrack, hframing.append _⟩

/-- **Every line has a purpose.** The lines of a generated program serve its purposes, one for one. -/
theorem generate_serves (h : p.generate info = .ok out) : Served p.cells info out.lines (p.purposes info) := by
  obtain ⟨parts⟩ := nonempty_parts h
  obtain ⟨hframed, hframes⟩ := parts.framing
  have hentered := hframed
  rw [← parts.entered_eq] at hentered
  have hslots : parts.framed.slots.Sound p.cells := hframed.slots_sound (List.prefix_append _ _)
  have hcall : Served p.cells info [.instr (.jump .call (Codegen.functionLabel "main")), .instr (.bare .halt)]
      [.call "main", .work] :=
    .cons rfl (.cons rfl .nil)
  rw [parts.lines]
  refine List.rel_append (List.rel_append (List.rel_append (Codegen.readLines_serves parts.globals_placed) ?_) hcall) ?_
  · exact Codegen.lowerGlobals_serves hframes parts.globals_placed hslots parts.lowerGlobals
  · exact Codegen.lowerFunctions_serves hframes p.functions parts.lowerFunctions hentered (List.prefix_refl _)

end Program

end C15

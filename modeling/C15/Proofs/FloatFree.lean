/-
Programs without floats.

Three kinds of tokens bring floats into a source: the type, a literal, and the built-in function that takes a float off
the stack. Where none of them stands, none is ever needed:
- `Grammar.Items.floatFree`: a tree derived from such tokens holds no float literal, type, cast or built-in function;
- `HasType.floatFree`, `Program.check_floatFree`: no expression of such a program has the type float, so none is
  recorded;
- `Codegen.lowerStmt_floatFree`: the generator chooses instructions by recorded types alone, so it chooses none on
  floats;
- `compile_floatFree`: from tokens to lines.
-/
import C15.Proofs.Assembling
import C15.Proofs.ReadingComplete
import C15.Proofs.TypeChecking

namespace C15

/-! ## Tokens and trees -/

/-- a token that brings floats into a program -/
def TokenKind.isFloat : TokenKind → Bool
  | .keyword .float | .literal (.float _) | .intrinsic .popFloat => true
  | _ => false

theorem TokenKind.isFloat_eq_false {kind : TokenKind} :
    kind.isFloat = false ↔ kind ≠ .keyword .float ∧ (∀ x, kind ≠ .literal (.float x)) ∧
      kind ≠ .intrinsic .popFloat := by
  unfold TokenKind.isFloat
  split <;> simp_all

mutual

/-- no float literal, no cast to floats, and no built-in function that gives one -/
def ExprTree.FloatFree : ExprTree → Prop
  | .literal value => value.base ≠ .float
  | .ident _ | .update .. => True
  | .binary _ lhs rhs => lhs.FloatFree ∧ rhs.FloatFree
  | .unary _ e | .assign _ _ e => e.FloatFree
  | .call _ args => ExprTree.AllFloatFree args
  | .intrinsic callee args => callee ≠ .popFloat ∧ ExprTree.AllFloatFree args
  | .cast base e => base ≠ .float ∧ e.FloatFree

def ExprTree.AllFloatFree : List ExprTree → Prop
  | [] => True
  | e :: es => e.FloatFree ∧ ExprTree.AllFloatFree es

end

/-- the declared type is not float either -/
def DeclTree.FloatFree (d : DeclTree) : Prop := d.ty.base ≠ .float ∧ ∀ e ∈ d.init, e.FloatFree

def ForTree.FloatFree : ForTree → Prop
  | .nothing => True
  | .decl d => d.FloatFree
  | .expr e => e.FloatFree

mutual

def StmtTree.FloatFree : StmtTree → Prop
  | .decl d => d.FloatFree
  | .ifThen cond yes => cond.FloatFree ∧ yes.FloatFree
  | .ifElse cond yes no => cond.FloatFree ∧ yes.FloatFree ∧ no.FloatFree
  | .for_ init cond step body =>
    init.FloatFree ∧ (∀ e ∈ cond, e.FloatFree) ∧ (∀ e ∈ step, e.FloatFree) ∧ body.FloatFree
  | .while_ cond body | .doWhile body cond => cond.FloatFree ∧ body.FloatFree
  | .return_ value => ∀ e ∈ value, e.FloatFree
  | .expr e => e.FloatFree
  | .block body => StmtTree.AllFloatFree body
  | .break_ | .continue_ | .empty => True

def StmtTree.AllFloatFree : List StmtTree → Prop
  | [] => True
  | s :: ss => s.FloatFree ∧ StmtTree.AllFloatFree ss

end

structure FunctionTree.FloatFree (f : FunctionTree) : Prop where
  result : f.result.base ≠ .float
  params : ∀ p ∈ f.params, p.ty.base ≠ .float
  body : StmtTree.AllFloatFree f.body

def ItemTree.FloatFree : ItemTree → Prop
  | .function f => f.FloatFree
  | .global d => d.FloatFree

/-- a minus in front of a literal does not change its type -/
theorem ExprTree.FloatFree.negate {t : ExprTree} (h : t.FloatFree) : t.negate.FloatFree := by
  cases t with
  | literal value =>
    cases value with
    | int | uint | float => exact h
  | _ => exact h

theorem Base.ne_float_of_keyword {b : Base} (h : (TokenKind.keyword b.keyword).isFloat = false) : b ≠ .float := by
  rintro rfl
  cases h

namespace Grammar

/-- a word without tokens that bring floats -/
def NoFloats (w : Kinds) : Prop := ∀ kind ∈ w, kind.isFloat = false

theorem noFloats_cons {kind : TokenKind} {w : Kinds} : NoFloats (kind :: w) ↔ kind.isFloat = false ∧ NoFloats w :=
  List.forall_mem_cons

theorem noFloats_append {w v : Kinds} : NoFloats (w ++ v) ↔ NoFloats w ∧ NoFloats v := List.forall_mem_append

/-! ## Derivations -/

/-- a literal or a built-in function that no token brings is not of floats -/
theorem ne_float_of_literal {value : Literal} (h : (TokenKind.literal value).isFloat = false) :
    value.base ≠ .float := by
  cases value with
  | int | uint => exact nofun
  | float => cases h

theorem ne_popFloat {i : Intrinsic} (h : (TokenKind.intrinsic i).isFloat = false) : i ≠ .popFloat := by
  rintro rfl
  cases h

mutual

theorem Expression.floatFree {w : Kinds} {t : ExprTree} : Expression w t → NoFloats w → t.FloatFree
  | .plain h => h.floatFree
  | .assign _ _ value => by
    simp only [noFloats_append, noFloats_cons]
    exact fun ⟨_, _, hv⟩ => value.floatFree hv

theorem Binary.floatFree {k : Nat} {w : Kinds} {t : ExprTree} : Binary k w t → NoFloats w → t.FloatFree
  | .operand h => h.floatFree
  | .tighter h => h.floatFree
  | .join _ lhs rhs => by
    simp only [noFloats_append, noFloats_cons]
    exact fun ⟨hw, _, hv⟩ => ⟨lhs.floatFree hw, rhs.floatFree hv⟩

theorem Unary.floatFree {w : Kinds} {t : ExprTree} : Unary w t → NoFloats w → t.FloatFree
  | .plain h => h.floatFree
  | .plus h => fun hw => h.floatFree (noFloats_cons.1 hw).2
  | .minus h => fun hw => (h.floatFree (noFloats_cons.1 hw).2).negate
  | .not h => fun hw => h.floatFree (noFloats_cons.1 hw).2
  | .tilde h => fun hw => h.floatFree (noFloats_cons.1 hw).2
  | .plusPlus _ => fun _ => trivial
  | .minusMinus _ => fun _ => trivial
  | .cast _ h => by
    simp only [noFloats_cons]
    exact fun ⟨_, hb, _, hw⟩ => ⟨Base.ne_float_of_keyword hb, h.floatFree hw⟩

theorem Postfix.floatFree {w : Kinds} {t : ExprTree} : Postfix w t → NoFloats w → t.FloatFree
  | .plain h => h.floatFree
  | .plusPlus _ => fun _ => trivial
  | .minusMinus _ => fun _ => trivial

theorem Primary.floatFree {w : Kinds} {t : ExprTree} : Primary w t → NoFloats w → t.FloatFree
  | .literal _ => fun hw => ne_float_of_literal (noFloats_cons.1 hw).1
  | .ident _ => fun _ => trivial
  | .call _ h => by
    simp only [List.cons_append, noFloats_append, noFloats_cons]
    exact fun ⟨_, _, hw, _⟩ => h.floatFree hw
  | .intrinsic _ h => by
    simp only [List.cons_append, noFloats_append, noFloats_cons]
    exact fun ⟨hi, _, hw, _⟩ => ⟨ne_popFloat hi, h.floatFree hw⟩
  | .parens h => by
    simp only [List.cons_append, noFloats_append, noFloats_cons]
    exact fun ⟨_, hw, _⟩ => h.floatFree hw

theorem Arguments.floatFree {w : Kinds} {ts : List ExprTree} : Arguments w ts → NoFloats w → ExprTree.AllFloatFree ts
  | .none => fun _ => trivial
  | .last h => fun hw => ⟨h.floatFree hw, trivial⟩
  | .more h rest => by
    simp only [noFloats_append, noFloats_cons]
    exact fun ⟨hw, _, hv⟩ => ⟨h.floatFree hw, rest.floatFree hv⟩

end

theorem Optional.floatFree {w : Kinds} {t : Option ExprTree} (h : Optional w t) (hw : NoFloats w) :
    ∀ e ∈ t, e.FloatFree := by
  cases h with
  | none => nofun
  | some h =>
    intro e he
    obtain rfl := Option.some.inj he
    exact h.floatFree hw

theorem TypeName.ne_float {w : Kinds} {ty : Ty} (h : TypeName w ty) (hw : NoFloats w) : ty.base ≠ .float := by
  cases h with
  | plain b => exact Base.ne_float_of_keyword (noFloats_cons.1 hw).1
  | const =>
    simp only [noFloats_cons] at hw
    exact Base.ne_float_of_keyword hw.2.1

theorem Declaration.floatFree {w : Kinds} {d : DeclTree} (h : Declaration w d) (hw : NoFloats w) : d.FloatFree := by
  cases h with
  | named name hty hinit =>
    simp only [noFloats_append, noFloats_cons] at hw
    refine ⟨hty.ne_float hw.1.1, ?_⟩
    cases hinit with
    | none => nofun
    | some h =>
      intro e he
      obtain rfl := Option.some.inj he
      exact h.floatFree (noFloats_cons.1 hw.1.2.2).2

theorem Condition.floatFree {w : Kinds} {t : ExprTree} (h : Condition w t) (hw : NoFloats w) : t.FloatFree := by
  cases h with
  | parens h =>
    simp only [noFloats_append, noFloats_cons] at hw
    exact h.floatFree hw.1.2

theorem ForStart.floatFree {w : Kinds} {t : ForTree} (h : ForStart w t) (hw : NoFloats w) : t.FloatFree := by
  cases h with
  | nothing => trivial
  | decl h => exact h.floatFree hw
  | expr h => exact h.floatFree (noFloats_append.1 hw).1

mutual

theorem Statement.floatFree {isOpen : Bool} {w : Kinds} {t : StmtTree} : Statement isOpen w t → NoFloats w → t.FloatFree
  | .block h => by
    simp only [List.cons_append, noFloats_append, noFloats_cons]
    exact fun ⟨_, hw, _⟩ => h.floatFree hw
  | .empty => fun _ => trivial
  | .decl h => h.floatFree
  | .ifThen hcond yes => by
    simp only [List.cons_append, noFloats_append, noFloats_cons]
    exact fun ⟨_, hc, hw⟩ => ⟨hcond.floatFree hc, yes.floatFree hw⟩
  | .ifElse hcond yes no => by
    simp only [List.cons_append, List.append_assoc, noFloats_append, noFloats_cons]
    exact fun ⟨_, hc, hw, _, hv⟩ => ⟨hcond.floatFree hc, yes.floatFree hw, no.floatFree hv⟩
  | .while_ hcond body => by
    simp only [List.cons_append, noFloats_append, noFloats_cons]
    exact fun ⟨_, hc, hw⟩ => ⟨hcond.floatFree hc, body.floatFree hw⟩
  | .doWhile body hcond => by
    simp only [List.cons_append, List.append_assoc, noFloats_append, noFloats_cons]
    exact fun ⟨_, hw, _, hc, _⟩ => ⟨hcond.floatFree hc, body.floatFree hw⟩
  | .for_ hinit hcond hstep body => by
    simp only [List.cons_append, List.append_assoc, noFloats_append, noFloats_cons]
    exact fun ⟨_, _, hi, hc, _, hp, _, hw⟩ =>
      ⟨hinit.floatFree hi, hcond.floatFree hc, hstep.floatFree hp, body.floatFree hw⟩
  | .break_ => fun _ => trivial
  | .continue_ => fun _ => trivial
  | .return_ h => by
    simp only [List.cons_append, noFloats_append, noFloats_cons]
    exact fun ⟨_, hw, _⟩ => h.floatFree hw
  | .expr h => fun hw => h.floatFree (noFloats_append.1 hw).1

theorem Statements.floatFree {w : Kinds} {ts : List StmtTree} : Statements w ts → NoFloats w → StmtTree.AllFloatFree ts
  | .nil => fun _ => trivial
  | .cons h rest => by
    rw [noFloats_append]
    exact fun ⟨hw, hv⟩ => ⟨h.floatFree hw, rest.floatFree hv⟩

end

theorem Parameter.ne_float {w : Kinds} {p : ParamTree} (h : Parameter w p) (hw : NoFloats w) : p.ty.base ≠ .float := by
  cases h with
  | named name hty => exact hty.ne_float (noFloats_append.1 hw).1

theorem Parameters.ne_float {w : Kinds} {ps : List ParamTree} (h : Parameters w ps) (hw : NoFloats w) :
    ∀ p ∈ ps, p.ty.base ≠ .float := by
  induction h with
  | none => nofun
  | last h =>
    intro p hp
    rw [List.mem_singleton.1 hp]
    exact h.ne_float hw
  | more h _ ih =>
    rw [noFloats_append, noFloats_cons] at hw
    exact List.forall_mem_cons.2 ⟨h.ne_float hw.1, ih hw.2.2⟩

theorem Item.floatFree {w : Kinds} {t : ItemTree} (h : Grammar.Item w t) (hw : NoFloats w) : t.FloatFree := by
  cases h with
  | function b name hparams hbody =>
    simp only [noFloats_append, noFloats_cons] at hw
    obtain ⟨⟨⟨hb, -, -, hp⟩, -, -, hs⟩, -⟩ := hw
    refine ⟨Base.ne_float_of_keyword hb, ?_, hbody.floatFree hs⟩
    cases hparams with
    | listed h => exact h.ne_float hp
    | void => exact List.forall_mem_nil _
  | global h => exact h.floatFree hw

/-- a program without tokens that bring floats has no floats in it -/
theorem Items.floatFree {w : Kinds} {ts : List ItemTree} (h : Items w ts) (hw : NoFloats w) :
    ∀ t ∈ ts, t.FloatFree := by
  induction h with
  | nil => exact List.forall_mem_nil _
  | cons h _ ih =>
    rw [noFloats_append] at hw
    exact List.forall_mem_cons.2 ⟨h.floatFree hw.1, ih hw.2⟩

end Grammar

/-! ## Types -/

/-- no declaration in force is of a float -/
def Scope.FloatFree (Γ : Scope) : Prop := ∀ v ∈ Γ.visible, v.ty.base ≠ .float

namespace Scope.FloatFree

variable {Γ : Scope}

theorem empty : Scope.empty.FloatFree := fun _ h => nomatch h

theorem enter (h : Γ.FloatFree) : Γ.enter.FloatFree := h

theorem means (h : Γ.FloatFree) {name : String} {v : Variable} (hv : Γ.Means name v) : v.ty.base ≠ .float := by
  rw [Scope.Means, Scope.latest_iff] at hv
  exact h v (List.mem_of_find?_eq_some hv)

theorem add (h : Γ.FloatFree) {v : Variable} (hv : v.ty.base ≠ .float) : (Γ.add v).FloatFree :=
  List.forall_mem_cons.2 ⟨hv, h⟩

theorem addAll (h : Γ.FloatFree) {vs : List Variable} (hvs : ∀ v ∈ vs, v.ty.base ≠ .float) :
    (Γ.addAll vs).FloatFree := by
  induction vs generalizing Γ with
  | nil => exact h
  | cons v vs ih =>
    obtain ⟨hv, hvs⟩ := List.forall_mem_cons.1 hvs
    exact ih (h.add hv) hvs

theorem declare (h : Γ.FloatFree) {ds : List VarDecl} (hds : ∀ d ∈ ds, d.ty.base ≠ .float) :
    (Γ.declare ds).FloatFree := by
  refine h.addAll ?_
  intro v hv
  obtain ⟨d, hd, rfl⟩ := List.mem_map.1 hv
  exact hds d hd

end Scope.FloatFree

/-- **Without floats in it and around it an expression is no float.** -/
theorem HasType.floatFree {fs : List FunctionDecl} {Γ : Scope} {e : Expr} {b : Base}
    (hfs : ∀ f ∈ fs, f.result.base ≠ .float) (hΓ : Γ.FloatFree) : HasType fs Γ e b → e.tree.FloatFree → b ≠ .float
  | .literal _ => fun he => he
  | .ident hv => fun _ => hΓ.means hv
  | .arithmetic _ hl _ _ _ => fun he => hl.floatFree hfs hΓ he.1
  | .test .. => nofun
  | .neg h _ => fun he => h.floatFree hfs hΓ he
  | .not .. => nofun
  | .bitNot _ _ hinteger => fun _ => hinteger
  | .update hv _ => fun _ => hΓ.means hv
  | .assign hv _ _ _ => fun _ => hΓ.means hv
  | .compound hv _ _ _ _ => fun _ => hΓ.means hv
  | .call hf _ => fun _ => hfs _ hf
  | @HasType.intrinsic _ _ _ _ callee _ _ _ _ => by
    intro he
    have hcallee : callee ≠ .popFloat := he.1
    cases callee with
    | popFloat => exact absurd rfl hcallee
    | _ => exact nofun
  | .cast _ _ => fun he => he.1

mutual

theorem Expr.nodes_floatFree (e : Expr) (h : e.tree.FloatFree) : ∀ n ∈ e.nodes, n.tree.FloatFree := by
  cases e with
  | literal | ident => exact List.forall_mem_singleton.2 h
  | update => exact List.forall_mem_cons.2 ⟨trivial, List.forall_mem_singleton.2 trivial⟩
  | binary id span op lhs rhs =>
    have hoperands := List.forall_mem_append.2 ⟨Expr.nodes_floatFree lhs h.1, Expr.nodes_floatFree rhs h.2⟩
    exact List.forall_mem_append.2 ⟨hoperands, List.forall_mem_singleton.2 h⟩
  | unary id span op e => exact List.forall_mem_append.2 ⟨Expr.nodes_floatFree e h, List.forall_mem_singleton.2 h⟩
  | assign id span op target targetSpan e =>
    exact List.forall_mem_append.2 ⟨Expr.nodes_floatFree e h, List.forall_mem_singleton.2 h⟩
  | cast id span base e => exact List.forall_mem_append.2 ⟨Expr.nodes_floatFree e h.2, List.forall_mem_singleton.2 h⟩
  | call id span callee calleeSpan args =>
    exact List.forall_mem_append.2 ⟨Expr.nodesOf_floatFree args h, List.forall_mem_singleton.2 h⟩
  | intrinsic id span callee calleeSpan args =>
    exact List.forall_mem_append.2 ⟨Expr.nodesOf_floatFree args h.2, List.forall_mem_singleton.2 h⟩

theorem Expr.nodesOf_floatFree (es : List Expr) (h : ExprTree.AllFloatFree (Expr.trees es)) :
    ∀ n ∈ Expr.nodesOf es, n.tree.FloatFree := by
  cases es with
  | nil => exact List.forall_mem_nil _
  | cons e es => exact List.forall_mem_append.2 ⟨Expr.nodes_floatFree e h.1, Expr.nodesOf_floatFree es h.2⟩

end

/-! ## Places -/

/-- an expression without floats where no float is in force -/
def FloatFreeAt (x : Scope × Expr) : Prop := x.1.FloatFree ∧ x.2.tree.FloatFree

theorem Scope.FloatFree.place {Γ : Scope} (h : Γ.FloatFree) {e : Option Expr}
    (he : ∀ t ∈ e.map Expr.tree, t.FloatFree) : ∀ x ∈ Γ.place e, FloatFreeAt x := by
  cases e with
  | none => nofun
  | some e => exact List.forall_mem_singleton.2 ⟨h, he _ rfl⟩

theorem Stmt.declared_floatFree (s : Stmt) (h : s.tree.FloatFree) : ∀ d ∈ s.declared, d.ty.base ≠ .float := by
  cases s with
  | decl d => exact List.forall_mem_singleton.2 h.1
  | while_ span cond body => exact Stmt.declared_floatFree body h.2
  | doWhile span body cond => exact Stmt.declared_floatFree body h.2
  | _ => exact List.forall_mem_nil _

theorem ForInit.declared_floatFree {init : ForInit} (h : init.tree.FloatFree) :
    ∀ d ∈ init.declared, d.ty.base ≠ .float := by
  cases init with
  | decl d => exact List.forall_mem_singleton.2 h.1
  | _ => exact List.forall_mem_nil _

theorem ForInit.exprs_floatFree {Γ : Scope} (hΓ : Γ.FloatFree) {init : ForInit} (h : init.tree.FloatFree) :
    ∀ x ∈ init.exprs Γ, FloatFreeAt x := by
  cases init with
  | nothing => exact List.forall_mem_nil _
  | decl d => exact hΓ.place h.2
  | expr span e => exact List.forall_mem_singleton.2 ⟨hΓ, h⟩

mutual

theorem Stmt.exprs_floatFree (s : Stmt) {Γ : Scope} (hΓ : Γ.FloatFree) (h : s.tree.FloatFree) :
    ∀ x ∈ s.exprs Γ, FloatFreeAt x := by
  cases s with
  | decl d => exact hΓ.place h.2
  | ifThen span cond yes => exact List.forall_mem_cons.2 ⟨⟨hΓ, h.1⟩, Stmt.exprs_floatFree yes hΓ.enter h.2⟩
  | ifElse span cond yes no =>
    obtain ⟨hcond, hyes, hno⟩ := h
    refine List.forall_mem_cons.2 ⟨⟨hΓ, hcond⟩, List.forall_mem_append.2 ⟨?_, ?_⟩⟩
    · exact Stmt.exprs_floatFree yes hΓ.enter hyes
    · exact Stmt.exprs_floatFree no hΓ.enter hno
  | while_ span cond body => exact List.forall_mem_cons.2 ⟨⟨hΓ, h.1⟩, Stmt.exprs_floatFree body hΓ h.2⟩
  | doWhile span body cond =>
    refine List.forall_mem_append.2 ⟨Stmt.exprs_floatFree body hΓ h.2, ?_⟩
    exact List.forall_mem_singleton.2 ⟨hΓ.declare (Stmt.declared_floatFree body h.2), h.1⟩
  | for_ span init cond step body =>
    obtain ⟨hinit, hcond, hstep, hbody⟩ := h
    have hinner := hΓ.enter.declare (ForInit.declared_floatFree hinit)
    have hheader := List.forall_mem_append.2 ⟨ForInit.exprs_floatFree hΓ.enter hinit, hinner.place hcond⟩
    have hsteps := List.forall_mem_append.2 ⟨hheader, hinner.place hstep⟩
    exact List.forall_mem_append.2 ⟨hsteps, Stmt.exprs_floatFree body hinner hbody⟩
  | return_ span value => exact hΓ.place h
  | expr span e => exact List.forall_mem_singleton.2 ⟨hΓ, h⟩
  | block span body => exact Stmt.exprsOf_floatFree body hΓ.enter h
  | break_ | continue_ | empty => exact List.forall_mem_nil _

theorem Stmt.exprsOf_floatFree (ss : List Stmt) {Γ : Scope} (hΓ : Γ.FloatFree)
    (h : StmtTree.AllFloatFree (Stmt.trees ss)) : ∀ x ∈ Stmt.exprsOf Γ ss, FloatFreeAt x := by
  cases ss with
  | nil => exact List.forall_mem_nil _
  | cons s rest =>
    have hafter := hΓ.declare (Stmt.declared_floatFree s h.1)
    exact List.forall_mem_append.2 ⟨Stmt.exprs_floatFree s hΓ h.1, Stmt.exprsOf_floatFree rest hafter h.2⟩

end

theorem Item.exprsOf_floatFree {items : List Item} {Γ : Scope} (hΓ : Γ.FloatFree)
    (h : ∀ item ∈ items, item.tree.FloatFree) : ∀ x ∈ Item.exprsOf Γ items, FloatFreeAt x := by
  induction items generalizing Γ with
  | nil => exact List.forall_mem_nil _
  | cons item rest ih =>
    obtain ⟨hitem, hrest⟩ := List.forall_mem_cons.1 h
    cases item with
    | global d => exact List.forall_mem_append.2 ⟨hΓ.place hitem.2, ih (hΓ.add hitem.1) hrest⟩
    | function f =>
      have hinside : (Γ.inside f).FloatFree := by
        refine hΓ.enter.addAll ?_
        intro v hv
        obtain ⟨q, hq, rfl⟩ := List.mem_map.1 hv
        exact hitem.params q.tree (List.mem_map_of_mem hq)
      exact List.forall_mem_append.2 ⟨Stmt.exprsOf_floatFree f.body hinside hitem.body, ih hΓ hrest⟩

/-- no expression has a float recorded for it -/
def TypeInfo.FloatFree (info : TypeInfo) : Prop := ∀ id f, info.familyOf id = some f → f ≠ .float

namespace Program

variable {p : Program}

/-- the checker records no type of floats -/
theorem check_floatFree {info : TypeInfo} (h : ∀ item ∈ p.items, item.tree.FloatFree) (hcheck : p.check = .ok info) :
    info.FloatFree := by
  intro id f hf
  -- a recorded type is the type of some node of an expression of the program
  obtain ⟨b, hb, hfamily⟩ := Option.bind_eq_some_iff.1 hf
  obtain ⟨n, hn, -, htype⟩ := (exists_mem_of_forall₂ (check_sound hcheck).2.types).1 _ (mem_of_lookup hb)
  obtain ⟨x, hx, hnode⟩ := List.mem_flatMap.1 hn
  obtain ⟨e, he, rfl⟩ := List.mem_map.1 hnode
  obtain ⟨hΓ, hfree⟩ := Item.exprsOf_floatFree .empty h x hx
  have hresults : ∀ f ∈ p.functions, f.result.base ≠ .float := fun f hf => (h _ (mem_functions.1 hf)).result
  have hbase : b ≠ .float := htype.floatFree hresults hΓ (Expr.nodes_floatFree x.2 hfree e he)
  rintro rfl
  exact hbase (Base.family_eq_some.1 hfamily)

end Program

/-! ## Instructions -/

/-- an instruction on floats, by its name -/
def Mnemonic.IsFloat (m : Mnemonic) : Prop := m.text.toList.head? = some 'F' ∨ m.text = "INTTOFL"

instance (m : Mnemonic) : Decidable m.IsFloat :=
  inferInstanceAs (Decidable (m.text.toList.head? = some 'F' ∨ m.text = "INTTOFL"))

/-- an instruction that neither works on floats nor carries one -/
def Instruction.FloatFree : Instruction → Prop
  | .bare op => ¬ (Mnemonic.bare op).IsFloat
  | .store value _ | .storePush value => value.base ≠ .float
  | .address .. | .jump .. | .move .. | .slot .. | .pair .. => True

/-- instructions on floats take their operands from the registers -/
theorem Mnemonic.IsFloat.eq_bare {m : Mnemonic} (h : m.IsFloat) : ∃ op, m = .bare op := by
  cases m with
  | bare op => exact ⟨op, rfl⟩
  | address op => cases op <;> exact absurd h (by decide)
  | jump op => cases op <;> exact absurd h (by decide)
  | slot op => cases op <;> exact absurd h (by decide)
  | pair op => cases op <;> exact absurd h (by decide)
  | move | store | storePush => exact absurd h (by decide)

theorem Instruction.FloatFree.mnemonic {i : Instruction} (h : i.FloatFree) : ¬ i.mnemonic.IsFloat := by
  intro hfloat
  obtain ⟨op, hop⟩ := hfloat.eq_bare
  cases i with
  | bare => exact h hfloat
  | _ => cases hop

def Line.FloatFree : Line → Prop
  | .instr i => i.FloatFree
  | .data value => value.base ≠ .float
  | .label _ | .read .. | .comment _ => True

theorem select_floatFree {op : BinOp} {f : Family} {i : BareOp} (h : op.select f = some i) (hf : f ≠ .float) :
    ¬ (Mnemonic.bare i).IsFloat := by
  cases f with
  | float => exact absurd rfl hf
  | signed | unsigned => cases op <;> cases h <;> decide

theorem negation_floatFree {f : Family} (hf : f ≠ .float) : ¬ (Mnemonic.bare f.negation).IsFloat := by
  cases f with
  | float => exact absurd rfl hf
  | signed | unsigned => decide

theorem update_floatFree (op : UpdateOp) {f : Family} (hf : f ≠ .float) : ¬ (Mnemonic.bare (op.select f)).IsFloat := by
  cases f with
  | float => exact absurd rfl hf
  | signed | unsigned => cases op <;> decide

theorem conversion_eq_none {source target : Family} (hs : source ≠ .float) (ht : target ≠ .float) :
    source.conversion target = none := by
  cases source <;> cases target <;> first | rfl | exact absurd rfl ‹_›

theorem zero_floatFree {ty : Ty} (h : ty.base ≠ .float) : (Literal.zero ty.family).base ≠ .float := by
  obtain ⟨isConst, base⟩ := ty
  cases base with
  | float => exact absurd rfl h
  | int | uint | void => exact nofun

namespace Codegen

/-- lines without floats -/
def FloatFree (lines : List Line) : Prop := ∀ l ∈ lines, l.FloatFree

namespace FloatFree

theorem nil : FloatFree [] := fun _ h => nomatch h

theorem append {xs ys : List Line} (hx : FloatFree xs) (hy : FloatFree ys) : FloatFree (xs ++ ys) :=
  List.forall_mem_append.2 ⟨hx, hy⟩

theorem cons {l : Line} {ls : List Line} (hl : l.FloatFree) (hls : FloatFree ls) : FloatFree (l :: ls) :=
  List.forall_mem_cons.2 ⟨hl, hls⟩

/-- one instruction without operands -/
theorem bare {op : BareOp} (h : ¬ (Mnemonic.bare op).IsFloat) : FloatFree [.instr (.bare op)] := cons h nil

theorem address (op : AddressOp) (a : Address) : FloatFree [.instr (.address op a)] := cons trivial nil

theorem jump (op : JumpOp) (label : String) : FloatFree [.instr (.jump op label)] := cons trivial nil

theorem label (name : String) : FloatFree [.label name] := cons trivial nil

theorem addresses (op : AddressOp) (as : List Address) : FloatFree ((as.map (Instruction.address op)).map .instr) := by
  intro l hl
  simp only [List.mem_map] at hl
  obtain ⟨_, ⟨a, -, rfl⟩, rfl⟩ := hl
  trivial

theorem computeOne {op : BareOp} (h : ¬ (Mnemonic.bare op).IsFloat) : FloatFree ((computeOne op).map .instr) :=
  (bare (by decide)).append ((bare h).append (bare (by decide)))

theorem computeTwo {op : BareOp} (h : ¬ (Mnemonic.bare op).IsFloat) : FloatFree ((computeTwo op).map .instr) :=
  (bare (by decide)).append (computeOne h)

/-- the value of a variable, if it is used -/
theorem result (used : Bool) (a : Address) : FloatFree (if used then [.instr (pushA a)] else []) := by
  cases used with
  | false => exact nil
  | true => exact address .push a

end FloatFree

theorem intrinsicCode_floatFree (i : Intrinsic) : FloatFree ((intrinsicCode i).map .instr) := by
  cases i with
  | setLed | tick | urand => exact (FloatFree.bare (by decide)).append (.bare (by decide))
  | loadA | loadB | push | popInt | popUInt | popFloat => exact .bare (by decide)

theorem unaryCode_floatFree (op : UnOp) {f : Family} (hf : f ≠ .float) : FloatFree ((unaryCode op f).map .instr) := by
  cases op with
  | not => exact .computeOne (by decide)
  | neg => exact .computeOne (negation_floatFree hf)
  | bitNot =>
    have hones : (if f = .unsigned then Literal.uint 0xFFFFFFFF else .int 0xFFFFFFFF).base ≠ .float := by
      split <;> exact nofun
    simp only [unaryCode, List.map_cons]
    exact .cons hones (.computeTwo (by decide))

theorem updateCode_floatFree (op : UpdateOp) {f : Family} (hf : f ≠ .float) (a : Address) (used : Bool) :
    FloatFree ((updateCode op f a used).map .instr) := by
  have hstep : FloatFree [.instr (loadA a), .instr (.bare (op.select f)), .instr (saveA a)] :=
    .cons trivial (.cons (update_floatFree op hf) (.cons trivial .nil))
  simp only [updateCode, List.map_append, apply_ite (List.map Line.instr), List.map_cons, List.map_nil]
  exact ((FloatFree.result (used && op.isPost) a).append hstep).append (.result (used && !op.isPost) a)

section Lowering

variable {cx : Context} {loop : Option LoopLabels} {st st' : Storage} {frag : Fragment}

/-! ## Expressions -/

mutual

/-- instructions are chosen by recorded types -/
theorem lowerExpr_floatFree (hinfo : cx.info.FloatFree) {slots : Slots} (e : Expr) (he : e.tree.FloatFree) {used : Bool}
    {frag : Fragment} (h : lowerExpr cx slots used e = .ok frag) : FloatFree frag.lines := by
  cases e with
  | literal id span value =>
    rw [lowerExpr_literal h]
    exact .cons he .nil
  | ident id span name =>
    obtain ⟨v, a, -, -, hlines⟩ := lowerExpr_ident h
    rw [hlines]
    exact .address .push a
  | binary id span op lhs rhs =>
    obtain ⟨f, i, left, right, hf, hi, hl, hr, hlines⟩ := lowerExpr_binary h
    have hop := select_floatFree hi (hinfo _ f hf)
    rw [hlines]
    exact ((lowerExpr_floatFree hinfo lhs he.1 hl).append (lowerExpr_floatFree hinfo rhs he.2 hr)).append
      (.computeTwo hop)
  | unary id span op operand =>
    obtain ⟨f, inner, hf, hi, hlines⟩ := lowerExpr_unary h
    rw [hlines]
    exact (lowerExpr_floatFree hinfo operand he hi).append (unaryCode_floatFree op (hinfo _ f hf))
  | update id span op targetId targetSpan target =>
    obtain ⟨v, a, f, -, -, hf, hlines⟩ := lowerExpr_update h
    rw [hlines]
    exact updateCode_floatFree op (hinfo _ f hf) a used
  | assign id span op target targetSpan value =>
    cases op with
    | none =>
      obtain ⟨v, a, inner, -, -, hi, hlines⟩ := lowerExpr_assign h
      rw [hlines]
      exact ((lowerExpr_floatFree hinfo value he hi).append (.address .pop a)).append (.result used a)
    | some op =>
      obtain ⟨v, a, f, i, inner, -, -, hf, hsel, hi, hlines⟩ := lowerExpr_compound h
      have hop : FloatFree [.instr (.bare .getpopb), .instr (.bare .getpopa), .instr (.bare i), .instr (saveA a)] :=
        (FloatFree.bare (by decide)).append ((FloatFree.bare (by decide)).append
          (.cons (select_floatFree hsel (hinfo _ f hf)) (.cons trivial .nil)))
      rw [hlines]
      exact (((FloatFree.address .push a).append (lowerExpr_floatFree hinfo value he hi)).append hop).append
        (.result used a)
  | call id span callee calleeSpan args =>
    obtain ⟨frame, inner, -, hi, hlines⟩ := lowerExpr_call h
    have hresult : FloatFree ((if used then frame.result.toList.map pushA else []).map .instr) := by
      cases used with
      | false => exact .nil
      | true => exact .addresses .push _
    rw [hlines]
    exact (((lowerArgs_floatFree hinfo args he hi).append (.addresses .pop _)).append (.jump .call _)).append hresult
  | intrinsic id span callee calleeSpan args =>
    obtain ⟨inner, hi, hlines⟩ := lowerExpr_intrinsic h
    rw [hlines]
    exact (lowerArgs_floatFree hinfo args he.2 hi).append (intrinsicCode_floatFree callee)
  | cast id span base operand =>
    obtain ⟨source, target, inner, hs, ht, hi, hlines⟩ := lowerExpr_cast h
    have htarget : target ≠ .float := by
      rintro rfl
      exact he.1 (Base.family_eq_some.1 ht)
    rw [hlines, conversion_eq_none (hinfo _ source hs) htarget]
    exact (lowerExpr_floatFree hinfo operand he.2 hi).append .nil

theorem lowerArgs_floatFree (hinfo : cx.info.FloatFree) {slots : Slots} (es : List Expr)
    (hes : ExprTree.AllFloatFree (Expr.trees es)) {frag : Fragment} (h : lowerArgs cx slots es = .ok frag) :
    FloatFree frag.lines := by
  cases es with
  | nil =>
    rw [lowerArgs_nil h]
    exact .nil
  | cons e es =>
    obtain ⟨first, rest, hf, hr, hlines⟩ := lowerArgs_cons h
    rw [hlines]
    exact (lowerExpr_floatFree hinfo e hes.1 hf).append (lowerArgs_floatFree hinfo es hes.2 hr)

end

theorem lowerEffect_floatFree (hinfo : cx.info.FloatFree) {slots : Slots} {e : Expr} (he : e.tree.FloatFree)
    (h : lowerEffect cx slots e = .ok frag) : FloatFree frag.lines := by
  rcases lowerEffect_eq_ok h with ⟨-, h⟩ | ⟨inner, hi, hlines⟩
  · exact lowerExpr_floatFree hinfo e he h
  · rw [hlines]
    refine (lowerExpr_floatFree hinfo e he hi).append ?_
    cases cx.info.familyOf e.id with
    | none => exact .nil
    | some f => exact .bare (by decide)

theorem lowerCondition_floatFree (hinfo : cx.info.FloatFree) {slots : Slots} {e : Expr} (he : e.tree.FloatFree)
    (h : lowerCondition cx slots e = .ok frag) : FloatFree frag.lines := by
  obtain ⟨inner, hi, hlines⟩ := lowerCondition_eq_ok h
  rw [hlines]
  exact (lowerExpr_floatFree hinfo e he hi).append (.bare (by decide))

theorem TestCode.floatFree (hinfo : cx.info.FloatFree) {slots : Slots} {exit : String} {lines : List Line}
    {cond : Option Expr} (he : ∀ t ∈ cond.map Expr.tree, t.FloatFree) (h : TestCode cx slots exit lines cond) :
    FloatFree lines := by
  cases cond with
  | none =>
    obtain rfl := h
    exact .nil
  | some e =>
    obtain ⟨test, ht, rfl⟩ := h
    exact (lowerCondition_floatFree hinfo (he _ rfl) ht).append (.jump .jz exit)

/-! ## Statements -/

theorem lowerLocal_floatFree (hinfo : cx.info.FloatFree) {d : VarDecl} (hd : d.tree.FloatFree)
    (h : (lowerLocal cx d).run st = .ok (frag, st')) : FloatFree frag.lines := by
  cases hinit : d.init with
  | none =>
    rw [(lowerLocal_declare hinit h).2.2]
    exact .nil
  | some e =>
    obtain ⟨inner, hi, -, -, hlines⟩ := lowerLocal_value hinit h
    have he : e.tree.FloatFree := hd.2 _ (Option.mem_map_of_mem Expr.tree hinit)
    rw [hlines]
    exact (lowerExpr_floatFree hinfo e he hi).append (.address .pop _)

theorem lowerForInit_floatFree (hinfo : cx.info.FloatFree) {init : ForInit} (hinit : init.tree.FloatFree) {span : Span}
    (h : (lowerStmt cx loop (init.stmt span)).run st = .ok (frag, st')) : FloatFree frag.lines := by
  cases init with
  | nothing =>
    rw [(lowerStmt_empty h).2]
    exact .nil
  | decl d =>
    simp only [ForInit.stmt, lowerStmt] at h
    exact lowerLocal_floatFree hinfo hinit h
  | expr span e => exact lowerEffect_floatFree hinfo hinit (lowerStmt_expr h).1

theorem lowerStep_floatFree (hinfo : cx.info.FloatFree) {step : Option Expr}
    (hstep : ∀ t ∈ step.map Expr.tree, t.FloatFree) {span : Span}
    (h : (lowerStmt cx loop (.ofStep span step)).run st = .ok (frag, st')) : FloatFree frag.lines := by
  cases step with
  | none =>
    rw [(lowerStmt_empty h).2]
    exact .nil
  | some e => exact lowerEffect_floatFree hinfo (hstep _ rfl) (lowerStmt_expr h).1

mutual

theorem lowerStmt_floatFree (hinfo : cx.info.FloatFree) (s : Stmt) {loop : Option LoopLabels} {st st' : Storage}
    {frag : Fragment} (hs : s.tree.FloatFree) (h : (lowerStmt cx loop s).run st = .ok (frag, st')) :
    FloatFree frag.lines := by
  cases s with
  | decl d =>
    simp only [lowerStmt] at h
    exact lowerLocal_floatFree hinfo hs h
  | ifThen span cond yes =>
    obtain ⟨test, yesCode, ht, hy, hlines⟩ := lowerStmt_ifThen h
    have htest := ht.floatFree hinfo (by simpa using hs.1)
    rw [hlines]
    exact (htest.append (lowerStmt_floatFree hinfo yes hs.2 hy)).append (.label _)
  | ifElse span cond yes no =>
    obtain ⟨test, yesCode, st₁, noCode, ht, hy, hn, hlines⟩ := lowerStmt_ifElse h
    have htest := ht.floatFree hinfo (by simpa using hs.1)
    have hyes := lowerStmt_floatFree hinfo yes hs.2.1 hy
    have hno := lowerStmt_floatFree hinfo no hs.2.2 hn
    have hskip : FloatFree (if yes.diverges then [] else [.instr (.jump .jmp (label "if_end" st.nextLabel))]) := by
      split
      · exact .nil
      · exact .jump .jmp _
    rw [hlines]
    exact (((htest.append hyes).append hskip).append ((FloatFree.label _).append hno)).append (.label _)
  | while_ span cond body =>
    obtain ⟨test, bodyCode, ht, hb, hlines⟩ := lowerStmt_while h
    have htest := ht.floatFree hinfo (by simpa using hs.1)
    have hbody := lowerStmt_floatFree hinfo body hs.2 hb
    rw [hlines]
    exact (((FloatFree.label _).append htest).append hbody).append ((FloatFree.jump .jmp _).append (.label _))
  | doWhile span body cond =>
    obtain ⟨bodyCode, test, hb, ht, hlines⟩ := lowerStmt_doWhile h
    have hbody := lowerStmt_floatFree hinfo body hs.2 hb
    have htest := lowerCondition_floatFree hinfo hs.1 ht
    rw [hlines]
    exact (((FloatFree.label _).append hbody).append ((FloatFree.label _).append htest)).append
      ((FloatFree.jump .jnz _).append (.label _))
  | for_ span init cond step body =>
    obtain ⟨initCode, st₁, test, bodyCode, stepCode, hi, ht, hb, hstep, hlines⟩ := lowerStmt_for h
    obtain ⟨hsInit, hsCond, hsStep, hsBody⟩ := hs
    have hinit := lowerForInit_floatFree hinfo hsInit hi
    have htest := ht.floatFree hinfo hsCond
    have hbody := lowerStmt_floatFree hinfo body hsBody hb
    have hstepCode := lowerStep_floatFree hinfo hsStep hstep
    rw [hlines]
    exact (((hinit.append ((FloatFree.label _).append htest)).append hbody).append
      ((FloatFree.label _).append hstepCode)).append ((FloatFree.jump .jmp _).append (.label _))
  | break_ span =>
    obtain ⟨l, -, -, hlines⟩ := lowerStmt_break h
    rw [hlines]
    exact .jump .jmp _
  | continue_ span =>
    obtain ⟨l, -, -, hlines⟩ := lowerStmt_continue h
    rw [hlines]
    exact .jump .jmp _
  | return_ span value =>
    cases value with
    | none =>
      rw [(lowerStmt_return h).2]
      exact .bare (by decide)
    | some e =>
      obtain ⟨frame, a, inner, -, -, he, -, hlines⟩ := lowerStmt_returnValue h
      rw [hlines]
      exact (lowerExpr_floatFree hinfo e (hs _ rfl) he).append ((FloatFree.address .pop a).append (.bare (by decide)))
  | expr span e => exact lowerEffect_floatFree hinfo hs (lowerStmt_expr h).1
  | block span body =>
    simp only [lowerStmt] at h
    exact lowerStmts_floatFree hinfo body hs h
  | empty span =>
    rw [(lowerStmt_empty h).2]
    exact .nil

theorem lowerStmts_floatFree (hinfo : cx.info.FloatFree) (ss : List Stmt) {loop : Option LoopLabels} {st st' : Storage}
    {frag : Fragment} (hs : StmtTree.AllFloatFree (Stmt.trees ss))
    (h : (lowerStmts cx loop ss).run st = .ok (frag, st')) : FloatFree frag.lines := by
  cases ss with
  | nil =>
    rw [(lowerStmts_nil h).2]
    exact .nil
  | cons s rest =>
    cases hdiverges : s.diverges with
    | true =>
      obtain ⟨first, hf, hlines⟩ := lowerStmts_cons_diverges hdiverges h
      rw [hlines]
      exact lowerStmt_floatFree hinfo s hs.1 hf
    | false =>
      obtain ⟨first, st₁, more, hf, hm, hlines⟩ := lowerStmts_cons hdiverges h
      rw [hlines]
      exact (lowerStmt_floatFree hinfo s hs.1 hf).append (lowerStmts_floatFree hinfo rest hs.2 hm)

end

/-! ## Programs -/

theorem lowerGlobals_floatFree (hinfo : cx.info.FloatFree) {gs : List (VarDecl × Address)}
    (hgs : ∀ g ∈ gs, g.1.tree.FloatFree) (h : (lowerGlobals cx gs).run st = .ok (frag, st')) :
    FloatFree frag.lines := by
  induction gs generalizing frag with
  | nil =>
    rw [(lowerGlobals_nil h).2]
    exact .nil
  | cons g rest ih =>
    obtain ⟨d, a⟩ := g
    obtain ⟨hd, hrest⟩ := List.forall_mem_cons.1 hgs
    cases hinit : d.init with
    | none =>
      obtain ⟨more, hm, hlines⟩ := lowerGlobals_zero hinit h
      rw [hlines]
      exact .cons (zero_floatFree hd.1) (ih hrest hm)
    | some e =>
      obtain ⟨inner, more, hi, hm, hlines⟩ := lowerGlobals_value hinit h
      have he : e.tree.FloatFree := hd.2 _ (Option.mem_map_of_mem Expr.tree hinit)
      rw [hlines]
      exact (lowerExpr_floatFree hinfo e he hi).append ((FloatFree.address .pop a).append (ih hrest hm))

theorem lowerFunctions_floatFree (hinfo : cx.info.FloatFree) {fs : List FunctionDecl} (hfs : ∀ f ∈ fs, f.tree.FloatFree)
    (h : (lowerFunctions cx fs).run st = .ok (frag, st')) : FloatFree frag.lines := by
  induction fs generalizing st frag with
  | nil =>
    rw [(lowerFunctions_nil h).2]
    exact .nil
  | cons f rest ih =>
    obtain ⟨first, st₁, more, hf, hm, hlines⟩ := lowerFunctions_cons h
    obtain ⟨body, hb, hfirst⟩ := lowerFunction_eq_ok hf
    obtain ⟨hfree, hrest⟩ := List.forall_mem_cons.1 hfs
    have hlast : FloatFree (if Stmt.anyDiverges f.body then [] else [.instr (.bare .rtn)]) := by
      split
      · exact .nil
      · exact .bare (by decide)
    have hfunction : ({ cx with function := f.name } : Context).info.FloatFree := hinfo
    have hbody := lowerStmts_floatFree hfunction f.body hfree.body hb
    rw [hlines, hfirst]
    exact (((FloatFree.label _).append hbody).append hlast).append (ih hrest hm)

end Lowering

end Codegen

theorem Program.generate_floatFree {p : Program} {info : TypeInfo} {g : Generated}
    (hp : ∀ item ∈ p.items, item.tree.FloatFree) (hcheck : p.check = .ok info) (hgen : p.generate info = .ok g) :
    Codegen.FloatFree g.lines := by
  obtain ⟨parts⟩ := Program.nonempty_parts hgen
  have hinfo := check_floatFree hp hcheck
  have hglobals : ∀ x ∈ p.globals.zip parts.addresses, x.1.tree.FloatFree := by
    intro x hx
    exact hp _ (mem_globals.1 (List.of_mem_zip hx).1)
  have hfunctions : ∀ f ∈ p.functions, f.tree.FloatFree := fun f hf => hp _ (mem_functions.1 hf)
  have hreads : Codegen.FloatFree ((p.globals.zip parts.addresses).map fun x => .read x.2 x.1.name) := by
    intro l hl
    obtain ⟨x, -, rfl⟩ := List.mem_map.1 hl
    trivial
  have hentry := Codegen.lowerGlobals_floatFree hinfo hglobals parts.lowerGlobals
  have hcode := Codegen.lowerFunctions_floatFree hinfo hfunctions parts.lowerFunctions
  rw [parts.lines]
  exact ((hreads.append hentry).append ((Codegen.FloatFree.jump .call _).append (.bare (by decide)))).append hcode

/-! ## Sources -/

namespace Lexer

/-- the last token of a source is its end, and no other is -/
theorem kinds_of_steps (c : Cursor) {tokens : List Token} (h : (steps c).mapM id = .ok tokens) :
    ∃ ks : Grammar.Kinds, tokens.map (·.kind) = ks ++ [.eof] ∧ .eof ∉ ks := by
  induction c using steps_induction generalizing tokens with
  | last c hend =>
    rw [steps_of_isEnd hend, mapM_eq_ok] at h
    obtain ⟨last, rfl, hlast⟩ := List.map_eq_singleton_iff.1 h.symm
    rw [← hlast] at hend
    refine ⟨[], ?_, List.not_mem_nil⟩
    simpa [isEnd] using hend
  | step c hend ih =>
    rw [steps_of_not_isEnd hend, mapM_eq_ok] at h
    obtain ⟨first, rest, rfl, hfirst, hrest⟩ := List.map_eq_cons_iff.1 h.symm
    obtain ⟨ks, hks, hinside⟩ := ih (mapM_eq_ok.2 hrest.symm)
    rw [← hfirst] at hend
    have hkind : first.kind ≠ .eof := by simpa [isEnd] using hend
    refine ⟨first.kind :: ks, by rw [List.map_cons, hks, List.cons_append], ?_⟩
    rw [List.mem_cons, not_or]
    exact ⟨hkind.symm, hinside⟩

end Lexer

/-- **Integer programs stay integer.** If no token of a source brings floats and the source compiles, no generated
instruction works on floats, and no value that is stored, pushed or placed is one. -/
theorem compile_floatFree {source : String} {tokens : List Token} {g : Generated}
    (htokens : Lexer.tokenize source = .ok tokens)
    (hfloats : ∀ t ∈ tokens, t.kind ≠ .keyword .float ∧ (∀ x, t.kind ≠ .literal (.float x)) ∧
      t.kind ≠ .intrinsic .popFloat) (hcompile : compile source = .ok g) :
    (∀ i, .instr i ∈ g.lines → i.mnemonic.text.toList.head? ≠ some 'F' ∧ i.mnemonic.text ≠ "INTTOFL") ∧
    (∀ value a, .instr (.store value a) ∈ g.lines → ∀ x, value ≠ .float x) ∧
    (∀ value, .instr (.storePush value) ∈ g.lines → ∀ x, value ≠ .float x) ∧
    (∀ value, .data value ∈ g.lines → ∀ x, value ≠ .float x) := by
  obtain ⟨_, p, info, htokens', hparse, hcheck, hgen⟩ := compile_eq_ok hcompile
  obtain rfl := Except.ok.inj (htokens.symm.trans htokens')
  obtain ⟨ks, hks, hinside⟩ := Lexer.kinds_of_steps _ htokens
  obtain ⟨-, hderived⟩ := (Parser.parse_of_parses ⟨hks, hinside⟩ (Parser.parses_program ks)).2 p hparse
  -- the word of the grammar is the tokens without the end of the source
  have hword : Grammar.NoFloats ks := by
    intro kind hkind
    have hmem : kind ∈ tokens.map (·.kind) := hks ▸ List.mem_append_left _ hkind
    obtain ⟨t, ht, rfl⟩ := List.mem_map.1 hmem
    exact TokenKind.isFloat_eq_false.2 (hfloats t ht)
  have hfree : ∀ item ∈ p.items, item.tree.FloatFree :=
    fun item hitem => hderived.floatFree hword _ (List.mem_map_of_mem hitem)
  have hlines := Program.generate_floatFree hfree hcheck hgen
  refine ⟨?_, ?_, ?_, ?_⟩
  · intro i hi
    exact not_or.1 (Instruction.FloatFree.mnemonic (hlines _ hi))
  · intro value a hi x hx
    exact hlines _ hi (hx ▸ rfl)
  · intro value hi x hx
    exact hlines _ hi (hx ▸ rfl)
  · intro value hi x hx
    exact hlines _ hi (hx ▸ rfl)

/-- a signed and an unsigned division, a cast, and a zero for the global -/
def halving : String := "uint n; void main() { n = (uint) (-7 / 2) / n; }"

theorem halving_floatFree :
    ∃ g, compile halving = .ok g ∧ .instr (.bare .sdiv) ∈ g.lines ∧ .instr (.bare .div) ∈ g.lines ∧
    ∀ i, .instr i ∈ g.lines → i.mnemonic.text.toList.head? ≠ some 'F' ∧ i.mnemonic.text ≠ "INTTOFL" := by
  have hread : (Lexer.tokenize halving).toOption.map (·.all fun t => !t.kind.isFloat) = some true := by decide +kernel
  have hcode : (compile halving).toOption.map
      (fun g => g.lines.contains (.instr (.bare .sdiv)) && g.lines.contains (.instr (.bare .div))) =
      some true := by decide +kernel
  cases htokens : Lexer.tokenize halving with
  | error e =>
    rw [htokens] at hread
    cases hread
  | ok tokens =>
    cases hcompile : compile halving with
    | error e =>
      rw [hcompile] at hcode
      cases hcode
    | ok g =>
      rw [htokens] at hread
      rw [hcompile] at hcode
      have hplain : ∀ t ∈ tokens, t.kind.isFloat = false := by simpa [Except.toOption] using hread
      have hfloats := (compile_floatFree htokens (fun t ht => TokenKind.isFloat_eq_false.1 (hplain t ht)) hcompile).1
      have hlines : .instr (.bare .sdiv) ∈ g.lines ∧ .instr (.bare .div) ∈ g.lines := by
        simpa [Except.toOption] using hcode
      exact ⟨g, rfl, hlines.1, hlines.2, hfloats⟩

end C15

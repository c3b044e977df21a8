/-
Programs that differ in places only.

Tokens, trees, reports and generated code carry the places of the text that they come from. `Alike` relates two of them
that are the same but for these places: identities, names, types and literals are equal, spans are arbitrary. The parser
decides by kinds of tokens and counts identities; the places it writes down it never looks at. So two runs of it on
tokens of the same kinds go side by side: `Same` says that both fail, or both succeed with related results and states
that are alike again. One rule for each step of a parser, then one lemma for each of its functions, and
`Program.parse_alike` for whole programs.
-/
import C15.Program.Parser
import Mathlib.Tactic

namespace C15

/-! ## Trees -/

mutual

/-- expressions that differ in places only -/
inductive Expr.Alike : Expr → Expr → Prop where
  | literal {id : NodeId} {span span' : Span} {value : Literal} :
      Alike (.literal id span value) (.literal id span' value)
  | ident {id : NodeId} {span span' : Span} {name : String} : Alike (.ident id span name) (.ident id span' name)
  | binary {id : NodeId} {span span' : Span} {op : BinOp} {lhs lhs' rhs rhs' : Expr} (hl : Alike lhs lhs')
      (hr : Alike rhs rhs') : Alike (.binary id span op lhs rhs) (.binary id span' op lhs' rhs')
  | unary {id : NodeId} {span span' : Span} {op : UnOp} {e e' : Expr} (he : Alike e e') :
      Alike (.unary id span op e) (.unary id span' op e')
  | update {id : NodeId} {span span' : Span} {op : UpdateOp} {targetId : NodeId} {targetSpan targetSpan' : Span}
      {target : String} :
      Alike (.update id span op targetId targetSpan target) (.update id span' op targetId targetSpan' target)
  | call {id : NodeId} {span span' : Span} {callee : String} {calleeSpan calleeSpan' : Span} {args args' : List Expr}
      (ha : Expr.AllAlike args args') :
      Alike (.call id span callee calleeSpan args) (.call id span' callee calleeSpan' args')
  | intrinsic {id : NodeId} {span span' : Span} {callee : Intrinsic} {calleeSpan calleeSpan' : Span}
      {args args' : List Expr} (ha : Expr.AllAlike args args') :
      Alike (.intrinsic id span callee calleeSpan args) (.intrinsic id span' callee calleeSpan' args')
  | assign {id : NodeId} {span span' : Span} {op : Option BinOp} {target : String}
      {targetSpan targetSpan' : Span} {e e' : Expr} (he : Alike e e') :
      Alike (.assign id span op target targetSpan e) (.assign id span' op target targetSpan' e')
  | cast {id : NodeId} {span span' : Span} {base : Base} {e e' : Expr} (he : Alike e e') :
      Alike (.cast id span base e) (.cast id span' base e')

inductive Expr.AllAlike : List Expr → List Expr → Prop where
  | nil : AllAlike [] []
  | cons {e e' : Expr} {es es' : List Expr} (he : Expr.Alike e e') (hs : AllAlike es es') :
      AllAlike (e :: es) (e' :: es')

end

theorem Expr.Alike.id {e e' : Expr} (h : e.Alike e') : e.id = e'.id := by cases h <;> rfl

theorem Expr.AllAlike.length {es es' : List Expr} (h : Expr.AllAlike es es') : es.length = es'.length := by
  cases h with
  | nil => rfl
  | cons _ hs => exact congrArg (· + 1) hs.length

structure VarDecl.Alike (d d' : VarDecl) : Prop where
  id : d.id = d'.id
  name : d.name = d'.name
  ty : d.ty = d'.ty
  init : Option.Rel Expr.Alike d.init d'.init

inductive ForInit.Alike : ForInit → ForInit → Prop where
  | nothing : Alike .nothing .nothing
  | decl {d d' : VarDecl} (hd : d.Alike d') : Alike (.decl d) (.decl d')
  | expr {span span' : Span} {e e' : Expr} (he : e.Alike e') : Alike (.expr span e) (.expr span' e')

mutual

/-- statements that differ in places only -/
inductive Stmt.Alike : Stmt → Stmt → Prop where
  | decl {d d' : VarDecl} (hd : d.Alike d') : Alike (.decl d) (.decl d')
  | ifThen {span span' : Span} {cond cond' : Expr} {yes yes' : Stmt} (hc : cond.Alike cond') (hy : Alike yes yes') :
      Alike (.ifThen span cond yes) (.ifThen span' cond' yes')
  | ifElse {span span' : Span} {cond cond' : Expr} {yes yes' no no' : Stmt} (hc : cond.Alike cond')
      (hy : Alike yes yes') (hn : Alike no no') : Alike (.ifElse span cond yes no) (.ifElse span' cond' yes' no')
  | for_ {span span' : Span} {init init' : ForInit} {cond cond' step step' : Option Expr} {body body' : Stmt}
      (hi : init.Alike init')
      (hc : Option.Rel Expr.Alike cond cond') (hs : Option.Rel Expr.Alike step step') (hb : Alike body body') :
      Alike (.for_ span init cond step body) (.for_ span' init' cond' step' body')
  | while_ {span span' : Span} {cond cond' : Expr} {body body' : Stmt} (hc : cond.Alike cond') (hb : Alike body body') :
      Alike (.while_ span cond body) (.while_ span' cond' body')
  | doWhile {span span' : Span} {body body' : Stmt} {cond cond' : Expr} (hb : Alike body body')
      (hc : cond.Alike cond') : Alike (.doWhile span body cond) (.doWhile span' body' cond')
  | break_ {span span' : Span} : Alike (.break_ span) (.break_ span')
  | continue_ {span span' : Span} : Alike (.continue_ span) (.continue_ span')
  | return_ {span span' : Span} {value value' : Option Expr} (hv : Option.Rel Expr.Alike value value') :
      Alike (.return_ span value) (.return_ span' value')
  | expr {span span' : Span} {e e' : Expr} (he : e.Alike e') : Alike (.expr span e) (.expr span' e')
  | block {span span' : Span} {body body' : List Stmt} (hb : Stmt.AllAlike body body') :
      Alike (.block span body) (.block span' body')
  | empty {span span' : Span} : Alike (.empty span) (.empty span')

inductive Stmt.AllAlike : List Stmt → List Stmt → Prop where
  | nil : AllAlike [] []
  | cons {s s' : Stmt} {ss ss' : List Stmt} (hs : Stmt.Alike s s') (hss : AllAlike ss ss') :
      AllAlike (s :: ss) (s' :: ss')

end

structure Param.Alike (p p' : Param) : Prop where
  id : p.id = p'.id
  name : p.name = p'.name
  ty : p.ty = p'.ty

structure FunctionDecl.Alike (f f' : FunctionDecl) : Prop where
  name : f.name = f'.name
  result : f.result = f'.result
  params : List.Forall₂ Param.Alike f.params f'.params
  body : Stmt.AllAlike f.body f'.body

inductive Item.Alike : Item → Item → Prop where
  | function {f f' : FunctionDecl} (hf : f.Alike f') : Alike (.function f) (.function f')
  | global {d d' : VarDecl} (hd : d.Alike d') : Alike (.global d) (.global d')

def Program.Alike (p p' : Program) : Prop := List.Forall₂ Item.Alike p.items p'.items

namespace Parser

/-! ## Two runs -/

/-- states with tokens of the same kinds left, at the same identity -/
structure State.Alike (s t : State) : Prop where
  kinds : s.rest.map (·.kind) = t.rest.map (·.kind)
  nextId : s.nextId = t.nextId

/-- from states that are alike, both calls fail, or both give related results in states that are alike -/
def Same {α β : Type} (x : Parser α) (y : Parser β) (R : α → β → Prop) : Prop :=
  ∀ s t : State, s.Alike t →
    match x s, y t with
    | .ok a s', .ok b t' => R a b ∧ s'.Alike t'
    | .error _ _, .error _ _ => True
    | _, _ => False

section Calculus

variable {α β γ δ : Type} {x : Parser α} {y : Parser β} {f : α → Parser γ} {g : β → Parser δ} {R : α → β → Prop}
  {S : γ → δ → Prop}

theorem Same.bind (hx : Same x y R) (hf : ∀ a b, R a b → Same (f a) (g b) S) : Same (x >>= f) (y >>= g) S := by
  intro s t hst
  have hxs := hx s t hst
  simp only [Bind.bind, EStateM.bind]
  cases hr : x s with
  | ok a s' =>
    cases hr' : y t with
    | ok b t' =>
      rw [hr, hr'] at hxs
      exact hf a b hxs.1 s' t' hxs.2
    | error e t' =>
      rw [hr, hr'] at hxs
      exact hxs.elim
  | error e s' =>
    cases hr' : y t with
    | ok b t' =>
      rw [hr, hr'] at hxs
      exact hxs.elim
    | error e t' => trivial

/-- after equal results -/
theorem Same.andThen {y : Parser α} {g : α → Parser δ} (hx : Same x y Eq) (hf : ∀ a, Same (f a) (g a) S) :
    Same (x >>= f) (y >>= g) S := hx.bind fun a _ hab => hab ▸ hf a

/-- after results that do not matter, such as places -/
theorem Same.skip (hx : Same x y fun _ _ => True) (hf : ∀ a b, Same (f a) (g b) S) : Same (x >>= f) (y >>= g) S :=
  hx.bind fun a b _ => hf a b

theorem same_pure {a : α} {b : β} (h : R a b) : Same (pure a) (pure b) R := fun _ _ hst => ⟨h, hst⟩

theorem same_throw (e e' : Located GrammarCause) : Same (throw e : Parser α) (throw e' : Parser β) R :=
  fun _ _ _ => trivial

theorem same_get : Same get get State.Alike := fun _ _ hst => ⟨hst, hst⟩

end Calculus

namespace State.Alike

variable {s t : State}

theorem kindAt (h : s.Alike t) (n : Nat) : s.kindAt n = t.kindAt n := by
  have hn : (s.rest[n]?).map (·.kind) = (t.rest[n]?).map (·.kind) := by
    rw [← List.getElem?_map, ← List.getElem?_map, h.kinds]
  unfold State.kindAt
  cases hs : s.rest[n]? <;> cases ht : t.rest[n]? <;> simp_all

theorem calls (h : s.Alike t) : s.calls = t.calls := by
  have hlength := congrArg List.length h.kinds
  rw [List.length_map, List.length_map] at hlength
  rw [State.calls, State.calls, hlength]

theorem advance (h : s.Alike t) : s.advance.Alike t.advance := by
  obtain ⟨hkinds, hid⟩ := h
  unfold State.advance
  cases hs : s.rest with
  | nil =>
    cases ht : t.rest with
    | nil => exact ⟨by rw [hs, ht], hid⟩
    | cons b bs =>
      rw [hs, ht] at hkinds
      cases hkinds
  | cons a as =>
    cases ht : t.rest with
    | nil =>
      rw [hs, ht] at hkinds
      cases hkinds
    | cons b bs =>
      rw [hs, ht] at hkinds
      have hkind : a.kind = b.kind := (List.cons.inj hkinds).1
      have htail : as.map (·.kind) = bs.map (·.kind) := (List.cons.inj hkinds).2
      dsimp only
      rw [hkind]
      split
      · exact ⟨by simpa [hs, ht] using hkinds, hid⟩
      · exact ⟨htail, hid⟩

end State.Alike

theorem same_advance : Same advance advance fun _ _ => True := fun _ _ hst => ⟨trivial, hst.advance⟩

theorem same_peek : Same peek peek Eq := fun _ _ hst => ⟨hst.kindAt 0, hst⟩

theorem same_nextStart : Same nextStart nextStart fun _ _ => True := fun _ _ hst => ⟨trivial, hst⟩

theorem same_spanFrom (start start' : Nat) : Same (spanFrom start) (spanFrom start') fun _ _ => True :=
  fun _ _ hst => ⟨trivial, hst⟩

theorem same_fresh : Same fresh fresh Eq := fun _ _ hst => ⟨hst.nextId, hst.kinds, congrArg (· + 1) hst.nextId⟩

theorem same_unexpected {α β : Type} {R : α → β → Prop} (wanted : Wanted) :
    Same (unexpected wanted : Parser α) (unexpected wanted : Parser β) R := same_get.bind fun _ _ _ => same_throw _ _

theorem same_rejectStruct {α β : Type} {R : α → β → Prop} :
    Same (rejectStruct : Parser α) (rejectStruct : Parser β) R :=
  same_get.bind fun _ _ _ => same_throw _ _

theorem same_expect (kind : TokenKind) (wanted : Wanted) :
    Same (expect kind wanted) (expect kind wanted) fun _ _ => True := by
  refine same_peek.andThen fun k => ?_
  split
  · exact same_advance.skip fun _ _ => same_get.bind fun _ _ _ => same_pure trivial
  · exact same_unexpected _

theorem same_eat (kind : TokenKind) : Same (eat kind) (eat kind) Eq := by
  refine same_peek.andThen fun k => ?_
  split
  · exact same_advance.skip fun _ _ => same_pure rfl
  · exact same_pure rfl

theorem same_expectName (wanted : Wanted) : Same (expectName wanted) (expectName wanted) fun r r' => r.1 = r'.1 := by
  refine same_peek.andThen fun k => ?_
  split
  · exact same_advance.skip fun _ _ => same_get.bind fun _ _ _ => same_pure rfl
  · exact same_unexpected _

theorem same_expectSemicolon : Same expectSemicolon expectSemicolon fun _ _ => True := by
  refine (same_eat _).andThen fun b => ?_
  split
  · exact same_pure trivial
  · exact same_get.bind fun _ _ _ => same_throw _ _

theorem same_parseType : Same parseType parseType Eq := by
  refine (same_eat _).andThen fun isConst => same_peek.andThen fun k => ?_
  split
  · exact same_advance.skip fun _ _ => same_pure rfl
  · exact same_advance.skip fun _ _ => same_pure rfl
  · exact same_advance.skip fun _ _ => same_pure rfl
  · split
    · exact same_unexpected _
    · exact same_advance.skip fun _ _ => same_pure rfl
  · exact same_rejectStruct
  · exact same_unexpected _

/-! ## Expressions -/

theorem same_mkUpdate (op : UpdateOp) {e e' : Expr} (he : e.Alike e') (span span' : Span) :
    Same (mkUpdate op e span) (mkUpdate op e' span') Expr.Alike := by
  cases he with
  | ident => exact same_fresh.andThen fun _ => same_pure .update
  | _ => exact same_throw _ _

theorem same_suffix {e e' : Expr} (he : e.Alike e') : Same (suffix e) (suffix e') Expr.Alike := by
  refine same_peek.andThen fun k => ?_
  split
  · exact same_pure he
  · refine same_advance.skip fun _ _ => same_get.bind fun _ _ _ => (same_mkUpdate _ he _ _).bind fun u u' hu => ?_
    refine same_peek.andThen fun k => ?_
    split
    · exact same_pure hu
    · exact same_advance.skip fun _ _ => same_get.bind fun _ _ _ => same_mkUpdate _ hu _ _

theorem same_atCast : Same atCast atCast Eq := by
  refine same_get.bind fun s t hst => ?_
  rw [hst.kindAt 0, hst.kindAt 1, hst.kindAt 2]
  exact same_pure rfl

/-- the functions for expressions when they may nest `n` calls -/
structure ExprSame (n : Nat) : Prop where
  assignment : Same (assignment n) (assignment n) Expr.Alike
  binary : ∀ level, Same (binary n level) (binary n level) Expr.Alike
  binaryRest : ∀ level left left', left.Alike left' →
    Same (binaryRest n level left) (binaryRest n level left') Expr.Alike
  unary : Same (unary n) (unary n) Expr.Alike
  primary : Same (primary n) (primary n) Expr.Alike
  arguments : Same (arguments n) (arguments n) Expr.AllAlike
  argumentsRest : Same (argumentsRest n) (argumentsRest n) Expr.AllAlike

section Expressions

variable {n : Nat}

theorem assignment_same (ih : ExprSame n) : Same (assignment (n + 1)) (assignment (n + 1)) Expr.Alike := by
  refine (ih.binary 0).bind fun lhs lhs' hlhs => same_peek.andThen fun k => ?_
  split
  · exact same_pure hlhs
  · cases hlhs with
    | ident =>
      refine same_advance.skip fun _ _ => ih.assignment.bind fun value value' hvalue => ?_
      exact same_fresh.andThen fun _ => same_pure (.assign hvalue)
    | _ => exact same_throw _ _

theorem binaryRest_same (ih : ExprSame n) (level : Nat) {left left' : Expr} (hleft : left.Alike left') :
    Same (binaryRest (n + 1) level left) (binaryRest (n + 1) level left') Expr.Alike := by
  refine same_peek.andThen fun k => ?_
  split
  · exact same_pure hleft
  · split
    · exact same_pure hleft
    · refine same_advance.skip fun _ _ => (ih.binary _).bind fun right right' hright => ?_
      exact same_fresh.andThen fun _ => ih.binaryRest _ _ _ (.binary hleft hright)

/-- a minus: a literal takes it in, whatever its place -/
theorem negated_same {e e' : Expr} (he : e.Alike e') (span span' : Span) :
    Same
      (match e with
        | .literal id _ value => return .literal id span value.negate
        | _ => return .unary (← fresh) span .neg e)
      (match e' with
        | .literal id _ value => return .literal id span' value.negate
        | _ => return .unary (← fresh) span' .neg e') Expr.Alike := by
  have hwrapped :
      Same (do return Expr.unary (← fresh) span .neg e) (do return Expr.unary (← fresh) span' .neg e') Expr.Alike :=
    same_fresh.andThen fun _ => same_pure (.unary he)
  cases he with
  | literal => exact same_pure .literal
  | _ => exact hwrapped

theorem unary_same (ih : ExprSame n) : Same (unary (n + 1)) (unary (n + 1)) Expr.Alike := by
  have operand {f g : Expr → Parser Expr} (hfg : ∀ e e', e.Alike e' → Same (f e) (g e') Expr.Alike) :
      Same (do advance; let e ← unary n; f e) (do advance; let e ← unary n; g e) Expr.Alike :=
    same_advance.skip fun _ _ => ih.unary.bind hfg
  refine same_nextStart.skip fun start start' => same_atCast.andThen fun isCast => ?_
  split
  · refine same_advance.skip fun _ _ => same_parseType.andThen fun ty => same_advance.skip fun _ _ =>
      ih.unary.bind fun e e' he => ?_
    exact same_fresh.andThen fun _ => (same_spanFrom _ _).skip fun _ _ => same_pure (.cast he)
  · refine same_peek.andThen fun k => ?_
    split
    · exact operand fun e e' he => (same_spanFrom _ _).skip fun span span' => negated_same he span span'
    · exact operand fun e e' he => same_fresh.andThen fun _ => (same_spanFrom _ _).skip fun _ _ => same_pure (.unary he)
    · exact operand fun e e' he => same_fresh.andThen fun _ => (same_spanFrom _ _).skip fun _ _ => same_pure (.unary he)
    · exact operand fun e e' he => (same_spanFrom _ _).skip fun _ _ => same_mkUpdate _ he _ _
    · exact operand fun e e' he => (same_spanFrom _ _).skip fun _ _ => same_mkUpdate _ he _ _
    · exact same_advance.skip fun _ _ => ih.unary
    · exact ih.primary.bind fun e e' he => same_suffix he

theorem primary_same (ih : ExprSame n) : Same (primary (n + 1)) (primary (n + 1)) Expr.Alike := by
  refine same_nextStart.skip fun start start' => same_peek.andThen fun k => ?_
  split
  · exact same_advance.skip fun _ _ => same_fresh.andThen fun _ => same_get.bind fun _ _ _ => same_pure .literal
  · refine same_advance.skip fun _ _ => ih.assignment.bind fun e e' he => ?_
    exact (same_expect _ _).skip fun _ _ => same_pure he
  · refine same_advance.skip fun _ _ => same_get.bind fun _ _ _ => ih.arguments.bind fun args args' ha => ?_
    exact same_fresh.andThen fun _ => (same_spanFrom _ _).skip fun _ _ => same_pure (.intrinsic ha)
  · refine same_advance.skip fun _ _ => same_get.bind fun _ _ _ => same_peek.andThen fun next => ?_
    split
    · refine ih.arguments.bind fun args args' ha => ?_
      exact same_fresh.andThen fun _ => (same_spanFrom _ _).skip fun _ _ => same_pure (.call ha)
    · exact same_fresh.andThen fun _ => same_pure .ident
  · exact same_unexpected _

theorem argumentsRest_same (ih : ExprSame n) : Same (argumentsRest (n + 1)) (argumentsRest (n + 1)) Expr.AllAlike := by
  refine same_peek.andThen fun k => ?_
  split
  · exact same_pure .nil
  · refine ih.assignment.bind fun arg arg' harg => same_peek.andThen fun next => ?_
    have more : Same (do let args ← argumentsRest n; return arg :: args)
        (do let args ← argumentsRest n; return arg' :: args)
        Expr.AllAlike := ih.argumentsRest.bind fun args args' hargs => same_pure (.cons harg hargs)
    split
    · exact (same_expect _ _).skip fun _ _ => more
    · exact more

theorem exprSame (n : Nat) : ExprSame n := by
  induction n with
  | zero => constructor <;> intros <;> exact same_unexpected _
  | succ n ih =>
    exact {
      assignment := assignment_same ih
      binary := fun level => ih.unary.bind fun left left' hleft => ih.binaryRest level left left' hleft
      binaryRest := fun level left left' hleft => binaryRest_same ih level hleft
      unary := unary_same ih
      primary := primary_same ih
      arguments := (same_expect _ _).skip fun _ _ => ih.argumentsRest.bind fun args args' hargs =>
        (same_expect _ _).skip fun _ _ => same_pure hargs
      argumentsRest := argumentsRest_same ih }

theorem same_expression : Same expression expression Expr.Alike := by
  refine same_get.bind fun s t hst => ?_
  rw [hst.calls]
  exact (exprSame _).assignment

theorem same_someExpression : Same (some <$> expression) (some <$> expression) (Option.Rel Expr.Alike) := by
  rw [map_eq_pure_bind]
  exact same_expression.bind fun e e' he => same_pure (.some he)

end Expressions

/-! ## Statements -/

theorem same_condition : Same condition condition Expr.Alike :=
  (same_expect _ _).skip fun _ _ => same_expression.bind fun _ _ he => (same_expect _ _).skip fun _ _ => same_pure he

theorem same_finishDecl (start start' : Nat) (ty : Ty) (name : String) (nameSpan nameSpan' : Span) :
    Same (finishDecl start ty name nameSpan) (finishDecl start' ty name nameSpan') VarDecl.Alike := by
  refine (same_eat _).andThen fun b => ?_
  have rest (init init' : Option Expr) (hinit : Option.Rel Expr.Alike init init') :
      Same (do expectSemicolon; return VarDecl.mk (← fresh) (← spanFrom start) name nameSpan ty init)
        (do expectSemicolon; return VarDecl.mk (← fresh) (← spanFrom start') name nameSpan' ty init') VarDecl.Alike :=
    same_expectSemicolon.skip fun _ _ => same_fresh.andThen fun _ => (same_spanFrom _ _).skip fun _ _ =>
      same_pure ⟨rfl, rfl, rfl, hinit⟩
  split
  · exact same_someExpression.bind rest
  · exact rest none none .none

theorem same_varDecl : Same varDecl varDecl VarDecl.Alike := by
  refine same_nextStart.skip fun start start' => same_parseType.andThen fun ty =>
    (same_expectName _).bind fun name name' hname => ?_
  obtain ⟨name, span⟩ := name
  obtain ⟨name', span'⟩ := name'
  obtain rfl : name = name' := hname
  exact same_finishDecl _ _ _ _ _ _

theorem same_forInit : Same forInit forInit ForInit.Alike := by
  refine (same_eat _).andThen fun b => ?_
  split
  · exact same_pure .nothing
  · refine same_peek.andThen fun k => ?_
    split
    · exact same_varDecl.bind fun d d' hd => same_pure (.decl hd)
    · refine same_nextStart.skip fun start start' => same_expression.bind fun e e' he => ?_
      exact same_expectSemicolon.skip fun _ _ => (same_spanFrom _ _).skip fun _ _ => same_pure (.expr he)

theorem same_unlessAt (kind : TokenKind) : Same (unlessAt kind) (unlessAt kind) (Option.Rel Expr.Alike) := by
  refine same_peek.andThen fun k => ?_
  split
  · exact same_pure .none
  · exact same_someExpression

/-- the functions for statements when they may nest `n` calls -/
structure StmtSame (n : Nat) : Prop where
  statement : Same (statement n) (statement n) Stmt.Alike
  block : Same (block n) (block n) fun b b' => Stmt.AllAlike b.2 b'.2
  statements : Same (statements n) (statements n) Stmt.AllAlike

section Statements

variable {n : Nat}

theorem if_same (ih : StmtSame n) (start start' : Nat) :
    Same
      (do
        let cond ← condition
        let yes ← statement n
        if ← eat (.keyword .else_) then
          let no ← statement n
          return Stmt.ifElse (← spanFrom start) cond yes no
        else return Stmt.ifThen (← spanFrom start) cond yes)
      (do
        let cond ← condition
        let yes ← statement n
        if ← eat (.keyword .else_) then
          let no ← statement n
          return Stmt.ifElse (← spanFrom start') cond yes no
        else return Stmt.ifThen (← spanFrom start') cond yes) Stmt.Alike := by
  refine same_condition.bind fun cond cond' hc => ih.statement.bind fun yes yes' hy => (same_eat _).andThen fun b => ?_
  split
  · exact ih.statement.bind fun no no' hn => (same_spanFrom _ _).skip fun _ _ => same_pure (.ifElse hc hy hn)
  · exact (same_spanFrom _ _).skip fun _ _ => same_pure (.ifThen hc hy)

theorem for_same (ih : StmtSame n) (start start' : Nat) :
    Same
      (do
        let _ ← expect (.punct .lparen) .openParenAfterFor
        let init ← forInit
        let cond ← unlessAt (.punct .semicolon)
        let _ ← expect (.punct .semicolon) .semicolonAfterForCondition
        let step ← unlessAt (.punct .rparen)
        let _ ← expect (.punct .rparen) .closeParen
        let body ← statement n
        return Stmt.for_ (← spanFrom start) init cond step body)
      (do
        let _ ← expect (.punct .lparen) .openParenAfterFor
        let init ← forInit
        let cond ← unlessAt (.punct .semicolon)
        let _ ← expect (.punct .semicolon) .semicolonAfterForCondition
        let step ← unlessAt (.punct .rparen)
        let _ ← expect (.punct .rparen) .closeParen
        let body ← statement n
        return Stmt.for_ (← spanFrom start') init cond step body) Stmt.Alike := by
  refine (same_expect _ _).skip fun _ _ => same_forInit.bind fun init init' hi =>
    (same_unlessAt _).bind fun cond cond' hc => ?_
  refine (same_expect _ _).skip fun _ _ => (same_unlessAt _).bind fun step step' hs =>
    (same_expect _ _).skip fun _ _ => ?_
  exact ih.statement.bind fun body body' hb => (same_spanFrom _ _).skip fun _ _ => same_pure (.for_ hi hc hs hb)

theorem statement_same (ih : StmtSame n) : Same (statement (n + 1)) (statement (n + 1)) Stmt.Alike := by
  refine same_nextStart.skip fun start start' => same_peek.andThen fun k => ?_
  have decl : Same (do return Stmt.decl (← varDecl)) (do return Stmt.decl (← varDecl)) Stmt.Alike :=
    same_varDecl.bind fun d d' hd => same_pure (.decl hd)
  split
  · exact ih.block.bind fun b b' hb => same_pure (.block hb)
  · exact same_advance.skip fun _ _ => same_get.bind fun _ _ _ => same_pure .empty
  · exact same_rejectStruct
  · exact decl
  · exact decl
  · exact decl
  · exact decl
  · exact decl
  · exact same_advance.skip fun _ _ => if_same ih start start'
  · refine same_advance.skip fun _ _ => same_condition.bind fun cond cond' hc =>
      ih.statement.bind fun body body' hb => ?_
    exact (same_spanFrom _ _).skip fun _ _ => same_pure (.while_ hc hb)
  · refine same_advance.skip fun _ _ => ih.statement.bind fun body body' hb => (same_expect _ _).skip fun _ _ => ?_
    refine same_condition.bind fun cond cond' hc => same_expectSemicolon.skip fun _ _ => ?_
    exact (same_spanFrom _ _).skip fun _ _ => same_pure (.doWhile hb hc)
  · exact same_advance.skip fun _ _ => for_same ih start start'
  · exact same_advance.skip fun _ _ => same_expectSemicolon.skip fun _ _ => (same_spanFrom _ _).skip fun _ _ =>
      same_pure .break_
  · exact same_advance.skip fun _ _ => same_expectSemicolon.skip fun _ _ => (same_spanFrom _ _).skip fun _ _ =>
      same_pure .continue_
  · refine same_advance.skip fun _ _ => (same_unlessAt _).bind fun value value' hv =>
      same_expectSemicolon.skip fun _ _ => ?_
    exact (same_spanFrom _ _).skip fun _ _ => same_pure (.return_ hv)
  · refine same_expression.bind fun e e' he => same_expectSemicolon.skip fun _ _ => ?_
    exact (same_spanFrom _ _).skip fun _ _ => same_pure (.expr he)

theorem statements_same (ih : StmtSame n) : Same (statements (n + 1)) (statements (n + 1)) Stmt.AllAlike := by
  refine same_peek.andThen fun k => ?_
  split
  · exact same_pure .nil
  · exact ih.statement.bind fun s s' hs => ih.statements.bind fun ss ss' hss => same_pure (.cons hs hss)

theorem stmtSame (n : Nat) : StmtSame n := by
  induction n with
  | zero => constructor <;> exact same_unexpected _
  | succ n ih =>
    exact {
      statement := statement_same ih
      block := (same_expect _ _).skip fun _ _ => ih.statements.bind fun body body' hb =>
        (same_expect _ _).skip fun _ _ =>
        (same_spanFrom _ _).skip fun _ _ => same_pure hb
      statements := statements_same ih }

end Statements

/-! ## Items -/

theorem same_parameters (n : Nat) : Same (parameters n) (parameters n) (List.Forall₂ Param.Alike) := by
  induction n with
  | zero => exact same_unexpected _
  | succ n ih =>
    refine same_peek.andThen fun k => ?_
    split
    · exact same_pure .nil
    · refine same_nextStart.skip fun _ _ => same_parseType.andThen fun ty =>
        (same_expectName _).bind fun name name' hname => ?_
      refine same_fresh.andThen fun i => (same_spanFrom _ _).skip fun span span' => same_peek.andThen fun next => ?_
      have more : Same (do let rest ← parameters n; return Param.mk i span name.1 ty :: rest)
          (do let rest ← parameters n; return Param.mk i span' name'.1 ty :: rest) (List.Forall₂ Param.Alike) :=
        ih.bind fun rest rest' hrest => same_pure (.cons ⟨rfl, hname, rfl⟩ hrest)
      split
      · exact (same_expect _ _).skip fun _ _ => more
      · exact more

theorem same_finishFunction (start start' : Nat) (result : Ty) (name : String) (nameSpan nameSpan' : Span) :
    Same (finishFunction start result name nameSpan) (finishFunction start' result name nameSpan')
      FunctionDecl.Alike := by
  refine (same_expect _ _).skip fun _ _ => same_get.bind fun s t hst => ?_
  have rest : Same
      (do
        let params ← parameters (← get).calls
        let _ ← expect (.punct .rparen) .closeParen
        let found ← block (← get).calls
        return FunctionDecl.mk (← spanFrom start) name nameSpan result params found.1 found.2)
      (do
        let params ← parameters (← get).calls
        let _ ← expect (.punct .rparen) .closeParen
        let found ← block (← get).calls
        return FunctionDecl.mk (← spanFrom start') name nameSpan' result params found.1 found.2)
          FunctionDecl.Alike := by
    refine same_get.bind fun s t hst => ?_
    rw [hst.calls]
    refine (same_parameters _).bind fun ps ps' hps => (same_expect _ _).skip fun _ _ => same_get.bind fun s t hst => ?_
    rw [hst.calls]
    exact (stmtSame _).block.bind fun b b' hb => (same_spanFrom _ _).skip fun _ _ => same_pure ⟨rfl, rfl, hps, hb⟩
  rw [hst.kindAt 0, hst.kindAt 1]
  split
  · exact same_advance.skip fun _ _ => rest
  · exact rest

theorem same_item : Same item item Item.Alike := by
  refine same_nextStart.skip fun start start' => same_parseType.andThen fun ty =>
    (same_expectName _).bind fun name name' hname => ?_
  obtain ⟨name, span⟩ := name
  obtain ⟨name', span'⟩ := name'
  obtain rfl : name = name' := hname
  refine same_peek.andThen fun k => ?_
  split
  · split
    · exact (same_spanFrom _ _).skip fun _ _ => same_throw _ _
    · exact (same_finishFunction _ _ _ _ _ _).bind fun f f' hf => same_pure (.function hf)
  · exact (same_finishDecl _ _ _ _ _ _).bind fun d d' hd => same_pure (.global hd)

theorem same_items (n : Nat) : Same (items n) (items n) (List.Forall₂ Item.Alike) := by
  induction n with
  | zero => exact same_unexpected _
  | succ n ih =>
    refine same_peek.andThen fun k => ?_
    split
    · exact same_pure .nil
    · exact same_rejectStruct
    · exact same_item.bind fun first first' hfirst => ih.bind fun rest rest' hrest => same_pure (.cons hfirst hrest)

theorem same_program : Same program program Program.Alike := by
  refine same_get.bind fun s t hst => ?_
  rw [hst.calls]
  exact (same_items _).bind fun found found' hfound => same_get.bind fun _ _ _ => same_pure hfound

end Parser

/-! ## Programs -/

/-- two calls that both fail with related errors, or both succeed with related results -/
def Agree {ε δ α β : Type} (E : ε → δ → Prop) (R : α → β → Prop) : Except ε α → Except δ β → Prop
  | .ok a, .ok b => R a b
  | .error e, .error e' => E e e'
  | _, _ => False

/-- **Tokens of the same kinds are read as programs that are alike**, or not at all. -/
theorem Program.parse_alike {ts us : List Token} (h : ts.map (·.kind) = us.map (·.kind)) :
    Agree (fun _ _ => True) Program.Alike (Program.parse ts) (Program.parse us) := by
  have hprogram := Parser.same_program (.start ts) (.start us) ⟨h, rfl⟩
  unfold Program.parse EStateM.run
  cases hts : Parser.program (.start ts) <;> cases hus : Parser.program (.start us) <;> rw [hts, hus] at hprogram
  · exact hprogram.1
  · exact hprogram
  · exact hprogram
  · trivial

end C15

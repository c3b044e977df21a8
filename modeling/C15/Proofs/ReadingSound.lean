/-
What is read is derived.

Every result of a call is the tree of a word of the grammar, and the call has taken exactly that word (`Took`). The
functions for expressions and for statements are followed together, by induction on the calls they may nest. Two of them
say more than which word they took:
- operands joined by operators of at least a level end before a mark that is not of such a level (`Below`); the left
  operand of the next operator is then of its level, which is what makes an operator bind to the left;
- an open statement ends before a token that is not `else`, so an `else` is never passed over.
-/
import C15.Proofs.Reading

namespace C15

namespace Parser

open Grammar

/-! ## Marks of operators -/

theorem binaryOp?_mark (op : BinOp) : binaryOp? (.punct op.mark) = some (op, op.level) := by
  cases op <;> rfl

theorem eq_mark_of_binaryOp? {kind : TokenKind} {op : BinOp} {level : Nat} (h : binaryOp? kind = some (op, level)) :
    kind = .punct op.mark ∧ level = op.level := by
  unfold binaryOp? at h
  split at h
  all_goals simp only [Option.some.injEq, Prod.mk.injEq, reduceCtorEq] at h
  all_goals
    obtain ⟨rfl, rfl⟩ := h
    exact ⟨rfl, rfl⟩

theorem assignOp?_mark {op : Option BinOp} {mark : Punct} (h : assignMark? op = some mark) :
    assignOp? (.punct mark) = some op := by
  unfold assignMark? at h
  split at h
  all_goals simp only [Option.some.injEq, reduceCtorEq] at h
  all_goals
    subst h
    rfl

theorem eq_mark_of_assignOp? {kind : TokenKind} {op : Option BinOp} (h : assignOp? kind = some op) :
    ∃ mark, kind = .punct mark ∧ assignMark? op = some mark := by
  unfold assignOp? at h
  split at h
  all_goals simp only [Option.some.injEq, reduceCtorEq] at h
  all_goals
    subst h
    exact ⟨_, rfl, rfl⟩

/-! ## Expressions -/

/-- a call has taken a word of a nonterminal, and its result is seen as the tree of the word -/
def Took {α τ : Type} (G : Kinds → τ → Prop) (view : α → τ) (ks : Kinds) (a : α) (ks' : Kinds) : Prop :=
  ∃ w, ks = w ++ ks' ∧ G w (view a)

theorem Took.of {α τ : Type} {G : Kinds → τ → Prop} {view : α → τ} {ks ks' w : Kinds} {a : α} {t : τ} (hw : G w t)
    (ht : view a = t) (hks : ks = w ++ ks') : Took G view ks a ks' := ⟨w, hks, ht ▸ hw⟩

/-- an operator that is next has a lower level -/
def Below (level : Nat) (ks : Kinds) : Prop := ∀ op : BinOp, next ks = .punct op.mark → op.level < level

theorem Parses.mkUpdate {sure : Bool} {op : UpdateOp} {e : Expr} {span : Span} {x : String} {ks : Kinds}
    {R : Expr → Kinds → Prop} (he : e.tree = .ident x) (h : ∀ u : Expr, u.tree = .update op x → R u ks) :
    Parses sure (Parser.mkUpdate op e span) ks R := by
  obtain ⟨id, targetSpan, rfl⟩ := Expr.eq_ident_of_tree he
  exact silent_fresh.andThen fun _ => .pure (h _ rfl)

/-- what was updated is a variable -/
theorem parses_mkUpdate {op : UpdateOp} {e : Expr} {span : Span} {ks : Kinds} {R : Expr → Kinds → Prop}
    (h : ∀ (x : String) (u : Expr), e.tree = .ident x → u.tree = .update op x → R u ks) :
    Parses false (Parser.mkUpdate op e span) ks R := by
  by_cases hident : ∃ x, e.tree = .ident x
  · obtain ⟨x, hx⟩ := hident
    exact .mkUpdate hx fun u hu => h x u hx hu
  · unfold Parser.mkUpdate
    split
    · exact absurd ⟨_, rfl⟩ hident
    · exact parses_throw _

/-- an update mark that is next can be taken -/
theorem exists_cons_of_suffixOp? {ks : Kinds} {op : UpdateOp} (h : suffixOp? (next ks) = some op) :
    ∃ kind ks', ks = kind :: ks' ∧ suffixOp? kind = some op := by
  cases ks with
  | nil => cases h
  | cons kind ks' => exact ⟨kind, ks', rfl, h⟩

theorem update_of_primary {w : Kinds} {x : String} {kind : TokenKind} {op : UpdateOp} (h : Primary w (.ident x))
    (hop : suffixOp? kind = some op) : Postfix (w ++ [kind]) (.update op x) := by
  unfold suffixOp? at hop
  split at hop
  all_goals cases hop
  · exact .plusPlus h
  · exact .minusMinus h

theorem parses_suffix {w ks ks₀ : Kinds} {e : Expr} (hks : ks₀ = w ++ ks) (he : Primary w e.tree) :
    Parses false (suffix e) ks (Took Postfix Expr.tree ks₀) := by
  refine .peek ?_
  split
  · exact .pure (.of (.plain he) rfl hks)
  · rename_i op hop
    obtain ⟨kind, ks₁, rfl, hop⟩ := exists_cons_of_suffixOp? hop
    refine .advance (silent_get.andThen fun _ => ?_)
    refine Parses.bind (P := fun u ks₂ => ks₂ = ks₁ ∧ ∃ x, e.tree = .ident x ∧ u.tree = .update op x)
      (parses_mkUpdate fun x u hx hu => ⟨rfl, x, hx, hu⟩) ?_
    rintro u _ ⟨rfl, x, hx, hu⟩
    refine .peek ?_
    split
    · rw [hx] at he
      exact .pure (.of (update_of_primary he hop) hu (by simp [hks]))
    · -- a second mark finds an update, which is no variable
      rename_i again hagain
      obtain ⟨kind', ks₂, rfl, -⟩ := exists_cons_of_suffixOp? hagain
      refine .advance (silent_get.andThen fun _ => parses_mkUpdate fun y u' hy _ => ?_)
      rw [hu] at hy
      cases hy

/-- what the functions for expressions take when they may nest `n` calls -/
structure ExprTakes (n : Nat) : Prop where
  assignment : ∀ ks, Parses false (assignment n) ks (Took Expression Expr.tree ks)
  binary : ∀ level ks, level ≤ 11 → Parses false (binary n level) ks fun e ks' =>
    Took (Binary (max 1 level)) Expr.tree ks e ks' ∧ Below level ks'
  binaryRest : ∀ level k left w ks, max 1 level ≤ k → Binary k w left.tree → Below (k + 1) ks →
    Parses false (binaryRest n level left) ks fun e ks' =>
      Took (fun v => Binary (max 1 level) (w ++ v)) Expr.tree ks e ks' ∧ Below level ks'
  unary : ∀ ks, Parses false (unary n) ks (Took Unary Expr.tree ks)
  primary : ∀ ks, Parses false (primary n) ks (Took Primary Expr.tree ks)
  arguments : ∀ ks, Parses false (arguments n) ks fun es ks' =>
    ∃ w, ks = .punct .lparen :: w ++ .punct .rparen :: ks' ∧ Arguments w (Expr.trees es)
  argumentsRest : ∀ ks, Parses false (argumentsRest n) ks (Took Arguments Expr.trees ks)

theorem assignment_takes {n : Nat} (ih : ExprTakes n) (ks : Kinds) :
    Parses false (assignment (n + 1)) ks (Took Expression Expr.tree ks) := by
  apply (ih.binary 0 ks (by omega)).bind
  rintro lhs ks₁ ⟨⟨w, rfl, hlhs⟩, -⟩
  refine .peek ?_
  split
  · exact .pure (.of (.plain hlhs) rfl rfl)
  · rename_i op hop
    split
    · obtain ⟨mark, hnext, hmark⟩ := eq_mark_of_assignOp? hop
      obtain ⟨ks₂, rfl⟩ := eq_cons_of_next hnext (by simp)
      refine .advance ((ih.assignment ks₂).bind ?_)
      rintro value ks₃ ⟨v, rfl, hvalue⟩
      exact silent_fresh.andThen fun _ => .pure (.of (.assign (hlhs.unary_of_ident rfl) hmark hvalue) rfl (by simp))
    · exact parses_throw _

theorem binaryRest_takes {n : Nat} (ih : ExprTakes n) (level k : Nat) (left : Expr) (w ks : Kinds)
    (hk : max 1 level ≤ k) (hleft : Binary k w left.tree) (hbelow : Below (k + 1) ks) :
    Parses false (binaryRest (n + 1) level left) ks fun e ks' =>
      Took (fun v => Binary (max 1 level) (w ++ v)) Expr.tree ks e ks' ∧ Below level ks' := by
  have stop : Took (fun v => Binary (max 1 level) (w ++ v)) Expr.tree ks left ks :=
    ⟨[], rfl, by simpa using hleft.lower hk⟩
  refine .peek ?_
  split
  · rename_i hnone
    refine .pure ⟨stop, ?_⟩
    intro op hnext
    rw [hnext, binaryOp?_mark] at hnone
    cases hnone
  · rename_i op opLevel hop
    obtain ⟨hnext, rfl⟩ := eq_mark_of_binaryOp? hop
    split
    · rename_i hlow
      refine .pure ⟨stop, ?_⟩
      intro op' hnext'
      rw [hnext', binaryOp?_mark, Option.some.injEq, Prod.mk.injEq] at hop
      exact hop.2 ▸ hlow
    · rename_i hlow
      obtain ⟨ks₁, rfl⟩ := eq_cons_of_next hnext (by simp)
      have hlevel : 1 ≤ op.level ∧ op.level ≤ 10 := op.level_bounds
      refine .advance ((ih.binary (op.level + 1) ks₁ (by omega)).bind ?_)
      rintro right ks₂ ⟨⟨v, rfl, hright⟩, hbelow'⟩
      rw [Nat.max_eq_right (by omega)] at hright
      refine silent_fresh.andThen fun id => ?_
      -- the operator with its operands is the next left operand
      have hjoin := Binary.join op (hleft.lower (Nat.lt_succ_iff.1 (hbelow op hnext))) hright
      apply (ih.binaryRest level op.level (.binary id _ op left right) _ ks₂ (by omega) hjoin hbelow').mono
      rintro e ks₃ ⟨⟨u, rfl, he⟩, hend⟩
      refine ⟨⟨.punct op.mark :: v ++ u, by simp, ?_⟩, hend⟩
      simpa using he

/-- the node for a minus in front of an operand -/
theorem Parses.negate {sure : Bool} {operand : Expr} {span : Span} {ks : Kinds} {R : Expr → Kinds → Prop}
    (h : ∀ e : Expr, e.tree = operand.tree.negate → R e ks) :
    Parses sure (match operand with
      | .literal id _ value => return .literal id span value.negate
      | _ => return .unary (← fresh) span .neg operand) ks R := by
  cases operand with
  | literal => exact .pure (h _ rfl)
  | _ => exact silent_fresh.andThen fun _ => .pure (h _ rfl)

theorem unary_takes {n : Nat} (ih : ExprTakes n) (ks : Kinds) :
    Parses false (unary (n + 1)) ks (Took Unary Expr.tree ks) := by
  have operand : ∀ {mark : Punct} {f : Expr → Parser Expr}, next ks = .punct mark →
      (∀ w e ks', ks = .punct mark :: w ++ ks' → Unary w e.tree → Parses false (f e) ks' (Took Unary Expr.tree ks)) →
      Parses false (do advance; let e ← unary n; f e) ks (Took Unary Expr.tree ks) := by
    intro mark f hnext hf
    obtain ⟨ks₁, rfl⟩ := eq_cons_of_next hnext (by simp)
    refine .advance ((ih.unary ks₁).bind ?_)
    rintro e ks₂ ⟨w, rfl, he⟩
    exact hf w e ks₂ rfl he
  refine silent_nextStart.andThen fun start => parses_atCast ?_ ?_
  · rintro b ks₁ ⟨hb, rfl⟩
    refine .advance (.parseType (.plain b) (.advance ((ih.unary ks₁).bind ?_)))
    rintro e ks₂ ⟨w, rfl, he⟩
    exact silent_fresh.andThen fun _ => (silent_spanFrom start).andThen fun _ => .pure (.of (.cast hb he) rfl rfl)
  · intro _
    refine .peek ?_
    split
    · rename_i hnext
      refine operand hnext fun w e ks' hks he => (silent_spanFrom start).andThen fun _ => .negate fun e' he' => ?_
      exact .of (.minus he) he' hks
    · rename_i hnext
      refine operand hnext fun w e ks' hks he => silent_fresh.andThen fun _ =>
        (silent_spanFrom start).andThen fun _ => ?_
      exact .pure (.of (.not he) rfl hks)
    · rename_i hnext
      refine operand hnext fun w e ks' hks he => silent_fresh.andThen fun _ =>
        (silent_spanFrom start).andThen fun _ => ?_
      exact .pure (.of (.tilde he) rfl hks)
    · rename_i hnext
      refine operand hnext fun w e ks' hks he => (silent_spanFrom start).andThen fun _ =>
        parses_mkUpdate fun x u hx hu => ?_
      exact .of (.plusPlus (hx ▸ he)) hu hks
    · rename_i hnext
      refine operand hnext fun w e ks' hks he => (silent_spanFrom start).andThen fun _ =>
        parses_mkUpdate fun x u hx hu => ?_
      exact .of (.minusMinus (hx ▸ he)) hu hks
    · rename_i hnext
      have hplus := operand (f := fun e => pure e) hnext fun w e ks' hks he => .pure (.of (.plus he) rfl hks)
      simpa using hplus
    · apply (ih.primary ks).bind
      rintro e ks₁ ⟨w, hks, he⟩
      apply (parses_suffix hks he).mono
      rintro u ks₂ ⟨v, hv, hu⟩
      exact .of (.plain hu) rfl hv

theorem primary_takes {n : Nat} (ih : ExprTakes n) (ks : Kinds) :
    Parses false (primary (n + 1)) ks (Took Primary Expr.tree ks) := by
  refine silent_nextStart.andThen fun start => .peek ?_
  split
  · rename_i value hnext
    obtain ⟨ks₁, rfl⟩ := eq_cons_of_next hnext (by simp)
    refine .advance (silent_fresh.andThen fun _ => silent_get.andThen fun _ => ?_)
    exact .pure (.of (.literal value) rfl rfl)
  · rename_i hnext
    obtain ⟨ks₁, rfl⟩ := eq_cons_of_next hnext (by simp)
    refine .advance ((ih.assignment ks₁).bind ?_)
    rintro e ks₂ ⟨w, rfl, he⟩
    apply parses_expect (by simp)
    rintro _ ks₃ rfl
    exact .pure (.of (.parens he) rfl (by simp))
  · rename_i i hnext
    obtain ⟨ks₁, rfl⟩ := eq_cons_of_next hnext (by simp)
    refine .advance (silent_get.andThen fun _ => (ih.arguments ks₁).bind ?_)
    rintro args ks₂ ⟨w, rfl, hargs⟩
    refine silent_fresh.andThen fun _ => (silent_spanFrom start).andThen fun _ => ?_
    exact .pure (.of (.intrinsic i hargs) rfl (by simp))
  · rename_i name hnext
    obtain ⟨ks₁, rfl⟩ := eq_cons_of_next hnext (by simp)
    refine .advance (silent_get.andThen fun _ => .peek ?_)
    split
    · apply (ih.arguments ks₁).bind
      rintro args ks₂ ⟨w, rfl, hargs⟩
      refine silent_fresh.andThen fun _ => (silent_spanFrom start).andThen fun _ => ?_
      exact .pure (.of (.call name hargs) rfl (by simp))
    · exact silent_fresh.andThen fun _ => .pure (.of (.ident name) rfl rfl)
  · exact parses_unexpected _

theorem arguments_take {n : Nat} (ih : ExprTakes n) (ks : Kinds) : Parses false (arguments (n + 1)) ks fun es ks' =>
    ∃ w, ks = .punct .lparen :: w ++ .punct .rparen :: ks' ∧ Arguments w (Expr.trees es) := by
  apply parses_expect (by simp)
  rintro _ ks₁ rfl
  apply (ih.argumentsRest ks₁).bind
  rintro args ks₂ ⟨w, rfl, hargs⟩
  apply parses_expect (by simp)
  rintro _ ks₃ rfl
  exact .pure ⟨w, rfl, hargs⟩

theorem argumentsRest_takes {n : Nat} (ih : ExprTakes n) (ks : Kinds) :
    Parses false (argumentsRest (n + 1)) ks (Took Arguments Expr.trees ks) := by
  refine .peek ?_
  split
  · exact .pure (.of .none rfl rfl)
  · apply (ih.assignment ks).bind
    rintro arg ks₁ ⟨w, rfl, harg⟩
    refine .peek ?_
    split
    · apply parses_expect (by simp)
      rintro _ ks₂ rfl
      apply (ih.argumentsRest ks₂).bind
      rintro args ks₃ ⟨v, rfl, hargs⟩
      exact .pure (.of (.more harg hargs) rfl (by simp))
    · -- without a comma the parenthesis follows, which starts no argument
      rename_i hclose
      apply (ih.argumentsRest ks₁).bind
      rintro args ks₂ ⟨v, rfl, hargs⟩
      rcases hargs.begins with ⟨rfl, hnil⟩ | hbegins
      · refine .pure (.of (.last harg) ?_ rfl)
        rw [Expr.trees, hnil]
      · have hfirst := next_of_begins hbegins ks₂
        rw [not_ne_iff.1 hclose] at hfirst
        cases hfirst

theorem exprTakes (n : Nat) : ExprTakes n := by
  induction n with
  | zero => constructor <;> intros <;> exact parses_unexpected _
  | succ n ih =>
    refine ⟨assignment_takes ih, ?_, binaryRest_takes ih, unary_takes ih, primary_takes ih, arguments_take ih,
      argumentsRest_takes ih⟩
    intro level ks hlevel
    apply (ih.unary ks).bind
    rintro left ks₁ ⟨w, rfl, hleft⟩
    have hbelow : Below 12 ks₁ := fun op _ => Nat.lt_of_le_of_lt op.level_bounds.2 (by omega)
    apply (ih.binaryRest level 11 left w ks₁ (by omega) (.operand hleft) hbelow).mono
    rintro e ks₂ ⟨⟨v, rfl, he⟩, hend⟩
    exact ⟨.of he rfl (by simp), hend⟩

/-- an expression that is read is a word of the grammar -/
theorem parses_expression (ks : Kinds) : Parses false expression ks (Took Expression Expr.tree ks) :=
  .get fun s _ => (exprTakes s.calls).assignment ks

/-! ## Statements -/

theorem parses_condition (ks : Kinds) : Parses false condition ks (Took Condition Expr.tree ks) := by
  apply parses_expect (by simp)
  rintro _ ks₁ rfl
  apply (parses_expression ks₁).bind
  rintro e ks₂ ⟨w, rfl, he⟩
  apply parses_expect (by simp)
  rintro _ ks₃ rfl
  exact .pure (.of (.parens he) rfl (by simp))

theorem parses_someExpression (ks : Kinds) :
    Parses false (some <$> expression) ks fun found ks' => ∃ e, found = some e ∧
      Took Expression Expr.tree ks e ks' := by
  rw [map_eq_pure_bind]
  exact (parses_expression ks).bind fun e ks₁ he => .pure ⟨e, rfl, he⟩

theorem parses_unlessAt (kind : TokenKind) (ks : Kinds) :
    Parses false (unlessAt kind) ks (Took Optional (Option.map Expr.tree) ks) := by
  refine .peek ?_
  split
  · exact .pure (.of .none rfl rfl)
  · apply (parses_someExpression ks).mono
    rintro _ ks₁ ⟨e, rfl, w, hks, he⟩
    exact .of (.some he) rfl hks

/-- the rest of a declaration after its name -/
theorem parses_finishDecl {w ks ks₀ : Kinds} {ty : Ty} {name : String} (start : Nat) (nameSpan : Span)
    (hty : TypeName w ty) (hks : ks₀ = w ++ .ident name :: ks) :
    Parses false (finishDecl start ty name nameSpan) ks (Took Declaration VarDecl.tree ks₀) := by
  have rest : ∀ {init v ks₁}, ks = v ++ ks₁ → Initializer v (init.map Expr.tree) →
      Parses false (do expectSemicolon; return VarDecl.mk (← fresh) (← spanFrom start) name nameSpan ty init) ks₁
        (Took Declaration VarDecl.tree ks₀) := by
    intro init v ks₁ hv hinit
    apply parses_expectSemicolon
    rintro ks₂ rfl
    refine silent_fresh.andThen fun _ => (silent_spanFrom start).andThen fun _ => .pure ?_
    exact .of (.named name hty hinit) rfl (by simp [hks, hv])
  refine parses_eat (by simp) ?_ ?_
  · rintro ks₁ rfl
    apply (parses_someExpression ks₁).bind
    rintro _ ks₂ ⟨e, rfl, v, rfl, he⟩
    exact rest (v := .punct .assign :: v) rfl (.some he)
  · intro _
    exact rest (v := []) rfl .none

theorem parses_varDecl (ks : Kinds) : Parses false varDecl ks (Took Declaration VarDecl.tree ks) := by
  refine silent_nextStart.andThen fun start => parses_parseType ?_
  rintro w ty ks₁ rfl hty
  apply parses_expectName
  rintro name span ks₂ rfl
  exact parses_finishDecl start span hty rfl

theorem parses_forInit (ks : Kinds) : Parses false forInit ks (Took ForStart ForInit.tree ks) := by
  refine parses_eat (by simp) ?_ fun _ => .peek ?_
  · rintro ks₁ rfl
    exact .pure (.of .nothing rfl rfl)
  · split
    · apply (parses_varDecl ks).bind
      rintro d ks₁ ⟨w, rfl, hd⟩
      exact .pure (.of (.decl hd) rfl rfl)
    · refine silent_nextStart.andThen fun start => (parses_expression ks).bind ?_
      rintro e ks₁ ⟨w, rfl, he⟩
      apply parses_expectSemicolon
      rintro ks₂ rfl
      exact (silent_spanFrom start).andThen fun _ => .pure (.of (.expr he) rfl (by simp))

/-- a call has taken a statement, and if it is open no `else` follows -/
def TookStatement (ks : Kinds) (s : Stmt) (ks' : Kinds) : Prop :=
  ∃ isOpen, Took (Statement isOpen) Stmt.tree ks s ks' ∧ (isOpen = true → next ks' ≠ .keyword .else_)

/-- what the functions for statements take when they may nest `n` calls -/
structure StmtTakes (n : Nat) : Prop where
  statement : ∀ ks, Parses false (statement n) ks (TookStatement ks)
  block : ∀ ks, Parses false (block n) ks fun b ks' =>
    ∃ w, ks = .punct .lbrace :: w ++ .punct .rbrace :: ks' ∧ Statements w (Stmt.trees b.2)
  statements : ∀ ks, Parses false (statements n) ks (Took Statements Stmt.trees ks)

/-- statements that are never open -/
theorem TookStatement.of {ks ks' w : Kinds} {s : Stmt} {t : StmtTree} (h : Statement false w t) (ht : s.tree = t)
    (hks : ks = w ++ ks') : TookStatement ks s ks' := ⟨false, Took.of h ht hks, by simp⟩

theorem if_takes {n : Nat} (ih : StmtTakes n) (start : Nat) (ks : Kinds) :
    Parses false (do
        let cond ← condition
        let yes ← statement n
        if ← eat (.keyword .else_) then
          let no ← statement n
          return Stmt.ifElse (← spanFrom start) cond yes no
        else return Stmt.ifThen (← spanFrom start) cond yes) ks (TookStatement (.keyword .if_ :: ks)) := by
  apply (parses_condition ks).bind
  rintro cond ks₁ ⟨c, rfl, hcond⟩
  apply (ih.statement ks₁).bind
  rintro yes ks₂ ⟨isOpen, ⟨w, rfl, hyes⟩, hend⟩
  refine parses_eat (by simp) ?_ ?_
  · -- the branch before the `else` was not open, or the `else` would be part of it
    rintro ks₃ rfl
    have hclosed : isOpen = false := by
      by_contra hopen
      exact hend (by simpa using hopen) rfl
    subst hclosed
    apply (ih.statement ks₃).bind
    rintro no ks₄ ⟨isOpen', ⟨v, rfl, hno⟩, hend'⟩
    refine (silent_spanFrom start).andThen fun _ => .pure ⟨isOpen', ?_, hend'⟩
    exact .of (.ifElse hcond hyes hno) rfl (by simp)
  · intro hnext
    refine (silent_spanFrom start).andThen fun _ => .pure ⟨true, ?_, fun _ => hnext⟩
    exact .of (.ifThen hcond hyes) rfl (by simp)

theorem while_takes {n : Nat} (ih : StmtTakes n) (start : Nat) (ks : Kinds) :
    Parses false (do
        let cond ← condition
        let body ← statement n
        return Stmt.while_ (← spanFrom start) cond body) ks (TookStatement (.keyword .while_ :: ks)) := by
  apply (parses_condition ks).bind
  rintro cond ks₁ ⟨c, rfl, hcond⟩
  apply (ih.statement ks₁).bind
  rintro body ks₂ ⟨isOpen, ⟨w, rfl, hbody⟩, hend⟩
  refine (silent_spanFrom start).andThen fun _ => .pure ⟨isOpen, ?_, hend⟩
  exact .of (.while_ hcond hbody) rfl (by simp)

theorem do_takes {n : Nat} (ih : StmtTakes n) (start : Nat) (ks : Kinds) :
    Parses false (do
        let body ← statement n
        let _ ← expect (.keyword .while_) .whileAfterDo
        let cond ← condition
        expectSemicolon
        return Stmt.doWhile (← spanFrom start) body cond) ks (TookStatement (.keyword .do_ :: ks)) := by
  apply (ih.statement ks).bind
  rintro body ks₁ ⟨isOpen, ⟨w, rfl, hbody⟩, -⟩
  apply parses_expect (by simp)
  rintro _ ks₂ rfl
  apply (parses_condition ks₂).bind
  rintro cond ks₃ ⟨c, rfl, hcond⟩
  apply parses_expectSemicolon
  rintro ks₄ rfl
  exact (silent_spanFrom start).andThen fun _ => .pure (.of (.doWhile hbody hcond) rfl (by simp))

theorem for_takes {n : Nat} (ih : StmtTakes n) (start : Nat) (ks : Kinds) :
    Parses false (do
        let _ ← expect (.punct .lparen) .openParenAfterFor
        let init ← forInit
        let cond ← unlessAt (.punct .semicolon)
        let _ ← expect (.punct .semicolon) .semicolonAfterForCondition
        let step ← unlessAt (.punct .rparen)
        let _ ← expect (.punct .rparen) .closeParen
        let body ← statement n
        return Stmt.for_ (← spanFrom start) init cond step body) ks (TookStatement (.keyword .for_ :: ks)) := by
  apply parses_expect (by simp)
  rintro _ ks₁ rfl
  apply (parses_forInit ks₁).bind
  rintro init ks₂ ⟨i, rfl, hinit⟩
  apply (parses_unlessAt _ ks₂).bind
  rintro cond ks₃ ⟨c, rfl, hcond⟩
  apply parses_expect (by simp)
  rintro _ ks₄ rfl
  apply (parses_unlessAt _ ks₄).bind
  rintro step ks₅ ⟨p, rfl, hstep⟩
  apply parses_expect (by simp)
  rintro _ ks₆ rfl
  apply (ih.statement ks₆).bind
  rintro body ks₇ ⟨isOpen, ⟨w, rfl, hbody⟩, hend⟩
  refine (silent_spanFrom start).andThen fun _ => .pure ⟨isOpen, ?_, hend⟩
  exact .of (.for_ hinit hcond hstep hbody) rfl (by simp)

theorem statement_takes {n : Nat} (ih : StmtTakes n) (ks : Kinds) :
    Parses false (statement (n + 1)) ks (TookStatement ks) := by
  have decl : Parses false (do return Stmt.decl (← varDecl)) ks (TookStatement ks) := by
    apply (parses_varDecl ks).bind
    rintro d ks₁ ⟨w, rfl, hd⟩
    exact .pure (.of (.decl hd) rfl rfl)
  refine silent_nextStart.andThen fun start => .peek ?_
  split
  · apply (ih.block ks).bind
    rintro b ks₁ ⟨w, rfl, hb⟩
    exact .pure (.of (.block hb) rfl (by simp))
  · rename_i hnext
    obtain ⟨ks₁, rfl⟩ := eq_cons_of_next hnext (by simp)
    exact .advance (silent_get.andThen fun _ => .pure (.of .empty rfl rfl))
  · exact parses_rejectStruct
  · exact decl
  · exact decl
  · exact decl
  · exact decl
  · exact decl
  · rename_i hnext
    obtain ⟨ks₁, rfl⟩ := eq_cons_of_next hnext (by simp)
    exact .advance (if_takes ih start ks₁)
  · rename_i hnext
    obtain ⟨ks₁, rfl⟩ := eq_cons_of_next hnext (by simp)
    exact .advance (while_takes ih start ks₁)
  · rename_i hnext
    obtain ⟨ks₁, rfl⟩ := eq_cons_of_next hnext (by simp)
    exact .advance (do_takes ih start ks₁)
  · rename_i hnext
    obtain ⟨ks₁, rfl⟩ := eq_cons_of_next hnext (by simp)
    exact .advance (for_takes ih start ks₁)
  · rename_i hnext
    obtain ⟨ks₁, rfl⟩ := eq_cons_of_next hnext (by simp)
    refine .advance (parses_expectSemicolon ?_)
    rintro ks₂ rfl
    exact (silent_spanFrom start).andThen fun _ => .pure (.of .break_ rfl rfl)
  · rename_i hnext
    obtain ⟨ks₁, rfl⟩ := eq_cons_of_next hnext (by simp)
    refine .advance (parses_expectSemicolon ?_)
    rintro ks₂ rfl
    exact (silent_spanFrom start).andThen fun _ => .pure (.of .continue_ rfl rfl)
  · rename_i hnext
    obtain ⟨ks₁, rfl⟩ := eq_cons_of_next hnext (by simp)
    refine .advance ((parses_unlessAt _ ks₁).bind ?_)
    rintro value ks₂ ⟨w, rfl, hvalue⟩
    apply parses_expectSemicolon
    rintro ks₃ rfl
    exact (silent_spanFrom start).andThen fun _ => .pure (.of (.return_ hvalue) rfl (by simp))
  · apply (parses_expression ks).bind
    rintro e ks₁ ⟨w, rfl, he⟩
    apply parses_expectSemicolon
    rintro ks₂ rfl
    exact (silent_spanFrom start).andThen fun _ => .pure (.of (.expr he) rfl (by simp))

theorem block_takes {n : Nat} (ih : StmtTakes n) (ks : Kinds) : Parses false (block (n + 1)) ks fun b ks' =>
    ∃ w, ks = .punct .lbrace :: w ++ .punct .rbrace :: ks' ∧ Statements w (Stmt.trees b.2) := by
  apply parses_expect (by simp)
  rintro opening ks₁ rfl
  apply (ih.statements ks₁).bind
  rintro body ks₂ ⟨w, rfl, hbody⟩
  apply parses_expect (by simp)
  rintro _ ks₃ rfl
  exact (silent_spanFrom opening.start).andThen fun _ => .pure ⟨w, rfl, hbody⟩

theorem statements_take {n : Nat} (ih : StmtTakes n) (ks : Kinds) :
    Parses false (statements (n + 1)) ks (Took Statements Stmt.trees ks) := by
  refine .peek ?_
  split
  · exact .pure (.of .nil rfl rfl)
  · apply (ih.statement ks).bind
    rintro s ks₁ ⟨isOpen, ⟨w, rfl, hs⟩, -⟩
    apply (ih.statements ks₁).bind
    rintro rest ks₂ ⟨v, rfl, hrest⟩
    exact .pure (.of (.cons hs hrest) rfl (by simp))

theorem stmtTakes (n : Nat) : StmtTakes n := by
  induction n with
  | zero => constructor <;> intros <;> exact parses_unexpected _
  | succ n ih => exact ⟨statement_takes ih, block_takes ih, statements_take ih⟩

/-! ## Items -/

theorem parses_parameters (n : Nat) (ks : Kinds) :
    Parses false (parameters n) ks (Took Parameters (List.map Param.tree) ks) := by
  induction n generalizing ks with
  | zero => exact parses_unexpected _
  | succ n ih =>
    refine .peek ?_
    split
    · exact .pure (.of .none rfl rfl)
    · refine silent_nextStart.andThen fun start => parses_parseType ?_
      rintro w ty ks₁ rfl hty
      apply parses_expectName
      rintro name span ks₂ rfl
      refine silent_fresh.andThen fun id => (silent_spanFrom start).andThen fun paramSpan => .peek ?_
      split
      · apply parses_expect (by simp)
        rintro _ ks₃ rfl
        apply (ih ks₃).bind
        rintro rest ks₄ ⟨v, rfl, hrest⟩
        exact .pure (.of (.more (.named name hty) hrest) rfl (by simp))
      · -- without a comma the parenthesis follows, which starts no parameter
        rename_i hclose
        apply (ih ks₂).bind
        rintro rest ks₃ ⟨v, rfl, hrest⟩
        rcases hrest.begins with ⟨rfl, hnil⟩ | hbegins
        · refine .pure (.of (.last (.named name hty)) ?_ (by simp))
          rw [List.map_cons, hnil]
          rfl
        · have hfirst := next_of_begins hbegins ks₃
          rw [not_ne_iff.1 hclose] at hfirst
          cases hfirst

/-- the rest of a function after its name -/
theorem parses_finishFunction {ks ks₀ : Kinds} {b : Base} {name : String} (start : Nat) (nameSpan : Span)
    (hks : ks₀ = .keyword b.keyword :: .ident name :: ks) :
    Parses false (finishFunction start ⟨false, b⟩ name nameSpan) ks
      (Took Grammar.Item (fun f => .function f.tree) ks₀) := by
  apply parses_expect (by simp)
  rintro _ ks₁ rfl
  have body : ∀ {params : List Param} {p ks₂ : Kinds}, ks₁ = p ++ ks₂ → ParameterList p (params.map Param.tree) →
      Parses false (do
        let _ ← expect (.punct .rparen) .closeParen
        let found ← block (← get).calls
        return FunctionDecl.mk (← spanFrom start) name nameSpan ⟨false, b⟩ params found.1 found.2) ks₂
        (Took Grammar.Item (fun f => .function f.tree) ks₀) := by
    intro params p ks₂ hp hparams
    apply parses_expect (by simp)
    rintro _ ks₃ rfl
    refine .get fun s _ => ((stmtTakes s.calls).block ks₃).bind ?_
    rintro ⟨bodySpan, body⟩ ks₄ ⟨w, rfl, hbody⟩
    refine (silent_spanFrom start).andThen fun _ => .pure (.of (.function b name hparams hbody) rfl ?_)
    simp [hks, hp]
  refine .get fun s hs => ?_
  split
  · rename_i hvoid
    obtain ⟨ks₂, rfl⟩ : ∃ ks₂, ks₁ = .keyword .void :: .punct .rparen :: ks₂ := by
      rw [hs.kindAt 0, hs.kindAt 1] at hvoid
      rcases ks₁ with _ | ⟨k0, _ | ⟨k1, ks₂⟩⟩
      · simp at hvoid
      · simp at hvoid
      · exact ⟨ks₂, by simpa using hvoid⟩
    refine .advance (.get fun s' _ => (parses_parameters s'.calls _).bind ?_)
    rintro params ks₃ ⟨p, hp, hparams⟩
    rcases hparams.begins with ⟨rfl, hnil⟩ | hbegins
    · apply body (p := [.keyword .void]) (by simp [hp])
      rw [hnil]
      exact .void
    · have hfirst := next_of_begins hbegins ks₃
      rw [← hp] at hfirst
      cases hfirst
  · refine .get fun s' _ => (parses_parameters s'.calls ks₁).bind ?_
    rintro params ks₂ ⟨p, hp, hparams⟩
    exact body hp (.listed hparams)

theorem parses_item (ks : Kinds) : Parses false item ks (Took Grammar.Item Item.tree ks) := by
  refine silent_nextStart.andThen fun start => parses_parseType ?_
  rintro w ty ks₁ rfl hty
  apply parses_expectName
  rintro name span ks₂ rfl
  refine .peek ?_
  split
  · split
    · exact (silent_spanFrom start).andThen fun _ => parses_throw _
    · cases hty with
      | plain b => exact (parses_finishFunction start span rfl).bind fun f _ hf => .pure hf
      | const => exact absurd rfl ‹_›
  · apply (parses_finishDecl start span hty rfl).bind
    rintro d ks₃ ⟨v, hv, hd⟩
    exact .pure (.of (.global hd) rfl hv)

/-- the items end where the tokens do -/
theorem parses_items (n : Nat) (ks : Kinds) :
    Parses false (items n) ks fun found _ => Items ks (found.map Item.tree) := by
  induction n generalizing ks with
  | zero => exact parses_unexpected _
  | succ n ih =>
    refine .peek ?_
    split
    · rename_i hend
      refine .inside fun hinside => .pure ?_
      rw [eq_nil_of_next hend hinside]
      exact .nil
    · exact parses_rejectStruct
    · apply (parses_item ks).bind
      rintro first ks₁ ⟨w, rfl, hfirst⟩
      apply (ih ks₁).bind
      intro rest _ hrest
      exact .pure (.cons hfirst hrest)

end Parser

end C15

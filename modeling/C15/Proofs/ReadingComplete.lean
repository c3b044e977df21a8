/-
What is derived is read.

A call gets through a word of its nonterminal and gives the tree of the word (`Through`), if what follows cannot prolong
the word (`Ends`) and the call may nest enough others: eight for each token of the word. There is one lemma for each
rule of the grammar, and the recursion over derivations puts them together. The operators need a statement of their own,
`ReadsBinary`: where operands are read from a level on, the left operand of an operator leaves the reader in the loop
that reads the operator, with the tree of the operand in its hands.

With the converse, a program is read exactly if the grammar derives its tokens, and its tree is the only one it derives
(`parse_iff_derives`).
-/
import C15.Proofs.ReadingSound

namespace C15

namespace Parser

open Grammar

/-! ## What follows a word -/

/-- a token that prolongs no expression at a level: no argument list, no update mark, no operator of the level, and
below all levels no assignment -/
structure Ends (level : Nat) (kind : TokenKind) : Prop where
  call : kind ≠ .punct .lparen
  update : suffixOp? kind = none
  lower : ∀ op : BinOp, kind = .punct op.mark → op.level < level
  assign : level = 0 → assignOp? kind = none

namespace Ends

variable {level level' : Nat} {kind : TokenKind}

theorem mono (h : Ends level kind) (hle : level ≤ level') : Ends level' kind where
  call := h.call
  update := h.update
  lower := fun op hop => Nat.lt_of_lt_of_le (h.lower op hop) hle
  assign := fun hzero => h.assign (by omega)

/-- every operator can follow an operand -/
theorem operand (h : Ends level kind) : Ends 11 kind where
  call := h.call
  update := h.update
  lower := fun op _ => Nat.lt_succ_of_le op.level_bounds.2
  assign := by simp

theorem mark (op : BinOp) : Ends (op.level + 1) (.punct op.mark) where
  call := by cases op <;> simp [BinOp.mark]
  update := by cases op <;> rfl
  lower := by
    intro op' hmark
    have hop := binaryOp?_mark op
    rw [hmark, binaryOp?_mark, Option.some.injEq, Prod.mk.injEq] at hop
    omega
  assign := by simp

/-- no operator is read at a mark that is none -/
theorem lower_of_none (h : binaryOp? kind = none) (op : BinOp) (hop : kind = .punct op.mark) : op.level < level := by
  rw [hop, binaryOp?_mark] at h
  cases h

theorem assignMark {op : Option BinOp} {mark : Punct} (h : assignMark? op = some mark) : Ends 1 (.punct mark) := by
  unfold assignMark? at h
  split at h
  all_goals simp only [Option.some.injEq, reduceCtorEq] at h
  all_goals
    subst h
    exact ⟨by simp, rfl, lower_of_none rfl, by simp⟩

theorem rparen : Ends 0 (.punct .rparen) := ⟨by simp, rfl, lower_of_none rfl, fun _ => rfl⟩

theorem comma : Ends 0 (.punct .comma) := ⟨by simp, rfl, lower_of_none rfl, fun _ => rfl⟩

theorem semicolon : Ends 0 (.punct .semicolon) := ⟨by simp, rfl, lower_of_none rfl, fun _ => rfl⟩

end Ends

/-! ## Expressions -/

/-- a call gets through the word `w` in front of `ks` and gives the tree `t` -/
def Through {α τ : Type} (x : Parser α) (view : α → τ) (w : Kinds) (t : τ) (ks : Kinds) : Prop :=
  Parses true x (w ++ ks) fun a ks' => view a = t ∧ ks' = ks

theorem Through.andThen {α β τ : Type} {x : Parser α} {view : α → τ} {w : Kinds} {t : τ} {ks : Kinds} {f : α → Parser β}
    {R : β → Kinds → Prop} (hx : Through x view w t ks) (hf : ∀ a, view a = t → Parses true (f a) ks R) :
    Parses true (x >>= f) (w ++ ks) R := by
  refine Parses.bind hx ?_
  rintro a _ ⟨ha, rfl⟩
  exact hf a ha

def ReadsExpression (w : Kinds) (t : ExprTree) : Prop :=
  ∀ n ks, 8 * w.length ≤ n → Ends 0 (next ks) → Through (assignment n) Expr.tree w t ks

/-- reading operands from a level on comes to the word's end with its tree as the left operand -/
def ReadsBinary (k : Nat) (w : Kinds) (t : ExprTree) : Prop :=
  ∀ n level ks (R : Expr → Kinds → Prop), level ≤ k → 8 * w.length ≤ n + 1 → Ends (k + 1) (next ks) →
    (∀ m e, n ≤ m + w.length → e.tree = t → Parses true (binaryRest m level e) ks R) →
      Parses true (binary n level) (w ++ ks) R

def ReadsUnary (w : Kinds) (t : ExprTree) : Prop :=
  ∀ n ks, 8 * w.length ≤ n + 2 → Ends 11 (next ks) → Through (unary n) Expr.tree w t ks

def ReadsPostfix (w : Kinds) (t : ExprTree) : Prop :=
  ∀ n ks, 8 * w.length ≤ n + 3 → Ends 11 (next ks) → Through (do let e ← primary n; suffix e) Expr.tree w t ks

def ReadsPrimary (w : Kinds) (t : ExprTree) : Prop :=
  ∀ n ks, 8 * w.length ≤ n + 3 → next ks ≠ .punct .lparen → Through (primary n) Expr.tree w t ks

def ReadsArguments (w : Kinds) (ts : List ExprTree) : Prop :=
  ∀ n ks, 8 * w.length + 1 ≤ n → next ks = .punct .rparen → Through (argumentsRest n) Expr.trees w ts ks

/-! ### Primaries -/

theorem readsPrimary_literal (value : Literal) : ReadsPrimary [.literal value] (.literal value) := by
  intro n ks hn _
  obtain ⟨m, rfl⟩ : ∃ m, n = m + 1 := ⟨n - 1, by simp at hn; omega⟩
  refine silent_nextStart.andThen fun start => .peek (.advance ?_)
  exact silent_fresh.andThen fun _ => silent_get.andThen fun _ => .pure ⟨rfl, rfl⟩

theorem readsPrimary_ident (name : String) : ReadsPrimary [.ident name] (.ident name) := by
  intro n ks hn hcall
  obtain ⟨m, rfl⟩ : ∃ m, n = m + 1 := ⟨n - 1, by simp at hn; omega⟩
  change Parses true (primary (m + 1)) (.ident name :: ks) _
  refine silent_nextStart.andThen fun start => .peek (.advance (silent_get.andThen fun _ => .peek ?_))
  rw [if_neg hcall]
  exact silent_fresh.andThen fun _ => .pure ⟨rfl, rfl⟩

/-- arguments in parentheses -/
theorem through_arguments {w : Kinds} {ts : List ExprTree} {n : Nat} (ih : ReadsArguments w ts)
    (hn : 8 * w.length + 2 ≤ n) (ks : Kinds) :
    Through (arguments n) Expr.trees (.punct .lparen :: w ++ [.punct .rparen]) ts ks := by
  obtain ⟨m, rfl⟩ : ∃ m, n = m + 1 := ⟨n - 1, by omega⟩
  unfold Through
  rw [List.append_assoc]
  refine .expect fun _ => (ih m _ (by omega) rfl).andThen fun args hargs => ?_
  exact .expect fun _ => .pure ⟨hargs, rfl⟩

theorem readsPrimary_call {w : Kinds} {ts : List ExprTree} (name : String) (ih : ReadsArguments w ts) :
    ReadsPrimary (.ident name :: .punct .lparen :: w ++ [.punct .rparen]) (.call name ts) := by
  intro n ks hn _
  simp only [List.cons_append, List.length_cons, List.length_append, List.length_nil] at hn
  obtain ⟨m, rfl⟩ : ∃ m, n = m + 1 := ⟨n - 1, by omega⟩
  refine silent_nextStart.andThen fun start => .peek (.advance (silent_get.andThen fun _ => .peek ?_))
  refine (through_arguments ih (by omega) ks).andThen fun args hargs => ?_
  refine silent_fresh.andThen fun _ => (silent_spanFrom start).andThen fun _ => .pure ⟨?_, rfl⟩
  rw [Expr.tree, hargs]

theorem readsPrimary_intrinsic {w : Kinds} {ts : List ExprTree} (i : Intrinsic) (ih : ReadsArguments w ts) :
    ReadsPrimary (.intrinsic i :: .punct .lparen :: w ++ [.punct .rparen]) (.intrinsic i ts) := by
  intro n ks hn _
  simp only [List.cons_append, List.length_cons, List.length_append, List.length_nil] at hn
  obtain ⟨m, rfl⟩ : ∃ m, n = m + 1 := ⟨n - 1, by omega⟩
  refine silent_nextStart.andThen fun start => .peek (.advance (silent_get.andThen fun _ => ?_))
  refine (through_arguments ih (by omega) ks).andThen fun args hargs => ?_
  refine silent_fresh.andThen fun _ => (silent_spanFrom start).andThen fun _ => .pure ⟨?_, rfl⟩
  rw [Expr.tree, hargs]

theorem readsPrimary_parens {w : Kinds} {t : ExprTree} (ih : ReadsExpression w t) :
    ReadsPrimary (.punct .lparen :: w ++ [.punct .rparen]) t := by
  intro n ks hn _
  simp only [List.cons_append, List.length_cons, List.length_append, List.length_nil] at hn
  obtain ⟨m, rfl⟩ : ∃ m, n = m + 1 := ⟨n - 1, by omega⟩
  unfold Through
  rw [List.append_assoc]
  refine silent_nextStart.andThen fun start => .peek (.advance ?_)
  exact (ih m (.punct .rparen :: ks) (by omega) .rparen).andThen fun e he => .expect fun _ => .pure ⟨he, rfl⟩

theorem readsArguments_none : ReadsArguments [] [] := by
  intro n ks hn hclose
  obtain ⟨m, rfl⟩ : ∃ m, n = m + 1 := ⟨n - 1, by simp at hn; omega⟩
  refine .peek ?_
  rw [List.nil_append, if_pos hclose]
  exact .pure ⟨rfl, rfl⟩

/-- a word does not begin with a token outside its class -/
theorem next_ne {p : TokenKind → Bool} {w : Kinds} {kind : TokenKind} (h : Begins p w) (hp : p kind = false)
    (ks : Kinds) : next (w ++ ks) ≠ kind := by
  intro hnext
  have hfirst := next_of_begins h ks
  rw [hnext, hp] at hfirst
  cases hfirst

theorem readsArguments_last {w : Kinds} {t : ExprTree} (h : Expression w t) (ih : ReadsExpression w t) :
    ReadsArguments w [t] := by
  intro n ks hn hclose
  obtain ⟨m, rfl⟩ : ∃ m, n = m + 1 := ⟨n - 1, by omega⟩
  have hpos := h.begins.length_pos
  refine .peek ?_
  rw [if_neg (next_ne h.begins rfl ks)]
  refine (ih m ks (by omega) (hclose ▸ .rparen)).andThen fun arg harg => .peek ?_
  rw [if_neg (not_not_intro hclose)]
  refine (readsArguments_none m ks (by simp; omega) hclose).andThen fun args hargs => .pure ⟨?_, rfl⟩
  rw [Expr.trees, harg, hargs]

theorem readsArguments_more {w v : Kinds} {t : ExprTree} {ts : List ExprTree} (h : Expression w t)
    (ih : ReadsExpression w t) (ihs : ReadsArguments v ts) : ReadsArguments (w ++ .punct .comma :: v) (t :: ts) := by
  intro n ks hn hclose
  rw [List.length_append, List.length_cons] at hn
  obtain ⟨m, rfl⟩ : ∃ m, n = m + 1 := ⟨n - 1, by omega⟩
  have hpos := h.begins.length_pos
  unfold Through
  rw [List.append_assoc]
  refine .peek ?_
  rw [if_neg (next_ne h.begins rfl _)]
  refine (ih m (.punct .comma :: (v ++ ks)) (by omega) .comma).andThen fun arg harg => .peek ?_
  refine .expect fun _ => (ihs m ks (by omega) hclose).andThen fun args hargs => .pure ⟨?_, rfl⟩
  rw [Expr.trees, harg, hargs]

/-! ### Operands -/

/-- no update mark follows -/
theorem parses_suffix_none {e : Expr} {ks : Kinds} {R : Expr → Kinds → Prop} (hnext : suffixOp? (next ks) = none)
    (h : R e ks) : Parses true (suffix e) ks R := by
  refine .peek ?_
  rw [hnext]
  exact .pure h

theorem parses_suffix_mark {e : Expr} {x : String} {kind : TokenKind} {op : UpdateOp} {ks : Kinds}
    (he : e.tree = .ident x) (hop : suffixOp? kind = some op) (hnext : suffixOp? (next ks) = none) :
    Parses true (suffix e) (kind :: ks) fun u ks' => u.tree = .update op x ∧ ks' = ks := by
  refine .peek ?_
  rw [next_cons, hop]
  refine .advance (silent_get.andThen fun _ => ?_)
  refine Parses.bind (P := fun u ks' => u.tree = .update op x ∧ ks' = ks) (.mkUpdate he fun u hu => ⟨hu, rfl⟩) ?_
  rintro u _ ⟨hu, rfl⟩
  refine .peek ?_
  rw [hnext]
  exact .pure ⟨hu, rfl⟩

theorem readsPostfix_plain {w : Kinds} {t : ExprTree} (ih : ReadsPrimary w t) : ReadsPostfix w t := by
  intro n ks hn hend
  exact (ih n ks hn hend.call).andThen fun e he => parses_suffix_none hend.update ⟨he, rfl⟩

theorem readsPostfix_mark {w : Kinds} {x : String} {mark : Punct} {op : UpdateOp} (ih : ReadsPrimary w (.ident x))
    (hop : suffixOp? (.punct mark) = some op) (hmark : mark ≠ .lparen) :
    ReadsPostfix (w ++ [.punct mark]) (.update op x) := by
  intro n ks hn hend
  rw [List.length_append, List.length_singleton] at hn
  unfold Through
  rw [List.append_assoc]
  refine (ih n (.punct mark :: ks) (by omega) (by simpa using hmark)).andThen fun e he => ?_
  exact parses_suffix_mark he hop hend.update

/-- a word that does not start with a parenthesis starts no cast -/
theorem not_cast_of_next {ks : Kinds} (h : next ks ≠ .punct .lparen) (b : Base) (ks' : Kinds) : ¬ Cast b ks' ks := by
  rintro ⟨-, rfl⟩
  exact h rfl

/-- behind a parenthesis an expression starts, and no type -/
theorem not_cast_of_primary {w : Kinds} {t : ExprTree} (h : Primary w t) (ks : Kinds) (b : Base) (ks' : Kinds) :
    ¬ Cast b ks' (w ++ ks) := by
  rintro ⟨-, hcast⟩
  cases h with
  | literal | ident | call | intrinsic => cases hcast
  | @parens w _ h =>
    obtain ⟨kind, v, rfl, hkind⟩ := h.begins
    obtain ⟨rfl, -⟩ : kind = .keyword b.keyword ∧ _ := by simpa using hcast
    cases hkind

theorem not_cast_of_operand {w : Kinds} {t : ExprTree} (h : Postfix w t) (ks : Kinds) (b : Base) (ks' : Kinds) :
    ¬ Cast b ks' (w ++ ks) := by
  cases h with
  | plain h => exact not_cast_of_primary h ks b ks'
  | plusPlus h | minusMinus h =>
    rw [List.append_assoc]
    exact not_cast_of_primary h _ b ks'

theorem readsUnary_plain {w : Kinds} {t : ExprTree} (h : Postfix w t) (ih : ReadsPostfix w t) : ReadsUnary w t := by
  intro n ks hn hend
  have hpos := h.begins.length_pos
  obtain ⟨m, rfl⟩ : ∃ m, n = m + 1 := ⟨n - 1, by omega⟩
  refine silent_nextStart.andThen fun start => parses_atCast ?_ fun _ => .peek ?_
  · intro b ks' hcast
    exact absurd hcast (not_cast_of_operand h ks b ks')
  · have hfirst := next_of_begins h.begins ks
    split
    case h_7 => exact ih m ks (by omega) hend
    all_goals
      rename_i hnext
      rw [hnext] at hfirst
      cases hfirst

/-- a mark in front of an operand: there is no cast, and the branch for the mark reads the operand -/
theorem parses_behind_mark {w : Kinds} {t : ExprTree} {mark : Punct} {n : Nat} {ks : Kinds} {f : Expr → Parser Expr}
    {g : TokenKind → Parser Expr} {R : Expr → Kinds → Prop} {cast : Parser Expr} (ih : ReadsUnary w t)
    (hn : 8 * (TokenKind.punct mark :: w).length ≤ n + 1 + 2) (hend : Ends 11 (next ks)) (hmark : mark ≠ .lparen)
    (hg : g (.punct mark) = do advance; let e ← unary n; f e) (hf : ∀ e, e.tree = t → Parses true (f e) ks R) :
    Parses true (do if ← atCast then cast else g (← peek)) (.punct mark :: w ++ ks) R := by
  rw [List.length_cons] at hn
  refine parses_atCast ?_ fun _ => .peek ?_
  · intro b ks' hcast
    exact absurd hcast (not_cast_of_next (by simpa using hmark) b ks')
  · rw [List.cons_append, next_cons, hg]
    exact .advance ((ih n ks (by omega) hend).andThen hf)

theorem readsUnary_plus {w : Kinds} {t : ExprTree} (ih : ReadsUnary w t) : ReadsUnary (.punct .plus :: w) t := by
  intro n ks hn hend
  obtain ⟨m, rfl⟩ : ∃ m, n = m + 1 := ⟨n - 1, by simp at hn; omega⟩
  refine silent_nextStart.andThen fun start =>
    parses_behind_mark (f := fun e => pure e) ih hn hend (by simp) (by simp) ?_
  exact fun e he => .pure ⟨he, rfl⟩

theorem readsUnary_minus {w : Kinds} {t : ExprTree} (ih : ReadsUnary w t) :
    ReadsUnary (.punct .minus :: w) t.negate := by
  intro n ks hn hend
  obtain ⟨m, rfl⟩ : ∃ m, n = m + 1 := ⟨n - 1, by simp at hn; omega⟩
  refine silent_nextStart.andThen fun start => parses_behind_mark ih hn hend (by simp) rfl fun e he => ?_
  exact (silent_spanFrom start).andThen fun _ => .negate fun e' he' => ⟨he ▸ he', rfl⟩

theorem readsUnary_not {w : Kinds} {t : ExprTree} (ih : ReadsUnary w t) :
    ReadsUnary (.punct .not :: w) (.unary .not t) := by
  intro n ks hn hend
  obtain ⟨m, rfl⟩ : ∃ m, n = m + 1 := ⟨n - 1, by simp at hn; omega⟩
  refine silent_nextStart.andThen fun start => parses_behind_mark ih hn hend (by simp) rfl fun e he => ?_
  exact silent_fresh.andThen fun _ => (silent_spanFrom start).andThen fun _ => .pure ⟨he ▸ rfl, rfl⟩

theorem readsUnary_tilde {w : Kinds} {t : ExprTree} (ih : ReadsUnary w t) :
    ReadsUnary (.punct .tilde :: w) (.unary .bitNot t) := by
  intro n ks hn hend
  obtain ⟨m, rfl⟩ : ∃ m, n = m + 1 := ⟨n - 1, by simp at hn; omega⟩
  refine silent_nextStart.andThen fun start => parses_behind_mark ih hn hend (by simp) rfl fun e he => ?_
  exact silent_fresh.andThen fun _ => (silent_spanFrom start).andThen fun _ => .pure ⟨he ▸ rfl, rfl⟩

theorem readsUnary_plusPlus {w : Kinds} {x : String} (ih : ReadsUnary w (.ident x)) :
    ReadsUnary (.punct .plusPlus :: w) (.update .preInc x) := by
  intro n ks hn hend
  obtain ⟨m, rfl⟩ : ∃ m, n = m + 1 := ⟨n - 1, by simp at hn; omega⟩
  refine silent_nextStart.andThen fun start => parses_behind_mark ih hn hend (by simp) rfl fun e he => ?_
  exact (silent_spanFrom start).andThen fun _ => .mkUpdate he fun u hu => ⟨hu, rfl⟩

theorem readsUnary_minusMinus {w : Kinds} {x : String} (ih : ReadsUnary w (.ident x)) :
    ReadsUnary (.punct .minusMinus :: w) (.update .preDec x) := by
  intro n ks hn hend
  obtain ⟨m, rfl⟩ : ∃ m, n = m + 1 := ⟨n - 1, by simp at hn; omega⟩
  refine silent_nextStart.andThen fun start => parses_behind_mark ih hn hend (by simp) rfl fun e he => ?_
  exact (silent_spanFrom start).andThen fun _ => .mkUpdate he fun u hu => ⟨hu, rfl⟩

theorem readsUnary_cast {w : Kinds} {t : ExprTree} {b : Base} (hb : b ≠ .void) (ih : ReadsUnary w t) :
    ReadsUnary (.punct .lparen :: .keyword b.keyword :: .punct .rparen :: w) (.cast b t) := by
  intro n ks hn hend
  simp only [List.length_cons] at hn
  obtain ⟨m, rfl⟩ : ∃ m, n = m + 1 := ⟨n - 1, by omega⟩
  change Parses true (unary (m + 1)) (.punct .lparen :: ([.keyword b.keyword] ++ .punct .rparen :: (w ++ ks))) _
  refine silent_nextStart.andThen fun start => parses_atCast ?_ ?_
  · rintro _ _ -
    refine .advance (.parseType (.plain b) (.advance ((ih m ks (by omega) hend).andThen fun e he => ?_)))
    exact silent_fresh.andThen fun _ => (silent_spanFrom start).andThen fun _ => .pure ⟨he ▸ rfl, rfl⟩
  · intro hcast
    exact absurd ⟨hb, rfl⟩ (hcast b (w ++ ks))

/-! ### Operators -/

/-- the loop for operators ends at a token that is none of its level -/
theorem parses_binaryRest_end {m level : Nat} {e : Expr} {ks : Kinds} {R : Expr → Kinds → Prop} (hm : 0 < m)
    (hend : Ends (max 1 level) (next ks)) (h : R e ks) : Parses true (binaryRest m level e) ks R := by
  obtain ⟨m, rfl⟩ : ∃ m', m = m' + 1 := ⟨m - 1, by omega⟩
  refine .peek ?_
  split
  · exact .pure h
  · rename_i op opLevel hop
    obtain ⟨hnext, rfl⟩ := eq_mark_of_binaryOp? hop
    have hlow := hend.lower op hnext
    have hlevel := op.level_bounds
    rw [if_pos (by omega)]
    exact .pure h

/-- operands from a level on, up to a token that is no operator of the level -/
theorem ReadsBinary.through {k n level : Nat} {w : Kinds} {t : ExprTree} {ks : Kinds} (ih : ReadsBinary k w t)
    (hw : 0 < w.length) (hk : max 1 level ≤ k) (hn : 8 * w.length ≤ n + 1) (hend : Ends (max 1 level) (next ks)) :
    Through (binary n level) Expr.tree w t ks := by
  refine ih n level ks _ (by omega) hn (hend.mono (by omega)) ?_
  intro m e hm he
  exact parses_binaryRest_end (by omega) hend ⟨he, rfl⟩

theorem readsBinary_operand {w : Kinds} {t : ExprTree} (h : Unary w t) (ih : ReadsUnary w t) : ReadsBinary 11 w t := by
  intro n level ks R _ hn hend hrest
  have hpos := h.begins.length_pos
  obtain ⟨m, rfl⟩ : ∃ m, n = m + 1 := ⟨n - 1, by omega⟩
  exact (ih m ks (by omega) hend.operand).andThen fun e he => hrest m e (by omega) he

theorem readsBinary_tighter {k : Nat} {w : Kinds} {t : ExprTree} (ih : ReadsBinary (k + 1) w t) :
    ReadsBinary k w t := by
  intro n level ks R hlevel hn hend hrest
  exact ih n level ks R (by omega) hn (hend.mono (by omega)) hrest

theorem readsBinary_join {w v : Kinds} {a b : ExprTree} (op : BinOp) (hv : 0 < v.length)
    (ihl : ReadsBinary op.level w a) (ihr : ReadsBinary (op.level + 1) v b) :
    ReadsBinary op.level (w ++ .punct op.mark :: v) (.binary op a b) := by
  intro n level ks R hlevel hn hend hrest
  rw [List.length_append, List.length_cons] at hn
  rw [List.append_assoc]
  refine ihl n level (.punct op.mark :: (v ++ ks)) R hlevel (by omega) (.mark op) ?_
  -- the left operand is read, and the loop stands before the operator
  intro m lhs hm hlhs
  obtain ⟨m, rfl⟩ : ∃ m', m = m' + 1 := ⟨m - 1, by omega⟩
  refine .peek ?_
  rw [next_cons, binaryOp?_mark]
  dsimp only
  rw [if_neg (by omega)]
  have hmax : max 1 (op.level + 1) = op.level + 1 := by omega
  refine .advance ((ihr.through hv (by omega) (by omega) (hmax ▸ hend)).andThen fun rhs hrhs =>
    silent_fresh.andThen fun id => ?_)
  refine hrest m _ ?_ ?_
  · rw [List.length_append, List.length_cons]
    omega
  · rw [Expr.tree, hlhs, hrhs]

theorem readsExpression_plain {w : Kinds} {t : ExprTree} (h : Binary 1 w t) (ih : ReadsBinary 1 w t) :
    ReadsExpression w t := by
  intro n ks hn hend
  have hpos := h.begins.length_pos
  obtain ⟨m, rfl⟩ : ∃ m, n = m + 1 := ⟨n - 1, by omega⟩
  refine (ih.through hpos (by omega) (by omega) (hend.mono (by omega))).andThen fun lhs hlhs => .peek ?_
  rw [hend.assign rfl]
  exact .pure ⟨hlhs, rfl⟩

theorem readsExpression_assign {w v : Kinds} {x : String} {t : ExprTree} {op : Option BinOp} {mark : Punct}
    (target : Unary w (.ident x)) (hmark : assignMark? op = some mark) (ih : ReadsUnary w (.ident x))
    (ihv : ReadsExpression v t) : ReadsExpression (w ++ .punct mark :: v) (.assign op x t) := by
  intro n ks hn hend
  rw [List.length_append, List.length_cons] at hn
  have hpos := target.begins.length_pos
  obtain ⟨m, rfl⟩ : ∃ m, n = m + 1 := ⟨n - 1, by omega⟩
  unfold Through
  rw [List.append_assoc]
  have hleft : Through (binary m 0) Expr.tree w (.ident x) (.punct mark :: (v ++ ks)) :=
    (readsBinary_operand target ih).through hpos (by omega) (by omega) (.assignMark hmark)
  refine hleft.andThen fun lhs hlhs => .peek ?_
  obtain ⟨id, span, rfl⟩ := Expr.eq_ident_of_tree hlhs
  rw [next_cons, assignOp?_mark hmark]
  refine .advance ((ihv m ks (by omega) hend).andThen fun value hvalue => silent_fresh.andThen fun _ => .pure ⟨?_, rfl⟩)
  rw [Expr.tree, hvalue]

/-! ### All expressions -/

mutual

theorem readsExpression {w : Kinds} {t : ExprTree} : Expression w t → ReadsExpression w t
  | .plain h => readsExpression_plain h (readsBinary h)
  | .assign target hmark value => readsExpression_assign target hmark (readsUnary target) (readsExpression value)

theorem readsBinary {k : Nat} {w : Kinds} {t : ExprTree} : Binary k w t → ReadsBinary k w t
  | .operand h => readsBinary_operand h (readsUnary h)
  | .tighter h => readsBinary_tighter (readsBinary h)
  | .join op lhs rhs => readsBinary_join op rhs.begins.length_pos (readsBinary lhs) (readsBinary rhs)

theorem readsUnary {w : Kinds} {t : ExprTree} : Unary w t → ReadsUnary w t
  | .plain h => readsUnary_plain h (readsPostfix h)
  | .plus h => readsUnary_plus (readsUnary h)
  | .minus h => readsUnary_minus (readsUnary h)
  | .not h => readsUnary_not (readsUnary h)
  | .tilde h => readsUnary_tilde (readsUnary h)
  | .plusPlus h => readsUnary_plusPlus (readsUnary h)
  | .minusMinus h => readsUnary_minusMinus (readsUnary h)
  | .cast hb h => readsUnary_cast hb (readsUnary h)

theorem readsPostfix {w : Kinds} {t : ExprTree} : Postfix w t → ReadsPostfix w t
  | .plain h => readsPostfix_plain (readsPrimary h)
  | .plusPlus h => readsPostfix_mark (readsPrimary h) rfl (by simp)
  | .minusMinus h => readsPostfix_mark (readsPrimary h) rfl (by simp)

theorem readsPrimary {w : Kinds} {t : ExprTree} : Primary w t → ReadsPrimary w t
  | .literal value => readsPrimary_literal value
  | .ident name => readsPrimary_ident name
  | .call name h => readsPrimary_call name (readsArguments h)
  | .intrinsic i h => readsPrimary_intrinsic i (readsArguments h)
  | .parens h => readsPrimary_parens (readsExpression h)

theorem readsArguments {w : Kinds} {ts : List ExprTree} : Arguments w ts → ReadsArguments w ts
  | .none => readsArguments_none
  | .last h => readsArguments_last h (readsExpression h)
  | .more h rest => readsArguments_more h (readsExpression h) (readsArguments rest)

end

theorem through_expression {w : Kinds} {t : ExprTree} {ks : Kinds} (h : Expression w t) (hend : Ends 0 (next ks)) :
    Through expression Expr.tree w t ks := by
  refine .get fun s hs => ?_
  have hcalls := hs.calls
  rw [List.length_append] at hcalls
  exact readsExpression h s.calls ks (by omega) hend

/-! ## Declarations and headers -/

theorem through_condition {w : Kinds} {t : ExprTree} (h : Condition w t) (ks : Kinds) :
    Through condition Expr.tree w t ks := by
  cases h with
  | @parens w _ h =>
    unfold Through
    rw [List.append_assoc]
    have hinner : Through expression Expr.tree w t (.punct .rparen :: ks) := through_expression h .rparen
    exact .expect fun _ => hinner.andThen fun e he => .expect fun _ => .pure ⟨he, rfl⟩

theorem through_someExpression {w : Kinds} {t : ExprTree} {ks : Kinds} (h : Expression w t) (hend : Ends 0 (next ks)) :
    Through (some <$> expression) (Option.map Expr.tree) w (some t) ks := by
  unfold Through
  rw [map_eq_pure_bind]
  refine (through_expression h hend).andThen fun e he => .pure ⟨?_, rfl⟩
  rw [Option.map_some, he]

theorem through_unlessAt {kind : TokenKind} {w : Kinds} {t : Option ExprTree} {ks : Kinds} (h : Optional w t)
    (hkind : startsExpression kind = false) (hend : Ends 0 kind) (hnext : next ks = kind) :
    Through (unlessAt kind) (Option.map Expr.tree) w t ks := by
  refine .peek ?_
  cases h with
  | none =>
    rw [List.nil_append, if_pos hnext]
    exact .pure ⟨rfl, rfl⟩
  | some h =>
    rw [if_neg (next_ne h.begins hkind ks)]
    exact through_someExpression h (hnext ▸ hend)

theorem through_finishDecl {v : Kinds} {init : Option ExprTree} (start : Nat) (ty : Ty) (name : String)
    (nameSpan : Span) (h : Initializer v init) (ks : Kinds) :
    Through (finishDecl start ty name nameSpan) VarDecl.tree (v ++ [.punct .semicolon]) ⟨ty, name, init⟩ ks := by
  have rest : ∀ found : Option Expr, found.map Expr.tree = init →
      Parses true (do expectSemicolon; return VarDecl.mk (← fresh) (← spanFrom start) name nameSpan ty found)
        (.punct .semicolon :: ks) fun d ks' => d.tree = ⟨ty, name, init⟩ ∧ ks' = ks := by
    rintro found rfl
    exact .expectSemicolon (silent_fresh.andThen fun _ => (silent_spanFrom start).andThen fun _ => .pure ⟨rfl, rfl⟩)
  unfold Through
  rw [List.append_assoc]
  cases h with
  | none => exact .eat_other (by simp) (rest none rfl)
  | @some w t h =>
    have hvalue : Through (some <$> expression) (Option.map Expr.tree) w (some t) (.punct .semicolon :: ks) :=
      through_someExpression h .semicolon
    exact .eat (hvalue.andThen rest)

theorem through_varDecl {w : Kinds} {d : DeclTree} (h : Declaration w d) (ks : Kinds) :
    Through varDecl VarDecl.tree w d ks := by
  cases h with
  | @named w v ty init name hty hinit =>
    have hword : w ++ .ident name :: v ++ [.punct .semicolon] ++ ks =
        w ++ .ident name :: (v ++ [.punct .semicolon] ++ ks) := by simp
    unfold Through
    rw [hword]
    refine silent_nextStart.andThen fun start => .parseType hty (.expectName fun span => ?_)
    exact through_finishDecl start ty name span hinit ks

theorem eq_of_startsType {kind : TokenKind} (h : kind.startsType = true) :
    kind = .keyword .int ∨ kind = .keyword .uint ∨ kind = .keyword .float ∨ kind = .keyword .void ∨
      kind = .keyword .const := by
  cases kind with
  | keyword k => cases k <;> simp_all [TokenKind.startsType, Keyword.startsType]
  | _ => cases h

theorem not_startsType {kind : TokenKind} (h : startsExpression kind = true) : ¬ kind.startsType = true := by
  cases kind with
  | keyword => cases h
  | _ => simp [TokenKind.startsType]

theorem through_forInit {w : Kinds} {i : ForTree} (h : ForStart w i) (ks : Kinds) :
    Through forInit ForInit.tree w i ks := by
  cases h with
  | nothing => exact .eat (.pure ⟨rfl, rfl⟩)
  | decl h =>
    refine .eat_other (next_ne h.begins rfl ks) (.peek ?_)
    rw [if_pos (next_of_begins h.begins ks)]
    refine (through_varDecl h ks).andThen fun d hd => .pure ⟨?_, rfl⟩
    rw [ForInit.tree, hd]
  | @expr w t h =>
    unfold Through
    rw [List.append_assoc]
    refine .eat_other (next_ne h.begins rfl _) (.peek ?_)
    rw [if_neg (not_startsType (next_of_begins h.begins _))]
    have hvalue : Through expression Expr.tree w t (.punct .semicolon :: ks) := through_expression h .semicolon
    refine silent_nextStart.andThen fun start => hvalue.andThen fun e he => .expectSemicolon ?_
    exact (silent_spanFrom start).andThen fun _ => .pure ⟨he ▸ rfl, rfl⟩

/-! ## Statements -/

/-- an open statement is read up to a token that is not `else` -/
def ReadsStatement (isOpen : Bool) (w : Kinds) (t : StmtTree) : Prop :=
  ∀ n ks, 8 * w.length ≤ n → (isOpen = true → next ks ≠ .keyword .else_) → Through (statement n) Stmt.tree w t ks

def ReadsStatements (w : Kinds) (ts : List StmtTree) : Prop :=
  ∀ n ks, 8 * w.length + 1 ≤ n → next ks = .punct .rbrace → Through (statements n) Stmt.trees w ts ks

/-- statements in braces -/
theorem through_block {w : Kinds} {ts : List StmtTree} {n : Nat} (ih : ReadsStatements w ts) (hn : 8 * w.length + 2 ≤ n)
    (ks : Kinds) : Through (block n) (fun b => Stmt.trees b.2) (.punct .lbrace :: w ++ [.punct .rbrace]) ts ks := by
  obtain ⟨m, rfl⟩ : ∃ m, n = m + 1 := ⟨n - 1, by omega⟩
  unfold Through
  rw [List.append_assoc]
  refine .expect fun opening => (ih m (.punct .rbrace :: ks) (by omega) rfl).andThen fun body hbody =>
    .expect fun _ => ?_
  exact (silent_spanFrom opening.start).andThen fun _ => .pure ⟨hbody, rfl⟩

theorem readsStatement_block {w : Kinds} {ts : List StmtTree} (ih : ReadsStatements w ts) :
    ReadsStatement false (.punct .lbrace :: w ++ [.punct .rbrace]) (.block ts) := by
  intro n ks hn _
  simp only [List.cons_append, List.length_cons, List.length_append, List.length_nil] at hn
  obtain ⟨m, rfl⟩ : ∃ m, n = m + 1 := ⟨n - 1, by omega⟩
  refine silent_nextStart.andThen fun start => .peek ?_
  refine (through_block ih (by omega) ks).andThen fun b hb => .pure ⟨?_, rfl⟩
  rw [Stmt.tree, hb]

theorem readsStatement_empty : ReadsStatement false [.punct .semicolon] .empty := by
  intro n ks hn _
  obtain ⟨m, rfl⟩ : ∃ m, n = m + 1 := ⟨n - 1, by simp at hn; omega⟩
  exact silent_nextStart.andThen fun start => .peek (.advance (silent_get.andThen fun _ => .pure ⟨rfl, rfl⟩))

theorem readsStatement_decl {w : Kinds} {d : DeclTree} (h : Declaration w d) : ReadsStatement false w (.decl d) := by
  intro n ks hn _
  have hpos := h.begins.length_pos
  obtain ⟨m, rfl⟩ : ∃ m, n = m + 1 := ⟨n - 1, by omega⟩
  have hdecl : Through (do return Stmt.decl (← varDecl)) Stmt.tree w (.decl d) ks := by
    refine (through_varDecl h ks).andThen fun found hfound => .pure ⟨?_, rfl⟩
    rw [Stmt.tree, hfound]
  refine silent_nextStart.andThen fun start => .peek ?_
  rcases eq_of_startsType (next_of_begins h.begins ks) with hnext | hnext | hnext | hnext | hnext
  all_goals
    rw [hnext]
    exact hdecl

theorem readsStatement_expr {w : Kinds} {t : ExprTree} (h : Expression w t) :
    ReadsStatement false (w ++ [.punct .semicolon]) (.expr t) := by
  intro n ks hn _
  rw [List.length_append, List.length_singleton] at hn
  obtain ⟨m, rfl⟩ : ∃ m, n = m + 1 := ⟨n - 1, by omega⟩
  unfold Through
  rw [List.append_assoc]
  refine silent_nextStart.andThen fun start => .peek ?_
  have hfirst := next_of_begins h.begins ([.punct .semicolon] ++ ks)
  split
  case h_16 =>
    have hvalue : Through expression Expr.tree w t (.punct .semicolon :: ks) := through_expression h .semicolon
    refine hvalue.andThen fun e he => .expectSemicolon ?_
    exact (silent_spanFrom start).andThen fun _ => .pure ⟨he ▸ rfl, rfl⟩
  all_goals
    rename_i hnext
    rw [hnext] at hfirst
    cases hfirst

theorem readsStatement_ifThen {isOpen : Bool} {c w : Kinds} {cond : ExprTree} {t : StmtTree} (hcond : Condition c cond)
    (ih : ReadsStatement isOpen w t) : ReadsStatement true (.keyword .if_ :: c ++ w) (.ifThen cond t) := by
  intro n ks hn hend
  simp only [List.cons_append, List.length_cons, List.length_append] at hn
  obtain ⟨m, rfl⟩ : ∃ m, n = m + 1 := ⟨n - 1, by omega⟩
  unfold Through
  rw [List.append_assoc]
  refine silent_nextStart.andThen fun start =>
    .peek (.advance ((through_condition hcond (w ++ ks)).andThen fun e he => ?_))
  refine (ih m ks (by omega) fun _ => hend rfl).andThen fun yes hyes => .eat_other (hend rfl) ?_
  refine (silent_spanFrom start).andThen fun _ => .pure ⟨?_, rfl⟩
  rw [Stmt.tree, he, hyes]

theorem readsStatement_ifElse {isOpen : Bool} {c w v : Kinds} {cond : ExprTree} {t u : StmtTree}
    (hcond : Condition c cond) (ihyes : ReadsStatement false w t) (ihno : ReadsStatement isOpen v u) :
    ReadsStatement isOpen (.keyword .if_ :: c ++ w ++ .keyword .else_ :: v) (.ifElse cond t u) := by
  intro n ks hn hend
  simp only [List.cons_append, List.length_cons, List.length_append] at hn
  obtain ⟨m, rfl⟩ : ∃ m, n = m + 1 := ⟨n - 1, by omega⟩
  unfold Through
  rw [List.append_assoc, List.append_assoc]
  refine silent_nextStart.andThen fun start => .peek (.advance ((through_condition hcond _).andThen fun e he => ?_))
  refine (ihyes m (.keyword .else_ :: (v ++ ks)) (by omega) (by simp)).andThen fun yes hyes => .eat ?_
  refine (ihno m ks (by omega) hend).andThen fun no hno => (silent_spanFrom start).andThen fun _ => .pure ⟨?_, rfl⟩
  rw [Stmt.tree, he, hyes, hno]

theorem readsStatement_while {isOpen : Bool} {c w : Kinds} {cond : ExprTree} {t : StmtTree} (hcond : Condition c cond)
    (ih : ReadsStatement isOpen w t) : ReadsStatement isOpen (.keyword .while_ :: c ++ w) (.while_ cond t) := by
  intro n ks hn hend
  simp only [List.cons_append, List.length_cons, List.length_append] at hn
  obtain ⟨m, rfl⟩ : ∃ m, n = m + 1 := ⟨n - 1, by omega⟩
  unfold Through
  rw [List.append_assoc]
  refine silent_nextStart.andThen fun start =>
    .peek (.advance ((through_condition hcond (w ++ ks)).andThen fun e he => ?_))
  refine (ih m ks (by omega) hend).andThen fun body hbody => (silent_spanFrom start).andThen fun _ => .pure ⟨?_, rfl⟩
  rw [Stmt.tree, he, hbody]

theorem readsStatement_doWhile {isOpen : Bool} {c w : Kinds} {cond : ExprTree} {t : StmtTree} (hcond : Condition c cond)
    (ih : ReadsStatement isOpen w t) :
    ReadsStatement false (.keyword .do_ :: w ++ .keyword .while_ :: c ++ [.punct .semicolon]) (.doWhile t cond) := by
  intro n ks hn _
  simp only [List.cons_append, List.length_cons, List.length_append, List.length_nil] at hn
  obtain ⟨m, rfl⟩ : ∃ m, n = m + 1 := ⟨n - 1, by omega⟩
  unfold Through
  rw [List.append_assoc, List.append_assoc]
  refine silent_nextStart.andThen fun start => .peek (.advance ?_)
  refine (ih m (.keyword .while_ :: (c ++ .punct .semicolon :: ks)) (by omega) (by simp)).andThen fun body hbody =>
    .expect fun _ => ?_
  refine (through_condition hcond _).andThen fun e he => .expectSemicolon ?_
  refine (silent_spanFrom start).andThen fun _ => .pure ⟨?_, rfl⟩
  rw [Stmt.tree, he, hbody]

theorem readsStatement_for {isOpen : Bool} {i c p w : Kinds} {init : ForTree} {cond step : Option ExprTree}
    {t : StmtTree} (hinit : ForStart i init) (hcond : Optional c cond) (hstep : Optional p step)
    (ih : ReadsStatement isOpen w t) :
    ReadsStatement isOpen (.keyword .for_ :: .punct .lparen :: i ++ c ++ .punct .semicolon :: p ++ .punct .rparen :: w)
      (.for_ init cond step t) := by
  intro n ks hn hend
  simp only [List.cons_append, List.length_cons, List.length_append] at hn
  obtain ⟨m, rfl⟩ : ∃ m, n = m + 1 := ⟨n - 1, by omega⟩
  unfold Through
  simp only [List.append_assoc, List.cons_append]
  refine silent_nextStart.andThen fun start => .peek (.advance (.expect fun _ => ?_))
  refine (through_forInit hinit _).andThen fun first hfirst => ?_
  refine (through_unlessAt hcond rfl .semicolon rfl).andThen fun e he => .expect fun _ => ?_
  refine (through_unlessAt hstep rfl .rparen rfl).andThen fun e' he' => .expect fun _ => ?_
  refine (ih m ks (by omega) hend).andThen fun body hbody => (silent_spanFrom start).andThen fun _ => .pure ⟨?_, rfl⟩
  rw [Stmt.tree, hfirst, he, he', hbody]

theorem readsStatement_break : ReadsStatement false [.keyword .break_, .punct .semicolon] .break_ := by
  intro n ks hn _
  obtain ⟨m, rfl⟩ : ∃ m, n = m + 1 := ⟨n - 1, by simp at hn; omega⟩
  refine silent_nextStart.andThen fun start => .peek (.advance (.expectSemicolon ?_))
  exact (silent_spanFrom start).andThen fun _ => .pure ⟨rfl, rfl⟩

theorem readsStatement_continue : ReadsStatement false [.keyword .continue_, .punct .semicolon] .continue_ := by
  intro n ks hn _
  obtain ⟨m, rfl⟩ : ∃ m, n = m + 1 := ⟨n - 1, by simp at hn; omega⟩
  refine silent_nextStart.andThen fun start => .peek (.advance (.expectSemicolon ?_))
  exact (silent_spanFrom start).andThen fun _ => .pure ⟨rfl, rfl⟩

theorem readsStatement_return {w : Kinds} {value : Option ExprTree} (h : Optional w value) :
    ReadsStatement false (.keyword .return_ :: w ++ [.punct .semicolon]) (.return_ value) := by
  intro n ks hn _
  obtain ⟨m, rfl⟩ : ∃ m, n = m + 1 := ⟨n - 1, by simp at hn; omega⟩
  unfold Through
  rw [List.append_assoc]
  refine silent_nextStart.andThen fun start => .peek (.advance ?_)
  refine (through_unlessAt h rfl .semicolon rfl).andThen fun e he => .expectSemicolon ?_
  refine (silent_spanFrom start).andThen fun _ => .pure ⟨?_, rfl⟩
  rw [Stmt.tree, he]

theorem readsStatements_nil : ReadsStatements [] [] := by
  intro n ks hn hclose
  obtain ⟨m, rfl⟩ : ∃ m, n = m + 1 := ⟨n - 1, by simp at hn; omega⟩
  refine .peek ?_
  rw [if_pos (.inl hclose)]
  exact .pure ⟨rfl, rfl⟩

theorem readsStatements_cons {isOpen : Bool} {w v : Kinds} {t : StmtTree} {ts : List StmtTree}
    (h : Statement isOpen w t) (rest : Statements v ts) (ih : ReadsStatement isOpen w t) (ihs : ReadsStatements v ts) :
    ReadsStatements (w ++ v) (t :: ts) := by
  intro n ks hn hclose
  rw [List.length_append] at hn
  have hpos := h.begins.length_pos
  obtain ⟨m, rfl⟩ : ∃ m, n = m + 1 := ⟨n - 1, by omega⟩
  unfold Through
  rw [List.append_assoc]
  refine .peek ?_
  rw [if_neg (not_or_intro (next_ne h.begins rfl _) (next_ne h.begins rfl _))]
  -- what follows is a statement or the closing brace, and no `else`
  have helse : next (v ++ ks) ≠ .keyword .else_ := by
    rcases rest.begins with ⟨rfl, -⟩ | hbegins
    · rw [List.nil_append, hclose]
      simp
    · exact next_ne hbegins rfl ks
  refine (ih m (v ++ ks) (by omega) fun _ => helse).andThen fun s hs => ?_
  refine (ihs m ks (by omega) hclose).andThen fun found hfound => .pure ⟨?_, rfl⟩
  rw [Stmt.trees, hs, hfound]

mutual

theorem readsStatement {isOpen : Bool} {w : Kinds} {t : StmtTree} : Statement isOpen w t → ReadsStatement isOpen w t
  | .block h => readsStatement_block (readsStatements h)
  | .empty => readsStatement_empty
  | .decl h => readsStatement_decl h
  | .ifThen hcond yes => readsStatement_ifThen hcond (readsStatement yes)
  | .ifElse hcond yes no => readsStatement_ifElse hcond (readsStatement yes) (readsStatement no)
  | .while_ hcond body => readsStatement_while hcond (readsStatement body)
  | .doWhile body hcond => readsStatement_doWhile hcond (readsStatement body)
  | .for_ hinit hcond hstep body => readsStatement_for hinit hcond hstep (readsStatement body)
  | .break_ => readsStatement_break
  | .continue_ => readsStatement_continue
  | .return_ h => readsStatement_return h
  | .expr h => readsStatement_expr h

theorem readsStatements {w : Kinds} {ts : List StmtTree} : Statements w ts → ReadsStatements w ts
  | .nil => readsStatements_nil
  | .cons h rest => readsStatements_cons h rest (readsStatement h) (readsStatements rest)

end

/-! ## Items -/

theorem through_parameters_none {n : Nat} {ks : Kinds} (hn : 0 < n) (hclose : next ks = .punct .rparen) :
    Through (parameters n) (List.map Param.tree) [] [] ks := by
  obtain ⟨m, rfl⟩ : ∃ m, n = m + 1 := ⟨n - 1, by omega⟩
  refine .peek ?_
  rw [List.nil_append, if_pos hclose]
  exact .pure ⟨rfl, rfl⟩

/-- the first parameter of a list -/
theorem parses_parameters_cons {n : Nat} {w : Kinds} {p : ParamTree} {ks : Kinds} {R : List Param → Kinds → Prop}
    (h : Parameter w p) (hrest : ∀ param : Param, param.tree = p → Parses true (do
      if (← peek) ≠ .punct .rparen then
        let _ ← expect (.punct .comma) .commaOrCloseParen
      let rest ← parameters n
      return param :: rest) ks R) : Parses true (parameters (n + 1)) (w ++ ks) R := by
  refine .peek ?_
  rw [if_neg (next_ne h.begins rfl ks)]
  cases h with
  | named name hty =>
    rw [List.append_assoc]
    refine silent_nextStart.andThen fun start => .parseType hty (.expectName fun span => ?_)
    exact silent_fresh.andThen fun id => (silent_spanFrom start).andThen fun span' => hrest ⟨id, span', name, _⟩ rfl

theorem through_parameters {w : Kinds} {ps : List ParamTree} (h : Parameters w ps) {n : Nat} {ks : Kinds}
    (hn : w.length < n) (hclose : next ks = .punct .rparen) : Through (parameters n) (List.map Param.tree) w ps ks := by
  induction h generalizing n with
  | none => exact through_parameters_none hn hclose
  | last h =>
    have hpos := h.begins.length_pos
    obtain ⟨m, rfl⟩ : ∃ m, n = m + 1 := ⟨n - 1, by omega⟩
    refine parses_parameters_cons h fun param hparam => .peek ?_
    rw [if_neg (not_not_intro hclose)]
    refine (through_parameters_none (by omega) hclose).andThen fun rest hrest => .pure ⟨?_, rfl⟩
    rw [List.map_cons, hparam, hrest]
  | @more w v p ps h _ ih =>
    rw [List.length_append, List.length_cons] at hn
    obtain ⟨m, rfl⟩ : ∃ m, n = m + 1 := ⟨n - 1, by omega⟩
    unfold Through
    rw [List.append_assoc]
    refine parses_parameters_cons h fun param hparam => .peek (.expect fun _ => ?_)
    refine (ih (by omega)).andThen fun rest hrest => .pure ⟨?_, rfl⟩
    rw [List.map_cons, hparam, hrest]

/-- a list of parameters is not taken for `(void)` -/
theorem not_void_of_parameters {s : State} {w : Kinds} {ps : List ParamTree} {ks : Kinds} (h : Parameters w ps)
    (hs : s.At (w ++ .punct .rparen :: ks)) : ¬ (s.kindAt 0 = .keyword .void ∧ s.kindAt 1 = .punct .rparen) := by
  have one : ∀ {v : Kinds} {p : ParamTree} {ks : Kinds}, Parameter v p → s.At (v ++ ks) →
      ¬ (s.kindAt 0 = .keyword .void ∧ s.kindAt 1 = .punct .rparen) := by
    intro v p ks hp hs
    rw [hs.kindAt 0, hs.kindAt 1]
    cases hp with
    | named name hty => cases hty <;> simp
  cases h with
  | none =>
    rw [hs.kindAt 0]
    simp
  | last h => exact one h hs
  | more h rest =>
    rw [List.append_assoc] at hs
    exact one h hs

theorem through_finishFunction {p w : Kinds} {ps : List ParamTree} {ts : List StmtTree} (start : Nat) (b : Base)
    (name : String) (nameSpan : Span) (hparams : ParameterList p ps) (hbody : Statements w ts) (ks : Kinds) :
    Through (finishFunction start ⟨false, b⟩ name nameSpan) FunctionDecl.tree
      (.punct .lparen :: p ++ .punct .rparen :: .punct .lbrace :: w ++ [.punct .rbrace])
        ⟨⟨false, b⟩, name, ps, ts⟩ ks := by
  have body : ∀ params : List Param, params.map Param.tree = ps → Parses true (do
      let _ ← expect (.punct .rparen) .closeParen
      let found ← block (← get).calls
      return FunctionDecl.mk (← spanFrom start) name nameSpan ⟨false, b⟩ params found.1 found.2)
      (.punct .rparen :: (.punct .lbrace :: w ++ [.punct .rbrace] ++ ks))
      fun f ks' => f.tree = ⟨⟨false, b⟩, name, ps, ts⟩ ∧ ks' = ks := by
    rintro params rfl
    refine .expect fun _ => .get fun s hs => ?_
    have hcalls := hs.calls
    simp only [List.cons_append, List.length_cons, List.length_append] at hcalls
    refine (through_block (readsStatements hbody) (by omega) ks).andThen fun found hfound => ?_
    refine (silent_spanFrom start).andThen fun _ => .pure ⟨?_, rfl⟩
    rw [FunctionDecl.tree, hfound]
  have hword : .punct .lparen :: p ++ .punct .rparen :: .punct .lbrace :: w ++ [.punct .rbrace] ++ ks =
      .punct .lparen :: (p ++ .punct .rparen :: (.punct .lbrace :: w ++ [.punct .rbrace] ++ ks)) := by simp
  unfold Through
  rw [hword]
  refine .expect fun _ => .get fun s hs => ?_
  cases hparams with
  | listed h =>
    rw [if_neg (not_void_of_parameters h hs)]
    refine .get fun s' hs' => ?_
    have hcalls := hs'.calls
    rw [List.length_append] at hcalls
    exact (through_parameters h (by omega) rfl).andThen body
  | void =>
    rw [if_pos ⟨hs.kindAt 0, hs.kindAt 1⟩]
    refine .advance (.get fun s' hs' => ?_)
    have hcalls := hs'.calls
    exact (through_parameters_none (by omega) rfl).andThen body

theorem through_item {w : Kinds} {t : ItemTree} (h : Grammar.Item w t) (ks : Kinds) :
    Through item Item.tree w t ks := by
  cases h with
  | @function p w ps ts b name hparams hbody =>
    change Parses true item ([.keyword b.keyword] ++ .ident name ::
      (.punct .lparen :: p ++ .punct .rparen :: .punct .lbrace :: w ++ [.punct .rbrace] ++ ks)) _
    refine silent_nextStart.andThen fun start => .parseType (.plain b) (.expectName fun span => .peek ?_)
    refine (through_finishFunction start b name span hparams hbody ks).andThen fun f hf => .pure ⟨?_, rfl⟩
    rw [Item.tree, hf]
  | global h =>
    cases h with
    | @named w v ty init name hty hinit =>
      have hword : w ++ .ident name :: v ++ [.punct .semicolon] ++ ks =
          w ++ .ident name :: (v ++ [.punct .semicolon] ++ ks) := by
        simp
      have hnext : next (v ++ [.punct .semicolon] ++ ks) ≠ .punct .lparen := by
        cases hinit <;> simp
      unfold Through
      rw [hword]
      refine silent_nextStart.andThen fun start => .parseType hty (.expectName fun span => .peek ?_)
      rw [if_neg hnext]
      refine (through_finishDecl start ty name span hinit ks).andThen fun d hd => .pure ⟨?_, rfl⟩
      rw [Item.tree, hd]

theorem parses_items_of_derives {w : Kinds} {ts : List ItemTree} (h : Items w ts) {n : Nat} (hn : w.length < n) :
    Parses true (items n) w fun found _ => found.map Item.tree = ts := by
  induction h generalizing n with
  | nil =>
    obtain ⟨m, rfl⟩ : ∃ m, n = m + 1 := ⟨n - 1, by omega⟩
    exact .peek (.pure rfl)
  | @cons w v t ts h _ ih =>
    rw [List.length_append] at hn
    have hpos := h.begins.length_pos
    obtain ⟨m, rfl⟩ : ∃ m, n = m + 1 := ⟨n - 1, by omega⟩
    have hitem : Parses true (do
        let first ← item
        let rest ← items m
        return first :: rest) (w ++ v) fun found _ => found.map Item.tree = t :: ts := by
      refine (through_item h v).andThen fun first hfirst => (ih (by omega)).bind fun rest _ hrest => .pure ?_
      rw [List.map_cons, hfirst, hrest]
    refine .peek ?_
    rcases eq_of_startsType (next_of_begins h.begins v) with hnext | hnext | hnext | hnext | hnext
    all_goals
      rw [hnext]
      exact hitem

/-! ## Programs -/

theorem parses_program (ks : Kinds) : Parses false program ks fun p _ => Items ks p.tree :=
  .get fun s _ => (parses_items s.calls ks).bind fun _ _ hfound => silent_get.andThen fun _ => .pure hfound

theorem parses_program_of_derives {ks : Kinds} {ts : List ItemTree} (h : Items ks ts) :
    Parses true program ks fun p _ => p.tree = ts := by
  refine .get fun s hs => ?_
  have hcalls := hs.calls
  exact (parses_items_of_derives h (by omega)).bind fun _ _ hfound => silent_get.andThen fun _ => .pure hfound

/-- what is known of the call for a whole program is known of its outcome -/
theorem parse_of_parses {sure : Bool} {tokens : List Token} {ks : Kinds} {Q : Program → Kinds → Prop}
    (hstart : (State.start tokens).At ks) (h : Parses sure program ks Q) :
    (sure = true → ∃ p, Program.parse tokens = .ok p) ∧ ∀ p, Program.parse tokens = .ok p → ∃ ks', Q p ks' := by
  have hrun := h (.start tokens) hstart
  unfold Program.parse EStateM.run
  cases hr : program (.start tokens) with
  | error e s =>
    rw [hr] at hrun
    refine ⟨fun hsure => absurd (hrun.symm.trans hsure) (by simp), ?_⟩
    intro p hp
    cases hp
  | ok p s =>
    rw [hr] at hrun
    obtain ⟨ks', -, hp⟩ := hrun
    refine ⟨fun _ => ⟨p, rfl⟩, ?_⟩
    intro p' hp'
    cases hp'
    exact ⟨ks', hp⟩

end Parser

/-- **A program is read exactly if the grammar derives its tokens**, and without identities and spans it is the only
tree that the grammar derives from them. -/
theorem Program.parse_iff_derives {tokens : List Token} {ks : Grammar.Kinds}
    (hkinds : tokens.map (·.kind) = ks ++ [.eof]) (hinside : .eof ∉ ks) :
    ((∃ p, Program.parse tokens = .ok p) ↔ ∃ t, Grammar.Items ks t) ∧
      ∀ p, Program.parse tokens = .ok p → Grammar.Items ks p.tree ∧ ∀ t, Grammar.Items ks t → t = p.tree := by
  have hstart : (Parser.State.start tokens).At ks := ⟨hkinds, hinside⟩
  have hsound : ∀ p, Program.parse tokens = .ok p → Grammar.Items ks p.tree := by
    intro p hp
    obtain ⟨-, h⟩ := (Parser.parse_of_parses hstart (Parser.parses_program ks)).2 p hp
    exact h
  refine ⟨⟨?_, ?_⟩, fun p hp => ⟨hsound p hp, ?_⟩⟩
  · rintro ⟨p, hp⟩
    exact ⟨p.tree, hsound p hp⟩
  · rintro ⟨t, ht⟩
    exact (Parser.parse_of_parses hstart (Parser.parses_program_of_derives ht)).1 rfl
  · intro t ht
    obtain ⟨-, htree⟩ := (Parser.parse_of_parses hstart (Parser.parses_program_of_derives ht)).2 p hp
    exact htree.symm

/-- `int main() { if (a) if (b) x = y += 1 - 2 * -3 - 4; else; }` -/
def nestedChoice : Grammar.Kinds :=
  [.keyword .int, .ident "main", .punct .lparen, .punct .rparen, .punct .lbrace, .keyword .if_, .punct .lparen,
   .ident "a", .punct .rparen, .keyword .if_, .punct .lparen, .ident "b", .punct .rparen, .ident "x",
   .punct .assign, .ident "y", .punct .plusAssign, .literal (.int 1), .punct .minus, .literal (.int 2),
   .punct .star, .punct .minus, .literal (.int 3), .punct .minus, .literal (.int 4), .punct .semicolon,
   .keyword .else_, .punct .semicolon, .punct .rbrace]

/-- the `else` belongs to the inner `if`, assignments go to the right and differences to the left, and the minus is in
the literal -/
def nestedChoiceTree : List ItemTree :=
  let difference : ExprTree :=
    .binary .sub (.binary .sub (.literal (.int 1)) (.binary .mul (.literal (.int 2)) (.literal (.int (-3)))))
      (.literal (.int 4))
  [.function ⟨⟨false, .int⟩, "main", [],
    [.ifThen (.ident "a")
      (.ifElse (.ident "b") (.expr (.assign none "x" (.assign (some .add) "y" difference))) .empty)]⟩]

/-- tokens of these kinds up to the end -/
def tokensOf (ks : Grammar.Kinds) : List Token := (ks ++ [TokenKind.eof]).map fun kind => ⟨kind, "", ⟨0, 0⟩⟩

open Grammar in
theorem nestedChoice_read_once :
    ∃ p, Program.parse (tokensOf nestedChoice) = .ok p ∧ p.tree = nestedChoiceTree ∧
      ∀ t, Items nestedChoice t → t = p.tree := by
  have literal : ∀ v, Unary [.literal v] (.literal v) := fun v => .plain (.plain (.literal v))
  have name : ∀ x, Unary [.ident x] (.ident x) := fun x => .plain (.plain (.ident x))
  have product := Binary.join .mul ((Binary.operand (literal (.int 2))).tighter) (.operand (.minus (literal (.int 3))))
  have difference := Binary.join .sub (.join .sub ((Binary.operand (literal (.int 1))).lower (by decide)) product)
    ((Binary.operand (literal (.int 4))).tighter)
  have plain : assignMark? none = some .assign := rfl
  have added : assignMark? (some .add) = some .plusAssign := rfl
  have value := Expression.assign (name "y") added (.plain (difference.lower (by decide)))
  have test : ∀ x, Condition _ _ := fun x => .parens (.plain ((Binary.operand (name x)).lower (by decide)))
  have inner := Statement.ifElse (test "b") (.expr (.assign (name "x") plain value)) .empty
  have derived : Items nestedChoice nestedChoiceTree :=
    .cons (.function .int "main" (.listed .none) (.cons (.ifThen (test "a") inner) .nil)) .nil
  have hkinds : (tokensOf nestedChoice).map (·.kind) = nestedChoice ++ [.eof] := rfl
  have hread := Program.parse_iff_derives hkinds (by decide)
  obtain ⟨p, hp⟩ := hread.1.2 ⟨nestedChoiceTree, derived⟩
  have honce := (hread.2 p hp).2
  exact ⟨p, hp, (honce _ derived).symm, honce⟩

end C15

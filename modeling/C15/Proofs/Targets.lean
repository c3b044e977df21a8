/-
What a program that is read from tokens assigns and updates.

The reader decides on trees whether something can be assigned or updated, and a tree does not show every token. Here
each call of the reader is followed with the tokens it takes, and these are cut into phrases (`Reading`). The tokens are
any list; the end of the source may stand anywhere in it, and nothing behind it counts.
- `Takes`: a successful call from a state takes a word from the tokens ahead that fits its result.
- `exprPhrases`, `stmtPhrases`: what the functions for expressions and statements take are phrases and the tokens
  between them, and the trees of the phrases are those of the expressions they return.
- `readable_of_parse`: so the tokens of a program have a reading with the trees of its expressions.
- `Program.targets_of_parse`: in every such reading, what is assigned or updated is a name in parentheses once the unary
  pluses are taken out, and it is one as it stands exactly if it has none. A plus is the only operator that passes: the
  tree that is looked at has lost it.
-/
import C15.Proofs.Identity
import C15.Proofs.Phrases
import C15.Proofs.ReadingSound
import C15.Proofs.TypeRules

namespace C15

namespace Parser

open Grammar

/-! ## Words that calls take -/

/-- the tokens ahead, up to the end of the source -/
def State.ahead (s : State) : Kinds := (s.rest.map (·.kind)).takeWhile (· ≠ .eof)

theorem State.kind_of_ahead {s : State} {kind : TokenKind} {ks : Kinds} (h : s.ahead = kind :: ks) : s.kind = kind := by
  unfold State.ahead at h
  unfold State.kind State.kindAt
  cases hrest : s.rest with
  | nil => simp [hrest] at h
  | cons t ts =>
    by_cases ht : t.kind = .eof
    · simp [hrest, ht] at h
    · simp only [hrest, List.map_cons, List.takeWhile_cons, ht, ne_eq, not_false_eq_true, decide_true, if_true,
        List.cons.injEq] at h
      exact h.1

theorem State.ahead_of_kind {s : State} {kind : TokenKind} (h : s.kind = kind) (hkind : kind ≠ .eof) :
    s.ahead = kind :: s.advance.ahead := by
  subst h
  unfold State.ahead State.advance State.kind State.kindAt at *
  cases hrest : s.rest with
  | nil => simp [hrest] at hkind
  | cons t ts =>
    have ht : t.kind ≠ .eof := by simpa [hrest] using hkind
    simp [ht]

theorem State.ahead_eq_nil {s : State} (h : s.kind = .eof) : s.ahead = [] := by
  unfold State.kind State.kindAt at h
  unfold State.ahead
  cases hrest : s.rest with
  | nil => rfl
  | cons t ts =>
    have ht : t.kind = .eof := by simpa [hrest] using h
    simp [ht]

/-- from a state, a successful call takes a word from the tokens ahead that fits its result -/
def Takes {α : Type} (s : State) (x : Parser α) (Q : α → Kinds → Prop) : Prop :=
  ∀ a t, x s = .ok a t → ∃ w, s.ahead = w ++ t.ahead ∧ Q a w

section Calculus

variable {α β : Type} {s : State} {x : Parser α} {f : α → Parser β} {P Q : α → Kinds → Prop} {R : β → Kinds → Prop}

theorem exists_of_bind_eq_ok {b : β} {u : State} (h : (x >>= f) s = .ok b u) :
    ∃ a t, x s = .ok a t ∧ f a t = .ok b u := by
  simp only [Bind.bind, EStateM.bind] at h
  cases hxs : x s with
  | error e t => rw [hxs] at h; cases h
  | ok a t => rw [hxs] at h; exact ⟨a, t, rfl, h⟩

theorem Takes.bind (hx : Takes s x P)
    (hf : ∀ a t w, s.ahead = w ++ t.ahead → P a w → Takes t (f a) fun b v => R b (w ++ v)) : Takes s (x >>= f) R := by
  intro b u hb
  obtain ⟨a, t, hxs, hfa⟩ := exists_of_bind_eq_ok hb
  obtain ⟨w, hw, ha⟩ := hx a t hxs
  obtain ⟨v, hv, hR⟩ := hf a t w hw ha b u hfa
  exact ⟨w ++ v, by rw [hw, hv, List.append_assoc], hR⟩

theorem Takes.mono (hx : Takes s x P) (h : ∀ a w, P a w → Q a w) : Takes s x Q := by
  intro a t hxs
  obtain ⟨w, hw, ha⟩ := hx a t hxs
  exact ⟨w, hw, h a w ha⟩

theorem takes_pure {a : α} (h : Q a []) : Takes s (pure a) Q := by
  intro b t hb
  cases hb
  exact ⟨[], rfl, h⟩

theorem takes_throw (e : Located GrammarCause) : Takes s (throw e : Parser α) Q := by
  intro a t ha
  cases ha

/-- a call that takes no token -/
theorem Silent.takes (hx : Silent x) (hf : ∀ a t, Takes t (f a) R) : Takes s (x >>= f) R := by
  obtain ⟨a, t, hxs, hrest⟩ := hx s
  have hsilent : Takes s x fun _ w => w = [] := by
    intro b u hb
    rw [hxs] at hb
    cases hb
    exact ⟨[], by simp [State.ahead, hrest], rfl⟩
  exact hsilent.bind fun b u w _ hw => hw ▸ hf b u

/-- looking at the state keeps it -/
theorem takes_get {g : State → Parser β} (h : Takes s (g s) R) : Takes s (get >>= g) R := h

theorem takes_unexpected (wanted : Wanted) : Takes s (unexpected wanted : Parser α) Q := takes_get (takes_throw _)

theorem takes_rejectStruct : Takes s (rejectStruct : Parser α) Q := takes_get (takes_throw _)

theorem takes_peek {g : TokenKind → Parser β} (h : Takes s (g s.kind) R) : Takes s (peek >>= g) R := h

variable {kind : TokenKind}

theorem takes_advance {g : Unit → Parser β} (hkind : s.kind = kind) (hne : kind ≠ .eof)
    (h : Takes s.advance (g ()) fun b v => R b (kind :: v)) : Takes s (advance >>= g) R := by
  intro b u hb
  obtain ⟨v, hv, hR⟩ := h b u hb
  exact ⟨kind :: v, by rw [State.ahead_of_kind hkind hne, hv, List.cons_append], hR⟩

theorem takes_expect {wanted : Wanted} {g : Span → Parser β} (hne : kind ≠ .eof)
    (h : ∀ span t, Takes t (g span) fun b v => R b (kind :: v)) : Takes s (expect kind wanted >>= g) R := by
  have htake : Takes s (expect kind wanted) fun _ w => w = [kind] := by
    refine takes_peek ?_
    split
    · rename_i hkind
      exact takes_advance hkind hne (takes_get (takes_pure rfl))
    · exact takes_unexpected _
  exact htake.bind fun span t w _ hw => hw ▸ h span t

theorem takes_eat {g : Bool → Parser β} (hne : kind ≠ .eof) (hyes : ∀ t, Takes t (g true) fun b v => R b (kind :: v))
    (hno : ∀ t, Takes t (g false) R) : Takes s (eat kind >>= g) R := by
  have htake : Takes s (eat kind) fun found w => w = if found then [kind] else [] := by
    refine takes_peek ?_
    split
    · rename_i hkind
      exact takes_advance hkind hne (takes_pure rfl)
    · exact takes_pure rfl
  refine htake.bind fun found t w _ hw => ?_
  subst hw
  cases found with
  | false => exact hno t
  | true => exact hyes t

theorem takes_expectName {wanted : Wanted} {g : String × Span → Parser β}
    (h : ∀ named t, Takes t (g named) fun b v => R b (.ident named.1 :: v)) : Takes s (expectName wanted >>= g) R := by
  have htake : Takes s (expectName wanted) fun named w => w = [.ident named.1] := by
    refine takes_peek ?_
    split
    · rename_i name hkind
      exact takes_advance hkind (by simp) (takes_get (takes_pure rfl))
    · exact takes_unexpected _
  exact htake.bind fun named t w _ hw => hw ▸ h named t

theorem takes_expectSemicolon {g : Unit → Parser β} (h : ∀ t, Takes t (g ()) fun b v => R b (.punct .semicolon :: v)) :
    Takes s (expectSemicolon >>= g) R := by
  have htake : Takes s expectSemicolon fun _ w => w = [.punct .semicolon] :=
    takes_eat (by simp) (fun t => takes_pure rfl) fun t => takes_get (takes_throw _)
  exact htake.bind fun _ t w _ hw => hw ▸ h t

theorem takes_parseType (s : State) : Takes s parseType fun ty w => TypeName w ty := by
  have base : ∀ {t : State} {b : Base} {ty : Ty} {u : Kinds}, t.kind = .keyword b.keyword →
      TypeName (u ++ [.keyword b.keyword]) ty → Takes t (do advance; return ty) fun ty v => TypeName (u ++ v) ty :=
    fun hkind hty => takes_advance hkind (by simp) (takes_pure hty)
  refine takes_eat (by simp) (fun t => takes_peek ?_) (fun t => takes_peek ?_)
  · split
    · exact base (b := .int) (u := [.keyword .const]) ‹_› (.const (by simp))
    · exact base (b := .uint) (u := [.keyword .const]) ‹_› (.const (by simp))
    · exact base (b := .float) (u := [.keyword .const]) ‹_› (.const (by simp))
    · exact takes_unexpected _
    · exact takes_rejectStruct
    · exact takes_unexpected _
  · split
    · exact base (b := .int) (u := []) ‹_› (.plain .int)
    · exact base (b := .uint) (u := []) ‹_› (.plain .uint)
    · exact base (b := .float) (u := []) ‹_› (.plain .float)
    · exact base (b := .void) (u := []) ‹_› (.plain .void)
    · exact takes_rejectStruct
    · exact takes_unexpected _

/-- a type that starts with the name of one is that one -/
theorem typeName_of_head {w ks ks' : Kinds} {ty : Ty} {b : Base} (h : TypeName w ty)
    (hw : .keyword b.keyword :: ks' = w ++ ks) : w = [.keyword b.keyword] ∧ ks' = ks ∧ ty = ⟨false, b⟩ := by
  cases h with
  | plain b' =>
    obtain ⟨hhead, hks⟩ := List.cons.inj hw
    cases b <;> cases b' <;> first | exact ⟨rfl, hks, rfl⟩ | cases hhead
  | const hb =>
    obtain ⟨hhead, -⟩ := List.cons.inj hw
    cases b <;> cases hhead

/-- where a cast starts, its type is taken up to the closing parenthesis -/
theorem takes_atCast {g : Ty → Parser β} {other : Parser β}
    (hg : ∀ (b : Base) (t : State), b ≠ .void → t.kind = .punct .rparen →
      Takes t (g ⟨false, b⟩) fun r v => R r (.punct .lparen :: .keyword b.keyword :: v))
    (ho : Takes s other R) : Takes s (do if ← atCast then advance; let ty ← parseType; g ty else other) R := by
  have hyes : atCast s = .ok true s → Takes s (do advance; let ty ← parseType; g ty) R := by
    intro hfound
    obtain ⟨k, hk, h0, h1, h2⟩ := kinds_of_atCast hfound
    obtain ⟨b, hb, rfl⟩ : ∃ b : Base, b ≠ .void ∧ b.keyword = k := by
      rcases hk with rfl | rfl | rfl
      · exact ⟨.int, by simp, rfl⟩
      · exact ⟨.uint, by simp, rfl⟩
      · exact ⟨.float, by simp, rfl⟩
    have hbase : s.advance.kindAt 0 = .keyword b.keyword := (kindAt_advance (by simp [h0]) 0).trans h1
    have hclose : s.advance.advance.kindAt 0 = .punct .rparen := by
      calc s.advance.advance.kindAt 0 = s.advance.kindAt 1 := kindAt_advance (by simp [hbase]) 0
        _ = s.kindAt 2 := kindAt_advance (by simp [h0]) 1
        _ = .punct .rparen := h2
    refine takes_advance h0 (by simp) ((takes_parseType _).bind fun ty t w hw hty => ?_)
    rw [State.ahead_of_kind hbase (by simp)] at hw
    obtain ⟨rfl, hrest, rfl⟩ := typeName_of_head hty hw
    have hahead : t.ahead = .punct .rparen :: s.advance.advance.advance.ahead :=
      hrest.symm.trans (State.ahead_of_kind hclose (by simp))
    exact hg b t hb (State.kind_of_ahead hahead)
  intro r u hr
  obtain ⟨found, hfound⟩ : ∃ found, atCast s = .ok found s := ⟨_, rfl⟩
  simp only [bind, EStateM.bind, hfound] at hr
  cases found with
  | false => exact ho r u hr
  | true => exact hyes hfound r u hr

end Calculus

/-! ## Expressions -/

theorem takes_mkUpdate (s : State) (op : UpdateOp) (e : Expr) (span : Span) :
    Takes s (mkUpdate op e span) fun u w => w = [] ∧ ∃ x, e.tree = .ident x ∧ u.tree = .update op x := by
  unfold mkUpdate
  split
  · exact silent_fresh.takes fun _ _ => takes_pure ⟨rfl, _, rfl, rfl⟩
  · exact takes_throw _

theorem eq_mark_of_suffixOp? {kind : TokenKind} {op : UpdateOp} (h : suffixOp? kind = some op) :
    kind = .punct op.mark ∧ op.isPost = true := by
  unfold suffixOp? at h
  split at h
  · cases h
    exact ⟨rfl, rfl⟩
  · cases h
    exact ⟨rfl, rfl⟩
  · cases h

/-- a mark behind an operand is taken for an update of it, and no second one can follow -/
theorem takes_suffix {s : State} {e : Expr} {u : Kinds} (he : Phrased 4 u e.tree) :
    Takes s (suffix e) fun e' w => Phrased 2 (u ++ w) e'.tree := by
  refine takes_peek ?_
  split
  · exact takes_pure (by simpa using he.mono (by decide))
  · rename_i op hop
    obtain ⟨hkind, hpost⟩ := eq_mark_of_suffixOp? hop
    refine takes_advance hkind (by simp)
      (takes_get ((takes_mkUpdate _ op e _).bind fun updated t w _ hupdated => takes_peek ?_))
    obtain ⟨rfl, x, hx, htree⟩ := hupdated
    split
    · refine takes_pure ?_
      rw [hx] at he
      have hupdate := Phrased.update op (by simpa [hpost] using he)
      simpa [hpost, htree] using hupdate
    · -- an update is no variable
      rename_i again hagain
      obtain ⟨hkind', -⟩ := eq_mark_of_suffixOp? hagain
      refine takes_advance hkind' (by simp) (takes_get ((takes_mkUpdate _ again updated _).mono fun e' v he' => ?_))
      obtain ⟨-, y, hy, -⟩ := he'
      rw [htree] at hy
      cases hy

/-- a mark in front of an operand is taken for an update of it -/
theorem takes_updateBefore {s : State} {e : Expr} {w : Kinds} (op : UpdateOp) (span : Span) (hop : op.isPost = false)
    (he : Phrased 2 w e.tree) :
    Takes s (mkUpdate op e span) fun u v => Phrased 2 (.punct op.mark :: (w ++ v)) u.tree := by
  refine (takes_mkUpdate s op e span).mono fun u v hu => ?_
  obtain ⟨rfl, x, hx, htree⟩ := hu
  rw [hx] at he
  have hupdate := Phrased.update op (by simpa [hop] using he)
  simpa [hop, htree] using hupdate

/-- the node for a minus in front of an operand -/
theorem takes_negate {s : State} {operand : Expr} {span : Span} {R : Expr → Kinds → Prop}
    (h : ∀ e : Expr, e.tree = operand.tree.negate → R e []) :
    Takes s (match operand with
      | .literal id _ value => return .literal id span value.negate
      | _ => return .unary (← fresh) span .neg operand) R := by
  cases operand with
  | literal => exact takes_pure (h _ rfl)
  | _ => exact silent_fresh.takes fun _ _ => takes_pure (h _ rfl)

/-- what the functions for expressions take when they may nest `n` calls -/
structure ExprPhrases (n : Nat) : Prop where
  assignment : ∀ s, Takes s (assignment n) fun e w => Phrased 0 w e.tree
  binary : ∀ s level, Takes s (binary n level) fun e w => Phrased 1 w e.tree
  binaryRest : ∀ s level left u, Phrased 1 u left.tree → Takes s (binaryRest n level left) fun e w =>
    Phrased 1 (u ++ w) e.tree
  unary : ∀ s, Takes s (unary n) fun e w => Phrased 2 w e.tree
  primary : ∀ s, Takes s (primary n) fun e w => Phrased 4 w e.tree
  arguments : ∀ s, Takes s (arguments n) fun es w =>
    ∃ v, w = .punct .lparen :: (v ++ [.punct .rparen]) ∧ PhrasedAll v (Expr.trees es)
  argumentsRest : ∀ s, Takes s (argumentsRest n) fun es w => PhrasedAll w (Expr.trees es)

section

variable {n : Nat} (ih : ExprPhrases n) (s : State)
include ih

theorem assignment_phrases : Takes s (assignment (n + 1)) fun e w => Phrased 0 w e.tree := by
  refine (ih.binary s 0).bind fun lhs t w _ hlhs => takes_peek ?_
  split
  · exact takes_pure (by simpa using hlhs.mono (Nat.zero_le 1))
  · rename_i op hop
    split
    · obtain ⟨mark, hmark, -⟩ := eq_mark_of_assignOp? hop
      rw [hmark] at hop
      refine takes_advance hmark (by simp) ((ih.assignment _).bind fun value t' v _ hvalue =>
        silent_fresh.takes fun _ _ => ?_)
      exact takes_pure (by rw [List.append_nil]; exact hlhs.assign hop hvalue)
    · exact takes_throw _

theorem binaryRest_phrases (level : Nat) (left : Expr) (u : Kinds) (hleft : Phrased 1 u left.tree) :
    Takes s (binaryRest (n + 1) level left) fun e w => Phrased 1 (u ++ w) e.tree := by
  refine takes_peek ?_
  split
  · exact takes_pure (by simpa using hleft)
  · rename_i op opLevel hop
    split
    · exact takes_pure (by simpa using hleft)
    · obtain ⟨hmark, -⟩ := eq_mark_of_binaryOp? hop
      refine takes_advance hmark (by simp) ((ih.binary _ _).bind fun right t w _ hright =>
        silent_fresh.takes fun id t' => ?_)
      have hjoin : Phrased 1 (u ++ .punct op.mark :: w) (.binary op left.tree right.tree) := hleft.binary op hright
      exact (ih.binaryRest t' level _ _ hjoin).mono fun e v he => by simpa using he

theorem unary_phrases : Takes s (unary (n + 1)) fun e w => Phrased 2 w e.tree := by
  refine silent_nextStart.takes fun start s => takes_atCast (fun b t hb hclose => ?_) (takes_peek ?_)
  · refine takes_advance hclose (by simp) ((ih.unary _).bind fun e t w _ he => silent_fresh.takes fun _ _ => ?_)
    exact (silent_spanFrom start).takes fun _ _ => takes_pure (by rw [List.append_nil]; exact he.cast hb)
  · have operand : ∀ {mark : Punct} {f : Expr → Parser Expr}, s.kind = .punct mark →
        (∀ e t w, Phrased 2 w e.tree → Takes t (f e) fun e' v => Phrased 2 (.punct mark :: (w ++ v)) e'.tree) →
        Takes s (do advance; let e ← unary n; f e) fun e w => Phrased 2 w e.tree :=
      fun hkind hf => takes_advance hkind (by simp) ((ih.unary _).bind fun e t w _ he => hf e t w he)
    split
    · refine operand ‹_› fun e t w he => (silent_spanFrom start).takes fun _ _ => takes_negate fun e' he' => ?_
      rw [List.append_nil, he']
      exact he.unary .neg
    · refine operand ‹_› fun e t w he => silent_fresh.takes fun _ _ => (silent_spanFrom start).takes fun _ _ => ?_
      exact takes_pure (by rw [List.append_nil]; exact he.unary .not)
    · refine operand ‹_› fun e t w he => silent_fresh.takes fun _ _ => (silent_spanFrom start).takes fun _ _ => ?_
      exact takes_pure (by rw [List.append_nil]; exact he.unary .bitNot)
    · exact operand ‹_› fun e t w he => (silent_spanFrom start).takes fun span _ =>
        takes_updateBefore .preInc span rfl he
    · exact operand ‹_› fun e t w he => (silent_spanFrom start).takes fun span _ =>
        takes_updateBefore .preDec span rfl he
    · exact takes_advance ‹_› (by simp) ((ih.unary _).mono fun e w he => he.plus)
    · exact (ih.primary s).bind fun e t w _ he => takes_suffix he

theorem primary_phrases : Takes s (primary (n + 1)) fun e w => Phrased 4 w e.tree := by
  refine silent_nextStart.takes fun start s => takes_peek ?_
  split
  · rename_i value hkind
    refine takes_advance hkind (by simp) (silent_fresh.takes fun _ _ => takes_get (takes_pure ?_))
    exact phrased_literal value
  · rename_i hkind
    refine takes_advance hkind (by simp) ((ih.assignment _).bind fun e t w _ he => takes_expect (by simp) fun _ _ => ?_)
    exact takes_pure he.parens
  · rename_i callee hkind
    refine takes_advance hkind (by simp)
      (takes_get ((ih.arguments _).bind fun args t w _ hargs => silent_fresh.takes fun _ _ => ?_))
    obtain ⟨v, rfl, hargs⟩ := hargs
    exact (silent_spanFrom start).takes fun _ _ => takes_pure (by rw [List.append_nil]; exact hargs.intrinsic callee)
  · rename_i name hkind
    refine takes_advance hkind (by simp) (takes_get (takes_peek ?_))
    split
    · refine (ih.arguments _).bind fun args t w _ hargs => silent_fresh.takes fun _ _ => ?_
      obtain ⟨v, rfl, hargs⟩ := hargs
      exact (silent_spanFrom start).takes fun _ _ => takes_pure (by rw [List.append_nil]; exact hargs.call name)
    · exact silent_fresh.takes fun _ _ => takes_pure (phrased_ident name)
  · exact takes_unexpected _

theorem arguments_phrases : Takes s (arguments (n + 1)) fun es w =>
    ∃ v, w = .punct .lparen :: (v ++ [.punct .rparen]) ∧ PhrasedAll v (Expr.trees es) := by
  refine takes_expect (by simp) fun _ _ => (ih.argumentsRest _).bind fun args t w _ hargs => ?_
  exact takes_expect (by simp) fun _ _ => takes_pure ⟨w, rfl, hargs⟩

theorem argumentsRest_phrases : Takes s (argumentsRest (n + 1)) fun es w => PhrasedAll w (Expr.trees es) := by
  refine takes_peek ?_
  split
  · exact takes_pure phrasedAll_none
  · refine (ih.assignment s).bind fun arg t w _ harg => takes_peek ?_
    split
    · refine takes_expect (by simp) fun _ _ => (ih.argumentsRest _).bind fun args t' v _ hargs => takes_pure ?_
      simpa [Expr.trees] using harg.more hargs
    · -- without a comma the parenthesis follows, where no argument starts
      rename_i hclose
      refine Takes.bind (P := fun args v => args = [] ∧ v = []) ?_ fun args t' v _ hargs => takes_pure ?_
      · cases n with
        | zero => exact takes_unexpected _
        | succ n =>
          refine takes_peek ?_
          rw [if_pos (not_ne_iff.1 hclose)]
          exact takes_pure ⟨rfl, rfl⟩
      · obtain ⟨rfl, rfl⟩ := hargs
        simpa [Expr.trees] using harg.last

end

theorem exprPhrases (n : Nat) : ExprPhrases n := by
  induction n with
  | zero => constructor <;> intros <;> exact takes_unexpected _
  | succ n ih =>
    exact {
      assignment := assignment_phrases ih
      binary := fun s level => (ih.unary s).bind fun left t w _ hleft =>
        ih.binaryRest t level left w (hleft.mono (by decide))
      binaryRest := binaryRest_phrases ih
      unary := unary_phrases ih
      primary := primary_phrases ih
      arguments := arguments_phrases ih
      argumentsRest := argumentsRest_phrases ih }

theorem takes_expression (s : State) : Takes s expression fun e w => Phrased 0 w e.tree :=
  takes_get ((exprPhrases s.calls).assignment s)

/-! ## Statements -/

theorem readable_typeName {w : Kinds} {ty : Ty} (h : TypeName w ty) : Readable w [] := by
  cases h with
  | plain b => exact Readable.nil.token _ rfl
  | const hb => exact (Readable.nil.token _ rfl).token _ rfl

/-- an expression behind `some` -/
theorem takes_someExpression (s : State) :
    Takes s (some <$> expression) fun e w => Readable w (e.toList.map Expr.tree) := by
  rw [map_eq_pure_bind]
  exact (takes_expression s).bind fun e t w _ he => takes_pure (by simpa using he.readable)

theorem takes_condition (s : State) : Takes s condition fun e w => Readable w [e.tree] := by
  refine takes_expect (by simp) fun _ t => (takes_expression t).bind fun e t w _ he =>
    takes_expect (by simp) fun _ _ => takes_pure ?_
  exact (he.readable.append (Readable.nil.token _ rfl)).token _ rfl

theorem takes_unlessAt (s : State) (kind : TokenKind) :
    Takes s (unlessAt kind) fun e w => Readable w (e.toList.map Expr.tree) := by
  refine takes_peek ?_
  split
  · exact takes_pure Readable.nil
  · exact takes_someExpression s

theorem takes_finishDecl (s : State) (start : Nat) (ty : Ty) (name : String) (nameSpan : Span) :
    Takes s (finishDecl start ty name nameSpan) fun d w => Readable w (d.init.toList.map Expr.tree) := by
  have rest : ∀ t init u, Readable u (init.toList.map Expr.tree) →
      Takes t (do expectSemicolon; return VarDecl.mk (← fresh) (← spanFrom start) name nameSpan ty init)
        fun d v => Readable (u ++ v) (d.init.toList.map Expr.tree) := fun t init u hinit =>
    takes_expectSemicolon fun _ => silent_fresh.takes fun _ _ => (silent_spanFrom start).takes fun _ _ =>
      takes_pure (by simpa using hinit.append (Readable.nil.token (.punct .semicolon) rfl))
  refine takes_eat (by simp) (fun t => ?_) fun t => rest t none [] Readable.nil
  exact (takes_someExpression t).bind fun init t w _ hinit =>
    (rest t init w hinit).mono fun d v hd => hd.token _ rfl

theorem takes_varDecl (s : State) : Takes s varDecl fun d w => Readable w (d.init.toList.map Expr.tree) := by
  refine silent_nextStart.takes fun start s => (takes_parseType s).bind fun ty t w _ hty =>
    takes_expectName fun name t => ?_
  exact (takes_finishDecl t start ty name.1 name.2).mono fun d v hd => (readable_typeName hty).append (hd.token _ rfl)

/-- the trees of expressions with the scopes they stand in -/
def treesOf (es : List (Scope × Expr)) : List ExprTree := es.map (·.2.tree)

@[simp] theorem treesOf_nil : treesOf [] = [] := rfl

@[simp] theorem treesOf_cons (Γ : Scope) (e : Expr) (es : List (Scope × Expr)) :
    treesOf ((Γ, e) :: es) = e.tree :: treesOf es := rfl

@[simp] theorem treesOf_append (es es' : List (Scope × Expr)) : treesOf (es ++ es') = treesOf es ++ treesOf es' :=
  List.map_append

@[simp] theorem treesOf_place (Γ : Scope) (e : Option Expr) : treesOf (Γ.place e) = e.toList.map Expr.tree := by
  simp [treesOf, Scope.place]

theorem takes_forInit (s : State) : Takes s forInit fun i w => ∀ Γ, Readable w (treesOf (i.exprs Γ)) := by
  refine takes_eat (by simp) (fun t => takes_pure fun Γ => Readable.nil.token _ rfl) fun t => takes_peek ?_
  split
  · refine (takes_varDecl t).bind fun d t w _ hd => takes_pure fun Γ => ?_
    rw [List.append_nil, ForInit.exprs, treesOf_place]
    exact hd
  · refine silent_nextStart.takes fun start t => (takes_expression t).bind fun e t w _ he =>
      takes_expectSemicolon fun t => ?_
    exact (silent_spanFrom start).takes fun _ _ => takes_pure fun Γ => he.readable.append (Readable.nil.token _ rfl)

/-- what the functions for statements take when they may nest `n` calls -/
structure StmtPhrases (n : Nat) : Prop where
  statement : ∀ s, Takes s (statement n) fun st w => ∀ Γ, Readable w (treesOf (st.exprs Γ))
  block : ∀ s, Takes s (block n) fun b w => ∀ Γ, Readable w (treesOf (Stmt.exprsOf Γ b.2))
  statements : ∀ s, Takes s (statements n) fun ss w => ∀ Γ, Readable w (treesOf (Stmt.exprsOf Γ ss))

section

variable {n : Nat} (ih : StmtPhrases n) (s : State)
include ih

theorem if_phrases (start : Nat) :
    Takes s (do
        let cond ← condition
        let yes ← statement n
        if ← eat (.keyword .else_) then
          let no ← statement n
          return Stmt.ifElse (← spanFrom start) cond yes no
        else return Stmt.ifThen (← spanFrom start) cond yes)
      fun st w => ∀ Γ, Readable w (treesOf (st.exprs Γ)) := by
  refine (takes_condition s).bind fun cond t w _ hcond => (ih.statement t).bind fun yes t v _ hyes => ?_
  refine takes_eat (by simp) (fun t => ?_) fun t => (silent_spanFrom start).takes fun _ _ => takes_pure fun Γ => ?_
  · refine (ih.statement t).bind fun no t u _ hno => (silent_spanFrom start).takes fun _ _ => takes_pure fun Γ => ?_
    simpa [Stmt.exprs] using hcond.append ((hyes Γ.enter).append ((hno Γ.enter).token (.keyword .else_) rfl))
  · simpa [Stmt.exprs] using hcond.append (hyes Γ.enter)

theorem for_phrases (start : Nat) :
    Takes s (do
        let _ ← expect (.punct .lparen) .openParenAfterFor
        let init ← forInit
        let cond ← unlessAt (.punct .semicolon)
        let _ ← expect (.punct .semicolon) .semicolonAfterForCondition
        let step ← unlessAt (.punct .rparen)
        let _ ← expect (.punct .rparen) .closeParen
        let body ← statement n
        return Stmt.for_ (← spanFrom start) init cond step body)
      fun st w => ∀ Γ, Readable w (treesOf (st.exprs Γ)) := by
  refine takes_expect (by simp) fun _ t => (takes_forInit t).bind fun init t w _ hinit => ?_
  refine (takes_unlessAt t _).bind fun cond t v _ hcond => takes_expect (by simp) fun _ t => ?_
  refine (takes_unlessAt t _).bind fun step t u _ hstep => takes_expect (by simp) fun _ t => ?_
  refine (ih.statement t).bind fun body t z _ hbody => (silent_spanFrom start).takes fun _ _ => takes_pure fun Γ => ?_
  have hbehind := hstep.append ((hbody (Γ.enter.declare init.declared)).token (.punct .rparen) rfl)
  have htail := hcond.append (hbehind.token (.punct .semicolon) rfl)
  have hall := ((hinit Γ.enter).append htail).token (.punct .lparen) rfl
  simpa [Stmt.exprs] using hall

theorem statement_phrases : Takes s (statement (n + 1)) fun st w => ∀ Γ, Readable w (treesOf (st.exprs Γ)) := by
  refine silent_nextStart.takes fun start s => takes_peek ?_
  have decl : Takes s (do return Stmt.decl (← varDecl)) fun st w => ∀ Γ, Readable w (treesOf (st.exprs Γ)) := by
    refine (takes_varDecl s).bind fun d t w _ hd => takes_pure fun Γ => ?_
    rw [List.append_nil, Stmt.exprs, treesOf_place]
    exact hd
  split
  · refine (ih.block s).bind fun b t w _ hb => takes_pure fun Γ => ?_
    simpa [Stmt.exprs] using hb Γ.enter
  · exact takes_advance ‹_› (by simp) (takes_get (takes_pure fun Γ => Readable.nil.token _ rfl))
  · exact takes_rejectStruct
  · exact decl
  · exact decl
  · exact decl
  · exact decl
  · exact decl
  · exact takes_advance ‹_› (by simp) ((if_phrases ih _ start).mono fun st w h Γ => (h Γ).token _ rfl)
  · refine takes_advance ‹_› (by simp) ((takes_condition _).bind fun cond t w _ hcond => ?_)
    refine (ih.statement t).bind fun body t v _ hbody => (silent_spanFrom start).takes fun _ _ => takes_pure fun Γ => ?_
    simpa [Stmt.exprs] using (hcond.append (hbody Γ)).token (.keyword .while_) rfl
  · refine takes_advance ‹_› (by simp) ((ih.statement _).bind fun body t w _ hbody =>
      takes_expect (by simp) fun _ t => ?_)
    refine (takes_condition t).bind fun cond t v _ hcond => takes_expectSemicolon fun t =>
      (silent_spanFrom start).takes fun _ _ => ?_
    refine takes_pure fun Γ => ?_
    have htail := (hcond.append (Readable.nil.token (.punct .semicolon) rfl)).token (.keyword .while_) rfl
    simpa [Stmt.exprs] using ((hbody Γ).append htail).token (.keyword .do_) rfl
  · exact takes_advance ‹_› (by simp) ((for_phrases ih _ start).mono fun st w h Γ => (h Γ).token _ rfl)
  · exact takes_advance ‹_› (by simp) (takes_expectSemicolon fun t => (silent_spanFrom start).takes fun _ _ =>
      takes_pure fun Γ => (Readable.nil.token _ rfl).token _ rfl)
  · exact takes_advance ‹_› (by simp) (takes_expectSemicolon fun t => (silent_spanFrom start).takes fun _ _ =>
      takes_pure fun Γ => (Readable.nil.token _ rfl).token _ rfl)
  · refine takes_advance ‹_› (by simp) ((takes_unlessAt _ _).bind fun value t w _ hvalue =>
      takes_expectSemicolon fun t => ?_)
    refine (silent_spanFrom start).takes fun _ _ => takes_pure fun Γ => ?_
    simpa [Stmt.exprs] using (hvalue.append (Readable.nil.token (.punct .semicolon) rfl)).token (.keyword .return_) rfl
  · refine (takes_expression s).bind fun e t w _ he => takes_expectSemicolon fun t =>
      (silent_spanFrom start).takes fun _ _ => ?_
    exact takes_pure fun Γ => he.readable.append (Readable.nil.token _ rfl)

theorem block_phrases : Takes s (block (n + 1)) fun b w => ∀ Γ, Readable w (treesOf (Stmt.exprsOf Γ b.2)) := by
  refine takes_expect (by simp) fun opening t => (ih.statements t).bind fun body t w _ hbody =>
    takes_expect (by simp) fun _ t => ?_
  refine (silent_spanFrom opening.start).takes fun _ _ => takes_pure fun Γ => ?_
  simpa using ((hbody Γ).append (Readable.nil.token (.punct .rbrace) rfl)).token (.punct .lbrace) rfl

theorem statements_phrases :
    Takes s (statements (n + 1)) fun ss w => ∀ Γ, Readable w (treesOf (Stmt.exprsOf Γ ss)) := by
  refine takes_peek ?_
  split
  · exact takes_pure fun Γ => Readable.nil
  · refine (ih.statement s).bind fun st t w _ hst => (ih.statements t).bind fun rest t v _ hrest =>
      takes_pure fun Γ => ?_
    simpa [Stmt.exprsOf] using (hst Γ).append (hrest (Γ.after st))

end

theorem stmtPhrases (n : Nat) : StmtPhrases n := by
  induction n with
  | zero => constructor <;> intros <;> exact takes_unexpected _
  | succ n ih => exact ⟨statement_phrases ih, block_phrases ih, statements_phrases ih⟩

/-! ## Items -/

theorem takes_parameters (n : Nat) (s : State) : Takes s (parameters n) fun _ w => Readable w [] := by
  induction n generalizing s with
  | zero => exact takes_unexpected _
  | succ n ih =>
    refine takes_peek ?_
    split
    · exact takes_pure Readable.nil
    · refine silent_nextStart.takes fun start s => (takes_parseType s).bind fun ty t w _ hty =>
        takes_expectName fun name t => ?_
      refine silent_fresh.takes fun i t => (silent_spanFrom start).takes fun span t => takes_peek ?_
      have hfront : Readable (w ++ [.ident name.1]) [] := (readable_typeName hty).append (Readable.nil.token _ rfl)
      have more : ∀ t,
          Takes t (do let rest ← parameters n; return Param.mk i span name.1 ty :: rest) fun _ v => Readable v [] :=
        fun t => (ih t).bind fun rest t v _ hrest => takes_pure (by simpa using hrest)
      split
      · exact takes_expect (by simp) fun _ t => (more t).mono fun _ v hv => by
          simpa using hfront.append (hv.token (.punct .comma) rfl)
      · exact (more t).mono fun _ v hv => by simpa using hfront.append hv

theorem takes_finishFunction (s : State) (start : Nat) (result : Ty) (name : String) (nameSpan : Span) :
    Takes s (finishFunction start result name nameSpan) fun f w =>
      ∀ Γ, Readable w (treesOf (Stmt.exprsOf Γ f.body)) := by
  have rest : ∀ t, Takes t (do
        let params ← parameters (← get).calls
        let _ ← expect (.punct .rparen) .closeParen
        let found ← block (← get).calls
        return FunctionDecl.mk (← spanFrom start) name nameSpan result params found.1 found.2)
      fun f w => ∀ Γ, Readable w (treesOf (Stmt.exprsOf Γ f.body)) := by
    intro t
    refine takes_get ((takes_parameters t.calls t).bind fun params t w _ hparams =>
      takes_expect (by simp) fun _ t => takes_get ?_)
    refine ((stmtPhrases t.calls).block t).bind fun b t v _ hb => (silent_spanFrom start).takes fun _ _ =>
      takes_pure fun Γ => ?_
    simpa using hparams.append ((hb Γ).token (.punct .rparen) rfl)
  refine takes_expect (by simp) fun _ t => takes_get ?_
  split
  · rename_i hvoid
    refine takes_advance hvoid.1 (by simp) ((rest _).mono fun f w h Γ => ?_)
    exact ((h Γ).token _ rfl).token _ rfl
  · exact (rest t).mono fun f w h Γ => (h Γ).token _ rfl

theorem takes_item (s : State) : Takes s item fun i w => ∀ Γ, Readable w (treesOf (Item.exprsOf Γ [i])) := by
  refine silent_nextStart.takes fun start s => (takes_parseType s).bind fun ty t w _ hty =>
    takes_expectName fun name t => takes_peek ?_
  have hfront : Readable (w ++ [.ident name.1]) [] := (readable_typeName hty).append (Readable.nil.token _ rfl)
  split
  · split
    · exact (silent_spanFrom start).takes fun _ _ => takes_throw _
    · refine (takes_finishFunction t start ty name.1 name.2).bind fun f t v _ hf => takes_pure fun Γ => ?_
      simpa [Item.exprsOf] using hfront.append (hf (Γ.inside f))
  · refine (takes_finishDecl t start ty name.1 name.2).bind fun d t v _ hd => takes_pure fun Γ => ?_
    simpa [Item.exprsOf] using hfront.append hd

/-- the items behind one are read in some scope of their own -/
theorem exprsOf_cons (Γ : Scope) (i : Item) (rest : List Item) :
    ∃ Γ', Item.exprsOf Γ (i :: rest) = Item.exprsOf Γ [i] ++ Item.exprsOf Γ' rest := by
  cases i with
  | function f => exact ⟨Γ, by simp [Item.exprsOf]⟩
  | global d => exact ⟨Γ.add (d.variable .global), by simp [Item.exprsOf]⟩

/-- reading stops at the end of the source only, so all tokens in front of it have been taken -/
theorem readable_of_items (n : Nat) {s t : State} {is : List Item} (h : items n s = .ok is t) (Γ : Scope) :
    Readable s.ahead (treesOf (Item.exprsOf Γ is)) := by
  induction n generalizing s is Γ with
  | zero =>
    obtain ⟨-, -, hfalse⟩ := takes_unexpected (Q := fun _ _ => False) .type_ is t h
    exact hfalse.elim
  | succ n ih =>
    rw [items] at h
    obtain ⟨kind, s', hpeek, h⟩ := exists_of_bind_eq_ok h
    obtain ⟨hkind, rfl⟩ : s.kind = kind ∧ s = s' := EStateM.Result.ok.inj hpeek
    split at h
    · cases h
      rw [State.ahead_eq_nil hkind]
      exact Readable.nil
    · obtain ⟨-, -, hfalse⟩ := takes_rejectStruct (Q := fun _ _ => False) is t h
      exact hfalse.elim
    · obtain ⟨first, t₁, hfirst, h⟩ := exists_of_bind_eq_ok h
      obtain ⟨rest, t₂, hrest, h⟩ := exists_of_bind_eq_ok h
      cases h
      obtain ⟨w, hw, hitem⟩ := takes_item s first t₁ hfirst
      obtain ⟨Γ', hΓ'⟩ := exprsOf_cons Γ first rest
      rw [hw, hΓ', treesOf_append]
      exact (hitem Γ).append (ih hrest Γ')

end Parser

/-! ## Programs -/

open Grammar

/-- the tokens in front of the end of the source -/
def sourceKinds (tokens : List Token) : Kinds := (tokens.map (·.kind)).takeWhile (· ≠ .eof)

/-- tokens that have been read as a program can be cut into the phrases of its expressions and what stands between
them -/
theorem readable_of_parse {tokens : List Token} {p : Program} (h : Program.parse tokens = .ok p) :
    Readable (sourceKinds tokens) (p.exprs.map (·.2.tree)) := by
  obtain ⟨t, hread⟩ := exists_items_of_parse h
  exact Parser.readable_of_items _ hread .empty

/-- **Only variables are assigned or updated, up to unary pluses.** The tokens of a program can be cut into phrases with
the trees of its expressions. However that is done, the operand of each assignment and of each `++` or `--` is a name,
possibly inside parentheses, once its pluses are taken out; as it stands, it is one exactly if there is no plus. -/
theorem Program.targets_of_parse (tokens : List Token) (p : Program) (h : Program.parse tokens = .ok p) :
    Nonempty (Reading (sourceKinds tokens) (p.exprs.map (·.2.tree))) ∧
      ∀ r : Reading (sourceKinds tokens) (p.exprs.map (·.2.tree)), ∀ o ∈ r.operands,
        PlainVariable (unsigned o.kinds) ∧ (PlainVariable o.kinds ↔ .punct .plus ∉ o.kinds) := by
  refine ⟨readable_of_parse h, fun r o ho => ?_⟩
  have htarget := r.variable_of_mem_operands ho
  exact ⟨htarget, variable_iff_plus_not_mem htarget⟩

/-- the pieces of `void main() { +(x) = 1; y++; }` -/
def signedTarget : List Segment :=
  [.token (.keyword .void), .token (.ident "main"), .token (.punct .lparen), .token (.punct .rparen),
   .token (.punct .lbrace), .phrase (.assign .assign (.plus (.parens (.ident "x"))) (.literal (.int 1))),
   .token (.punct .semicolon), .phrase (.update .postInc (.ident "y")), .token (.punct .semicolon),
   .token (.punct .rbrace)]

def signedTargetTokens : List Token :=
  (signedTarget.flatMap Segment.kinds ++ [TokenKind.eof]).map fun kind => ⟨kind, "", ⟨0, 0⟩⟩

theorem exists_reading_signedTarget : ∃ p, Program.parse signedTargetTokens = .ok p ∧
    ∃ r : Reading (sourceKinds signedTargetTokens) (p.exprs.map (·.2.tree)),
      r.operands = [.plus (.parens (.ident "x")), .ident "y"] := by
  obtain ⟨p, hp⟩ : ∃ p, Program.parse signedTargetTokens = .ok p := ⟨_, rfl⟩
  have htrees : p.exprs.map (·.2.tree) = [.assign none "x" (.literal (.int 1)), .update .postInc "y"] := by
    cases hp
    rfl
  have hplaced : ∀ s ∈ signedTarget, s.Placed := by
    simp [signedTarget, Segment.Placed, TokenKind.standsBetween, Phrase.Placed, Phrase.rank, UpdateOp.isPost]
  refine ⟨p, hp, ?_⟩
  rw [htrees]
  exact ⟨⟨signedTarget, rfl, rfl, hplaced⟩, rfl⟩

/-- a variable behind a plus is assigned and another one is counted up -/
theorem Program.signedTarget_operands : ∃ p, Program.parse signedTargetTokens = .ok p ∧
    ∃ r : Reading (sourceKinds signedTargetTokens) (p.exprs.map (·.2.tree)),
      r.operands = [.plus (.parens (.ident "x")), .ident "y"] ∧
      ∀ o ∈ r.operands, PlainVariable (unsigned o.kinds) ∧ (PlainVariable o.kinds ↔ .punct .plus ∉ o.kinds) := by
  obtain ⟨p, hp, r, hoperands⟩ := exists_reading_signedTarget
  exact ⟨p, hp, r, hoperands, (Program.targets_of_parse signedTargetTokens p hp).2 r⟩

/-- not everything that is assigned is a variable as it stands -/
theorem Program.signedTarget_not_plain : ∃ p, Program.parse signedTargetTokens = .ok p ∧
    ∃ r : Reading (sourceKinds signedTargetTokens) (p.exprs.map (·.2.tree)), ∃ o ∈ r.operands,
      ¬ PlainVariable o.kinds := by
  obtain ⟨p, hp, r, hoperands⟩ := exists_reading_signedTarget
  refine ⟨p, hp, r, .plus (.parens (.ident "x")), by simp [hoperands], fun hplain => ?_⟩
  exact hplain.plus_not_mem List.mem_cons_self

end C15

/-
Identities in a program, and the programs that reading tokens can give.

Facts about a program are kept in tables keyed by the identities of its nodes, so nothing about them is worth more than
the identities being distinct. Here:
- `Expr.ids`, `Stmt.ids`, `Program.ids`: the identities of expressions, update targets, declarations and parameters;
- `Expr.Spelled`, `Stmt.Spelled`, `Item.Spelled`: names and literals are what the tokens may say, and no cast is to
  `void`;
- `wellFormed_of_parse`: every program that is read from tokens has distinct identities and is spelled as its tokens
  are.

The reader draws identities from a counter. `Draws` says what a call leaves behind, failing or not: the counter has not
gone back, and on success the identities of the result lie between the old and the new counter, each once (`Fresh`).
-/
import C15.Program.Parser
import Mathlib.Tactic

namespace C15

/-! ## Identities -/

mutual

/-- identities of the nodes of an expression, the node itself last -/
def Expr.ids : Expr → List NodeId
  | .literal id .. | .ident id .. => [id]
  | .binary id _ _ lhs rhs => lhs.ids ++ rhs.ids ++ [id]
  | .unary id _ _ e | .assign id _ _ _ _ e | .cast id _ _ e => e.ids ++ [id]
  | .update id _ _ targetId _ _ => [targetId, id]
  | .call id _ _ _ args | .intrinsic id _ _ _ args => Expr.idsOf args ++ [id]

/-- identities of the nodes of expressions -/
def Expr.idsOf : List Expr → List NodeId
  | [] => []
  | e :: es => e.ids ++ Expr.idsOf es

end

/-- identities of an expression that may be absent -/
def Expr.optionalIds (e : Option Expr) : List NodeId := e.elim [] Expr.ids

def VarDecl.ids (d : VarDecl) : List NodeId := Expr.optionalIds d.init ++ [d.id]

def ForInit.ids : ForInit → List NodeId
  | .nothing => []
  | .decl d => d.ids
  | .expr _ e => e.ids

mutual

/-- identities of the declarations and expressions of a statement -/
def Stmt.ids : Stmt → List NodeId
  | .decl d => d.ids
  | .ifThen _ cond yes => cond.ids ++ yes.ids
  | .ifElse _ cond yes no => cond.ids ++ yes.ids ++ no.ids
  | .for_ _ init cond step body => init.ids ++ Expr.optionalIds cond ++ Expr.optionalIds step ++ body.ids
  | .while_ _ cond body => cond.ids ++ body.ids
  | .doWhile _ body cond => body.ids ++ cond.ids
  | .return_ _ value => Expr.optionalIds value
  | .expr _ e => e.ids
  | .block _ body => Stmt.idsOf body
  | .break_ _ | .continue_ _ | .empty _ => []

/-- identities of the declarations and expressions of statements -/
def Stmt.idsOf : List Stmt → List NodeId
  | [] => []
  | s :: ss => s.ids ++ Stmt.idsOf ss

end

def FunctionDecl.ids (f : FunctionDecl) : List NodeId := f.params.map (·.id) ++ Stmt.idsOf f.body

def Item.ids : Item → List NodeId
  | .function f => f.ids
  | .global d => d.ids

def Program.ids (p : Program) : List NodeId := p.items.flatMap Item.ids

/-! ## Spelling -/

/-- what the names and the literals of a source satisfy; a minus in front of a literal keeps it -/
structure Lexicon where
  name : String → Prop
  literal : Literal → Prop
  negate : ∀ v, literal v → literal v.negate

/-- any name and any literal -/
def Lexicon.all : Lexicon := ⟨fun _ => True, fun _ => True, fun _ _ => trivial⟩

/-- a token with a name or literal of a lexicon, if it has one -/
def TokenKind.In (lx : Lexicon) : TokenKind → Prop
  | .ident name => lx.name name
  | .literal value => lx.literal value
  | _ => True

mutual

/-- literals of a lexicon, and no cast to `void`, which no tokens spell -/
def Expr.Spelled (lx : Lexicon) : Expr → Prop
  | .literal _ _ value => lx.literal value
  | .ident .. | .update .. => True
  | .binary _ _ _ lhs rhs => lhs.Spelled lx ∧ rhs.Spelled lx
  | .unary _ _ _ e | .assign _ _ _ _ _ e => e.Spelled lx
  | .call _ _ _ _ args | .intrinsic _ _ _ _ args => Expr.AllSpelled lx args
  | .cast _ _ base e => base ≠ .void ∧ e.Spelled lx

def Expr.AllSpelled (lx : Lexicon) : List Expr → Prop
  | [] => True
  | e :: es => e.Spelled lx ∧ Expr.AllSpelled lx es

end

def VarDecl.Spelled (lx : Lexicon) (d : VarDecl) : Prop := lx.name d.name ∧ ∀ e ∈ d.init, e.Spelled lx

def ForInit.Spelled (lx : Lexicon) : ForInit → Prop
  | .nothing => True
  | .decl d => d.Spelled lx
  | .expr _ e => e.Spelled lx

mutual

def Stmt.Spelled (lx : Lexicon) : Stmt → Prop
  | .decl d => d.Spelled lx
  | .ifThen _ cond yes => cond.Spelled lx ∧ yes.Spelled lx
  | .ifElse _ cond yes no => cond.Spelled lx ∧ yes.Spelled lx ∧ no.Spelled lx
  | .for_ _ init cond step body =>
    init.Spelled lx ∧ (∀ e ∈ cond, e.Spelled lx) ∧ (∀ e ∈ step, e.Spelled lx) ∧ body.Spelled lx
  | .while_ _ cond body | .doWhile _ body cond => cond.Spelled lx ∧ body.Spelled lx
  | .return_ _ value => ∀ e ∈ value, e.Spelled lx
  | .expr _ e => e.Spelled lx
  | .block _ body => Stmt.AllSpelled lx body
  | .break_ _ | .continue_ _ | .empty _ => True

def Stmt.AllSpelled (lx : Lexicon) : List Stmt → Prop
  | [] => True
  | s :: ss => s.Spelled lx ∧ Stmt.AllSpelled lx ss

end

def Item.Spelled (lx : Lexicon) : Item → Prop
  | .function f => lx.name f.name ∧ Stmt.AllSpelled lx f.body
  | .global d => d.Spelled lx

/-- identities are distinct, and names and literals are of a lexicon -/
structure Program.WellFormed (lx : Lexicon) (p : Program) : Prop where
  distinct : p.ids.Nodup
  spelled : ∀ i ∈ p.items, i.Spelled lx

/-! ## Counters -/

/-- distinct identities from `lo` up to, not including, `hi` -/
structure Fresh (lo hi : Nat) (ids : List Nat) : Prop where
  nodup : ids.Nodup
  bounds : ∀ i ∈ ids, lo ≤ i ∧ i < hi

namespace Fresh

theorem nil (lo hi : Nat) : Fresh lo hi [] := ⟨List.nodup_nil, by simp⟩

theorem one {lo n : Nat} (h : lo ≤ n) : Fresh lo (n + 1) [n] := by
  refine ⟨List.nodup_singleton n, fun i hi => ?_⟩
  rw [List.mem_singleton] at hi
  subst hi
  exact ⟨h, Nat.lt_succ_self _⟩

theorem mono {lo hi lo' hi' : Nat} {ids : List Nat} (h : Fresh lo hi ids) (hlo : lo' ≤ lo) (hhi : hi ≤ hi') :
    Fresh lo' hi' ids :=
  ⟨h.nodup, fun i hi => ⟨hlo.trans (h.bounds i hi).1, (h.bounds i hi).2.trans_le hhi⟩⟩

/-- identities drawn one after the other are distinct -/
theorem append {lo mid hi : Nat} {xs ys : List Nat} (hx : Fresh lo mid xs) (hy : Fresh mid hi ys) (hlo : lo ≤ mid)
    (hhi : mid ≤ hi) : Fresh lo hi (xs ++ ys) := by
  refine ⟨List.Nodup.append hx.nodup hy.nodup ?_, fun i hi => ?_⟩
  · intro i hi hi'
    have := (hx.bounds i hi).2
    have := (hy.bounds i hi').1
    omega
  · rcases List.mem_append.1 hi with hi | hi
    · exact ⟨(hx.bounds i hi).1, (hx.bounds i hi).2.trans_le hhi⟩
    · exact ⟨hlo.trans (hy.bounds i hi).1, (hy.bounds i hi).2⟩

theorem snoc {lo n : Nat} {ids : List Nat} (h : Fresh lo n ids) (hlo : lo ≤ n) : Fresh lo (n + 1) (ids ++ [n]) :=
  h.append (one (Nat.le_refl n)) hlo (Nat.le_succ n)

end Fresh

namespace Parser

/-! ## What a call leaves behind -/

/-- the tokens left are of a lexicon -/
def State.In (lx : Lexicon) (s : State) : Prop := ∀ t ∈ s.rest, t.kind.In lx

/-- from the counter `n`, a call does not set it back, and a result satisfies `Q` with the counter after it -/
def Draws {α : Type} (lx : Lexicon) (n : Nat) (x : Parser α) (Q : α → Nat → Prop) : Prop :=
  ∀ s : State, s.nextId = n → s.In lx →
    match x s with
    | .ok a t => n ≤ t.nextId ∧ t.In lx ∧ Q a t.nextId
    | .error _ t => n ≤ t.nextId

/-- a call that draws no identities -/
def Quiet {α : Type} (lx : Lexicon) (x : Parser α) : Prop := ∀ n, Draws lx n x fun _ m => m = n

variable {lx : Lexicon}

section Calculus

variable {α β : Type} {n : Nat} {x : Parser α} {f : α → Parser β} {P Q : α → Nat → Prop} {R : β → Nat → Prop}

theorem Draws.bind (hx : Draws lx n x P) (hf : ∀ a m, n ≤ m → P a m → Draws lx m (f a) R) : Draws lx n (x >>= f) R := by
  intro s hs hin
  have hxs := hx s hs hin
  simp only [Bind.bind, EStateM.bind]
  cases hr : x s with
  | error e t => rw [hr] at hxs; exact hxs
  | ok a t =>
    rw [hr] at hxs
    obtain ⟨hle, hin', ha⟩ := hxs
    have hfa := hf a t.nextId hle ha t rfl hin'
    simp only
    cases hr' : f a t with
    | error e u => rw [hr'] at hfa; exact hle.trans hfa
    | ok b u => rw [hr'] at hfa; exact ⟨hle.trans hfa.1, hfa.2⟩

theorem draws_pure {a : α} (h : P a n) : Draws lx n (pure a) P := fun _ hs hin => ⟨hs.ge, hin, hs ▸ h⟩

theorem draws_throw (e : Located GrammarCause) : Draws lx n (throw e : Parser α) P := fun _ hs _ => hs.ge

/-- after a quiet call the counter is where it was -/
theorem Quiet.andThen (hx : Quiet lx x) (hf : ∀ a, Draws lx n (f a) R) : Draws lx n (x >>= f) R :=
  (hx n).bind fun a _ _ hm => hm ▸ hf a

theorem Quiet.bind (hx : Quiet lx x) (hf : ∀ a, Quiet lx (f a)) : Quiet lx (x >>= f) :=
  fun n => hx.andThen fun a => hf a n

theorem quiet_pure (a : α) : Quiet lx (pure a : Parser α) := fun _ => draws_pure rfl

theorem quiet_throw (e : Located GrammarCause) : Quiet lx (throw e : Parser α) := fun _ => draws_throw e

theorem quiet_get : Quiet lx (get : Parser State) := fun _ _ hs hin => ⟨hs.ge, hin, hs⟩

end Calculus

theorem nextId_advance (s : State) : s.advance.nextId = s.nextId := by
  unfold State.advance
  split
  · rfl
  · split <;> rfl

theorem State.In.advance {s : State} (h : s.In lx) : s.advance.In lx := by
  unfold State.advance
  split
  · exact h
  · rename_i t ts hrest
    split
    · exact h
    · exact fun u hu => h u (hrest ▸ List.mem_cons_of_mem t hu)

theorem State.In.kind {s : State} (h : s.In lx) : s.kind.In lx := by
  unfold State.kind State.kindAt
  cases hrest : s.rest with
  | nil => trivial
  | cons t ts => exact h t (hrest ▸ List.mem_cons_self)

theorem quiet_advance : Quiet lx advance := fun _ s hs hin =>
  ⟨((nextId_advance s).trans hs).ge, hin.advance, (nextId_advance s).trans hs⟩

theorem quiet_peek : Quiet lx peek := quiet_get.bind fun _ => quiet_pure _

/-- the next token is of the lexicon -/
theorem draws_peek (n : Nat) : Draws lx n peek fun kind m => m = n ∧ kind.In lx :=
  fun _ hs hin => ⟨hs.ge, hin, hs, hin.kind⟩

theorem quiet_nextStart : Quiet lx nextStart := quiet_get.bind fun _ => quiet_pure _

theorem quiet_spanFrom (start : Nat) : Quiet lx (spanFrom start) := quiet_get.bind fun _ => quiet_pure _

theorem draws_unexpected {α : Type} {n : Nat} {P : α → Nat → Prop} (wanted : Wanted) :
    Draws lx n (unexpected wanted : Parser α) P := quiet_get.andThen fun _ => draws_throw _

theorem draws_rejectStruct {α : Type} {n : Nat} {P : α → Nat → Prop} : Draws lx n (rejectStruct : Parser α) P :=
  quiet_get.andThen fun _ => draws_throw _

theorem quiet_expect (kind : TokenKind) (wanted : Wanted) : Quiet lx (expect kind wanted) := by
  refine quiet_peek.bind fun k => ?_
  split
  · exact quiet_advance.bind fun _ => quiet_get.bind fun _ => quiet_pure _
  · exact fun _ => draws_unexpected _

theorem quiet_eat (kind : TokenKind) : Quiet lx (eat kind) := by
  refine quiet_peek.bind fun k => ?_
  split
  · exact quiet_advance.bind fun _ => quiet_pure _
  · exact quiet_pure _

theorem draws_expectName (n : Nat) (wanted : Wanted) :
    Draws lx n (expectName wanted) fun r m => m = n ∧ lx.name r.1 := by
  refine (draws_peek n).bind fun kind m _ hkind => ?_
  obtain ⟨rfl, hkind⟩ := hkind
  split
  · exact quiet_advance.andThen fun _ => quiet_get.andThen fun _ => draws_pure ⟨rfl, hkind⟩
  · exact draws_unexpected _

theorem quiet_expectSemicolon : Quiet lx expectSemicolon := by
  refine (quiet_eat _).bind fun b => ?_
  split
  · exact quiet_pure _
  · exact quiet_get.bind fun _ => quiet_throw _

theorem quiet_parseType : Quiet lx parseType := by
  refine (quiet_eat _).bind fun b => quiet_peek.bind fun k => ?_
  split
  · exact quiet_advance.bind fun _ => quiet_pure _
  · exact quiet_advance.bind fun _ => quiet_pure _
  · exact quiet_advance.bind fun _ => quiet_pure _
  · split
    · exact fun _ => draws_unexpected _
    · exact quiet_advance.bind fun _ => quiet_pure _
  · exact fun _ => draws_rejectStruct
  · exact fun _ => draws_unexpected _

/-- an identity is the old counter -/
theorem draws_fresh (n : Nat) : Draws lx n fresh fun i m => i = n ∧ m = n + 1 := by
  rintro s rfl hin
  exact ⟨Nat.le_succ _, hin, rfl, rfl⟩

/-! ## Expressions -/

/-- an expression of a lexicon whose identities were drawn between two counters -/
def Sound (lx : Lexicon) (lo hi : Nat) (e : Expr) : Prop := Fresh lo hi e.ids ∧ e.Spelled lx

/-- the same of expressions one after the other -/
def SoundAll (lx : Lexicon) (lo hi : Nat) (es : List Expr) : Prop := Fresh lo hi (Expr.idsOf es) ∧ Expr.AllSpelled lx es

theorem draws_mkUpdate {lo n : Nat} {e : Expr} (op : UpdateOp) (span : Span) (hlo : lo ≤ n) (he : Sound lx lo n e) :
    Draws lx n (mkUpdate op e span) fun u m => Sound lx lo m u := by
  unfold mkUpdate
  split
  · refine (draws_fresh n).bind fun i m _ hm => draws_pure ?_
    obtain ⟨rfl, rfl⟩ := hm
    exact ⟨he.1.snoc hlo, trivial⟩
  · exact draws_throw _

theorem draws_suffix {lo n : Nat} {e : Expr} (hlo : lo ≤ n) (he : Sound lx lo n e) :
    Draws lx n (suffix e) fun u m => Sound lx lo m u := by
  refine quiet_peek.andThen fun k => ?_
  split
  · exact draws_pure he
  · refine quiet_advance.andThen fun _ => quiet_get.andThen fun _ => ?_
    refine (draws_mkUpdate _ _ hlo he).bind fun u m hm hu => quiet_peek.andThen fun k => ?_
    split
    · exact draws_pure hu
    · exact quiet_advance.andThen fun _ => quiet_get.andThen fun _ => draws_mkUpdate _ _ (hlo.trans hm) hu

theorem kindAt_advance {s : State} (h : s.kindAt 0 ≠ .eof) (n : Nat) : s.advance.kindAt n = s.kindAt (n + 1) := by
  unfold State.kindAt State.advance at *
  cases hr : s.rest with
  | nil => rw [hr] at h; exact absurd rfl h
  | cons t ts =>
    have ht : t.kind ≠ .eof := by simpa [hr] using h
    simp [ht]

/-- a keyword for a type with values is read as that type -/
theorem parseType_of_kind {s : State} {k : Keyword} (hk : s.kindAt 0 = .keyword k)
    (h : k = .int ∨ k = .uint ∨ k = .float) :
    ∃ ty, parseType s = .ok ty s.advance ∧ ty.base ≠ .void := by
  have heat : eat (.keyword .const) s = .ok false s := by
    have : s.kindAt 0 ≠ .keyword .const := by
      rw [hk]
      rcases h with rfl | rfl | rfl <;> simp
    have hpeek : peek s = .ok (s.kindAt 0) s := rfl
    simp [eat, bind, EStateM.bind, pure, EStateM.pure, hpeek, this]
  have hpeek : peek s = .ok (.keyword k) s := by
    rw [← hk]
    rfl
  rcases h with rfl | rfl | rfl
  · exact ⟨⟨false, .int⟩, by simp [parseType, bind, EStateM.bind, heat, hpeek]; rfl, by simp⟩
  · exact ⟨⟨false, .uint⟩, by simp [parseType, bind, EStateM.bind, heat, hpeek]; rfl, by simp⟩
  · exact ⟨⟨false, .float⟩, by simp [parseType, bind, EStateM.bind, heat, hpeek]; rfl, by simp⟩

/-- where a cast starts, the three tokens ahead are a parenthesis, a type with values and a parenthesis -/
theorem kinds_of_atCast {s : State} (h : atCast s = .ok true s) : ∃ k : Keyword, (k = .int ∨ k = .uint ∨ k = .float) ∧
    s.kindAt 0 = .punct .lparen ∧ s.kindAt 1 = .keyword k ∧ s.kindAt 2 = .punct .rparen := by
  have hget : (get : Parser State) s = .ok s s := rfl
  simp only [atCast, bind, EStateM.bind, hget, pure, EStateM.pure, EStateM.Result.ok.injEq, Bool.and_eq_true,
    decide_eq_true_eq, and_true] at h
  obtain ⟨⟨h0, hnamed⟩, h2⟩ := h
  split at hnamed <;> rename_i h1
  · exact ⟨.int, by simp, h0, h1, h2⟩
  · exact ⟨.uint, by simp, h0, h1, h2⟩
  · exact ⟨.float, by simp, h0, h1, h2⟩
  · exact absurd hnamed (by simp)

/-- a look-ahead for a cast, then its type: the type that is read has values -/
theorem draws_atCast {α : Type} {n : Nat} {R : α → Nat → Prop} {g : Ty → Parser α} {other : Parser α}
    (hg : ∀ ty : Ty, ty.base ≠ .void → Draws lx n (g ty) R) (ho : Draws lx n other R) :
    Draws lx n (do if ← atCast then advance; let ty ← parseType; g ty else other) R := by
  intro s hs hin
  obtain ⟨b, hb⟩ : ∃ b, atCast s = .ok b s := ⟨_, rfl⟩
  simp only [bind, EStateM.bind, hb]
  cases b with
  | false => exact ho s hs hin
  | true =>
    obtain ⟨k, hk, h0, h1, -⟩ := kinds_of_atCast hb
    have hne : s.kindAt 0 ≠ .eof := by rw [h0]; simp
    obtain ⟨ty, hty, hv⟩ := parseType_of_kind ((kindAt_advance hne 0).trans h1) hk
    have hadv : advance s = .ok () s.advance := rfl
    simp only [if_true, EStateM.bind, hadv, hty]
    exact hg ty hv _ (by rw [nextId_advance, nextId_advance, hs]) hin.advance.advance

/-- what the functions for expressions leave behind when they may nest `n` calls -/
structure ExprReads (lx : Lexicon) (n : Nat) : Prop where
  assignment : ∀ c, Draws lx c (assignment n) fun e m => Sound lx c m e
  binary : ∀ c level, Draws lx c (binary n level) fun e m => Sound lx c m e
  binaryRest : ∀ lo c level left, lo ≤ c → Sound lx lo c left → Draws lx c (binaryRest n level left) fun e m =>
    Sound lx lo m e
  unary : ∀ c, Draws lx c (unary n) fun e m => Sound lx c m e
  primary : ∀ c, Draws lx c (primary n) fun e m => Sound lx c m e
  arguments : ∀ c, Draws lx c (arguments n) fun es m => SoundAll lx c m es
  argumentsRest : ∀ c, Draws lx c (argumentsRest n) fun es m => SoundAll lx c m es

/-- the node around one operand takes the next identity -/
theorem Sound.wrap {lo n m : Nat} {operand e : Expr} {i : NodeId} (h : Sound lx lo n operand) (hlo : lo ≤ n)
    (hi : i = n ∧ m = n + 1) (hids : e.ids = operand.ids ++ [i]) (hcasts : operand.Spelled lx → e.Spelled lx) :
    Sound lx lo m e := by
  obtain ⟨rfl, rfl⟩ := hi
  exact ⟨hids ▸ h.1.snoc hlo, hcasts h.2⟩

theorem assignment_reads {n : Nat} (ih : ExprReads lx n) (c : Nat) :
    Draws lx c (assignment (n + 1)) fun e m => Sound lx c m e := by
  refine (ih.binary c 0).bind fun lhs k hk hlhs => quiet_peek.andThen fun kind => ?_
  split
  · exact draws_pure hlhs
  · split
    · refine quiet_advance.andThen fun _ => (ih.assignment k).bind fun value k' hk' hvalue => ?_
      refine (draws_fresh k').bind fun i m _ hi => draws_pure ?_
      exact Sound.wrap ⟨hvalue.1.mono hk (Nat.le_refl _), hvalue.2⟩ (hk.trans hk') hi rfl id
    · exact draws_throw _

theorem binaryRest_reads {n : Nat} (ih : ExprReads lx n) (lo c level : Nat) (left : Expr) (hlo : lo ≤ c)
    (hleft : Sound lx lo c left) : Draws lx c (binaryRest (n + 1) level left) fun e m => Sound lx lo m e := by
  refine quiet_peek.andThen fun kind => ?_
  split
  · exact draws_pure hleft
  · split
    · exact draws_pure hleft
    · refine quiet_advance.andThen fun _ => (ih.binary c _).bind fun right k hk hright => ?_
      refine (draws_fresh k).bind fun i m hm hi => ih.binaryRest lo m level _ (hlo.trans (hk.trans hm)) ?_
      obtain ⟨rfl, rfl⟩ := hi
      exact ⟨(hleft.1.append hright.1 hlo hk).snoc (hlo.trans hk), hleft.2, hright.2⟩

theorem unary_reads {n : Nat} (ih : ExprReads lx n) (c : Nat) :
    Draws lx c (unary (n + 1)) fun e m => Sound lx c m e := by
  have operand :
      ∀ {f : Expr → Parser Expr}, (∀ e k, c ≤ k → Sound lx c k e → Draws lx k (f e) fun e m => Sound lx c m e) →
      Draws lx c (do advance; let e ← unary n; f e) fun e m => Sound lx c m e := fun hf =>
    quiet_advance.andThen fun _ => (ih.unary c).bind hf
  refine quiet_nextStart.andThen fun start => draws_atCast (fun ty hty => ?_) (quiet_peek.andThen fun kind => ?_)
  · refine quiet_advance.andThen fun _ => (ih.unary c).bind fun e k hk he => (draws_fresh k).bind fun i m _ hi => ?_
    exact (quiet_spanFrom start).andThen fun _ => draws_pure (he.wrap hk hi rfl fun h => ⟨hty, h⟩)
  · split
    · refine operand fun e k hk he => (quiet_spanFrom start).andThen fun span => ?_
      split
      · exact draws_pure ⟨he.1, lx.negate _ he.2⟩
      · exact (draws_fresh k).bind fun i m _ hi => draws_pure (he.wrap hk hi rfl id)
    · refine operand fun e k hk he => (draws_fresh k).bind fun i m _ hi => ?_
      exact (quiet_spanFrom start).andThen fun _ => draws_pure (he.wrap hk hi rfl id)
    · refine operand fun e k hk he => (draws_fresh k).bind fun i m _ hi => ?_
      exact (quiet_spanFrom start).andThen fun _ => draws_pure (he.wrap hk hi rfl id)
    · exact operand fun e k hk he => (quiet_spanFrom start).andThen fun _ => draws_mkUpdate _ _ hk he
    · exact operand fun e k hk he => (quiet_spanFrom start).andThen fun _ => draws_mkUpdate _ _ hk he
    · exact quiet_advance.andThen fun _ => ih.unary c
    · exact (ih.primary c).bind fun e k hk he => draws_suffix hk he

theorem primary_reads {n : Nat} (ih : ExprReads lx n) (c : Nat) :
    Draws lx c (primary (n + 1)) fun e m => Sound lx c m e := by
  refine quiet_nextStart.andThen fun start => (draws_peek c).bind fun kind m _ hkind => ?_
  obtain ⟨rfl, hkind⟩ := hkind
  split
  · refine quiet_advance.andThen fun _ => (draws_fresh _).bind fun i m _ hi => quiet_get.andThen fun _ => draws_pure ?_
    obtain ⟨rfl, rfl⟩ := hi
    exact ⟨Fresh.one (Nat.le_refl _), hkind⟩
  · refine quiet_advance.andThen fun _ => (ih.assignment _).bind fun e k _ he => ?_
    exact (quiet_expect _ _).andThen fun _ => draws_pure he
  · refine quiet_advance.andThen fun _ => quiet_get.andThen fun _ => (ih.arguments _).bind fun args k hk hargs => ?_
    refine (draws_fresh k).bind fun i m _ hi => (quiet_spanFrom start).andThen fun _ => draws_pure ?_
    obtain ⟨rfl, rfl⟩ := hi
    exact ⟨hargs.1.snoc hk, hargs.2⟩
  · refine quiet_advance.andThen fun _ => quiet_get.andThen fun _ => quiet_peek.andThen fun next => ?_
    split
    · refine (ih.arguments _).bind fun args k hk hargs => ?_
      refine (draws_fresh k).bind fun i m _ hi => (quiet_spanFrom start).andThen fun _ => draws_pure ?_
      obtain ⟨rfl, rfl⟩ := hi
      exact ⟨hargs.1.snoc hk, hargs.2⟩
    · refine (draws_fresh _).bind fun i m _ hi => draws_pure ?_
      obtain ⟨rfl, rfl⟩ := hi
      exact ⟨Fresh.one (Nat.le_refl _), trivial⟩
  · exact draws_unexpected _

theorem argumentsRest_reads {n : Nat} (ih : ExprReads lx n) (c : Nat) :
    Draws lx c (argumentsRest (n + 1)) fun es m => SoundAll lx c m es := by
  refine quiet_peek.andThen fun kind => ?_
  split
  · exact draws_pure ⟨Fresh.nil _ _, trivial⟩
  · refine (ih.assignment c).bind fun arg k hk harg => quiet_peek.andThen fun next => ?_
    have more : Draws lx k (do let args ← argumentsRest n; return arg :: args) fun es m => SoundAll lx c m es :=
      (ih.argumentsRest k).bind fun args m hm hargs =>
        draws_pure ⟨harg.1.append hargs.1 hk hm, harg.2, hargs.2⟩
    split
    · exact (quiet_expect _ _).andThen fun _ => more
    · exact more

theorem exprReads (n : Nat) : ExprReads lx n := by
  induction n with
  | zero => constructor <;> intros <;> exact draws_unexpected _
  | succ n ih =>
    exact {
      assignment := assignment_reads ih
      binary := fun c level =>
        (ih.unary c).bind fun left k hk hleft => ih.binaryRest c k level left hk hleft
      binaryRest := binaryRest_reads ih
      unary := unary_reads ih
      primary := primary_reads ih
      arguments := fun c => (quiet_expect _ _).andThen fun _ => (ih.argumentsRest c).bind fun args _ _ hargs =>
        (quiet_expect _ _).andThen fun _ => draws_pure hargs
      argumentsRest := argumentsRest_reads ih }

/-- an expression is sound between the counters before and after reading it -/
theorem draws_expression (c : Nat) : Draws lx c expression fun e m => Sound lx c m e :=
  quiet_get.andThen fun s => (exprReads s.calls).assignment c

/-! ## Statements -/

/-- an expression that may be absent -/
def SoundOption (lx : Lexicon) (lo hi : Nat) (e : Option Expr) : Prop :=
  Fresh lo hi (Expr.optionalIds e) ∧ ∀ x ∈ e, x.Spelled lx

theorem soundOption_none (lo hi : Nat) : SoundOption lx lo hi none := ⟨Fresh.nil _ _, by simp⟩

theorem Sound.toOption {lo hi : Nat} {e : Expr} (h : Sound lx lo hi e) : SoundOption lx lo hi (some e) :=
  ⟨h.1, by simpa using h.2⟩

/-- an expression behind `some` -/
theorem draws_someExpression (c : Nat) : Draws lx c (some <$> expression) fun e m => SoundOption lx c m e := by
  rw [map_eq_pure_bind]
  exact (draws_expression c).bind fun e m _ he => draws_pure he.toOption

theorem draws_condition (c : Nat) : Draws lx c condition fun e m => Sound lx c m e :=
  (quiet_expect _ _).andThen fun _ => (draws_expression c).bind fun _ _ _ he =>
    (quiet_expect _ _).andThen fun _ => draws_pure he

theorem draws_finishDecl (c start : Nat) (ty : Ty) {name : String} (nameSpan : Span) (hname : lx.name name) :
    Draws lx c (finishDecl start ty name nameSpan) fun d m => Fresh c m d.ids ∧ d.Spelled lx := by
  refine (quiet_eat _).andThen fun b => ?_
  have rest : ∀ init k, c ≤ k → SoundOption lx c k init →
      Draws lx k (do expectSemicolon; return VarDecl.mk (← fresh) (← spanFrom start) name nameSpan ty init)
        fun d m => Fresh c m d.ids ∧ d.Spelled lx := fun init k hk hinit =>
    quiet_expectSemicolon.andThen fun _ => (draws_fresh k).bind fun i m _ hi =>
      (quiet_spanFrom start).andThen fun _ => draws_pure <| by
        obtain ⟨rfl, rfl⟩ := hi
        exact ⟨hinit.1.snoc hk, hname, hinit.2⟩
  split
  · exact (draws_someExpression c).bind rest
  · exact rest none c (Nat.le_refl _) (soundOption_none _ _)

theorem draws_varDecl (c : Nat) : Draws lx c varDecl fun d m => Fresh c m d.ids ∧ d.Spelled lx := by
  refine quiet_nextStart.andThen fun _ => quiet_parseType.andThen fun _ =>
    (draws_expectName c _).bind fun name m _ hname => ?_
  obtain ⟨rfl, hname⟩ := hname
  exact draws_finishDecl _ _ _ _ hname

theorem draws_forInit (c : Nat) : Draws lx c forInit fun i m => Fresh c m i.ids ∧ i.Spelled lx := by
  refine (quiet_eat _).andThen fun b => ?_
  split
  · exact draws_pure ⟨Fresh.nil _ _, trivial⟩
  · refine quiet_peek.andThen fun k => ?_
    split
    · exact (draws_varDecl c).bind fun d m _ hd => draws_pure hd
    · refine quiet_nextStart.andThen fun start => (draws_expression c).bind fun e m _ he => ?_
      exact quiet_expectSemicolon.andThen fun _ => (quiet_spanFrom start).andThen fun _ => draws_pure he

theorem draws_unlessAt (c : Nat) (kind : TokenKind) : Draws lx c (unlessAt kind) fun e m => SoundOption lx c m e := by
  refine quiet_peek.andThen fun k => ?_
  split
  · exact draws_pure (soundOption_none _ _)
  · exact draws_someExpression c

/-- what the functions for statements leave behind when they may nest `n` calls -/
structure StmtReads (lx : Lexicon) (n : Nat) : Prop where
  statement : ∀ c, Draws lx c (statement n) fun s m => Fresh c m s.ids ∧ s.Spelled lx
  block : ∀ c, Draws lx c (block n) fun b m => Fresh c m (Stmt.idsOf b.2) ∧ Stmt.AllSpelled lx b.2
  statements : ∀ c, Draws lx c (statements n) fun ss m => Fresh c m (Stmt.idsOf ss) ∧ Stmt.AllSpelled lx ss

theorem if_reads {n : Nat} (ih : StmtReads lx n) (c start : Nat) :
    Draws lx c (do
        let cond ← condition
        let yes ← statement n
        if ← eat (.keyword .else_) then
          let no ← statement n
          return Stmt.ifElse (← spanFrom start) cond yes no
        else return Stmt.ifThen (← spanFrom start) cond yes)
      fun s m => Fresh c m s.ids ∧ s.Spelled lx := by
  refine (draws_condition c).bind fun cond k hk hcond => (ih.statement k).bind fun yes k' hk' hyes => ?_
  have both := hcond.1.append hyes.1 hk hk'
  refine (quiet_eat _).andThen fun b => ?_
  split
  · refine (ih.statement k').bind fun no m hm hno => (quiet_spanFrom start).andThen fun _ => draws_pure ?_
    exact ⟨both.append hno.1 (hk.trans hk') hm, hcond.2, hyes.2, hno.2⟩
  · exact (quiet_spanFrom start).andThen fun _ => draws_pure ⟨both, hcond.2, hyes.2⟩

theorem for_reads {n : Nat} (ih : StmtReads lx n) (c start : Nat) :
    Draws lx c (do
        let _ ← expect (.punct .lparen) .openParenAfterFor
        let init ← forInit
        let cond ← unlessAt (.punct .semicolon)
        let _ ← expect (.punct .semicolon) .semicolonAfterForCondition
        let step ← unlessAt (.punct .rparen)
        let _ ← expect (.punct .rparen) .closeParen
        let body ← statement n
        return Stmt.for_ (← spanFrom start) init cond step body)
      fun s m => Fresh c m s.ids ∧ s.Spelled lx := by
  refine (quiet_expect _ _).andThen fun _ => (draws_forInit c).bind fun init k1 h1 hinit => ?_
  refine (draws_unlessAt k1 _).bind fun cond k2 h2 hcond => (quiet_expect _ _).andThen fun _ => ?_
  refine (draws_unlessAt k2 _).bind fun step k3 h3 hstep => (quiet_expect _ _).andThen fun _ => ?_
  refine (ih.statement k3).bind fun body m hm hbody => (quiet_spanFrom start).andThen fun _ => draws_pure ?_
  have header := (hinit.1.append hcond.1 h1 h2).append hstep.1 (h1.trans h2) h3
  exact ⟨header.append hbody.1 ((h1.trans h2).trans h3) hm, hinit.2, hcond.2, hstep.2, hbody.2⟩

theorem statement_reads {n : Nat} (ih : StmtReads lx n) (c : Nat) :
    Draws lx c (statement (n + 1)) fun s m => Fresh c m s.ids ∧ s.Spelled lx := by
  refine quiet_nextStart.andThen fun start => quiet_peek.andThen fun kind => ?_
  have decl : Draws lx c (do return Stmt.decl (← varDecl)) fun s m => Fresh c m s.ids ∧ s.Spelled lx :=
    (draws_varDecl c).bind fun d m _ hd => draws_pure hd
  split
  · exact (ih.block c).bind fun b m _ hb => draws_pure hb
  · exact quiet_advance.andThen fun _ => quiet_get.andThen fun _ => draws_pure ⟨Fresh.nil _ _, trivial⟩
  · exact draws_rejectStruct
  · exact decl
  · exact decl
  · exact decl
  · exact decl
  · exact decl
  · exact quiet_advance.andThen fun _ => if_reads ih c start
  · refine quiet_advance.andThen fun _ => (draws_condition c).bind fun cond k hk hcond => ?_
    refine (ih.statement k).bind fun body m hm hbody => (quiet_spanFrom start).andThen fun _ => draws_pure ?_
    exact ⟨hcond.1.append hbody.1 hk hm, hcond.2, hbody.2⟩
  · refine quiet_advance.andThen fun _ => (ih.statement c).bind fun body k hk hbody =>
      (quiet_expect _ _).andThen fun _ => ?_
    refine (draws_condition k).bind fun cond m hm hcond => quiet_expectSemicolon.andThen fun _ => ?_
    exact (quiet_spanFrom start).andThen fun _ => draws_pure ⟨hbody.1.append hcond.1 hk hm, hcond.2, hbody.2⟩
  · exact quiet_advance.andThen fun _ => for_reads ih c start
  · exact quiet_advance.andThen fun _ => quiet_expectSemicolon.andThen fun _ => (quiet_spanFrom start).andThen fun _ =>
      draws_pure ⟨Fresh.nil _ _, trivial⟩
  · exact quiet_advance.andThen fun _ => quiet_expectSemicolon.andThen fun _ => (quiet_spanFrom start).andThen fun _ =>
      draws_pure ⟨Fresh.nil _ _, trivial⟩
  · refine quiet_advance.andThen fun _ => (draws_unlessAt c _).bind fun value m _ hvalue => ?_
    exact quiet_expectSemicolon.andThen fun _ => (quiet_spanFrom start).andThen fun _ => draws_pure hvalue
  · refine (draws_expression c).bind fun e m _ he => quiet_expectSemicolon.andThen fun _ => ?_
    exact (quiet_spanFrom start).andThen fun _ => draws_pure he

theorem statements_reads {n : Nat} (ih : StmtReads lx n) (c : Nat) :
    Draws lx c (statements (n + 1)) fun ss m => Fresh c m (Stmt.idsOf ss) ∧ Stmt.AllSpelled lx ss := by
  refine quiet_peek.andThen fun kind => ?_
  split
  · exact draws_pure ⟨Fresh.nil _ _, trivial⟩
  · refine (ih.statement c).bind fun s k hk hs => (ih.statements k).bind fun rest m hm hrest => draws_pure ?_
    exact ⟨hs.1.append hrest.1 hk hm, hs.2, hrest.2⟩

theorem stmtReads (n : Nat) : StmtReads lx n := by
  induction n with
  | zero => constructor <;> intros <;> exact draws_unexpected _
  | succ n ih =>
    exact {
      statement := statement_reads ih
      block := fun c => (quiet_expect _ _).andThen fun opening => (ih.statements c).bind fun body _ _ hbody =>
        (quiet_expect _ _).andThen fun _ => (quiet_spanFrom opening.start).andThen fun _ => draws_pure hbody
      statements := statements_reads ih }

/-! ## Items -/

theorem draws_parameters (n c : Nat) : Draws lx c (parameters n) fun ps m => Fresh c m (ps.map (·.id)) := by
  induction n generalizing c with
  | zero => exact draws_unexpected _
  | succ n ih =>
    refine quiet_peek.andThen fun kind => ?_
    split
    · exact draws_pure (Fresh.nil _ _)
    · refine quiet_nextStart.andThen fun start => quiet_parseType.andThen fun ty =>
        (draws_expectName c _).bind fun name c _ hname => ?_
      obtain ⟨rfl, -⟩ := hname
      refine (draws_fresh c).bind fun i k hk hi => (quiet_spanFrom start).andThen fun span =>
        quiet_peek.andThen fun next => ?_
      have more : Draws lx k (do let rest ← parameters n; return Param.mk i span name.1 ty :: rest)
          fun ps m => Fresh c m (ps.map (·.id)) :=
        (ih k).bind fun rest m hm hrest => draws_pure <| by
          obtain ⟨rfl, rfl⟩ := hi
          exact (Fresh.one (Nat.le_refl _)).append hrest hk hm
      split
      · exact (quiet_expect _ _).andThen fun _ => more
      · exact more

theorem draws_finishFunction (c start : Nat) (result : Ty) {name : String} (nameSpan : Span) (hname : lx.name name) :
    Draws lx c (finishFunction start result name nameSpan) fun f m => Fresh c m f.ids ∧ lx.name f.name ∧
      Stmt.AllSpelled lx f.body := by
  refine (quiet_expect _ _).andThen fun _ => quiet_get.andThen fun s => ?_
  have rest : Draws lx c (do
        let params ← parameters (← get).calls
        let _ ← expect (.punct .rparen) .closeParen
        let found ← block (← get).calls
        return FunctionDecl.mk (← spanFrom start) name nameSpan result params found.1 found.2)
      fun f m => Fresh c m f.ids ∧ lx.name f.name ∧ Stmt.AllSpelled lx f.body := by
    refine quiet_get.andThen fun s => (draws_parameters s.calls c).bind fun params k hk hparams => ?_
    refine (quiet_expect _ _).andThen fun _ => quiet_get.andThen fun s =>
      ((stmtReads s.calls).block k).bind fun b m hm hb => ?_
    exact (quiet_spanFrom start).andThen fun _ => draws_pure ⟨hparams.append hb.1 hk hm, hname, hb.2⟩
  split
  · exact quiet_advance.andThen fun _ => rest
  · exact rest

theorem draws_item (c : Nat) : Draws lx c item fun i m => Fresh c m i.ids ∧ i.Spelled lx := by
  refine quiet_nextStart.andThen fun start => quiet_parseType.andThen fun ty =>
    (draws_expectName c _).bind fun name m _ hname => ?_
  obtain ⟨rfl, hname⟩ := hname
  refine quiet_peek.andThen fun kind => ?_
  split
  · split
    · exact (quiet_spanFrom start).andThen fun _ => draws_throw _
    · exact (draws_finishFunction _ _ _ _ hname).bind fun f m _ hf => draws_pure hf
  · exact (draws_finishDecl _ _ _ _ hname).bind fun d m _ hd => draws_pure hd

theorem draws_items (n c : Nat) :
    Draws lx c (items n) fun is m => Fresh c m (is.flatMap Item.ids) ∧ ∀ i ∈ is, i.Spelled lx := by
  induction n generalizing c with
  | zero => exact draws_unexpected _
  | succ n ih =>
    refine quiet_peek.andThen fun kind => ?_
    split
    · exact draws_pure ⟨Fresh.nil _ _, by simp⟩
    · exact draws_rejectStruct
    · refine (draws_item c).bind fun first k hk hfirst => (ih k).bind fun rest m hm hrest => draws_pure ⟨?_, ?_⟩
      · rw [List.flatMap_cons]
        exact hfirst.1.append hrest.1 hk hm
      · intro i hi
        rcases List.mem_cons.1 hi with rfl | hi
        · exact hfirst.2
        · exact hrest.2 i hi

end Parser

/-- the items of a program are those that are read from the first token on -/
theorem exists_items_of_parse {tokens : List Token} {p : Program} (h : Program.parse tokens = .ok p) :
    ∃ t, Parser.items (Parser.State.start tokens).calls (.start tokens) = .ok p.items t := by
  have hget : ∀ s : Parser.State, (get : Parser Parser.State) s = .ok s s := fun _ => rfl
  simp only [Program.parse, Parser.program, EStateM.run, bind, EStateM.bind, hget, pure, EStateM.pure] at h
  cases hread : Parser.items (Parser.State.start tokens).calls (.start tokens) with
  | error e t => rw [hread] at h; simp [Parser.outcome] at h
  | ok found t =>
    rw [hread] at h
    simp only [Parser.outcome, Except.ok.injEq] at h
    subst h
    exact ⟨t, rfl⟩

/-- **Identities of a program that was read are distinct**, and it is spelled as its tokens are. -/
theorem wellFormed_of_parse {lx : Lexicon} {tokens : List Token} {p : Program} (htokens : ∀ t ∈ tokens, t.kind.In lx)
    (h : Program.parse tokens = .ok p) : p.WellFormed lx := by
  obtain ⟨t, hread⟩ := exists_items_of_parse h
  have hitems := Parser.draws_items (Parser.State.start tokens).calls 0 (.start tokens) rfl htokens
  rw [hread] at hitems
  exact ⟨hitems.2.2.1.nodup, hitems.2.2.2⟩

/-- any token is of the lexicon of all -/
theorem TokenKind.in_all (kind : TokenKind) : kind.In .all := by
  cases kind <;> trivial

end C15

/-
Spans of a program that was read lie within each other as its nodes do.

A span is made in one of four ways: it is that of a token, it covers two others, it goes from an offset that was
remembered up to the last token taken, or it is that of the last token. All four keep to the offsets of tokens, and none
reaches back before the token where reading began or beyond the last one taken. Here:
- `Lies`: every span of a tree stands in a relation to the span of the node that contains it;
- `State.Laid`: the tokens left lie one behind the other and behind the last one taken, and end with the end of the
  source;
- `Reads`: what a call of the reader leaves behind in such a state, failing or not;
- `parse_places`: the spans of a program lie within each other and on offsets of tokens, each call at an offset of its
  own, and so does the span of an error.
-/
import C15.Proofs.Identity

namespace C15

/-! ## Spans -/

namespace Span

/-- one span lies within another -/
def Within (inner outer : Span) : Prop := outer.start ≤ inner.start ∧ inner.stop ≤ outer.stop

theorem Within.refl (s : Span) : s.Within s := ⟨Nat.le_refl _, Nat.le_refl _⟩

theorem within_merge_left (a b : Span) : a.Within (a.merge b) := ⟨Nat.min_le_left _ _, Nat.le_max_left _ _⟩

theorem within_merge_right (a b : Span) : b.Within (a.merge b) := ⟨Nat.min_le_right _ _, Nat.le_max_right _ _⟩

theorem Within.merge {a b outer : Span} (ha : a.Within outer) (hb : b.Within outer) : (a.merge b).Within outer :=
  ⟨Nat.le_min.2 ⟨ha.1, hb.1⟩, Nat.max_le.2 ⟨ha.2, hb.2⟩⟩

/-- from one offset of a kind on to another -/
structure On (B : Nat → Prop) (s : Span) : Prop where
  ordered : s.start ≤ s.stop
  start : B s.start
  stop : B s.stop

theorem On.merge {B : Nat → Prop} {a b : Span} (ha : a.On B) (hb : b.On B) : (a.merge b).On B := by
  refine ⟨?_, ?_, ?_⟩
  · exact (Nat.min_le_left _ _).trans (ha.ordered.trans (Nat.le_max_left _ _))
  · exact min_rec' B ha.start hb.start
  · exact max_rec' B ha.stop hb.stop

/-- a span on offsets of a kind, within another -/
def Placed (B : Nat → Prop) (s outer : Span) : Prop := s.On B ∧ s.Within outer

theorem Placed.le {B : Nat → Prop} {s outer : Span} (h : s.Placed B outer) : outer.start ≤ outer.stop :=
  h.2.1.trans (h.1.ordered.trans h.2.2)

theorem Placed.widen {B : Nat → Prop} {lo lo' hi hi' : Nat} (hlo : lo' ≤ lo) (hhi : hi ≤ hi') (s : Span)
    (hs : s.Placed B ⟨lo, hi⟩) : s.Placed B ⟨lo', hi'⟩ := ⟨hs.1, hlo.trans hs.2.1, hs.2.2.trans hhi⟩

end Span

/-! ## Spans in a tree -/

section Trees

variable (r : Span → Span → Prop)

mutual

/-- each span of an expression stands in a relation to the span of the node that contains it -/
def Expr.Lies (outer : Span) : Expr → Prop
  | .literal _ s _ | .ident _ s _ => r s outer
  | .binary _ s _ lhs rhs => r s outer ∧ lhs.Lies s ∧ rhs.Lies s
  | .unary _ s _ e | .cast _ s _ e => r s outer ∧ e.Lies s
  | .update _ s _ _ target _ => r s outer ∧ r target s
  | .assign _ s _ _ target value => r s outer ∧ r target s ∧ value.Lies s
  | .call _ s _ callee args | .intrinsic _ s _ callee args => r s outer ∧ r callee s ∧ Expr.AllLie s args

/-- the same of expressions in one node -/
def Expr.AllLie (outer : Span) : List Expr → Prop
  | [] => True
  | e :: es => e.Lies outer ∧ Expr.AllLie outer es

end

def VarDecl.Lies (outer : Span) (d : VarDecl) : Prop :=
  r d.span outer ∧ r d.nameSpan d.span ∧ ∀ e ∈ d.init, e.Lies r d.span

def ForInit.Lies (outer : Span) : ForInit → Prop
  | .nothing => True
  | .decl d => d.Lies r outer
  | .expr s e => r s outer ∧ e.Lies r s

mutual

/-- each span of a statement stands in a relation to the span of the node that contains it -/
def Stmt.Lies (outer : Span) : Stmt → Prop
  | .decl d => d.Lies r outer
  | .ifThen s cond yes => r s outer ∧ cond.Lies r s ∧ yes.Lies s
  | .ifElse s cond yes no => r s outer ∧ cond.Lies r s ∧ yes.Lies s ∧ no.Lies s
  | .for_ s init cond step body =>
    r s outer ∧ init.Lies r s ∧ (∀ e ∈ cond, e.Lies r s) ∧ (∀ e ∈ step, e.Lies r s) ∧ body.Lies s
  | .while_ s cond body | .doWhile s body cond => r s outer ∧ cond.Lies r s ∧ body.Lies s
  | .return_ s value => r s outer ∧ ∀ e ∈ value, e.Lies r s
  | .expr s e => r s outer ∧ e.Lies r s
  | .block s body => r s outer ∧ Stmt.AllLie s body
  | .break_ s | .continue_ s | .empty s => r s outer

/-- the same of statements in one node -/
def Stmt.AllLie (outer : Span) : List Stmt → Prop
  | [] => True
  | s :: ss => s.Lies outer ∧ Stmt.AllLie outer ss

end

def FunctionDecl.Lies (outer : Span) (f : FunctionDecl) : Prop :=
  r f.span outer ∧ r f.nameSpan f.span ∧ (∀ q ∈ f.params, r q.span f.span) ∧ r f.bodySpan f.span ∧
    Stmt.AllLie r f.bodySpan f.body

def Item.Lies (outer : Span) : Item → Prop
  | .function f => f.Lies r outer
  | .global d => d.Lies r outer

def Program.Lies (p : Program) : Prop := ∀ i ∈ p.items, i.Lies r p.span

end Trees

section Outer

variable {r : Span → Span → Prop} {outer outer' : Span}

theorem Expr.Lies.span {e : Expr} (h : e.Lies r outer) : r e.span outer := by
  cases e <;> first | exact h | exact h.1

/-- only the outermost span looks at what contains the tree -/
theorem Expr.Lies.move {e : Expr} (h : e.Lies r outer) (hr : r e.span outer') : e.Lies r outer' := by
  cases e <;> first | exact hr | exact ⟨hr, h.2⟩

theorem VarDecl.Lies.move {d : VarDecl} (h : d.Lies r outer) (hr : r d.span outer') : d.Lies r outer' := ⟨hr, h.2⟩

theorem Stmt.Lies.span {s : Stmt} (h : s.Lies r outer) : r s.span outer := by
  cases s <;> first | exact h | exact h.1

theorem Stmt.Lies.move {s : Stmt} (h : s.Lies r outer) (hr : r s.span outer') : s.Lies r outer' := by
  cases s <;> first | exact hr | exact ⟨hr, h.2⟩

variable (hr : ∀ s, r s outer → r s outer')
include hr

theorem Expr.Lies.widen {e : Expr} (h : e.Lies r outer) : e.Lies r outer' := h.move (hr _ h.span)

theorem Stmt.Lies.widen {s : Stmt} (h : s.Lies r outer) : s.Lies r outer' := h.move (hr _ h.span)

theorem Expr.AllLie.widen {es : List Expr} (h : Expr.AllLie r outer es) : Expr.AllLie r outer' es := by
  induction es with
  | nil => trivial
  | cons e es ih => exact ⟨h.1.widen hr, ih h.2⟩

theorem Stmt.AllLie.widen {ss : List Stmt} (h : Stmt.AllLie r outer ss) : Stmt.AllLie r outer' ss := by
  induction ss with
  | nil => trivial
  | cons s ss ih => exact ⟨h.1.widen hr, ih h.2⟩

theorem Item.Lies.widen {i : Item} (h : i.Lies r outer) : i.Lies r outer' := by
  cases i with
  | function f => exact ⟨hr _ h.1, h.2⟩
  | global d => exact VarDecl.Lies.move h (hr _ h.1)

theorem ForInit.Lies.widen {init : ForInit} (h : init.Lies r outer) : init.Lies r outer' := by
  cases init with
  | nothing => trivial
  | decl d => exact VarDecl.Lies.move h (hr _ h.1)
  | expr s e => exact ⟨hr _ h.1, h.2⟩

end Outer

section Weaken

variable {r q : Span → Span → Prop}

mutual

theorem Expr.Lies.imp (hrq : ∀ s outer, r s outer → q s outer) {outer : Span} {e : Expr} (h : e.Lies r outer) :
    e.Lies q outer := by
  match e with
  | .literal .. | .ident .. => exact hrq _ _ h
  | .binary .. => exact ⟨hrq _ _ h.1, h.2.1.imp hrq, h.2.2.imp hrq⟩
  | .unary .. | .cast .. => exact ⟨hrq _ _ h.1, h.2.imp hrq⟩
  | .update .. => exact ⟨hrq _ _ h.1, hrq _ _ h.2⟩
  | .assign .. => exact ⟨hrq _ _ h.1, hrq _ _ h.2.1, h.2.2.imp hrq⟩
  | .call .. | .intrinsic .. => exact ⟨hrq _ _ h.1, hrq _ _ h.2.1, Expr.AllLie.imp hrq h.2.2⟩

theorem Expr.AllLie.imp (hrq : ∀ s outer, r s outer → q s outer) {outer : Span} {es : List Expr}
    (h : Expr.AllLie r outer es) : Expr.AllLie q outer es := by
  match es with
  | [] => trivial
  | e :: es => exact ⟨h.1.imp hrq, Expr.AllLie.imp hrq h.2⟩

end

theorem VarDecl.Lies.imp (hrq : ∀ s outer, r s outer → q s outer) {outer : Span} {d : VarDecl} (h : d.Lies r outer) :
    d.Lies q outer :=
  ⟨hrq _ _ h.1, hrq _ _ h.2.1, fun e he => (h.2.2 e he).imp hrq⟩

theorem ForInit.Lies.imp (hrq : ∀ s outer, r s outer → q s outer) {outer : Span} {i : ForInit} (h : i.Lies r outer) :
    i.Lies q outer := by
  cases i with
  | nothing => trivial
  | decl d => exact VarDecl.Lies.imp hrq h
  | expr s e => exact ⟨hrq _ _ h.1, h.2.imp hrq⟩

mutual

theorem Stmt.Lies.imp (hrq : ∀ s outer, r s outer → q s outer) {outer : Span} {s : Stmt} (h : s.Lies r outer) :
    s.Lies q outer := by
  match s with
  | .decl d => exact VarDecl.Lies.imp hrq h
  | .ifThen .. => exact ⟨hrq _ _ h.1, h.2.1.imp hrq, h.2.2.imp hrq⟩
  | .ifElse .. => exact ⟨hrq _ _ h.1, h.2.1.imp hrq, h.2.2.1.imp hrq, h.2.2.2.imp hrq⟩
  | .for_ .. =>
    exact ⟨hrq _ _ h.1, h.2.1.imp hrq, fun e he => (h.2.2.1 e he).imp hrq, fun e he => (h.2.2.2.1 e he).imp hrq,
      h.2.2.2.2.imp hrq⟩
  | .while_ .. | .doWhile .. => exact ⟨hrq _ _ h.1, h.2.1.imp hrq, h.2.2.imp hrq⟩
  | .return_ .. => exact ⟨hrq _ _ h.1, fun e he => (h.2 e he).imp hrq⟩
  | .expr .. => exact ⟨hrq _ _ h.1, h.2.imp hrq⟩
  | .block .. => exact ⟨hrq _ _ h.1, Stmt.AllLie.imp hrq h.2⟩
  | .break_ _ | .continue_ _ | .empty _ => exact hrq _ _ h

theorem Stmt.AllLie.imp (hrq : ∀ s outer, r s outer → q s outer) {outer : Span} {ss : List Stmt}
    (h : Stmt.AllLie r outer ss) : Stmt.AllLie q outer ss := by
  match ss with
  | [] => trivial
  | s :: ss => exact ⟨h.1.imp hrq, Stmt.AllLie.imp hrq h.2⟩

end

theorem Program.Lies.imp (hrq : ∀ s outer, r s outer → q s outer) {p : Program} (h : p.Lies r) : p.Lies q := by
  intro i hi
  have hr := h i hi
  cases i with
  | global d => exact VarDecl.Lies.imp hrq hr
  | function f =>
    exact ⟨hrq _ _ hr.1, hrq _ _ hr.2.1, fun p hp => hrq _ _ (hr.2.2.1 p hp), hrq _ _ hr.2.2.2.1,
      Stmt.AllLie.imp hrq hr.2.2.2.2⟩

end Weaken

/-! ## Calls in a tree -/

/-- a call of a function, by the span of the call -/
structure CallSite where
  span : Span
  callee : String
deriving DecidableEq, Repr

mutual

/-- calls in an expression, one around another first -/
def Expr.sites : Expr → List CallSite
  | .literal .. | .ident .. | .update .. => []
  | .binary _ _ _ lhs rhs => lhs.sites ++ rhs.sites
  | .unary _ _ _ e | .assign _ _ _ _ _ e | .cast _ _ _ e => e.sites
  | .call _ span callee _ args => ⟨span, callee⟩ :: Expr.sitesOf args
  | .intrinsic _ _ _ _ args => Expr.sitesOf args

/-- calls in expressions -/
def Expr.sitesOf : List Expr → List CallSite
  | [] => []
  | e :: es => e.sites ++ Expr.sitesOf es

end

/-- calls in an expression that may be absent -/
def Expr.optionalSites (e : Option Expr) : List CallSite := e.elim [] Expr.sites

def VarDecl.sites (d : VarDecl) : List CallSite := Expr.optionalSites d.init

def ForInit.sites : ForInit → List CallSite
  | .nothing => []
  | .decl d => d.sites
  | .expr _ e => e.sites

mutual

/-- calls in a statement in the order of its code: the step of a `for` comes after the body -/
def Stmt.sites : Stmt → List CallSite
  | .decl d => d.sites
  | .ifThen _ cond yes => cond.sites ++ yes.sites
  | .ifElse _ cond yes no => cond.sites ++ yes.sites ++ no.sites
  | .for_ _ init cond step body => init.sites ++ Expr.optionalSites cond ++ body.sites ++ Expr.optionalSites step
  | .while_ _ cond body => cond.sites ++ body.sites
  | .doWhile _ body cond => body.sites ++ cond.sites
  | .return_ _ value => Expr.optionalSites value
  | .expr _ e => e.sites
  | .block _ body => Stmt.sitesOf body
  | .break_ _ | .continue_ _ | .empty _ => []

/-- calls in statements -/
def Stmt.sitesOf : List Stmt → List CallSite
  | [] => []
  | s :: ss => s.sites ++ Stmt.sitesOf ss

end

def FunctionDecl.sites (f : FunctionDecl) : List CallSite := Stmt.sitesOf f.body

def Item.sites : Item → List CallSite
  | .function f => f.sites
  | .global d => d.sites

def Program.sites (p : Program) : List CallSite := p.items.flatMap Item.sites

/-- offsets where calls start -/
def starts (sites : List CallSite) : List Nat := sites.map (·.span.start)

theorem starts_append (xs ys : List CallSite) : starts (xs ++ ys) = starts xs ++ starts ys := List.map_append

namespace Parser

/-! ## Tokens in order -/

namespace State

/-- offset of the next token -/
def here (s : State) : Nat := s.nextSpan.start

/-- the tokens left lie one behind the other and behind the last one taken, on offsets of a kind, up to the end of the
source -/
structure Laid (B : Nat → Prop) (s : State) : Prop where
  ordered : (s.rest.map (·.span)).Pairwise fun a b => a.start < b.start ∧ a.stop ≤ b.start
  behind : ∀ t ∈ s.rest, s.last.start ≤ t.span.start ∧ s.last.stop ≤ t.span.stop
  last : s.last.On B
  tokens : ∀ t ∈ s.rest, t.span.On B
  ends : ∃ t, s.rest.getLast? = some t ∧ t.kind = .eof

/-- reading has gone on -/
structure Before (s t : State) : Prop where
  here : s.here ≤ t.here
  last : s.last.stop ≤ t.last.stop

theorem Before.refl (s : State) : s.Before s := ⟨Nat.le_refl _, Nat.le_refl _⟩

theorem Before.trans {s t u : State} (hst : s.Before t) (htu : t.Before u) : s.Before u :=
  ⟨hst.here.trans htu.here, hst.last.trans htu.last⟩

variable {B : Nat → Prop} {s : State}

/-- the next token is there, the end at least -/
theorem Laid.next (h : s.Laid B) : ∃ t ts, s.rest = t :: ts := by
  obtain ⟨t, ht, -⟩ := h.ends
  exact List.exists_cons_of_ne_nil (by rintro hnil; simp [hnil] at ht)

theorem Laid.here_on (h : s.Laid B) : B s.here := by
  obtain ⟨t, ts, hrest⟩ := h.next
  have ht := (h.tokens t (hrest ▸ List.mem_cons_self)).start
  simpa [here, nextSpan, hrest] using ht

/-- the token that is taken is the next one -/
theorem Laid.advance_last (h : s.Laid B) : s.advance.last = s.nextSpan := by
  obtain ⟨t, ts, hrest⟩ := h.next
  simp only [State.advance, nextSpan, hrest]
  split <;> rfl

theorem Laid.advance (h : s.Laid B) : s.advance.Laid B := by
  obtain ⟨t, ts, hrest⟩ := h.next
  have hmem : t ∈ s.rest := hrest ▸ List.mem_cons_self
  have hordered := h.ordered
  rw [hrest, List.map_cons, List.pairwise_cons] at hordered
  have hbehind : ∀ u ∈ ts, t.span.start ≤ u.span.start ∧ t.span.stop ≤ u.span.stop := by
    intro u hu
    have hlt := hordered.1 u.span (List.mem_map_of_mem hu)
    exact ⟨hlt.1.le, hlt.2.trans (h.tokens u (hrest ▸ List.mem_cons_of_mem t hu)).ordered⟩
  unfold State.advance
  rw [hrest]
  dsimp only
  split
  · refine ⟨hrest ▸ h.ordered, fun u hu => ?_, h.tokens t hmem, hrest ▸ h.tokens, hrest ▸ h.ends⟩
    rcases List.mem_cons.1 hu with rfl | hu
    · exact ⟨Nat.le_refl _, Nat.le_refl _⟩
    · exact hbehind u hu
  · rename_i hkind
    refine ⟨hordered.2, hbehind, h.tokens t hmem, fun u hu => h.tokens u (hrest ▸ List.mem_cons_of_mem t hu), ?_⟩
    obtain ⟨e, he, heof⟩ := h.ends
    rw [hrest] at he
    cases ts with
    | nil => simp_all
    | cons u us => exact ⟨e, by simpa using he, heof⟩

/-- a token that is no end is passed -/
theorem Laid.here_lt_advance (h : s.Laid B) (hkind : s.kind ≠ .eof) : s.here < s.advance.here := by
  obtain ⟨t, ts, hrest⟩ := h.next
  have ht : t.kind ≠ .eof := by simpa [kind, kindAt, hrest] using hkind
  obtain ⟨e, he, heof⟩ := h.ends
  have hordered := h.ordered
  rw [hrest] at he hordered
  cases ts with
  | nil => simp_all
  | cons u us =>
    have hlt := (List.pairwise_cons.1 hordered).1 u.span List.mem_cons_self
    simpa [here, nextSpan, State.advance, hrest, ht] using hlt.1

theorem Laid.before_advance (h : s.Laid B) : s.Before s.advance := by
  obtain ⟨t, ts, hrest⟩ := h.next
  constructor
  · by_cases hkind : s.kind = .eof
    · have ht : t.kind = .eof := by simpa [kind, kindAt, hrest] using hkind
      simp [here, nextSpan, State.advance, hrest, ht]
    · exact (h.here_lt_advance hkind).le
  · rw [h.advance_last]
    simpa [nextSpan, hrest] using (h.behind t (hrest ▸ List.mem_cons_self)).2

/-- the offset where a token was taken is not beyond its end -/
theorem Laid.here_le_advance (h : s.Laid B) : s.here ≤ s.advance.last.stop := by
  have hspan := h.advance.last.ordered
  rwa [h.advance_last] at hspan ⊢

/-- the span of a token that was taken -/
theorem Laid.taken (h : s.Laid B) {lo : Nat} (hlo : lo ≤ s.here) :
    s.advance.last.Placed B ⟨lo, s.advance.last.stop⟩ := by
  refine ⟨h.advance.last, ?_, Nat.le_refl _⟩
  rw [h.advance_last]
  exact hlo

end State

/-! ## What a call leaves behind -/

/-- from a state in order a call leaves a state in order and has gone on, and a result satisfies `Q`; a failure has a
span on tokens -/
def Reads {α : Type} (B : Nat → Prop) (s : State) (x : Parser α) (Q : α → State → Prop) : Prop :=
  s.Laid B →
    match x s with
    | .ok a t => t.Laid B ∧ s.Before t ∧ Q a t
    | .error e _ => e.span.On B

variable {B : Nat → Prop}

section Calculus

variable {α β : Type} {s : State} {x : Parser α} {f : α → Parser β} {P Q : α → State → Prop} {R : β → State → Prop}

theorem Reads.bind (hx : Reads B s x P) (hf : ∀ a t, t.Laid B → s.Before t → P a t → Reads B t (f a) R) :
    Reads B s (x >>= f) R := by
  intro hs
  have hxs := hx hs
  simp only [Bind.bind, EStateM.bind]
  cases hr : x s with
  | error e t => rw [hr] at hxs; exact hxs
  | ok a t =>
    rw [hr] at hxs
    obtain ⟨ht, hbefore, ha⟩ := hxs
    have hfa := hf a t ht hbefore ha ht
    simp only
    cases hr' : f a t with
    | error e u => rw [hr'] at hfa; exact hfa
    | ok b u => rw [hr'] at hfa; exact ⟨hfa.1, hbefore.trans hfa.2.1, hfa.2.2⟩

theorem Reads.imp (hx : Reads B s x P) (h : ∀ a t, P a t → Q a t) : Reads B s x Q := by
  intro hs
  have hxs := hx hs
  cases hr : x s with
  | error e t => rw [hr] at hxs; exact hxs
  | ok a t => rw [hr] at hxs; exact ⟨hxs.1, hxs.2.1, h a t hxs.2.2⟩

theorem Reads.intro (h : s.Laid B → Reads B s x Q) : Reads B s x Q := fun hs => h hs hs

theorem reads_pure {a : α} (h : Q a s) : Reads B s (pure a) Q := fun hs => ⟨hs, .refl s, h⟩

theorem reads_throw {e : Located GrammarCause} (h : e.span.On B) : Reads B s (throw e : Parser α) Q := fun _ => h

/-- calls that leave the state as it is -/
theorem reads_get {f : State → Parser β} (h : Reads B s (f s) R) : Reads B s (get >>= f) R := h

theorem reads_peek {f : TokenKind → Parser β} (h : Reads B s (f s.kind) R) : Reads B s (peek >>= f) R := h

theorem reads_nextStart {f : Nat → Parser β} (h : Reads B s (f s.here) R) : Reads B s (nextStart >>= f) R := h

/-- from an offset that was remembered up to the last token taken -/
theorem reads_spanFrom {start : Nat} {f : Span → Parser β} (hstart : B start) (hle : start ≤ s.last.stop)
    (h : Span.Placed B ⟨start, s.last.stop⟩ ⟨start, s.last.stop⟩ → Reads B s (f ⟨start, s.last.stop⟩) R) :
    Reads B s (spanFrom start >>= f) R := by
  refine Reads.intro fun hs => ?_
  have hspan : s.spanFrom start = ⟨start, s.last.stop⟩ := congrArg (Span.mk start) (Nat.max_eq_left hle)
  have hf := h ⟨⟨hle, hstart, hs.last.stop⟩, .refl _⟩
  rw [← hspan] at hf
  exact hf

theorem reads_atCast {f : Bool → Parser β} (h : ∀ b, Reads B s (f b) R) : Reads B s (atCast >>= f) R := h _

theorem reads_advance {f : Unit → Parser β} (h : s.Laid B → Reads B s.advance (f ()) R) :
    Reads B s (advance >>= f) R := by
  refine Reads.intro fun hs => ?_
  have hstep : Reads B s advance fun _ t => t = s.advance := fun hs => ⟨hs.advance, hs.before_advance, rfl⟩
  exact hstep.bind fun _ t _ _ ht => ht ▸ h hs

/-- an identity is drawn, and nothing else changes -/
theorem reads_fresh {f : NodeId → Parser β} (h : ∀ i t, t.Laid B → s.Before t → t.last = s.last → Reads B t (f i) R) :
    Reads B s (fresh >>= f) R := by
  have hstep : Reads B s fresh fun _ t => t.last = s.last := fun hs =>
    ⟨⟨hs.ordered, hs.behind, hs.last, hs.tokens, hs.ends⟩, ⟨Nat.le_refl _, Nat.le_refl _⟩, rfl⟩
  exact hstep.bind h

theorem reads_unexpected (wanted : Wanted) : Reads B s (unexpected wanted : Parser α) Q :=
  reads_get <| .intro fun hs => reads_throw (hs.advance_last ▸ hs.advance.last)

theorem reads_rejectStruct : Reads B s (rejectStruct : Parser α) Q :=
  reads_get <| .intro fun hs => reads_throw (hs.advance_last ▸ hs.advance.last)

end Calculus

theorem reads_expect (s : State) (kind : TokenKind) (wanted : Wanted) :
    Reads B s (expect kind wanted) fun span t => span.Placed B ⟨s.here, t.last.stop⟩ ∧ span.start ≤ t.here := by
  refine reads_peek ?_
  split
  · refine reads_advance fun hs => reads_get <| reads_pure ⟨hs.taken (Nat.le_refl _), ?_⟩
    rw [hs.advance_last]
    exact hs.before_advance.here
  · exact reads_unexpected _

theorem reads_eat (s : State) (kind : TokenKind) : Reads B s (eat kind) fun b t => b = true → s.here ≤ t.last.stop := by
  refine reads_peek ?_
  split
  · exact reads_advance fun hs => reads_pure fun _ => hs.here_le_advance
  · exact reads_pure fun hb => nomatch hb

theorem reads_expectName (s : State) (wanted : Wanted) :
    Reads B s (expectName wanted) fun r t => r.2.Placed B ⟨s.here, t.last.stop⟩ := by
  refine reads_peek ?_
  split
  · exact reads_advance fun hs => reads_get <| reads_pure (hs.taken (Nat.le_refl _))
  · exact reads_unexpected _

theorem reads_expectSemicolon (s : State) : Reads B s expectSemicolon fun _ t => s.here ≤ t.last.stop := by
  refine (reads_eat s _).bind fun b t ht _ hb => ?_
  split
  · rename_i htrue
    exact reads_pure (hb htrue)
  · exact reads_get <| reads_throw ht.last

theorem reads_parseType (s : State) : Reads B s parseType fun _ _ => True := by
  refine (reads_eat s _).bind fun b t _ _ _ => reads_peek ?_
  split
  · exact reads_advance fun _ => reads_pure trivial
  · exact reads_advance fun _ => reads_pure trivial
  · exact reads_advance fun _ => reads_pure trivial
  · split
    · exact reads_unexpected _
    · exact reads_advance fun _ => reads_pure trivial
  · exact reads_rejectStruct
  · exact reads_unexpected _

/-! ## Expressions -/

/-- a part of a program that was read from an offset on: its spans reach neither back before the offset nor beyond the
last token taken, and its calls start at offsets of their own -/
structure Stretch (lo : Nat) (t : State) (lies : Span → Prop) (sites : List CallSite) : Prop where
  lies : lies ⟨lo, t.last.stop⟩
  fresh : Fresh lo t.here (starts sites)

abbrev ExprRead (B : Nat → Prop) (lo : Nat) (t : State) (e : Expr) : Prop :=
  Stretch lo t (Expr.Lies (Span.Placed B) · e) e.sites

/-- the same of expressions one after the other -/
abbrev ExprsRead (B : Nat → Prop) (lo : Nat) (t : State) (es : List Expr) : Prop :=
  Stretch lo t (Expr.AllLie (Span.Placed B) · es) (Expr.sitesOf es)

theorem ExprRead.mono {lo lo' : Nat} {t u : State} {e : Expr} (h : ExprRead B lo t e) (hlo : lo' ≤ lo)
    (htu : t.Before u) : ExprRead B lo' u e :=
  ⟨Expr.Lies.widen (Span.Placed.widen hlo htu.last) h.lies, h.fresh.mono hlo htu.here⟩

theorem reads_mkUpdate {lo : Nat} {s : State} {e : Expr} {span : Span} (op : UpdateOp) (he : ExprRead B lo s e)
    (hspan : span.Placed B ⟨lo, s.last.stop⟩) (hin : e.span.Within span) :
    Reads B s (mkUpdate op e span) fun u t => ExprRead B lo t u := by
  unfold mkUpdate
  split
  · refine reads_fresh fun i t _ _ hlast => reads_pure ⟨?_, Fresh.nil _ _⟩
    rw [hlast]
    exact ⟨hspan, he.lies.1, hin⟩
  · exact reads_throw he.lies.span.1

/-- an update mark that was taken behind an expression -/
theorem reads_mark {lo : Nat} {s : State} {e : Expr} (op : UpdateOp) (hs : s.Laid B) (hlo : lo ≤ s.here)
    (he : ExprRead B lo s e) :
    Reads B s.advance (mkUpdate op e (e.span.merge s.advance.last)) fun u t => ExprRead B lo t u := by
  have he' := he.mono (Nat.le_refl lo) hs.before_advance
  have hmark := hs.taken hlo
  exact reads_mkUpdate op he' ⟨he'.lies.span.1.merge hmark.1, he'.lies.span.2.merge hmark.2⟩
    (Span.within_merge_left _ _)

theorem reads_suffix {lo : Nat} {s : State} {e : Expr} (hlo : lo ≤ s.here) (he : ExprRead B lo s e) :
    Reads B s (suffix e) fun u t => ExprRead B lo t u := by
  refine reads_peek ?_
  split
  · exact reads_pure he
  · refine reads_advance fun hs => reads_get <| (reads_mark _ hs hlo he).bind fun u t ht hbefore hu => reads_peek ?_
    have hlo' := hlo.trans (hs.before_advance.trans hbefore).here
    split
    · exact reads_pure hu
    · exact reads_advance fun ht => reads_get <| reads_mark _ ht hlo' hu

/-- what the functions for expressions leave behind when they may nest `n` calls -/
structure ExprCalls (B : Nat → Prop) (n : Nat) : Prop where
  assignment : ∀ s, Reads B s (assignment n) fun e t => ExprRead B s.here t e
  binary : ∀ s level, Reads B s (binary n level) fun e t => ExprRead B s.here t e
  binaryRest : ∀ lo s level left, lo ≤ s.here → ExprRead B lo s left → Reads B s (binaryRest n level left) fun e t =>
    ExprRead B lo t e
  unary : ∀ s, Reads B s (unary n) fun e t => ExprRead B s.here t e
  primary : ∀ s, Reads B s (primary n) fun e t => ExprRead B s.here t e
  arguments : ∀ s, Reads B s (arguments n) fun es t => ExprsRead B s.here t es
  argumentsRest : ∀ s, Reads B s (argumentsRest n) fun es t => ExprsRead B s.here t es

theorem assignment_laid {n : Nat} (ih : ExprCalls B n) (s : State) :
    Reads B s (assignment (n + 1)) fun e t => ExprRead B s.here t e := by
  refine (ih.binary s 0).bind fun lhs t _ hst hlhs => reads_peek ?_
  split
  · exact reads_pure hlhs
  · split
    · rename_i targetSpan target
      refine reads_advance fun ht => (ih.assignment t.advance).bind fun value u _ htu hvalue => ?_
      refine reads_fresh fun i v _ huv hlast => reads_pure ?_
      have htarget : ExprRead B s.here v (.ident _ targetSpan target) :=
        hlhs.mono (Nat.le_refl _) (ht.before_advance.trans (htu.trans huv))
      have hvalue' := hvalue.mono (hst.here.trans ht.before_advance.here) huv
      have hmerge := htarget.lies.1.merge hvalue'.lies.span.1
      refine ⟨⟨⟨hmerge, htarget.lies.2.merge hvalue'.lies.span.2⟩, ⟨htarget.lies.1, Span.within_merge_left _ _⟩, ?_⟩,
        hvalue'.fresh⟩
      exact hvalue'.lies.move ⟨hvalue'.lies.span.1, Span.within_merge_right _ _⟩
    · exact reads_throw hlhs.lies.span.1

theorem binaryRest_laid {n : Nat} (ih : ExprCalls B n) (lo : Nat) (s : State) (level : Nat) (left : Expr)
    (hlo : lo ≤ s.here) (hleft : ExprRead B lo s left) :
    Reads B s (binaryRest (n + 1) level left) fun e t => ExprRead B lo t e := by
  refine reads_peek ?_
  split
  · exact reads_pure hleft
  · split
    · exact reads_pure hleft
    · refine reads_advance fun hs => (ih.binary s.advance _).bind fun right t _ hst hright => ?_
      refine reads_fresh fun i u _ htu _ =>
        ih.binaryRest lo u level _ (hlo.trans (hs.before_advance.trans (hst.trans htu)).here) ?_
      have hbefore := hs.before_advance.trans (hst.trans htu)
      have hleft' := hleft.lies.widen (Span.Placed.widen (Nat.le_refl lo) hbefore.last)
      have hright' := hright.mono hs.before_advance.here htu
      have hinner := hright'.lies.widen (Span.Placed.widen hlo (Nat.le_refl _))
      refine ⟨⟨⟨hleft'.span.1.merge hinner.span.1, hleft'.span.2.merge hinner.span.2⟩, ?_, ?_⟩, ?_⟩
      · exact hleft'.move ⟨hleft'.span.1, Span.within_merge_left _ _⟩
      · exact hinner.move ⟨hinner.span.1, Span.within_merge_right _ _⟩
      · rw [Expr.sites, starts_append]
        exact hleft.fresh.append hright'.fresh hlo hbefore.here

theorem unary_laid {n : Nat} (ih : ExprCalls B n) (s : State) :
    Reads B s (unary (n + 1)) fun e t => ExprRead B s.here t e := by
  refine Reads.intro fun hs => ?_
  have operand : ∀ {f : Expr → Parser Expr},
      (∀ e t, t.Laid B → s.here ≤ t.last.stop → ExprRead B s.here t e → Reads B t (f e) fun e u =>
        ExprRead B s.here u e) →
      Reads B s (do advance; let e ← unary n; f e) fun e t => ExprRead B s.here t e := fun hf =>
    reads_advance fun hs => (ih.unary s.advance).bind fun e t ht hst he =>
      hf e t ht (hs.here_le_advance.trans hst.last) (he.mono hs.before_advance.here (.refl t))
  -- a node with an identity of its own from the operator on
  have node : ∀ {e : Expr} {t : State} {mk : NodeId → Span → Expr}, s.here ≤ t.last.stop → ExprRead B s.here t e →
      (∀ i span, (mk i span).sites = e.sites) →
      (∀ i span, span.Placed B span → e.Lies (Span.Placed B) span → (mk i span).Lies (Span.Placed B) span) →
      Reads B t (do return mk (← fresh) (← spanFrom s.here)) fun e u => ExprRead B s.here u e := by
    intro e t mk hle he hsites hlies
    refine reads_fresh fun i u _ htu hlast => reads_spanFrom hs.here_on (hlast ▸ hle) fun hspan => reads_pure ?_
    have he' := he.mono (Nat.le_refl _) htu
    exact ⟨hlies i _ hspan he'.lies, hsites i _ ▸ he'.fresh⟩
  have update : ∀ {e : Expr} {t : State} {op : UpdateOp}, s.here ≤ t.last.stop → ExprRead B s.here t e →
      Reads B t (do mkUpdate op e (← spanFrom s.here)) fun e u => ExprRead B s.here u e := fun hle he =>
    reads_spanFrom hs.here_on hle fun hspan => reads_mkUpdate _ he hspan he.lies.span.2
  refine reads_nextStart <| reads_atCast fun b => ?_
  split
  · refine reads_advance fun hs => (reads_parseType s.advance).bind fun ty t _ hst _ => reads_advance fun ht => ?_
    refine (ih.unary t.advance).bind fun e u _ htu he => ?_
    have hbefore := hst.trans ht.before_advance
    exact node (hs.here_le_advance.trans (hbefore.trans htu).last)
      (he.mono (hs.before_advance.trans hbefore).here (.refl u)) (fun _ _ => rfl) (fun _ _ hspan he => ⟨hspan, he⟩)
  · refine reads_peek ?_
    split
    · refine operand fun e t _ hle he => reads_spanFrom hs.here_on hle fun hspan => ?_
      split
      · exact reads_pure ⟨hspan, Fresh.nil _ _⟩
      · refine reads_fresh fun i u _ htu hlast => reads_pure ⟨?_, (he.mono (Nat.le_refl _) htu).fresh⟩
        rw [hlast]
        exact ⟨hspan, he.lies⟩
    · exact operand fun e t _ hle he => node hle he (fun _ _ => rfl) (fun _ _ hspan he => ⟨hspan, he⟩)
    · exact operand fun e t _ hle he => node hle he (fun _ _ => rfl) (fun _ _ hspan he => ⟨hspan, he⟩)
    · exact operand fun e t _ hle he => update hle he
    · exact operand fun e t _ hle he => update hle he
    · exact reads_advance fun hs => (ih.unary s.advance).imp fun e t he => he.mono hs.before_advance.here (.refl t)
    · exact (ih.primary s).bind fun e t _ hst he => reads_suffix hst.here he

/-- a call: its name was taken, then its arguments were read -/
theorem reads_call {s t : State} {args : List Expr} {mk : NodeId → Span → Expr} (hs : s.Laid B)
    (hst : s.advance.Before t) (hargs : ExprsRead B s.advance.here t args)
    (hfresh : ∀ i stop, Fresh s.here t.here (starts (mk i ⟨s.here, stop⟩).sites))
    (hlies : ∀ i span, span.Placed B span → s.advance.last.Placed B span → Expr.AllLie (Span.Placed B) span args →
      (mk i span).Lies (Span.Placed B) span) :
    Reads B t (do return mk (← fresh) (← spanFrom s.here)) fun e u => ExprRead B s.here u e := by
  have hle := hs.here_le_advance.trans hst.last
  refine reads_fresh fun i u _ htu hlast => reads_spanFrom hs.here_on (hlast ▸ hle) fun hspan => reads_pure ⟨?_, ?_⟩
  · refine hlies i _ hspan ?_ ?_
    · exact Span.Placed.widen (Nat.le_refl _) (hst.trans htu).last _ (hs.taken (Nat.le_refl _))
    · exact Expr.AllLie.widen (Span.Placed.widen hs.before_advance.here htu.last) hargs.lies
  · exact (hfresh i _).mono (Nat.le_refl _) htu.here

theorem primary_laid {n : Nat} (ih : ExprCalls B n) (s : State) :
    Reads B s (primary (n + 1)) fun e t => ExprRead B s.here t e := by
  refine reads_nextStart <| reads_peek ?_
  split
  · refine reads_advance fun hs => reads_fresh fun i t _ _ hlast => reads_get <| reads_pure ⟨?_, Fresh.nil _ _⟩
    rw [hlast]
    exact hs.taken (Nat.le_refl _)
  · refine reads_advance fun hs => (ih.assignment s.advance).bind fun e t _ _ he => ?_
    exact (reads_expect t _ _).bind fun _ u _ htu _ => reads_pure (he.mono hs.before_advance.here htu)
  · refine reads_advance fun hs => reads_get <| (ih.arguments s.advance).bind fun args t _ hst hargs => ?_
    exact reads_call hs hst hargs (fun _ _ => hargs.fresh.mono hs.before_advance.here (Nat.le_refl _))
      fun _ _ hspan hname hargs => ⟨hspan, hname, hargs⟩
  · rename_i name hkind
    refine reads_advance fun hs => reads_get <| reads_peek ?_
    split
    · refine (ih.arguments s.advance).bind fun args t _ hst hargs => ?_
      refine reads_call hs hst hargs (fun _ _ => ?_) fun _ _ hspan hname hargs => ⟨hspan, hname, hargs⟩
      -- the name is in front of all that starts in the arguments
      have hlt := hs.here_lt_advance (by rw [hkind]; simp)
      exact ((Fresh.one (Nat.le_refl s.here)).mono (Nat.le_refl _) hlt).append hargs.fresh hlt.le hst.here
    · refine reads_fresh fun i t _ _ hlast => reads_pure ⟨?_, Fresh.nil _ _⟩
      rw [hlast]
      exact hs.taken (Nat.le_refl _)
  · exact reads_unexpected _

theorem argumentsRest_laid {n : Nat} (ih : ExprCalls B n) (s : State) :
    Reads B s (argumentsRest (n + 1)) fun es t => ExprsRead B s.here t es := by
  refine reads_peek ?_
  split
  · exact reads_pure ⟨trivial, Fresh.nil _ _⟩
  · refine (ih.assignment s).bind fun arg t _ hst harg => reads_peek ?_
    have more : ∀ u, t.Before u → Reads B u (do let args ← argumentsRest n; return arg :: args) fun es v =>
        ExprsRead B s.here v es := by
      intro u htu
      refine (ih.argumentsRest u).bind fun args v _ huv hargs => reads_pure ⟨⟨?_, ?_⟩, ?_⟩
      · exact (harg.mono (Nat.le_refl _) (htu.trans huv)).lies
      · exact Expr.AllLie.widen (Span.Placed.widen (hst.trans htu).here (Nat.le_refl _)) hargs.lies
      · rw [Expr.sitesOf, starts_append]
        exact harg.fresh.append (hargs.fresh.mono htu.here (Nat.le_refl _)) hst.here (htu.trans huv).here
    split
    · exact (reads_expect t _ _).bind fun _ u _ htu _ => more u htu
    · exact more t (.refl t)

theorem exprCalls (n : Nat) : ExprCalls B n := by
  induction n with
  | zero => constructor <;> intros <;> exact reads_unexpected _
  | succ n ih =>
    exact {
      assignment := assignment_laid ih
      binary := fun s level => (ih.unary s).bind fun left t _ hst hleft =>
        ih.binaryRest s.here t level left hst.here hleft
      binaryRest := binaryRest_laid ih
      unary := unary_laid ih
      primary := primary_laid ih
      arguments := fun s => (reads_expect s _ _).bind fun _ t _ hst _ =>
        (ih.argumentsRest t).bind fun args u _ _ hargs =>
        (reads_expect u _ _).bind fun _ v _ huv _ => reads_pure
          ⟨Expr.AllLie.widen (Span.Placed.widen hst.here huv.last) hargs.lies, hargs.fresh.mono hst.here huv.here⟩
      argumentsRest := argumentsRest_laid ih }

theorem reads_expression (s : State) : Reads B s expression fun e t => ExprRead B s.here t e :=
  reads_get <| (exprCalls s.calls).assignment s

/-! ## Statements -/

/-- an expression that may be absent -/
abbrev OptionRead (B : Nat → Prop) (lo : Nat) (t : State) (e : Option Expr) : Prop :=
  Stretch lo t (fun outer => ∀ x ∈ e, x.Lies (Span.Placed B) outer) (Expr.optionalSites e)

theorem optionRead_none (lo : Nat) (t : State) : OptionRead B lo t none := ⟨by simp, Fresh.nil _ _⟩

theorem ExprRead.toOption {lo : Nat} {t : State} {e : Expr} (h : ExprRead B lo t e) : OptionRead B lo t (some e) :=
  ⟨fun _ hx => Option.mem_some.1 hx ▸ h.lies, h.fresh⟩

theorem OptionRead.mono {lo lo' : Nat} {t u : State} {e : Option Expr} (h : OptionRead B lo t e) (hlo : lo' ≤ lo)
    (htu : t.Before u) : OptionRead B lo' u e :=
  ⟨fun x hx => Expr.Lies.widen (Span.Placed.widen hlo htu.last) (h.lies x hx), h.fresh.mono hlo htu.here⟩

theorem reads_someExpression (s : State) : Reads B s (some <$> expression) fun e t => OptionRead B s.here t e := by
  rw [map_eq_pure_bind]
  exact (reads_expression s).bind fun e t _ _ he => reads_pure he.toOption

theorem reads_condition (s : State) : Reads B s condition fun e t => ExprRead B s.here t e :=
  (reads_expect s _ _).bind fun _ t _ hst _ => (reads_expression t).bind fun _ u _ _ he =>
    (reads_expect u _ _).bind fun _ _ _ huv _ => reads_pure (he.mono hst.here huv)

abbrev DeclRead (B : Nat → Prop) (lo : Nat) (t : State) (d : VarDecl) : Prop :=
  Stretch lo t (VarDecl.Lies (Span.Placed B) · d) d.sites

theorem reads_finishDecl {start : Nat} {s : State} {nameSpan : Span} (ty : Ty) (name : String) (hstart : B start)
    (hle : start ≤ s.here) (hname : nameSpan.Placed B ⟨start, s.last.stop⟩) :
    Reads B s (finishDecl start ty name nameSpan) fun d t => DeclRead B start t d := by
  refine (reads_eat s _).bind fun b t _ hst _ => ?_
  have rest : ∀ init u, t.Before u → OptionRead B start u init →
      Reads B u (do expectSemicolon; return VarDecl.mk (← fresh) (← spanFrom start) name nameSpan ty init)
        fun d v => DeclRead B start v d := by
    intro init u htu hinit
    refine (reads_expectSemicolon u).bind fun _ v _ huv hstop => reads_fresh fun i w _ hvw hlast => ?_
    have hsw := (hst.trans htu).trans (huv.trans hvw)
    have hbound : start ≤ w.last.stop := hlast ▸ (hle.trans (hst.trans htu).here).trans hstop
    refine reads_spanFrom hstart hbound fun hspan => reads_pure ⟨⟨hspan, ?_, ?_⟩, ?_⟩
    · exact Span.Placed.widen (Nat.le_refl _) hsw.last _ hname
    · exact (hinit.mono (Nat.le_refl _) (huv.trans hvw)).lies
    · exact hinit.fresh.mono (Nat.le_refl _) (huv.trans hvw).here
  split
  · exact (reads_someExpression t).bind fun init u _ htu hinit =>
      rest init u htu (hinit.mono (hle.trans hst.here) (.refl u))
  · exact rest none t (.refl t) (optionRead_none _ _)

theorem reads_varDecl (s : State) : Reads B s varDecl fun d t => DeclRead B s.here t d := by
  refine Reads.intro fun hs => reads_nextStart <| (reads_parseType s).bind fun ty t _ hst _ => ?_
  refine (reads_expectName t _).bind fun name u _ htu hname => ?_
  exact reads_finishDecl _ _ hs.here_on (hst.trans htu).here (Span.Placed.widen hst.here (Nat.le_refl _) _ hname)

theorem reads_forInit (s : State) :
    Reads B s forInit fun i t => Stretch s.here t (ForInit.Lies (Span.Placed B) · i) i.sites := by
  refine Reads.intro fun hs => (reads_eat s _).bind fun b t ht hst _ => ?_
  split
  · exact reads_pure ⟨trivial, Fresh.nil _ _⟩
  · refine reads_peek ?_
    split
    · refine (reads_varDecl t).bind fun d u _ _ hd => reads_pure ⟨?_, hd.fresh.mono hst.here (Nat.le_refl _)⟩
      exact hd.lies.move (Span.Placed.widen hst.here (Nat.le_refl _) _ hd.lies.1)
    · refine reads_nextStart <| (reads_expression t).bind fun e u _ htu he => ?_
      refine (reads_expectSemicolon u).bind fun _ v _ huv hstop => ?_
      refine reads_spanFrom ht.here_on (htu.here.trans hstop) fun hspan => reads_pure ⟨⟨?_, ?_⟩, ?_⟩
      · exact Span.Placed.widen hst.here (Nat.le_refl _) _ hspan
      · exact (he.mono (Nat.le_refl _) huv).lies
      · exact he.fresh.mono hst.here huv.here

theorem reads_unlessAt (s : State) (kind : TokenKind) :
    Reads B s (unlessAt kind) fun e t => OptionRead B s.here t e := by
  refine reads_peek ?_
  split
  · exact reads_pure (optionRead_none _ _)
  · exact reads_someExpression s

abbrev StmtRead (B : Nat → Prop) (lo : Nat) (t : State) (s : Stmt) : Prop :=
  Stretch lo t (Stmt.Lies (Span.Placed B) · s) s.sites

/-- the same of statements one after the other -/
abbrev StmtsRead (B : Nat → Prop) (lo : Nat) (t : State) (ss : List Stmt) : Prop :=
  Stretch lo t (Stmt.AllLie (Span.Placed B) · ss) (Stmt.sitesOf ss)

theorem StmtRead.mono {lo lo' : Nat} {t u : State} {s : Stmt} (h : StmtRead B lo t s) (hlo : lo' ≤ lo)
    (htu : t.Before u) : StmtRead B lo' u s :=
  ⟨Stmt.Lies.widen (Span.Placed.widen hlo htu.last) h.lies, h.fresh.mono hlo htu.here⟩

/-- what the functions for statements leave behind when they may nest `n` calls -/
structure StmtCalls (B : Nat → Prop) (n : Nat) : Prop where
  statement : ∀ s, Reads B s (statement n) fun st t => StmtRead B s.here t st
  block : ∀ s, Reads B s (block n) fun b t => b.1.Placed B ⟨s.here, t.last.stop⟩ ∧ Stmt.AllLie (Span.Placed B) b.1 b.2 ∧
    Fresh s.here t.here (starts (Stmt.sitesOf b.2))
  statements : ∀ s, Reads B s (statements n) fun ss t => StmtsRead B s.here t ss

theorem if_laid {n : Nat} (ih : StmtCalls B n) {s : State} (hs : s.Laid B) :
    Reads B s.advance (do
        let cond ← condition
        let yes ← statement n
        if ← eat (.keyword .else_) then
          let no ← statement n
          return Stmt.ifElse (← spanFrom s.here) cond yes no
        else return Stmt.ifThen (← spanFrom s.here) cond yes)
      fun st t => StmtRead B s.here t st := by
  have hstart := hs.before_advance
  refine (reads_condition s.advance).bind fun cond t _ hst hcond => (ih.statement t).bind fun yes u _ htu hyes => ?_
  have hcond' := hcond.mono hstart.here htu
  have hyes' := hyes.mono (hstart.trans hst).here (.refl u)
  have hfresh := (hcond.fresh.mono hstart.here (Nat.le_refl _)).append hyes.fresh (hstart.trans hst).here htu.here
  rw [← starts_append] at hfresh
  refine (reads_eat u _).bind fun b v _ huv _ => ?_
  have hsv := hst.trans (htu.trans huv)
  have hle := hs.here_le_advance.trans hsv.last
  split
  · refine (ih.statement v).bind fun no w _ hvw hno => reads_spanFrom hs.here_on (hle.trans hvw.last) fun hspan =>
      reads_pure ⟨?_, ?_⟩
    · refine ⟨hspan, ?_, ?_, ?_⟩
      · exact (hcond'.mono (Nat.le_refl _) (huv.trans hvw)).lies
      · exact (hyes'.mono (Nat.le_refl _) (huv.trans hvw)).lies
      · exact (hno.mono (hstart.trans hsv).here (.refl w)).lies
    · rw [Stmt.sites, starts_append]
      exact hfresh.append (hno.fresh.mono huv.here (Nat.le_refl _)) ((hstart.trans hst).trans htu).here
        (huv.trans hvw).here
  · refine reads_spanFrom hs.here_on hle fun hspan => reads_pure ⟨⟨hspan, ?_, ?_⟩, ?_⟩
    · exact (hcond'.mono (Nat.le_refl _) huv).lies
    · exact (hyes'.mono (Nat.le_refl _) huv).lies
    · exact hfresh.mono (Nat.le_refl _) huv.here

theorem for_laid {n : Nat} (ih : StmtCalls B n) {s : State} (hs : s.Laid B) :
    Reads B s.advance (do
        let _ ← expect (.punct .lparen) .openParenAfterFor
        let init ← forInit
        let cond ← unlessAt (.punct .semicolon)
        let _ ← expect (.punct .semicolon) .semicolonAfterForCondition
        let step ← unlessAt (.punct .rparen)
        let _ ← expect (.punct .rparen) .closeParen
        let body ← statement n
        return Stmt.for_ (← spanFrom s.here) init cond step body)
      fun st t => StmtRead B s.here t st := by
  refine (reads_expect s.advance _ _).bind fun _ s₁ _ h₁ _ => (reads_forInit s₁).bind fun init s₂ _ h₂ hinit => ?_
  refine (reads_unlessAt s₂ _).bind fun cond s₃ _ h₃ hcond => (reads_expect s₃ _ _).bind fun _ s₄ _ h₄ _ => ?_
  refine (reads_unlessAt s₄ _).bind fun step s₅ _ h₅ hstep => (reads_expect s₅ _ _).bind fun _ s₆ _ h₆ _ => ?_
  refine (ih.statement s₆).bind fun body t _ ht hbody => ?_
  have hs₁ := hs.before_advance.trans h₁
  have hs₂ := hs₁.trans h₂
  have hs₄ := hs₂.trans (h₃.trans h₄)
  have hs₆ := hs₄.trans (h₅.trans h₆)
  have h₅t := h₆.trans ht
  have h₃t := h₄.trans (h₅.trans h₅t)
  have hle := hs.here_le_advance.trans (h₁.trans (h₂.trans (h₃.trans h₃t))).last
  refine reads_spanFrom hs.here_on hle fun hspan => reads_pure ⟨⟨hspan, ?_, ?_, ?_, ?_⟩, ?_⟩
  · exact ForInit.Lies.widen (Span.Placed.widen hs₁.here (h₃.trans h₃t).last) hinit.lies
  · exact (hcond.mono hs₂.here h₃t).lies
  · exact (hstep.mono hs₄.here h₅t).lies
  · exact (hbody.mono hs₆.here (.refl t)).lies
  · -- read before the body, the step comes after it in the code
    have hheader :=
      (hinit.fresh.mono hs₁.here (Nat.le_refl _)).append (hcond.fresh.mono (Nat.le_refl _) h₄.here) hs₂.here
      (h₃.trans h₄).here
    have hrest := (hstep.fresh.mono (Nat.le_refl _) h₆.here).append hbody.fresh (h₅.trans h₆).here ht.here
    have hall := hheader.append hrest hs₄.here ((h₅.trans h₆).trans ht).here
    have hperm : (starts (Stmt.for_ ⟨s.here, t.last.stop⟩ init cond step body).sites).Perm
        (starts init.sites ++ starts (Expr.optionalSites cond) ++
          (starts (Expr.optionalSites step) ++ starts body.sites)) := by
      simp only [Stmt.sites, starts_append, List.append_assoc]
      exact (List.perm_append_comm.append_left _).append_left _
    exact ⟨hperm.nodup_iff.2 hall.nodup, fun i hi => hall.bounds i (hperm.mem_iff.1 hi)⟩

theorem statement_laid {n : Nat} (ih : StmtCalls B n) (s : State) :
    Reads B s (statement (n + 1)) fun st t => StmtRead B s.here t st := by
  refine Reads.intro fun hs => reads_nextStart <| reads_peek ?_
  have decl : Reads B s (do return Stmt.decl (← varDecl)) fun st t => StmtRead B s.here t st :=
    (reads_varDecl s).bind fun d t _ _ hd => reads_pure hd
  have jump : ∀ {mk : Span → Stmt}, (∀ span, span.Placed B span → (mk span).Lies (Span.Placed B) span) →
      (∀ span, (mk span).sites = []) →
      Reads B s (do advance; expectSemicolon; return mk (← spanFrom s.here)) fun st t => StmtRead B s.here t st := by
    intro mk hlies hsites
    refine reads_advance fun hs => (reads_expectSemicolon s.advance).bind fun _ t _ hst _ => ?_
    refine reads_spanFrom hs.here_on (hs.here_le_advance.trans hst.last) fun hspan => reads_pure ⟨hlies _ hspan, ?_⟩
    rw [hsites]
    exact Fresh.nil _ _
  -- one case per first token: `{`, `;`, the words of types, those of statements, and anything else as an expression
  split
  · refine (ih.block s).bind fun b t _ _ hb => reads_pure ⟨⟨hb.1, hb.2.1⟩, hb.2.2⟩
  · exact reads_advance fun hs => reads_get <| reads_pure ⟨hs.taken (Nat.le_refl _), Fresh.nil _ _⟩
  · exact reads_rejectStruct
  · exact decl
  · exact decl
  · exact decl
  · exact decl
  · exact decl
  · exact reads_advance fun hs => if_laid ih hs
  · refine reads_advance fun hs => (reads_condition s.advance).bind fun cond t _ hst hcond => ?_
    refine (ih.statement t).bind fun body u _ htu hbody => ?_
    have hstart := hs.before_advance
    refine reads_spanFrom hs.here_on (hs.here_le_advance.trans (hst.trans htu).last) fun hspan =>
      reads_pure ⟨⟨hspan, ?_, ?_⟩, ?_⟩
    · exact (hcond.mono hstart.here htu).lies
    · exact (hbody.mono (hstart.trans hst).here (.refl u)).lies
    · rw [Stmt.sites, starts_append]
      exact (hcond.fresh.mono hstart.here (Nat.le_refl _)).append hbody.fresh (hstart.trans hst).here htu.here
  · refine reads_advance fun hs => (ih.statement s.advance).bind fun body t _ hst hbody =>
      (reads_expect t _ _).bind fun _ u _ htu _ => ?_
    refine (reads_condition u).bind fun cond v _ huv hcond => (reads_expectSemicolon v).bind fun _ w _ hvw _ => ?_
    have hstart := hs.before_advance
    have hsu := hst.trans htu
    refine reads_spanFrom hs.here_on (hs.here_le_advance.trans (hsu.trans (huv.trans hvw)).last) fun hspan => ?_
    refine reads_pure ⟨⟨hspan, ?_, ?_⟩, ?_⟩
    · exact (hcond.mono (hstart.trans hsu).here hvw).lies
    · exact (hbody.mono hstart.here (htu.trans (huv.trans hvw))).lies
    · rw [Stmt.sites, starts_append]
      exact (hbody.fresh.mono hstart.here (Nat.le_refl _)).append (hcond.fresh.mono htu.here hvw.here)
        (hstart.trans hst).here (htu.trans (huv.trans hvw)).here
  · exact reads_advance fun hs => for_laid ih hs
  · exact jump (fun _ hspan => hspan) fun _ => rfl
  · exact jump (fun _ hspan => hspan) fun _ => rfl
  · refine reads_advance fun hs => (reads_unlessAt s.advance _).bind fun value t _ hst hvalue => ?_
    refine (reads_expectSemicolon t).bind fun _ u _ htu _ => ?_
    have hstart := hs.before_advance
    refine reads_spanFrom hs.here_on (hs.here_le_advance.trans (hst.trans htu).last) fun hspan => reads_pure ?_
    exact ⟨⟨hspan, (hvalue.mono hstart.here htu).lies⟩, hvalue.fresh.mono hstart.here htu.here⟩
  · refine (reads_expression s).bind fun e t _ hst he => (reads_expectSemicolon t).bind fun _ u _ htu hstop => ?_
    refine reads_spanFrom hs.here_on (hst.here.trans hstop) fun hspan => reads_pure ?_
    exact ⟨⟨hspan, (he.mono (Nat.le_refl _) htu).lies⟩, he.fresh.mono (Nat.le_refl _) htu.here⟩

theorem statements_laid {n : Nat} (ih : StmtCalls B n) (s : State) :
    Reads B s (statements (n + 1)) fun ss t => StmtsRead B s.here t ss := by
  refine reads_peek ?_
  split
  · exact reads_pure ⟨trivial, Fresh.nil _ _⟩
  · refine (ih.statement s).bind fun st t _ hst hfirst => (ih.statements t).bind fun rest u _ htu hrest =>
      reads_pure ⟨⟨?_, ?_⟩, ?_⟩
    · exact (hfirst.mono (Nat.le_refl _) htu).lies
    · exact Stmt.AllLie.widen (Span.Placed.widen hst.here (Nat.le_refl _)) hrest.lies
    · rw [Stmt.sitesOf, starts_append]
      exact hfirst.fresh.append hrest.fresh hst.here htu.here

theorem block_laid {n : Nat} (ih : StmtCalls B n) (s : State) :
    Reads B s (block (n + 1)) fun b t => b.1.Placed B ⟨s.here, t.last.stop⟩ ∧ Stmt.AllLie (Span.Placed B) b.1 b.2 ∧
      Fresh s.here t.here (starts (Stmt.sitesOf b.2)) := by
  refine (reads_expect s _ _).bind fun opening t _ hst hopening => (ih.statements t).bind fun body u _ htu hbody => ?_
  refine (reads_expect u _ _).bind fun _ v _ huv _ => ?_
  obtain ⟨⟨hon, hin⟩, hbody_start⟩ := hopening
  refine reads_spanFrom hon.start (hon.ordered.trans (hin.2.trans (htu.trans huv).last)) fun hspan =>
    reads_pure ⟨?_, ?_, ?_⟩
  · exact Span.Placed.widen hin.1 (Nat.le_refl _) _ hspan
  · exact Stmt.AllLie.widen (Span.Placed.widen hbody_start huv.last) hbody.lies
  · exact hbody.fresh.mono hst.here huv.here

theorem stmtCalls (n : Nat) : StmtCalls B n := by
  induction n with
  | zero => constructor <;> intros <;> exact reads_unexpected _
  | succ n ih => exact ⟨statement_laid ih, block_laid ih, statements_laid ih⟩

/-! ## Items -/

theorem reads_parameters (n : Nat) (s : State) :
    Reads B s (parameters n) fun ps t => ∀ q ∈ ps, q.span.Placed B ⟨s.here, t.last.stop⟩ := by
  induction n generalizing s with
  | zero => exact reads_unexpected _
  | succ n ih =>
    refine reads_peek ?_
    split
    · exact reads_pure (by simp)
    · refine Reads.intro fun hs => reads_nextStart <| (reads_parseType s).bind fun ty t _ hst _ => ?_
      refine (reads_expectName t _).bind fun name u _ htu hname => reads_fresh fun i v _ huv hlast => ?_
      have hsv := hst.trans (htu.trans huv)
      have hle : s.here ≤ v.last.stop := hlast ▸ hst.here.trans hname.le
      refine reads_spanFrom hs.here_on hle fun hspan => reads_peek ?_
      have more : ∀ w, v.Before w →
          Reads B w (do let rest ← parameters n; return Param.mk i ⟨s.here, v.last.stop⟩ name.1 ty :: rest)
          fun ps x => ∀ q ∈ ps, q.span.Placed B ⟨s.here, x.last.stop⟩ := by
        intro w hvw
        refine (ih w).bind fun rest x _ hwx hrest => reads_pure fun q hq => ?_
        rcases List.mem_cons.1 hq with rfl | hq
        · exact Span.Placed.widen (Nat.le_refl _) (hvw.trans hwx).last _ hspan
        · exact Span.Placed.widen (hsv.trans hvw).here (Nat.le_refl _) _ (hrest q hq)
      split
      · exact (reads_expect v _ _).bind fun _ w _ hvw _ => more w hvw
      · exact more v (.refl v)

abbrev FunctionRead (B : Nat → Prop) (lo : Nat) (t : State) (f : FunctionDecl) : Prop :=
  Stretch lo t (FunctionDecl.Lies (Span.Placed B) · f) f.sites

theorem reads_finishFunction {start : Nat} {s : State} {nameSpan : Span} (result : Ty) (name : String)
    (hstart : B start) (hle : start ≤ s.here) (hname : nameSpan.Placed B ⟨start, s.last.stop⟩) :
    Reads B s (finishFunction start result name nameSpan) fun f t => FunctionRead B start t f := by
  refine (reads_expect s _ _).bind fun _ t _ hst _ => reads_get ?_
  have rest : ∀ u, t.Before u → Reads B u (do
        let params ← parameters (← get).calls
        let _ ← expect (.punct .rparen) .closeParen
        let found ← block (← get).calls
        return FunctionDecl.mk (← spanFrom start) name nameSpan result params found.1 found.2)
      fun f v => FunctionRead B start v f := by
    intro u htu
    have hsu := hst.trans htu
    refine reads_get <| (reads_parameters u.calls u).bind fun params v _ huv hparams => ?_
    refine (reads_expect v _ _).bind fun _ w _ hvw _ =>
      reads_get <| ((stmtCalls w.calls).block w).bind fun b x _ hwx hb => ?_
    have hsw := hsu.trans (huv.trans hvw)
    refine reads_spanFrom hstart ((hle.trans hsw.here).trans hb.1.le) fun hspan =>
      reads_pure ⟨⟨hspan, ?_, ?_, ?_, hb.2.1⟩, ?_⟩
    · exact Span.Placed.widen (Nat.le_refl _) (hsw.trans hwx).last _ hname
    · exact fun q hq => Span.Placed.widen (hle.trans hsu.here) (hvw.trans hwx).last _ (hparams q hq)
    · exact Span.Placed.widen (hle.trans hsw.here) (Nat.le_refl _) _ hb.1
    · exact hb.2.2.mono (hle.trans hsw.here) (Nat.le_refl _)
  split
  · exact reads_advance fun ht => rest _ ht.before_advance
  · exact rest _ (.refl t)

abbrev ItemRead (B : Nat → Prop) (lo : Nat) (t : State) (i : Item) : Prop :=
  Stretch lo t (Item.Lies (Span.Placed B) · i) i.sites

theorem reads_item (s : State) : Reads B s item fun i t => ItemRead B s.here t i := by
  refine Reads.intro fun hs => reads_nextStart <| (reads_parseType s).bind fun ty t _ hst _ => ?_
  refine (reads_expectName t _).bind fun name u _ htu hname => reads_peek ?_
  have hname' := Span.Placed.widen hst.here (Nat.le_refl _) _ hname
  split
  · split
    · exact reads_spanFrom hs.here_on hname'.le fun hspan => reads_throw hspan.1
    · exact (reads_finishFunction _ _ hs.here_on (hst.trans htu).here hname').bind fun f v _ _ hf => reads_pure hf
  · exact (reads_finishDecl _ _ hs.here_on (hst.trans htu).here hname').bind fun d v _ _ hd => reads_pure hd

theorem reads_items (n : Nat) (s : State) : Reads B s (items n) fun is t =>
    Stretch s.here t (fun outer => ∀ i ∈ is, i.Lies (Span.Placed B) outer) (is.flatMap Item.sites) := by
  induction n generalizing s with
  | zero => exact reads_unexpected _
  | succ n ih =>
    refine reads_peek ?_
    split
    · exact reads_pure ⟨by simp, Fresh.nil _ _⟩
    · exact reads_rejectStruct
    · refine (reads_item s).bind fun first t _ hst hfirst => (ih t).bind fun rest u _ htu hrest =>
        reads_pure ⟨fun i hi => ?_, ?_⟩
      · rcases List.mem_cons.1 hi with rfl | hi
        · exact hfirst.lies.widen (Span.Placed.widen (Nat.le_refl _) htu.last)
        · exact (hrest.lies i hi).widen (Span.Placed.widen hst.here (Nat.le_refl _))
      · rw [List.flatMap_cons, starts_append]
        exact hfirst.fresh.append hrest.fresh hst.here htu.here

end Parser

/-- **Spans of a program that was read**, from tokens in order: they lie within each other and on offsets of tokens, and
its calls start at offsets of their own. If the tokens are no program, the span of the error is on offsets of tokens
too. -/
theorem parse_places {B : Nat → Prop} {tokens : List Token} (h : (Parser.State.start tokens).Laid B) :
    (∀ p, Program.parse tokens = .ok p → p.Lies (Span.Placed B) ∧ (starts p.sites).Nodup) ∧
      ∀ e, Program.parse tokens = .error e → e.span.On B := by
  have hitems := Parser.reads_items (Parser.State.start tokens).calls (.start tokens) h
  have hget : ∀ s : Parser.State, (get : Parser Parser.State) s = .ok s s := fun _ => rfl
  simp only [Program.parse, Parser.program, EStateM.run, bind, EStateM.bind, hget, pure, EStateM.pure]
  cases hr : Parser.items (Parser.State.start tokens).calls (.start tokens) with
  | error e t =>
    rw [hr] at hitems
    constructor
    · intro p hp
      cases hp
    · intro e' he
      obtain rfl := Except.error.inj he
      exact hitems
  | ok found t =>
    rw [hr] at hitems
    constructor
    · intro p hp
      obtain rfl := Except.ok.inj hp
      refine ⟨fun i hi => ?_, hitems.2.2.fresh.nodup⟩
      exact (hitems.2.2.lies i hi).widen (Span.Placed.widen (Nat.zero_le _) (Nat.le_refl _))
    · intro e he
      cases he

end C15

/-
What the calls of the reader do with the tokens that are left.

`Parses sure x ks Q` says of a call `x` where the kinds `ks` and the end are left: a result and the kinds left after it
satisfy `Q`, and if `sure` holds there is a result. A call that may fail is described with `sure` false, one that has to
get through a word with `sure` true, and both kinds of description are put together by the same rules, one for each
thing a call can do: look at the next token (`Parses.peek`), take it (`Parses.advance`), ask for it (`Parses.expect`,
`Parses.eat`), draw an identity or a span (`Silent`). At the end stand the functions that read a few tokens: names,
semicolons, types, and the look-ahead for a cast.
-/
import C15.Program.Parser
import C15.Proofs.Grammar

namespace C15

namespace Parser

open Grammar

/-! ## Words that are left -/

/-- these kinds are left before the end, which stands last and only there -/
structure State.At (s : State) (ks : Kinds) : Prop where
  kinds : s.rest.map (·.kind) = ks ++ [.eof]
  inside : .eof ∉ ks

/-- the kind of the next token -/
def next (ks : Kinds) : TokenKind := ks.head?.getD .eof

@[simp] theorem next_nil : next [] = .eof := rfl

@[simp] theorem next_cons (kind : TokenKind) (ks : Kinds) : next (kind :: ks) = kind := rfl

theorem eq_cons_of_next {kind : TokenKind} {ks : Kinds} (h : next ks = kind) (hkind : kind ≠ .eof) :
    ∃ ks', ks = kind :: ks' := by
  cases ks with
  | nil => exact absurd h.symm hkind
  | cons first ks' => exact ⟨ks', by rw [← h, next_cons]⟩

theorem eq_nil_of_next {ks : Kinds} (h : next ks = .eof) (hinside : .eof ∉ ks) : ks = [] := by
  cases ks with
  | nil => rfl
  | cons first ks' =>
    rw [next_cons] at h
    exact absurd (h ▸ List.mem_cons_self) hinside

/-- the word that begins with a token of a class decides the next token -/
theorem next_of_begins {p : TokenKind → Bool} {w : Kinds} (h : Begins p w) (ks : Kinds) :
    p (next (w ++ ks)) = true := by
  obtain ⟨kind, v, rfl, hkind⟩ := h
  exact hkind

namespace State.At

variable {s : State} {ks : Kinds}

theorem kindAt (h : s.At ks) (n : Nat) : s.kindAt n = (ks[n]?).getD .eof := by
  have hmap : s.kindAt n = ((s.rest.map (·.kind))[n]?).getD .eof := by
    unfold State.kindAt
    rw [List.getElem?_map]
    cases s.rest[n]? <;> rfl
  rw [hmap, h.kinds]
  rcases Nat.lt_trichotomy n ks.length with hn | hn | hn
  · rw [List.getElem?_append_left hn]
  · simp [hn]
  · rw [List.getElem?_eq_none (by simp; omega), List.getElem?_eq_none (by omega)]

theorem kind (h : s.At ks) : s.kind = next ks := by
  rw [State.kind, h.kindAt 0]
  cases ks <;> rfl

theorem advance {first : TokenKind} (h : s.At (first :: ks)) : s.advance.At ks := by
  have hmap := h.kinds
  cases hrest : s.rest with
  | nil => simp [hrest] at hmap
  | cons t ts =>
    rw [hrest, List.map_cons, List.cons_append, List.cons.injEq] at hmap
    have ht : t.kind ≠ .eof := fun heq => h.inside (by rw [← hmap.1, heq]; exact List.mem_cons_self)
    have hs : s.advance = { s with rest := ts, last := t.span } := by
      unfold State.advance
      rw [hrest]
      exact if_neg ht
    rw [hs]
    exact ⟨hmap.2, fun hmem => h.inside (List.mem_cons_of_mem _ hmem)⟩

/-- there are calls enough for every word of the tokens left -/
theorem calls (h : s.At ks) : 8 * ks.length + 16 ≤ s.calls := by
  have hlength := congrArg List.length h.kinds
  rw [List.length_map, List.length_append, List.length_singleton] at hlength
  unfold State.calls
  omega

end State.At

/-! ## Rules for calls -/

/-- what a call does where the kinds `ks` are left; a call that is sure has a result -/
def Parses {α : Type} (sure : Bool) (x : Parser α) (ks : Kinds) (Q : α → Kinds → Prop) : Prop :=
  ∀ s : State, s.At ks →
    match x s with
    | .ok a t => ∃ ks', t.At ks' ∧ Q a ks'
    | .error _ _ => sure = false

/-- a call that has a result and leaves the tokens alone -/
def Silent {α : Type} (x : Parser α) : Prop := ∀ s : State, ∃ a t, x s = .ok a t ∧ t.rest = s.rest

section Calculus

variable {α β : Type} {sure : Bool} {x : Parser α} {f : α → Parser β} {ks : Kinds} {P Q : α → Kinds → Prop}
  {R : β → Kinds → Prop}

theorem Parses.bind (hx : Parses sure x ks P) (hf : ∀ a ks', P a ks' → Parses sure (f a) ks' R) :
    Parses sure (x >>= f) ks R := by
  intro s hs
  have hxs := hx s hs
  simp only [Bind.bind, EStateM.bind]
  cases hr : x s with
  | error e t => rw [hr] at hxs; exact hxs
  | ok a t =>
    rw [hr] at hxs
    obtain ⟨ks', ht, ha⟩ := hxs
    exact hf a ks' ha t ht

theorem Parses.mono (hx : Parses sure x ks P) (h : ∀ a ks', P a ks' → Q a ks') : Parses sure x ks Q := by
  intro s hs
  have hxs := hx s hs
  cases hr : x s with
  | error e t => rw [hr] at hxs; exact hxs
  | ok a t =>
    rw [hr] at hxs
    obtain ⟨ks', ht, ha⟩ := hxs
    exact ⟨ks', ht, h a ks' ha⟩

theorem Parses.pure {a : α} (h : Q a ks) : Parses sure (Pure.pure a) ks Q := fun _ hs => ⟨ks, hs, h⟩

/-- a call that fails says nothing, but it is not sure -/
theorem parses_throw (e : Located GrammarCause) : Parses false (throw e : Parser α) ks Q := fun _ _ => rfl

/-- the state is known by the tokens left -/
theorem Parses.get {g : State → Parser β} (h : ∀ s : State, s.At ks → Parses sure (g s) ks R) :
    Parses sure (MonadState.get >>= g) ks R := fun s hs => h s hs s hs

/-- the end is not among the kinds left -/
theorem Parses.inside (h : .eof ∉ ks → Parses sure x ks Q) : Parses sure x ks Q := fun s hs => h hs.inside s hs

theorem Silent.andThen (hx : Silent x) (hf : ∀ a, Parses sure (f a) ks R) : Parses sure (x >>= f) ks R := by
  intro s hs
  obtain ⟨a, t, ha, ht⟩ := hx s
  simp only [Bind.bind, EStateM.bind, ha]
  exact hf a t ⟨ht ▸ hs.kinds, hs.inside⟩

theorem silent_get : Silent (MonadState.get : Parser State) := fun s => ⟨s, s, rfl, rfl⟩

theorem silent_nextStart : Silent nextStart := fun s => ⟨_, s, rfl, rfl⟩

theorem silent_spanFrom (start : Nat) : Silent (spanFrom start) := fun s => ⟨_, s, rfl, rfl⟩

theorem silent_fresh : Silent fresh := fun s => ⟨_, { s with nextId := s.nextId + 1 }, rfl, rfl⟩

theorem parses_unexpected (wanted : Wanted) : Parses false (unexpected wanted : Parser α) ks Q :=
  silent_get.andThen fun _ => parses_throw _

theorem parses_rejectStruct : Parses false (rejectStruct : Parser α) ks Q := silent_get.andThen fun _ => parses_throw _

end Calculus

section Tokens

variable {β : Type} {sure : Bool} {kind : TokenKind} {ks : Kinds} {R : β → Kinds → Prop}

theorem Parses.peek {f : TokenKind → Parser β} (h : Parses sure (f (next ks)) ks R) :
    Parses sure (Parser.peek >>= f) ks R := by
  intro s hs
  have hpeek : Parser.peek s = .ok (next ks) s := by rw [← hs.kind]; rfl
  simp only [Bind.bind, EStateM.bind, hpeek]
  exact h s hs

theorem Parses.advance {f : Unit → Parser β} (h : Parses sure (f ()) ks R) :
    Parses sure (Parser.advance >>= f) (kind :: ks) R :=
  fun s hs => h s.advance hs.advance

/-- a call that ends with taking a token and giving a value -/
theorem Parses.give {α : Type} {a : α} {Q : α → Kinds → Prop} (h : Q a ks) :
    Parses sure (do Parser.advance; return a) (kind :: ks) Q := .advance (.pure h)

theorem Parses.expect {wanted : Wanted} {f : Span → Parser β} (h : ∀ span, Parses sure (f span) ks R) :
    Parses sure (Parser.expect kind wanted >>= f) (kind :: ks) R := by
  refine Parses.bind (P := fun _ ks' => ks' = ks) (.peek ?_) fun span ks' hks => hks ▸ h span
  rw [next_cons, if_pos rfl]
  exact .advance (silent_get.andThen fun _ => .pure rfl)

/-- a token that was asked for was there -/
theorem parses_expect {wanted : Wanted} {f : Span → Parser β} (hkind : kind ≠ .eof)
    (h : ∀ span ks', ks = kind :: ks' → Parses false (f span) ks' R) :
    Parses false (Parser.expect kind wanted >>= f) ks R := by
  by_cases hnext : next ks = kind
  · obtain ⟨ks', rfl⟩ := eq_cons_of_next hnext hkind
    exact .expect fun span => h span ks' rfl
  · refine Parses.bind (P := fun _ _ => False) (.peek ?_) fun _ _ hfalse => hfalse.elim
    rw [if_neg hnext]
    exact parses_unexpected wanted

theorem Parses.eat {f : Bool → Parser β} (h : Parses sure (f true) ks R) :
    Parses sure (Parser.eat kind >>= f) (kind :: ks) R := by
  refine Parses.bind (P := fun b ks' => b = true ∧ ks' = ks) (.peek ?_) ?_
  · rw [next_cons, if_pos rfl]
    exact .give ⟨rfl, rfl⟩
  · rintro _ _ ⟨rfl, rfl⟩
    exact h

theorem Parses.eat_other {f : Bool → Parser β} (hnext : next ks ≠ kind) (h : Parses sure (f false) ks R) :
    Parses sure (Parser.eat kind >>= f) ks R := by
  refine Parses.bind (P := fun b ks' => b = false ∧ ks' = ks) (.peek ?_) ?_
  · rw [if_neg hnext]
    exact .pure ⟨rfl, rfl⟩
  · rintro _ _ ⟨rfl, rfl⟩
    exact h

/-- a token that may be there is taken or not -/
theorem parses_eat {f : Bool → Parser β} (hkind : kind ≠ .eof)
    (hyes : ∀ ks', ks = kind :: ks' → Parses sure (f true) ks' R) (hno : next ks ≠ kind → Parses sure (f false) ks R) :
    Parses sure (Parser.eat kind >>= f) ks R := by
  by_cases hnext : next ks = kind
  · obtain ⟨ks', rfl⟩ := eq_cons_of_next hnext hkind
    exact .eat (hyes ks' rfl)
  · exact .eat_other hnext (hno hnext)

theorem Parses.expectName {wanted : Wanted} {name : String} {f : String × Span → Parser β}
    (h : ∀ span, Parses sure (f (name, span)) ks R) :
    Parses sure (Parser.expectName wanted >>= f) (.ident name :: ks) R := by
  refine Parses.bind (P := fun r ks' => r.1 = name ∧ ks' = ks) (.peek ?_) ?_
  · exact .advance (silent_get.andThen fun _ => .pure ⟨rfl, rfl⟩)
  · rintro ⟨_, span⟩ _ ⟨rfl, rfl⟩
    exact h span

theorem parses_expectName {wanted : Wanted} {f : String × Span → Parser β}
    (h : ∀ name span ks', ks = .ident name :: ks' → Parses false (f (name, span)) ks' R) :
    Parses false (Parser.expectName wanted >>= f) ks R := by
  by_cases hnext : ∃ name, next ks = .ident name
  · obtain ⟨name, hname⟩ := hnext
    obtain ⟨ks', rfl⟩ := eq_cons_of_next hname (by simp)
    exact .expectName fun span => h name span ks' rfl
  · refine Parses.bind (P := fun _ _ => False) (.peek ?_) fun _ _ hfalse => hfalse.elim
    split
    · rename_i name hname
      exact absurd ⟨name, hname⟩ hnext
    · exact parses_unexpected wanted

theorem Parses.expectSemicolon {f : Unit → Parser β} (h : Parses sure (f ()) ks R) :
    Parses sure (Parser.expectSemicolon >>= f) (.punct .semicolon :: ks) R :=
  Parses.bind (P := fun _ ks' => ks' = ks) (.eat (.pure rfl)) fun _ _ hks => hks ▸ h

theorem parses_expectSemicolon {f : Unit → Parser β}
    (h : ∀ ks', ks = .punct .semicolon :: ks' → Parses false (f ()) ks' R) :
    Parses false (Parser.expectSemicolon >>= f) ks R := by
  refine Parses.bind (P := fun _ ks' => ks = .punct .semicolon :: ks') ?_ fun _ => h
  refine parses_eat (by simp) (fun ks' hks => .pure hks) fun _ => ?_
  exact silent_get.andThen fun _ => parses_throw _

/-! ## Types -/

theorem Parses.parseType {w : Kinds} {ty : Ty} {f : Ty → Parser β} (hty : TypeName w ty) (h : Parses sure (f ty) ks R) :
    Parses sure (Parser.parseType >>= f) (w ++ ks) R := by
  refine Parses.bind (P := fun ty' ks' => ty' = ty ∧ ks' = ks) ?_ ?_
  · cases hty with
    | plain b =>
      refine .eat_other ?_ (.peek ?_)
      · cases b <;> simp [Base.keyword]
      · cases b <;> exact .give ⟨rfl, rfl⟩
    | @const b hb =>
      refine .eat (.peek ?_)
      cases b with
      | void => exact absurd rfl hb
      | int => exact .give ⟨rfl, rfl⟩
      | uint => exact .give ⟨rfl, rfl⟩
      | float => exact .give ⟨rfl, rfl⟩
  · rintro _ _ ⟨rfl, rfl⟩
    exact h

/-- a type that was read stood there -/
theorem parses_parseType {f : Ty → Parser β}
    (h : ∀ w ty ks', ks = w ++ ks' → TypeName w ty → Parses false (f ty) ks' R) :
    Parses false (Parser.parseType >>= f) ks R := by
  refine Parses.bind (P := fun ty ks' => ∃ w, ks = w ++ ks' ∧ TypeName w ty) ?_ fun ty ks' => ?_
  · -- after `const` only the types with values go on
    have base : ∀ {b : Base} {ks ks' : Kinds} {ty : Ty} {w : Kinds}, next ks = .keyword b.keyword → ks' = w ++ ks →
        TypeName (w ++ [.keyword b.keyword]) ty → Parses false (do Parser.advance; return ty) ks
          fun ty ks'' => ∃ w, ks' = w ++ ks'' ∧ TypeName w ty := by
      intro b ks ks' ty w hnext hks hty
      obtain ⟨ks'', rfl⟩ := eq_cons_of_next hnext (by simp)
      exact .give ⟨_, by simp [hks], hty⟩
    refine parses_eat (by simp) ?_ ?_
    · rintro ks' rfl
      refine .peek ?_
      split
      · exact base (b := .int) ‹_› (w := [.keyword .const]) rfl (.const (by simp))
      · exact base (b := .uint) ‹_› (w := [.keyword .const]) rfl (.const (by simp))
      · exact base (b := .float) ‹_› (w := [.keyword .const]) rfl (.const (by simp))
      · exact parses_unexpected _
      · exact parses_rejectStruct
      · exact parses_unexpected _
    · intro _
      refine .peek ?_
      split
      · exact base (b := .int) ‹_› (w := []) rfl (.plain .int)
      · exact base (b := .uint) ‹_› (w := []) rfl (.plain .uint)
      · exact base (b := .float) ‹_› (w := []) rfl (.plain .float)
      · exact base (b := .void) ‹_› (w := []) rfl (.plain .void)
      · exact parses_rejectStruct
      · exact parses_unexpected _
  · rintro ⟨w, hks, hty⟩
    exact h w ty ks' hks hty

/-- a type in parentheses at the start of a word -/
def Cast (b : Base) (ks' ks : Kinds) : Prop :=
  b ≠ .void ∧ ks = .punct .lparen :: .keyword b.keyword :: .punct .rparen :: ks'

/-- looking ahead for a cast takes nothing and finds it exactly if it is there -/
theorem parses_atCast {f : Bool → Parser β} (hyes : ∀ b ks', Cast b ks' ks → Parses sure (f true) ks R)
    (hno : (∀ b ks', ¬ Cast b ks' ks) → Parses sure (f false) ks R) : Parses sure (atCast >>= f) ks R := by
  refine Parses.bind (P := fun found ks' => ks' = ks ∧ (found = true ↔ ∃ b ks', Cast b ks' ks))
    (.get fun s hs => .pure ⟨rfl, ?_⟩) ?_
  · rw [hs.kindAt 0, hs.kindAt 1, hs.kindAt 2]
    constructor
    · intro hfound
      rcases ks with _ | ⟨k0, _ | ⟨k1, _ | ⟨k2, ks'⟩⟩⟩
      · simp at hfound
      · simp at hfound
      · simp at hfound
      · simp only [List.getElem?_cons_zero, List.getElem?_cons_succ, Option.getD_some, Bool.and_eq_true,
          decide_eq_true_eq] at hfound
        obtain ⟨⟨rfl, hbase⟩, rfl⟩ := hfound
        split at hbase
        · exact ⟨.int, ks', by simp, rfl⟩
        · exact ⟨.uint, ks', by simp, rfl⟩
        · exact ⟨.float, ks', by simp, rfl⟩
        · exact absurd hbase (by simp)
    · rintro ⟨b, ks', hb, rfl⟩
      cases b with
      | void => exact absurd rfl hb
      | int => rfl
      | uint => rfl
      | float => rfl
  · rintro found _ ⟨rfl, hfound⟩
    cases found with
    | true =>
      obtain ⟨b, ks', hcast⟩ := hfound.1 rfl
      exact hyes b ks' hcast
    | false => exact hno fun b ks' hcast => absurd (hfound.2 ⟨b, ks', hcast⟩) (by simp)

end Tokens

end Parser

end C15

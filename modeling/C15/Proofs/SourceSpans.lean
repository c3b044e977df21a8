/-
Spans in a source.

Tokens lie one behind the other and between characters of the source, so all that is read from them does, and all that
is reported about it. Results:
- `Lexer.laid_of_source`: the tokens of a source are in order, with ends between its characters;
- `placed_of_source`: so are the spans of a program that was read from it, and its calls start at offsets of their own;
- `compile_reports_in_source`: every span of an error, a symbol, a destination or a warning is in the source, and the
  spans of a program lie within each other.
-/
import C15.Compilation
import C15.Proofs.Reports
import C15.Proofs.Spelling
import C15.Proofs.Tiling

namespace C15

/-! ## Offsets between characters -/

/-- an offset between two characters of a text, or at one of its ends -/
def Boundary (text : String) (offset : Nat) : Prop := (String.Pos.Raw.mk offset).IsValid text

/-- a span of a text: its ends are in order, not beyond the end of the text, and between characters -/
structure Span.In (text : String) (s : Span) : Prop where
  ordered : s.start ≤ s.stop
  bounded : s.stop ≤ text.utf8ByteSize
  start : Boundary text s.start
  stop : Boundary text s.stop

theorem Span.On.inText {text : String} {s : Span} (h : s.On (Boundary text)) : s.In text :=
  ⟨h.ordered, h.stop.le_utf8ByteSize, h.start, h.stop⟩

theorem boundary_zero (text : String) : Boundary text 0 := String.Pos.Raw.isValid_zero

theorem boundary_width {text : String} {before after : List Char} (h : text.toList = before ++ after) :
    Boundary text (Text.width before) := by
  refine String.Pos.Raw.isValid_iff_exists_append.2 ⟨String.ofList before, String.ofList after, ?_, ?_⟩
  · rw [← String.ofList_append, ← h, String.ofList_toList]
  · rw [Text.width_ofList]
    rfl

namespace Lexer

/-! ## Tokens -/

theorem next_on {source : String} {c : Cursor} (hc : c.In source) : (spanOf (next c).1).On (Boundary source) := by
  obtain ⟨before, hsource, hstart, hstop⟩ := (next_tile hc).taken
  refine ⟨?_, ?_, ?_⟩
  · rw [hstart, hstop, Text.width_append]
    exact Nat.le_add_right _ _
  · rw [hstart]
    exact boundary_width (by rw [hsource, List.append_assoc])
  · rw [hstop]
    exact boundary_width hsource

theorem scan_on (source : String) : ∀ step ∈ scan source, (spanOf step).On (Boundary source) := by
  intro step hstep
  obtain ⟨n, hsteps, -⟩ := steps_eq_map (.start source)
  rw [show scan source = steps (.start source) from rfl, hsteps] at hstep
  obtain ⟨k, -, rfl⟩ := List.mem_map.1 hstep
  exact next_on (Cursor.In.after ⟨[], rfl, rfl⟩ k)

/-- the first error of a source is one of its steps -/
theorem mem_of_mapM_error {steps : List (Except (Located LexicalCause) Token)} {e : Located LexicalCause}
    (h : steps.mapM id = .error e) : .error e ∈ steps := by
  induction steps with
  | nil => cases h
  | cons step rest ih =>
    rw [List.mapM_cons] at h
    cases step with
    | error e' =>
      obtain rfl := Except.error.inj h
      exact List.mem_cons_self
    | ok t =>
      refine List.mem_cons_of_mem _ (ih ?_)
      cases hrest : rest.mapM id with
      | error e' =>
        rw [hrest] at h
        exact h
      | ok ts =>
        rw [hrest] at h
        cases h

/-- the tokens of a source are in order -/
theorem laid_of_source {source : String} {tokens : List Token} (h : tokenize source = .ok tokens) :
    (Parser.State.start tokens).Laid (Boundary source) := by
  have hscan : scan source = tokens.map .ok := mapM_eq_ok.1 h
  have hspans : (scan source).map spanOf = tokens.map (·.span) := by
    rw [hscan, List.map_map]
    rfl
  refine ⟨?_, fun _ _ => ⟨Nat.zero_le _, Nat.zero_le _⟩, ⟨Nat.le_refl _, boundary_zero _, boundary_zero _⟩,
    fun t ht => ?_, ?_⟩
  · have hordered := (steps_ordered (.start source)).1
    rw [show steps (.start source) = scan source from rfl, hspans] at hordered
    exact hordered
  · exact scan_on source (.ok t) (hscan ▸ List.mem_map_of_mem ht)
  · obtain ⟨n, hsteps, -, hend⟩ := steps_eq_map (.start source)
    have hlast : (tokens.map Except.ok).getLast? = some (next ((Cursor.start source).after n)).1 := by
      rw [← hscan, show scan source = steps (.start source) from rfl, hsteps, List.range_succ, List.map_append,
        List.map_singleton, List.getLast?_concat]
    rw [List.getLast?_map, Option.map_eq_some_iff] at hlast
    obtain ⟨t, ht, hok⟩ := hlast
    rw [← hok] at hend
    exact ⟨t, ht, by simpa [isEnd] using hend⟩

end Lexer

/-- a program that was read from a source -/
theorem placed_of_source {source : String} {tokens : List Token} {p : Program}
    (htokens : Lexer.tokenize source = .ok tokens) (hparse : Program.parse tokens = .ok p) :
    p.Lies (Span.Placed (Boundary source)) ∧ (starts p.sites).Nodup :=
  (parse_places (Lexer.laid_of_source htokens)).1 p hparse

/-! ## Compiling -/

/-- a stage of a compilation fails at a span that satisfies a property, or its result satisfies `Q` -/
def Compiles {α : Type} (P : Span → Prop) (Q : α → Prop) : Except CompileError α → Prop
  | .ok a => Q a
  | .error e => P e.span

section Stages

variable {α β : Type} {P : Span → Prop} {Q : α → Prop} {R : β → Prop}

theorem Compiles.bind {x : Except CompileError α} {f : α → Except CompileError β} (hx : Compiles P Q x)
    (hf : ∀ a, Q a → Compiles P R (f a)) : Compiles P R (x >>= f) := by
  cases x with
  | error e => exact hx
  | ok a => exact hf a hx

/-- a stage fails where its error is -/
theorem EndsAt.compiles {ε : Type} {x : Except (Located ε) α} (hx : EndsAt P Q x) {stage : Located ε → CompileError}
    (hstage : ∀ e, (stage e).span = e.span) : Compiles P Q (x.mapError stage) := by
  cases x with
  | error e =>
    change P (stage e).span
    rw [hstage]
    exact hx
  | ok a => exact hx

end Stages

theorem compile_ends (source : String) :
    Compiles (Span.In source) (fun g => ∃ recursion, Generated.Reports (Span.In source) recursion g)
      (compile source) := by
  have htokens :
      EndsAt (Span.In source) (fun tokens => Lexer.tokenize source = .ok tokens) (Lexer.tokenize source) := by
    cases h : Lexer.tokenize source with
    | ok tokens => rfl
    | error e => exact (Lexer.scan_on source _ (Lexer.mem_of_mapM_error h)).inText
  refine (htokens.compiles fun _ => rfl).bind fun tokens htokens => ?_
  have hplaces := parse_places (Lexer.laid_of_source htokens)
  have hparse : EndsAt (Span.In source) (fun p => p.Lies (everywhere (Span.In source))) (Program.parse tokens) := by
    cases h : Program.parse tokens with
    | ok p => exact (hplaces.1 p h).1.imp fun _ _ hspan => hspan.1.inText
    | error e => exact (hplaces.2 e h).inText
  refine (hparse.compiles fun _ => rfl).bind fun p hp => ?_
  have hzero : Span.In source ⟨0, 0⟩ := ⟨Nat.le_refl _, Nat.zero_le _, boundary_zero _, boundary_zero _⟩
  refine ((Program.check_at hp hzero).compiles fun _ => rfl).bind fun info _ => ?_
  exact ((Program.generate_reports info hp).imp fun _ hreports => ⟨_, hreports⟩).compiles fun _ => rfl

/-- **Spans are well formed and nested.** For every source, the span of an error of compiling it, and every span of a
symbol, a destination or a warning of a successful compilation, is in the source: its ends are in order, not beyond the
end of the source, and between characters. In every program that is read from the source, the span of each item,
statement, expression, parameter and name lies within the span of the node that contains it, and is in the source. -/
theorem compile_reports_in_source (source : String) :
    (∀ e, compile source = .error e → e.span.In source) ∧
    (∀ g, compile source = .ok g →
      (∀ s ∈ g.symbols, s.span.In source) ∧
      (∀ d ∈ g.destinations, d.span.In source) ∧
      ∀ w ∈ g.warnings, ∃ span, w.location = some ⟨.source, span⟩ ∧ span.In source) ∧
    ∀ tokens p, Lexer.tokenize source = .ok tokens → Program.parse tokens = .ok p →
      p.Lies fun span outer => span.Within outer ∧ span.In source := by
  have hends := compile_ends source
  refine ⟨fun e he => ?_, fun g hg => ?_, fun tokens p htokens hparse => ?_⟩
  · rw [he] at hends
    exact hends
  · rw [hg] at hends
    obtain ⟨recursion, hreports⟩ := hends
    exact ⟨hreports.symbols, hreports.destinations, hreports.warnings⟩
  · exact (placed_of_source htokens hparse).1.imp fun _ _ hspan => ⟨hspan.2, hspan.1.inText⟩

/-- a comment with a character of two bytes, a literal with a minus around parentheses, and a variable that is never
read -/
def accented : String := "/* é */ int half(int x) { return x / 2; } void main() { int y = half(-(6)); }"

/-- the character where none may stand: `void main() { int y = 6é;` -/
def broken : String := "void main() \x7b int y = 6é;"

theorem accented_in_source :
    (∃ g, compile accented = .ok g ∧ g.symbols.length = 6 ∧ g.destinations.length = 3 ∧ g.warnings.length = 1 ∧
      (∀ s ∈ g.symbols, s.span.In accented) ∧ (∀ d ∈ g.destinations, d.span.In accented) ∧
      ∀ w ∈ g.warnings, ∃ span, w.location = some ⟨.source, span⟩ ∧ span.In accented) ∧
    (∃ tokens p, Lexer.tokenize accented = .ok tokens ∧ Program.parse tokens = .ok p ∧ p.items.length = 2 ∧
      p.Lies fun span outer => span.Within outer ∧ span.In accented) ∧
    ∃ e, compile broken = .error e ∧ e.span = ⟨23, 25⟩ ∧ e.span.In broken := by
  obtain ⟨-, hok, hread⟩ := compile_reports_in_source accented
  refine ⟨?_, ?_, ?_⟩
  · have hsizes :
        (compile accented).toOption.map (fun g => (g.symbols.length, g.destinations.length, g.warnings.length)) =
        some (6, 3, 1) := by
      decide +kernel
    cases hg : compile accented with
    | error e =>
      rw [hg] at hsizes
      cases hsizes
    | ok g =>
      rw [hg] at hsizes
      simp only [Except.toOption, Option.map_some, Option.some.injEq, Prod.mk.injEq] at hsizes
      exact ⟨g, rfl, hsizes.1, hsizes.2.1, hsizes.2.2, hok g hg⟩
  · have hitems : ((Lexer.tokenize accented).toOption.bind fun ts => (Program.parse ts).toOption.map (·.items.length)) =
        some 2 := by
      decide +kernel
    cases htokens : Lexer.tokenize accented with
    | error e =>
      rw [htokens] at hitems
      cases hitems
    | ok tokens =>
      rw [htokens] at hitems
      replace hitems : (Program.parse tokens).toOption.map (·.items.length) = some 2 := hitems
      cases hparse : Program.parse tokens with
      | error e =>
        rw [hparse] at hitems
        cases hitems
      | ok p =>
        rw [hparse] at hitems
        exact ⟨tokens, p, rfl, hparse, Option.some.inj hitems, hread tokens p htokens hparse⟩
  · have hfails : compile broken = .error (.lexical ⟨.unexpected 'é', ⟨23, 25⟩⟩) := by decide +kernel
    exact ⟨_, hfails, rfl, (compile_reports_in_source broken).1 _ hfails⟩

end C15

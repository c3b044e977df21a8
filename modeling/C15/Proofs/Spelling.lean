/-
What a source can spell.

A name is cut off a source as a letter or underscore and the letters, digits and underscores after it, and a number that
is too large for its format is refused. So the names of a program are names, and its floating-point literals are finite;
the reader keeps both (`wellFormed_of_parse`), a minus in front of a literal included. Results:
- `Lexer.tokenize_in`: every token of a source is of `Lexicon.source`;
- `wellFormed_of_source`: so is the program read from them;
- `compile_eq_ok`: a compilation that goes well passes through its four stages.
-/
import C15.Compilation
import C15.Proofs.Facts
import C15.Proofs.LineText
import C15.Proofs.Tiling

namespace C15

theorem Binary32.isFinite_negate (x : Binary32) : x.negate.isFinite = x.isFinite := by
  have hmagnitude : x.negate.magnitude = x.magnitude := by
    unfold magnitude negate
    rw [UInt32.toNat_xor, show 0x80000000 = 2 ^ 31 from rfl, Nat.xor_mod_two_pow]
    exact Nat.xor_zero _
  rw [isFinite, isFinite, hmagnitude]

theorem Literal.Finite.negate {v : Literal} (h : v.Finite) : v.negate.Finite := by
  cases v with
  | int | uint => trivial
  | float x => exact (Binary32.isFinite_negate x).trans h

/-- names as they are cut off a source, and finite numbers -/
def Lexicon.source : Lexicon := ⟨IsName, Literal.Finite, fun _ h => h.negate⟩

namespace Lexer

/-- the piece, if it is a token, is of the lexicon -/
def Piece.In (lx : Lexicon) (p : Piece) : Prop := ∀ kind, p.found = .ok kind → kind.In lx

theorem Piece.in_of_error {lx : Lexicon} {text rest : List Char} {cause : LexicalCause} :
    Piece.In lx ⟨text, rest, .error cause⟩ :=
  fun _ h => nomatch h

theorem finish_in {lx : Lexicon} {value : Literal} (h : lx.literal value) (text rest : List Char) :
    (finish text rest value).In lx := by
  unfold finish
  dsimp only
  split
  · rintro _ ⟨⟩
    exact h
  · exact Piece.in_of_error

theorem finishInteger_in (text rest : List Char) (value : Nat) : (finishInteger text rest value).In .source := by
  unfold finishInteger
  dsimp only
  refine finish_in ?_ _ _
  split <;> trivial

theorem hexadecimal_in (mark cs : List Char) : (hexadecimal mark cs).In .source := by
  unfold hexadecimal
  dsimp only
  split
  · exact Piece.in_of_error
  · exact finishInteger_in _ _ _

theorem decimal_in (cs : List Char) : (decimal cs).In .source := by
  unfold decimal
  dsimp only
  split
  · split
    · exact Piece.in_of_error
    · split
      · rename_i hfinite
        exact finish_in hfinite _ _
      · exact Piece.in_of_error
  · split
    · exact Piece.in_of_error
    · exact finishInteger_in _ _ _

theorem isName_takeWhile {c : Char} (h : isNameStart c = true) (cs : List Char) :
    IsName (String.ofList ((c :: cs).takeWhile isNameChar)) := by
  have hstart : c.isAlpha = true ∨ c = '_' := by simpa [isNameStart] using h
  have hc : isNameChar c = true := by
    rcases hstart with h | rfl
    · simp [isNameChar, Char.isAlphanum, h]
    · decide
  refine ⟨c, cs.takeWhile isNameChar, ?_, hstart, fun d hd => ?_⟩
  · rw [String.toList_ofList, List.takeWhile_cons_of_pos hc]
  · simpa [isNameChar] using List.mem_takeWhile_imp hd

theorem ofWord_in {s : String} (h : IsName s) : (TokenKind.ofWord s).In .source := by
  unfold TokenKind.ofWord
  split
  · trivial
  · split
    · trivial
    · exact h

theorem piece_in (cs : List Char) : (piece cs).In .source := by
  unfold piece
  split
  · rintro _ ⟨⟩
    trivial
  · dsimp only
    split
    · exact Piece.in_of_error
    · split
      · rename_i hstart
        rintro _ ⟨⟩
        exact ofWord_in (isName_takeWhile hstart _)
      · split
        · exact hexadecimal_in _ _
        · split
          · exact decimal_in _
          · split
            · rintro _ ⟨⟩
              trivial
            · exact Piece.in_of_error

theorem next_in (c : Cursor) {t : Token} (h : (next c).1 = .ok t) : t.kind.In .source := by
  unfold next at h
  dsimp only at h
  split at h
  · rename_i kind hkind
    obtain rfl := Except.ok.inj h
    exact piece_in _ kind hkind
  · cases h

theorem steps_in (c : Cursor) {t : Token} (h : .ok t ∈ steps c) : t.kind.In .source := by
  induction c using steps_induction with
  | last c hend =>
    rw [steps_of_isEnd hend, List.mem_singleton] at h
    exact next_in c h.symm
  | step c hend ih =>
    rw [steps_of_not_isEnd hend, List.mem_cons] at h
    rcases h with h | h
    · exact next_in c h.symm
    · exact ih h

/-- a source has tokens if each step finds one -/
theorem mapM_eq_ok {steps : List (Except (Located LexicalCause) Token)} {tokens : List Token} :
    steps.mapM id = .ok tokens ↔ steps = tokens.map .ok := by
  induction steps generalizing tokens with
  | nil => rw [List.mapM_nil, pure_eq_ok, List.nil_eq, List.nil_eq, List.map_eq_nil_iff]
  | cons step rest ih =>
    rw [List.mapM_cons]
    simp only [bind_eq_ok, pure_eq_ok, ih, id]
    constructor
    · rintro ⟨first, rfl, more, rfl, rfl⟩
      rfl
    · intro h
      cases tokens with
      | nil => cases h
      | cons first more =>
        obtain ⟨hfirst, hmore⟩ := List.cons.inj h
        exact ⟨first, hfirst, more, hmore, rfl⟩

/-- **Tokens of a source** are spelled as names are and hold finite numbers. -/
theorem tokenize_in {source : String} {tokens : List Token} (h : tokenize source = .ok tokens) :
    ∀ t ∈ tokens, t.kind.In .source :=
  fun _ ht => steps_in _ (mapM_eq_ok.1 h ▸ List.mem_map_of_mem ht)

end Lexer

/-- a program read from a source is spelled by it -/
theorem wellFormed_of_source {source : String} {tokens : List Token} {p : Program}
    (htokens : Lexer.tokenize source = .ok tokens) (hparse : Program.parse tokens = .ok p) : p.WellFormed .source :=
  wellFormed_of_parse (Lexer.tokenize_in htokens) hparse

theorem mapError_eq_ok {α ε ε' : Type} {f : ε → ε'} {x : Except ε α} {a : α} : x.mapError f = .ok a ↔ x = .ok a := by
  cases x <;> simp [Except.mapError]

/-- the stages of a compilation that went well -/
theorem compile_eq_ok {source : String} {g : Generated} (h : compile source = .ok g) :
    ∃ tokens p info, Lexer.tokenize source = .ok tokens ∧ Program.parse tokens = .ok p ∧ p.check = .ok info ∧
      p.generate info = .ok g := by
  simp only [compile, Compile.tokens, Compile.parse, Compile.check, Compile.generate, bind_eq_ok, mapError_eq_ok] at h
  obtain ⟨tokens, htokens, p, hparse, info, hcheck, hgen⟩ := h
  exact ⟨tokens, p, info, htokens, hparse, hcheck, hgen⟩

end C15

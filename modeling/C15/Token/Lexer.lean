/-
Cutting a source into tokens.

A step passes white space and comments, then takes one piece: the text of a token, or text that is no token. Either way
the piece is at least one character long until the source ends, so a source is cut completely even where it has errors,
and the tokens of a source are all its steps, or the first error among them.
-/
import C15.Binary32.Read
import C15.Text.Digits
import C15.Text.Lines
import C15.Token

namespace C15

open C15.Text

/-- why a piece of a source is no token -/
inductive LexicalCause where
  | unterminatedComment
  | hexLiteral
  | floatLiteral (text : String)
  | floatRange
  | integerRange
  | numericLiteral (text : String)
  | unexpected (c : Char)
deriving DecidableEq, Repr

def LexicalCause.message : LexicalCause → String
  | .unterminatedComment => "Unterminated block comment"
  | .hexLiteral => "Invalid hexadecimal literal (limited to 32 bits)"
  | .floatLiteral text => "Invalid float literal: " ++ text
  | .floatRange => "Float literal out of range"
  | .integerRange => "Integer literal out of range (limited to 32 bits)"
  | .numericLiteral text => "Invalid numeric literal: " ++ text
  | .unexpected c => "Unexpected character '" ++ c.toString ++ "'"

namespace Lexer

/-! ## Gaps: white space and comments -/

/-- a block comment after its opening, up to and with its closing, and the rest; none if it is not closed -/
def blockComment : List Char → Option (List Char × List Char)
  | [] => none
  | '*' :: '/' :: cs => some (['*', '/'], cs)
  | c :: cs => (blockComment cs).map fun (body, rest) => (c :: body, rest)

theorem blockComment_append {cs body rest : List Char} (h : blockComment cs = some (body, rest)) :
    body ++ rest = cs := by
  fun_induction blockComment cs generalizing body rest with
  | case1 => simp at h
  | case2 cs =>
    simp only [Option.some.injEq, Prod.mk.injEq] at h
    obtain ⟨rfl, rfl⟩ := h
    rfl
  | case3 c cs _ ih =>
    simp only [Option.map_eq_some_iff, Prod.exists, Prod.mk.injEq] at h
    obtain ⟨b, r, hb, rfl, rfl⟩ := h
    simp [ih hb]

theorem length_dropWhile_le {α : Type} (p : α → Bool) (l : List α) : (l.dropWhile p).length ≤ l.length :=
  (List.dropWhile_sublist p).length_le

/-- the gap a text starts with, and the rest, which starts with no white space and no closed comment -/
def gap (cs : List Char) : List Char × List Char :=
  let blanks := cs.takeWhile isBlank
  match _h : cs.dropWhile isBlank with
  | '/' :: '/' :: r =>
    let (g, rest) := gap (r.dropWhile (· != '\n'))
    (blanks ++ '/' :: '/' :: (r.takeWhile (· != '\n') ++ g), rest)
  | '/' :: '*' :: r =>
    match _hb : blockComment r with
    | some (body, r') =>
      let (g, rest) := gap r'
      (blanks ++ '/' :: '*' :: (body ++ g), rest)
    -- a comment that is not closed is no gap: `piece` finds it at the front and refuses it
    | none => (blanks, '/' :: '*' :: r)
  | r => (blanks, r)
termination_by cs.length
decreasing_by
  · have h1 := length_dropWhile_le isBlank cs
    have h2 := length_dropWhile_le (· != '\n') r
    simp only [_h, List.length_cons] at h1
    omega
  · have h1 := length_dropWhile_le isBlank cs
    have h2 := congrArg List.length (blockComment_append _hb)
    simp only [_h, List.length_cons] at h1
    simp only [List.length_append] at h2
    omega

theorem gap_append (cs : List Char) : (gap cs).1 ++ (gap cs).2 = cs := by
  fun_induction gap cs with
  | case1 cs blanks r h g rest hg ih =>
    have ih' : g ++ rest = r.dropWhile (· != '\n') := by simpa [hg] using ih
    have hr : r.takeWhile (· != '\n') ++ (g ++ rest) = r := by rw [ih', List.takeWhile_append_dropWhile]
    simp only [List.append_assoc, List.cons_append, hr, ← h]
    exact List.takeWhile_append_dropWhile
  | case2 cs blanks r h body r' hb g rest hg ih =>
    have ih' : g ++ rest = r' := by simpa [hg] using ih
    have hr : body ++ (g ++ rest) = r := by rw [ih', blockComment_append hb]
    simp only [List.append_assoc, List.cons_append, hr, ← h]
    exact List.takeWhile_append_dropWhile
  | case3 cs blanks r h hb =>
    simp only [← h]
    exact List.takeWhile_append_dropWhile
  | case4 cs blanks r h =>
    exact List.takeWhile_append_dropWhile

/-! ## Pieces -/

/-- the next piece of a source: its text, the rest, and what the text is -/
structure Piece where
  text : List Char
  rest : List Char
  found : Except LexicalCause TokenKind
deriving Repr

/-- characters a name consists of -/
def isNameChar (c : Char) : Bool := c.isAlphanum || c == '_'

/-- characters a name starts with -/
def isNameStart (c : Char) : Bool := c.isAlpha || c == '_'

/-- one character off the front if it is one of `marks` -/
def splitMark (marks : List Char) : List Char → List Char × List Char
  | c :: cs => if marks.contains c then ([c], cs) else ([], c :: cs)
  | [] => ([], [])

theorem splitMark_append (marks cs : List Char) : (splitMark marks cs).1 ++ (splitMark marks cs).2 = cs := by
  cases cs with
  | nil => rfl
  | cons c cs => simp only [splitMark]; split <;> rfl

/-- end a literal: it must not run into a name character -/
def finish (text rest : List Char) (value : Literal) : Piece :=
  let run := rest.takeWhile isNameChar
  if run.isEmpty then ⟨text, rest, .ok (.literal value)⟩
  else ⟨text ++ run, rest.dropWhile isNameChar, .error (.numericLiteral (String.ofList (text ++ run)))⟩

/-- end an integer literal: a `u` marks it unsigned -/
def finishInteger (text rest : List Char) (value : Nat) : Piece :=
  let (mark, rest) := splitMark ['u', 'U'] rest
  let word := UInt32.ofNat value
  finish (text ++ mark) rest (if mark.isEmpty then .int word else .uint word)

/-- a hexadecimal literal after its two-character mark -/
def hexadecimal (mark : List Char) (cs : List Char) : Piece :=
  let digits := cs.takeWhile isHexDigit
  let rest := cs.dropWhile isHexDigit
  let value := ofHexDigits digits
  if digits.isEmpty ∨ 0x100000000 ≤ value then ⟨mark ++ digits, rest, .error .hexLiteral⟩
  else finishInteger (mark ++ digits) rest value

/-- the fraction of a decimal literal, with its point -/
def splitFraction : List Char → List Char × List Char
  | '.' :: cs => ('.' :: cs.takeWhile Char.isDigit, cs.dropWhile Char.isDigit)
  | cs => ([], cs)

theorem splitFraction_append (cs : List Char) : (splitFraction cs).1 ++ (splitFraction cs).2 = cs := by
  unfold splitFraction
  split
  · simp [List.takeWhile_append_dropWhile]
  · rfl

/-- the exponent of a decimal literal, with its mark; the mark counts only before a digit or a sign -/
def splitExponent : List Char → List Char × List Char
  | m :: s :: cs =>
    if (m == 'e' || m == 'E') && (s.isDigit || s == '+' || s == '-') then
      let (sign, r) := splitMark ['+', '-'] (s :: cs)
      (m :: (sign ++ r.takeWhile Char.isDigit), r.dropWhile Char.isDigit)
    else ([], m :: s :: cs)
  | cs => ([], cs)

theorem splitExponent_append (cs : List Char) : (splitExponent cs).1 ++ (splitExponent cs).2 = cs := by
  unfold splitExponent
  split
  · rename_i m s r
    split
    · have := splitMark_append ['+', '-'] (s :: r)
      simp [List.append_assoc, List.takeWhile_append_dropWhile, this]
    · rfl
  · rfl

/-- a decimal literal: a number if it has a point, an exponent or an `f`, an integer otherwise -/
def decimal (cs : List Char) : Piece :=
  let whole := cs.takeWhile Char.isDigit
  let (fraction, r) := splitFraction (cs.dropWhile Char.isDigit)
  let (exponent, rest) := splitExponent r
  let text := whole ++ fraction ++ exponent
  let (mark, afterMark) := splitMark ['f', 'F'] rest
  if !fraction.isEmpty || !exponent.isEmpty || !mark.isEmpty then
    -- the `f` is no part of the numeral, and is left over when the numeral is refused
    match Binary32.ofText? text with
    | none => ⟨text, rest, .error (.floatLiteral (String.ofList text))⟩
    | some x =>
      if x.isFinite then finish (text ++ mark) afterMark (.float x)
      else ⟨text, rest, .error .floatRange⟩
  else
    let value := ofDigits whole
    if 0x100000000 ≤ value then ⟨text, rest, .error .integerRange⟩
    else finishInteger text rest value

/-- the piece a text without a leading gap starts with; an open comment here is one that is never closed -/
def piece : List Char → Piece
  | [] => ⟨[], [], .ok .eof⟩
  | c :: cs =>
    let all := c :: cs
    if ['/', '*'].isPrefixOf all then ⟨all, [], .error .unterminatedComment⟩
    else if isNameStart c then
      let text := all.takeWhile isNameChar
      ⟨text, all.dropWhile isNameChar, .ok (.ofWord (String.ofList text))⟩
    else if c == '0' && (cs.head?.any fun x => x == 'x' || x == 'X') then hexadecimal (all.take 2) (all.drop 2)
    else if c.isDigit || (c == '.' && cs.head?.any Char.isDigit) then decimal all
    else
      match Punct.leading? all with
      | some p => ⟨p.spelling, all.drop p.spelling.length, .ok (.punct p)⟩
      | none => ⟨[c], cs, .error (.unexpected c)⟩

theorem finish_append (text rest : List Char) (v : Literal) :
    (finish text rest v).text ++ (finish text rest v).rest = text ++ rest := by
  simp only [finish]
  split
  · rfl
  · simp [List.append_assoc, List.takeWhile_append_dropWhile]

theorem finishInteger_append (text rest : List Char) (n : Nat) :
    (finishInteger text rest n).text ++ (finishInteger text rest n).rest = text ++ rest := by
  simp only [finishInteger, finish_append, List.append_assoc, splitMark_append]

theorem hexadecimal_append (mark cs : List Char) :
    (hexadecimal mark cs).text ++ (hexadecimal mark cs).rest = mark ++ cs := by
  simp only [hexadecimal]
  split
  · simp [List.append_assoc, List.takeWhile_append_dropWhile]
  · simp [finishInteger_append, List.append_assoc, List.takeWhile_append_dropWhile]

theorem decimal_append (cs : List Char) : (decimal cs).text ++ (decimal cs).rest = cs := by
  have h1 := splitFraction_append (cs.dropWhile Char.isDigit)
  have h2 := splitExponent_append (splitFraction (cs.dropWhile Char.isDigit)).2
  have h3 := splitMark_append ['f', 'F'] (splitExponent (splitFraction (cs.dropWhile Char.isDigit)).2).2
  have h0 := List.takeWhile_append_dropWhile (p := Char.isDigit) (l := cs)
  unfold decimal
  simp only
  split
  · split
    · simp only [List.append_assoc, h2, h1, h0]
    · split
      · simp only [finish_append, List.append_assoc, h3, h2, h1, h0]
      · simp only [List.append_assoc, h2, h1, h0]
  · split
    · simp only [List.append_assoc, h2, h1, h0]
    · simp only [finishInteger_append, List.append_assoc, h2, h1, h0]

/-- a piece and the rest make up the text -/
theorem piece_append (cs : List Char) : (piece cs).text ++ (piece cs).rest = cs := by
  unfold piece
  split
  · rfl
  · rename_i c cs
    simp only
    split
    · simp
    · split
      · simp [List.takeWhile_append_dropWhile]
      · split
        · rw [hexadecimal_append, List.take_append_drop]
        · split
          · exact decimal_append _
          · split
            · rename_i p hp
              have := List.find?_some hp
              obtain ⟨r, hr⟩ := List.isPrefixOf_iff_prefix.1 this
              simp [← hr]
            · rfl

theorem finish_text_ne_nil {text : List Char} (h : text ≠ []) (rest : List Char) (v : Literal) :
    (finish text rest v).text ≠ [] := by
  simp only [finish]
  split <;> simp [h]

theorem finishInteger_text_ne_nil {text : List Char} (h : text ≠ []) (rest : List Char) (n : Nat) :
    (finishInteger text rest n).text ≠ [] := by
  simp only [finishInteger]
  exact finish_text_ne_nil (by simp [h]) _ _

theorem decimal_text_ne_nil {c : Char} {cs : List Char}
    (h : (c.isDigit || (c == '.' && cs.head?.any Char.isDigit)) = true) : (decimal (c :: cs)).text ≠ [] := by
  have hne : (c :: cs).takeWhile Char.isDigit ++ (splitFraction ((c :: cs).dropWhile Char.isDigit)).1 ≠ [] := by
    by_cases hd : c.isDigit = true
    · simp [hd]
    · simp only [hd, Bool.false_or, Bool.and_eq_true, beq_iff_eq] at h
      obtain ⟨rfl, -⟩ := h
      simp [hd, splitFraction]
  have hne' : (c :: cs).takeWhile Char.isDigit ++ (splitFraction ((c :: cs).dropWhile Char.isDigit)).1 ++
      (splitExponent (splitFraction ((c :: cs).dropWhile Char.isDigit)).2).1 ≠ [] := by
    simp only [ne_eq, List.append_eq_nil_iff] at hne ⊢
    exact fun h => hne h.1
  unfold decimal
  simp only
  split
  · split
    · exact hne'
    · split
      · exact finish_text_ne_nil (by simp only [ne_eq, List.append_eq_nil_iff] at hne' ⊢; exact fun h => hne' h.1) _ _
      · exact hne'
  · split
    · exact hne'
    · exact finishInteger_text_ne_nil hne' _ _

theorem spelling_ne_nil (p : Punct) : p.spelling ≠ [] := by cases p <;> simp [Punct.spelling]

/-- a piece is never empty before the end of the source -/
theorem piece_text_ne_nil (c : Char) (cs : List Char) : (piece (c :: cs)).text ≠ [] := by
  simp only [piece]
  split
  · simp
  · split
    · rename_i h
      have : isNameChar c = true := by
        simp only [isNameStart, isNameChar, Char.isAlphanum, Bool.or_eq_true] at h ⊢
        rcases h with h | h
        · exact Or.inl (Or.inl h)
        · exact Or.inr h
      simp [this]
    · split
      · simp only [hexadecimal]
        split
        · simp
        · exact finishInteger_text_ne_nil (by simp) _ _
      · split
        · rename_i h
          exact decimal_text_ne_nil h
        · split
          · exact spelling_ne_nil _
          · simp

/-! ## Steps -/

/-- what is left of a source, and the offset where it starts, a natural number as in a `Span` -/
structure Cursor where
  rest : List Char
  offset : Nat
deriving Repr

/-- take one piece: the token or error with its span, and the cursor after it -/
def next (c : Cursor) : Except (Located LexicalCause) Token × Cursor :=
  let (g, r) := gap c.rest
  let p := piece r
  let start := c.offset + width g
  let span : Span := ⟨start, start + width p.text⟩
  let found :=
    match p.found with
    | .ok kind => .ok ⟨kind, String.ofList p.text, span⟩
    | .error cause => .error ⟨cause, span⟩
  (found, ⟨p.rest, span.stop⟩)

/-- whether a step reached the end of the source -/
def isEnd : Except (Located LexicalCause) Token → Bool
  | .ok t => t.kind == .eof
  | .error _ => false

theorem next_rest_lt {c : Cursor} (h : isEnd (next c).1 = false) : (next c).2.rest.length < c.rest.length := by
  have hg := congrArg List.length (gap_append c.rest)
  have hp := congrArg List.length (piece_append (gap c.rest).2)
  simp only [List.length_append] at hg hp
  have hlen : 0 < (piece (gap c.rest).2).text.length := by
    match hr : (gap c.rest).2 with
    | [] => simp [next, hr, piece, isEnd] at h
    | a :: as => exact List.length_pos_iff.2 (piece_text_ne_nil a as)
  simp only [next]
  omega

/-- every step of a source, errors included; the last is the end of the source -/
def steps (c : Cursor) : List (Except (Located LexicalCause) Token) :=
  match _h : next c with
  | (found, after) => if _hEnd : isEnd found = true then [found] else found :: steps after
termination_by c.rest.length
decreasing_by
  have hlt := next_rest_lt (c := c) (by rw [_h]; exact Bool.eq_false_iff.2 _hEnd)
  rwa [_h] at hlt

/-- the steps of a whole source -/
def scan (source : String) : List (Except (Located LexicalCause) Token) := steps ⟨source.toList, 0⟩

/-- the tokens of a source, or its first error -/
def tokenize (source : String) : Except (Located LexicalCause) (List Token) := (scan source).mapM id

end Lexer

end C15

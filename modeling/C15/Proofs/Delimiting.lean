/-
Tokens are self-delimiting.

Where a token ends was decided with the characters behind it in view. Once it is accepted they no longer matter:
whatever starts with a blank may follow in their place, or nothing. Every part of a token that is split off a text is
split off again in front of a text with another start (`splitFraction_again` and the like), and a token put together
from such parts is read again (`decimal_again`, `piece_again`). So the lexemes of a source, with blanks between them,
are the same tokens:
- `gap_again`, `piece_again`: no comment starts at a token, and the token is taken again;
- `Lexes`: what a text is cut into, offsets apart; `Lexes.spaced`: it is what its texts are cut into with blanks between
  them;
- `tokenize_spaced`: the same for whole sources.
-/
import Mathlib.Data.Bool.AllAny
import C15.Proofs.Spelling

namespace C15

namespace Lexer

open Text

/-! ## What may follow -/

/-- the first character, if there is one -/
def Heads (p : Char → Prop) (cs : List Char) : Prop := ∀ c ∈ cs.head?, p c

theorem Heads.cons {p : Char → Prop} {c : Char} (h : p c) (cs : List Char) : Heads p (c :: cs) := by
  rintro _ ⟨⟩
  exact h

theorem Heads.append {p : Char → Prop} {xs ys : List Char} (hx : Heads p xs) (hy : Heads p ys) :
    Heads p (xs ++ ys) := by
  cases xs with
  | nil => exact hy
  | cons x xs => exact .cons (hx x rfl) _

theorem Heads.mono {p q : Char → Prop} {cs : List Char} (h : Heads p cs) (hpq : ∀ c, p c → q c) : Heads q cs :=
  fun c hc => hpq c (h c hc)

theorem Heads.nil (p : Char → Prop) : Heads p [] := fun _ hc => nomatch hc

/-- nothing follows, or a blank -/
abbrev Blanked (cs : List Char) : Prop := Heads (isBlank · = true) cs

theorem not_isNameChar_of_isBlank {c : Char} (h : isBlank c = true) : isNameChar c = false := by
  cases hname : isNameChar c with
  | false => rfl
  | true =>
    have hplain := plain_nameChar (c := c) (by simpa [isNameChar] using hname)
    rw [hplain.1] at h
    cases h

theorem isNameChar_of_isDigit {c : Char} (h : c.isDigit = true) : isNameChar c = true := by
  simp [isNameChar, Char.isAlphanum, h]

theorem not_isDigit_of_isBlank {c : Char} (h : isBlank c = true) : c.isDigit = false := by
  cases hdigit : c.isDigit with
  | false => rfl
  | true => rw [isNameChar_of_isDigit hdigit |>.symm.trans (not_isNameChar_of_isBlank h)]

theorem not_isHexDigit_of_isBlank {c : Char} (h : isBlank c = true) : isHexDigit c = false := by
  cases hdigit : isHexDigit c with
  | false => rfl
  | true =>
    rw [(plain_hexDigit hdigit).1] at h
    cases h

theorem ne_of_isBlank {c d : Char} (h : isBlank c = true) (hd : isBlank d = false) : c ≠ d := by
  rintro rfl
  rw [hd] at h
  cases h

/-! ## Parts that are split off again -/

/-- a run of characters of a class ends where another character follows -/
theorem run_again {p : Char → Bool} {xs rest : List Char} (hxs : ∀ c ∈ xs, p c = true) (h : Heads (p · = false) rest) :
    (xs ++ rest).takeWhile p = xs ∧ (xs ++ rest).dropWhile p = rest := by
  rw [List.takeWhile_append_of_pos hxs, List.dropWhile_append_of_pos hxs]
  cases rest with
  | nil => simp
  | cons r rest =>
    have hr := h r rfl
    simp [hr]

theorem forall_takeWhile (p : Char → Bool) (cs : List Char) : ∀ c ∈ cs.takeWhile p, p c = true :=
  fun _ hc => List.mem_takeWhile_imp hc

/-- a mark is one character or none -/
theorem splitMark_shape (marks cs : List Char) :
    (splitMark marks cs).1 = [] ∨ ∃ m ∈ marks, (splitMark marks cs).1 = [m] := by
  cases cs with
  | nil => exact .inl rfl
  | cons c cs =>
    simp only [splitMark]
    split
    · rename_i hc
      exact .inr ⟨c, by simpa using hc, rfl⟩
    · exact .inl rfl

theorem splitMark_eq_nil {marks rest : List Char} (h : Heads (· ∉ marks) rest) : splitMark marks rest = ([], rest) := by
  cases rest with
  | nil => rfl
  | cons r rest =>
    have hr := h r rfl
    simp [splitMark, hr]

theorem splitMark_again {marks : List Char} (cs : List Char) {rest : List Char} (h : Heads (· ∉ marks) rest) :
    splitMark marks ((splitMark marks cs).1 ++ rest) = ((splitMark marks cs).1, rest) := by
  rcases splitMark_shape marks cs with hnone | ⟨m, hm, hone⟩
  · rw [hnone, List.nil_append, splitMark_eq_nil h]
  · rw [hone]
    simp [splitMark, hm]

/-- a fraction is a point with digits behind it, or nothing -/
theorem splitFraction_shape (cs : List Char) :
    (splitFraction cs).1 = [] ∨ ∃ ds, (∀ c ∈ ds, c.isDigit = true) ∧ (splitFraction cs).1 = '.' :: ds := by
  unfold splitFraction
  split
  · exact .inr ⟨_, forall_takeWhile _ _, rfl⟩
  · exact .inl rfl

theorem splitFraction_again (cs : List Char) {rest : List Char}
    (h : Heads (fun c => c.isDigit = false ∧ c ≠ '.') rest) :
    splitFraction ((splitFraction cs).1 ++ rest) = ((splitFraction cs).1, rest) := by
  rcases splitFraction_shape cs with hnone | ⟨ds, hds, hpoint⟩
  · rw [hnone, List.nil_append]
    unfold splitFraction
    split
    · exact absurd rfl (h '.' rfl).2
    · rfl
  · obtain ⟨htake, hdrop⟩ := run_again hds (h.mono fun _ hc => hc.1)
    rw [hpoint]
    simp [splitFraction, htake, hdrop]

/-- an exponent is its mark, then a sign or a digit, then digits, or nothing -/
theorem splitExponent_shape (cs : List Char) :
    (splitExponent cs).1 = [] ∨ ∃ m s ds, m ∈ ['e', 'E'] ∧ (s.isDigit = true ∨ s ∈ ['+', '-']) ∧
      (∀ c ∈ ds, c.isDigit = true) ∧ (splitExponent cs).1 = m :: s :: ds := by
  unfold splitExponent
  split
  · rename_i m s cs
    split
    · rename_i hmark
      simp only [Bool.and_eq_true, Bool.or_eq_true, beq_iff_eq] at hmark
      obtain ⟨hm, hs⟩ := hmark
      have hdigits := forall_takeWhile Char.isDigit cs
      by_cases hsign : s ∈ ['+', '-']
      · exact .inr ⟨m, s, _, by simpa using hm, .inr hsign, hdigits, by simp [splitMark, hsign]⟩
      · have hdigit : s.isDigit = true := by
          rcases hs with (hs | rfl) | rfl
          · exact hs
          · exact absurd (by simp) hsign
          · exact absurd (by simp) hsign
        exact .inr ⟨m, s, _, by simpa using hm, .inl hdigit, hdigits, by simp [splitMark, hsign, hdigit]⟩
    · exact .inl rfl
  · exact .inl rfl

theorem splitExponent_again (cs : List Char) {rest : List Char}
    (h : Heads (fun c => c.isDigit = false ∧ c ∉ ['e', 'E']) rest) :
    splitExponent ((splitExponent cs).1 ++ rest) = ((splitExponent cs).1, rest) := by
  rcases splitExponent_shape cs with hnone | ⟨m, s, ds, hm, hs, hds, hmark⟩
  · rw [hnone, List.nil_append]
    unfold splitExponent
    split
    · rename_i m s cs
      have hm := (h m rfl).2
      simp only [List.mem_cons, List.not_mem_nil, or_false, not_or] at hm
      simp [hm]
    · rfl
  · obtain ⟨htake, hdrop⟩ := run_again hds (h.mono fun _ hc => hc.1)
    have hmark' : ((m == 'e' || m == 'E') && (s.isDigit || s == '+' || s == '-')) = true := by
      simp only [List.mem_cons, List.not_mem_nil, or_false] at hm hs
      simp only [Bool.and_eq_true, Bool.or_eq_true, beq_iff_eq]
      exact ⟨hm, or_assoc.2 hs⟩
    rw [hmark]
    simp only [List.cons_append, splitExponent, hmark', if_true]
    by_cases hsign : s ∈ ['+', '-']
    · simp [splitMark, hsign, htake, hdrop]
    · have hdigit : s.isDigit = true := hs.resolve_right hsign
      simp [splitMark, hsign, hdigit, htake, hdrop]

/-! ## Pieces that are taken again -/

/-- a literal that was ended by no name character is ended by a blank -/
theorem finish_again {text rest : List Char} {value : Literal} {kind : TokenKind}
    (h : (finish text rest value).found = .ok kind) :
    (finish text rest value).text = text ∧ ∀ rest', Blanked rest' →
      finish text rest' value = ⟨text, rest', .ok kind⟩ := by
  simp only [finish] at h ⊢
  split at h
  · rename_i hrun
    obtain rfl := Except.ok.inj h
    refine ⟨by rw [if_pos hrun], fun rest' hrest => ?_⟩
    have hempty : rest'.takeWhile isNameChar = [] :=
      (run_again (List.forall_mem_nil _) (hrest.mono fun _ hc => not_isNameChar_of_isBlank hc)).1
    simp [hempty]
  · cases h

theorem finishInteger_again {text rest : List Char} {value : Nat} {kind : TokenKind}
    (h : (finishInteger text rest value).found = .ok kind) :
    (finishInteger text rest value).text = text ++ (splitMark ['u', 'U'] rest).1 ∧
      ∀ rest', Blanked rest' →
        finishInteger text ((splitMark ['u', 'U'] rest).1 ++ rest') value =
          ⟨text ++ (splitMark ['u', 'U'] rest).1, rest', .ok kind⟩ := by
  simp only [finishInteger] at h ⊢
  obtain ⟨htext, hagain⟩ := finish_again h
  refine ⟨htext, fun rest' hrest => ?_⟩
  have hmark : Heads (· ∉ ['u', 'U']) rest' := hrest.mono fun c hc => by
    simp [ne_of_isBlank hc (show isBlank 'u' = false by decide), ne_of_isBlank hc (show isBlank 'U' = false by decide)]
  rw [splitMark_again rest hmark]
  exact hagain rest' hrest

/-- a mark in front of a blank starts with no character of a class that has neither -/
theorem heads_mark {p : Char → Prop} {marks cs rest : List Char} (hmarks : ∀ m ∈ marks, p m) (hrest : Blanked rest)
    (hblank : ∀ c, isBlank c = true → p c) : Heads p ((splitMark marks cs).1 ++ rest) := by
  refine Heads.append ?_ (hrest.mono hblank)
  rcases splitMark_shape marks cs with hnone | ⟨m, hm, hone⟩
  · rw [hnone]
    exact .nil _
  · rw [hone]
    exact .cons (hmarks m hm) _

theorem hexadecimal_again {mark cs : List Char} {kind : TokenKind} (h : (hexadecimal mark cs).found = .ok kind) :
    ∃ t, (hexadecimal mark cs).text = mark ++ t ∧ ∀ rest, Blanked rest →
      hexadecimal mark (t ++ rest) = ⟨mark ++ t, rest, .ok kind⟩ := by
  simp only [hexadecimal] at h ⊢
  split at h
  · cases h
  · rename_i hvalue
    obtain ⟨htext, hagain⟩ := finishInteger_again h
    refine ⟨cs.takeWhile isHexDigit ++ (splitMark ['u', 'U'] (cs.dropWhile isHexDigit)).1, ?_, fun rest hrest => ?_⟩
    · rw [if_neg hvalue, htext, List.append_assoc]
    · have hhead : Heads (isHexDigit · = false) ((splitMark ['u', 'U'] (cs.dropWhile isHexDigit)).1 ++ rest) :=
        heads_mark (List.all_iff_forall_prop.1 (by decide)) hrest fun _ => not_isHexDigit_of_isBlank
      obtain ⟨htake, hdrop⟩ := run_again (forall_takeWhile isHexDigit cs) hhead
      rw [List.append_assoc, htake, hdrop, if_neg hvalue, hagain rest hrest, List.append_assoc]

/-- a decimal literal by its parts -/
def ofParts (whole fraction exponent rest : List Char) : Piece :=
  let text := whole ++ fraction ++ exponent
  let (mark, afterMark) := splitMark ['f', 'F'] rest
  if !fraction.isEmpty || !exponent.isEmpty || !mark.isEmpty then
    match Binary32.ofText? text with
    | none => ⟨text, rest, .error (.floatLiteral (String.ofList text))⟩
    | some x =>
      if x.isFinite then finish (text ++ mark) afterMark (.float x)
      else ⟨text, rest, .error .floatRange⟩
  else
    let value := ofDigits whole
    if 0x100000000 ≤ value then ⟨text, rest, .error .integerRange⟩
    else finishInteger text rest value

theorem decimal_eq_ofParts (cs : List Char) :
    decimal cs = ofParts (cs.takeWhile Char.isDigit) (splitFraction (cs.dropWhile Char.isDigit)).1
      (splitExponent (splitFraction (cs.dropWhile Char.isDigit)).2).1
      (splitExponent (splitFraction (cs.dropWhile Char.isDigit)).2).2 := rfl

/-- a literal is ended by one of four marks, or by none -/
theorem ofParts_again {whole fraction exponent rest : List Char} {kind : TokenKind}
    (h : (ofParts whole fraction exponent rest).found = .ok kind) :
    ∃ mark, (∀ m ∈ mark, m ∈ ['f', 'F', 'u', 'U']) ∧
      (ofParts whole fraction exponent rest).text = whole ++ fraction ++ exponent ++ mark ∧ ∀ rest', Blanked rest' →
        ofParts whole fraction exponent (mark ++ rest') = ⟨whole ++ fraction ++ exponent ++ mark, rest', .ok kind⟩ := by
  simp only [ofParts] at h ⊢
  split at h
  · rename_i hfloat
    rw [if_pos hfloat]
    split at h
    · cases h
    · rename_i x hx
      split at h
      · rename_i hfinite
        obtain ⟨htext, hagain⟩ := finish_again h
        refine ⟨(splitMark ['f', 'F'] rest).1, ?_, ?_, fun rest' hrest => ?_⟩
        · rcases splitMark_shape ['f', 'F'] rest with hnone | ⟨m, hm, hone⟩
          · simp [hnone]
          · rw [hone, List.forall_mem_singleton]
            exact List.mem_append_left ['u', 'U'] hm
        · simp only [if_pos hfinite, htext]
        · have hmark : Heads (· ∉ ['f', 'F']) rest' := hrest.mono fun c hc => by
            simp [ne_of_isBlank hc (show isBlank 'f' = false by decide),
              ne_of_isBlank hc (show isBlank 'F' = false by decide)]
          rw [splitMark_again rest hmark, if_pos hfloat]
          simp only [if_pos hfinite, hagain rest' hrest]
      · cases h
  · rename_i hinteger
    rw [if_neg hinteger]
    split at h
    · cases h
    · rename_i hvalue
      obtain ⟨htext, hagain⟩ := finishInteger_again h
      refine ⟨(splitMark ['u', 'U'] rest).1, ?_, ?_, fun rest' hrest => ?_⟩
      · rcases splitMark_shape ['u', 'U'] rest with hnone | ⟨m, hm, hone⟩
        · simp [hnone]
        · rw [hone, List.forall_mem_singleton]
          exact List.mem_append_right ['f', 'F'] hm
      · rw [if_neg hvalue, htext]
      · -- the mark of an unsigned number is no mark of a float
        have hmark : Heads (· ∉ ['f', 'F']) ((splitMark ['u', 'U'] rest).1 ++ rest') := by
          refine heads_mark (List.all_iff_forall_prop.1 (by decide)) hrest fun c hc => ?_
          simp [ne_of_isBlank hc (show isBlank 'f' = false by decide),
            ne_of_isBlank hc (show isBlank 'F' = false by decide)]
        simp only [Bool.or_eq_true, Bool.not_eq_true', not_or, Bool.not_eq_false] at hinteger
        simp only [splitMark_eq_nil hmark, hinteger.1.1, hinteger.1.2, List.isEmpty_nil, Bool.not_true, Bool.or_self,
          Bool.false_eq_true, if_false, if_neg hvalue, hagain rest' hrest]

/-- the parts of a literal in front of what is no part of it -/
theorem decimal_of_parts (cs : List Char) {rest : List Char}
    (h : Heads (fun c => c.isDigit = false ∧ c ≠ '.' ∧ c ∉ ['e', 'E']) rest) :
    let whole := cs.takeWhile Char.isDigit
    let fraction := splitFraction (cs.dropWhile Char.isDigit)
    let exponent := splitExponent fraction.2
    decimal (whole ++ fraction.1 ++ exponent.1 ++ rest) = ofParts whole fraction.1 exponent.1 rest := by
  intro whole fraction exponent
  have hexponent : Heads (fun c => c.isDigit = false ∧ c ≠ '.') (exponent.1 ++ rest) := by
    refine Heads.append ?_ (h.mono fun _ hc => ⟨hc.1, hc.2.1⟩)
    rcases splitExponent_shape fraction.2 with hnone | ⟨m, s, ds, hm, -, -, hmark⟩
    · rw [hnone]
      exact .nil _
    · rw [hmark]
      refine .cons ?_ _
      rcases List.mem_pair.1 hm with rfl | rfl <;> decide
  have hfraction : Heads (·.isDigit = false) (fraction.1 ++ (exponent.1 ++ rest)) := by
    refine Heads.append ?_ (hexponent.mono fun _ hc => hc.1)
    rcases splitFraction_shape (cs.dropWhile Char.isDigit) with hnone | ⟨ds, -, hpoint⟩
    · rw [hnone]
      exact .nil _
    · rw [hpoint]
      exact .cons (by decide) _
  obtain ⟨htake, hdrop⟩ := run_again (forall_takeWhile Char.isDigit cs) hfraction
  rw [decimal_eq_ofParts, List.append_assoc, List.append_assoc, htake, hdrop, splitFraction_again _ hexponent,
    splitExponent_again _ (h.mono fun _ hc => ⟨hc.1, hc.2.2⟩)]

theorem decimal_again {cs : List Char} {kind : TokenKind} (h : (decimal cs).found = .ok kind) {rest : List Char}
    (hrest : Blanked rest) : decimal ((decimal cs).text ++ rest) = ⟨(decimal cs).text, rest, .ok kind⟩ := by
  rw [decimal_eq_ofParts cs] at h ⊢
  obtain ⟨mark, hmarks, htext, hagain⟩ := ofParts_again h
  have hhead : Heads (fun c => c.isDigit = false ∧ c ≠ '.' ∧ c ∉ ['e', 'E']) (mark ++ rest) := by
    refine Heads.append (fun m hm => ?_) (hrest.mono fun c hc => ⟨not_isDigit_of_isBlank hc, ?_, ?_⟩)
    · have hall : ∀ m ∈ ['f', 'F', 'u', 'U'], m.isDigit = false ∧ m ≠ '.' ∧ m ∉ ['e', 'E'] :=
        List.all_iff_forall_prop.1 (by decide)
      exact hall m (hmarks m (List.mem_of_mem_head? hm))
    · exact ne_of_isBlank hc (by decide)
    · simp [ne_of_isBlank hc (show isBlank 'e' = false by decide),
        ne_of_isBlank hc (show isBlank 'E' = false by decide)]
  rw [htext, List.append_assoc, decimal_of_parts cs hhead, hagain rest hrest]

/-! ## Looking ahead -/

/-- what is seen behind a part of a text is seen in the text, if it is no blank -/
theorem Heads.of_part {p : Char → Prop} {t rest rest' : List Char} (h : Heads p (t ++ rest)) (hrest : Blanked rest')
    (hp : ∀ c, isBlank c = true → p c) : Heads p (t ++ rest') := by
  cases t with
  | nil => exact hrest.mono hp
  | cons d t => exact .cons (h d rfl) _

theorem heads_iff_any {q : Char → Bool} {cs : List Char} : Heads (q · = false) cs ↔ cs.head?.any q = false := by
  cases cs <;> simp [Heads]

/-- a word without blanks does not reach beyond a part of a text -/
theorem prefix_of_part {w t rest : List Char} (hw : ∀ c ∈ w, isBlank c = false) (hrest : Blanked rest)
    (h : w <+: t ++ rest) : w <+: t := by
  induction t generalizing w with
  | nil =>
    cases w with
    | nil => exact List.nil_prefix
    | cons c w =>
      obtain ⟨more, rfl⟩ := h
      have hc : isBlank c = true := hrest c rfl
      rw [hw c List.mem_cons_self] at hc
      cases hc
  | cons d t ih =>
    cases w with
    | nil => exact List.nil_prefix
    | cons c w =>
      rw [List.cons_append, List.cons_prefix_cons] at h
      rw [List.cons_prefix_cons]
      exact ⟨h.1, ih (List.forall_mem_cons.1 hw).2 h.2⟩

theorem spelling_not_blank (p : Punct) : ∀ c ∈ p.spelling, isBlank c = false := by
  cases p <;> exact List.all_iff_forall_prop.1 (by decide)

/-- the longest mark is still the longest -/
theorem leading?_again {cs : List Char} {p : Punct} (h : Punct.leading? cs = some p) {rest : List Char}
    (hrest : Blanked rest) : p.spelling <+: cs ∧ Punct.leading? (p.spelling ++ rest) = some p := by
  obtain ⟨hp, longer, others, hall, hlonger⟩ := List.find?_eq_some_iff_append.1 h
  have hcs := List.isPrefixOf_iff_prefix.1 hp
  refine ⟨hcs, List.find?_eq_some_iff_append.2 ⟨?_, longer, others, hall, fun q hq => ?_⟩⟩
  · exact List.isPrefixOf_iff_prefix.2 (List.prefix_append _ _)
  · have hfalse := hlonger q hq
    simp only [Bool.not_eq_true', Bool.eq_false_iff, ne_eq, List.isPrefixOf_iff_prefix] at hfalse ⊢
    exact fun hpart => hfalse ((prefix_of_part (spelling_not_blank q) hrest hpart).trans hcs)

/-! ## Whole pieces -/

theorem not_comment {c : Char} {cs : List Char} (hc : c ≠ '/') : ['/', '*'].isPrefixOf (c :: cs) = false := by
  simp [List.isPrefixOf, hc.symm]

theorem isNameStart_ne {c : Char} (h : isNameStart c = true) : c ≠ '/' := by
  rintro rfl
  exact absurd h (by decide)

theorem name_again {c : Char} (cs : List Char) {rest : List Char} (hc : isNameStart c = true) (hrest : Blanked rest) :
    piece ((c :: cs).takeWhile isNameChar ++ rest) =
      ⟨(c :: cs).takeWhile isNameChar, rest, .ok (.ofWord (String.ofList ((c :: cs).takeWhile isNameChar)))⟩ := by
  have hname : isNameChar c = true := by
    simp only [isNameStart, isNameChar, Char.isAlphanum, Bool.or_eq_true] at hc ⊢
    exact hc.imp_left .inl
  obtain ⟨htake, hdrop⟩ :=
    run_again (forall_takeWhile isNameChar (c :: cs)) (hrest.mono fun _ => not_isNameChar_of_isBlank)
  rw [List.takeWhile_cons_of_pos hname] at htake hdrop ⊢
  rw [List.cons_append] at htake hdrop ⊢
  simp only [piece, not_comment (isNameStart_ne hc), Bool.false_eq_true, if_false, hc, if_true, htake, hdrop]

/-- a literal that starts with a point has a digit behind it -/
theorem decimal_point {cs : List Char} {kind : TokenKind} (h : (decimal ('.' :: cs)).found = .ok kind)
    (hcs : cs.head?.any Char.isDigit = true) {t : List Char} (ht : (decimal ('.' :: cs)).text = '.' :: t) :
    t.head?.any Char.isDigit = true := by
  rw [decimal_eq_ofParts] at h ht
  obtain ⟨mark, -, htext, -⟩ := ofParts_again h
  cases cs with
  | nil => cases hcs
  | cons d cs =>
    have hd : d.isDigit = true := hcs
    have hpoint : Char.isDigit '.' = false := by decide
    rw [htext] at ht
    simp only [List.takeWhile_cons, List.dropWhile_cons, hpoint, hd, Bool.false_eq_true, if_false, if_true,
      splitFraction, List.nil_append, List.cons_append, List.cons.injEq, true_and] at ht
    rw [← ht]
    exact hd

theorem decimal_piece_again {c : Char} {cs : List Char} {kind : TokenKind} (hname : isNameStart c = false)
    (hhex : (c == '0' && (cs.head?.any fun x => x == 'x' || x == 'X')) = false)
    (hdigit : (c.isDigit || (c == '.' && cs.head?.any Char.isDigit)) = true) (h : (decimal (c :: cs)).found = .ok kind)
    {rest : List Char} (hrest : Blanked rest) :
    piece ((decimal (c :: cs)).text ++ rest) = ⟨(decimal (c :: cs)).text, rest, .ok kind⟩ := by
  have hagain := decimal_again h hrest
  obtain ⟨d, t, ht⟩ := List.exists_cons_of_ne_nil (decimal_text_ne_nil hdigit)
  have happend := decimal_append (c :: cs)
  rw [ht, List.cons_append, List.cons.injEq] at happend
  obtain ⟨rfl, hpart⟩ := happend
  have hslash : d ≠ '/' := by
    rintro rfl
    exact absurd hdigit (by simp)
  have hhex' : (d == '0' && ((t ++ rest).head?.any fun x => x == 'x' || x == 'X')) = false := by
    rw [Bool.and_eq_false_iff] at hhex ⊢
    refine hhex.imp_right fun hx => ?_
    rw [← hpart, ← heads_iff_any] at hx
    refine heads_iff_any.1 (hx.of_part hrest fun c hc => ?_)
    simp [ne_of_isBlank hc (show isBlank 'x' = false by decide), ne_of_isBlank hc (show isBlank 'X' = false by decide)]
  have hdigit' : (d.isDigit || (d == '.' && (t ++ rest).head?.any Char.isDigit)) = true := by
    simp only [Bool.or_eq_true, Bool.and_eq_true, beq_iff_eq] at hdigit ⊢
    refine hdigit.imp_right ?_
    rintro ⟨rfl, hd⟩
    have hnext := decimal_point h hd ht
    cases t with
    | nil => cases hnext
    | cons e t => exact ⟨rfl, hnext⟩
  rw [ht, List.cons_append] at hagain ⊢
  simp only [piece, not_comment hslash, hname, hhex', hdigit', Bool.false_eq_true, if_false, if_true, hagain]

theorem punct_again {c : Char} {cs : List Char} {p : Punct} (hcomment : ['/', '*'].isPrefixOf (c :: cs) = false)
    (hname : isNameStart c = false) (hdigit : (c.isDigit || (c == '.' && cs.head?.any Char.isDigit)) = false)
    (h : Punct.leading? (c :: cs) = some p) {rest : List Char} (hrest : Blanked rest) :
    piece (p.spelling ++ rest) = ⟨p.spelling, rest, .ok (.punct p)⟩ := by
  obtain ⟨hpart, hleading⟩ := leading?_again h hrest
  obtain ⟨d, t, ht⟩ := List.exists_cons_of_ne_nil (spelling_ne_nil p)
  have hcomment' : ['/', '*'].isPrefixOf (p.spelling ++ rest) = false := by
    simp only [Bool.eq_false_iff, ne_eq, List.isPrefixOf_iff_prefix] at hcomment ⊢
    exact fun hw => hcomment ((prefix_of_part (List.all_iff_forall_prop.1 (by decide)) hrest hw).trans hpart)
  have hdrop : (p.spelling ++ rest).drop p.spelling.length = rest := List.drop_left
  rw [ht] at hpart
  obtain ⟨rfl, htail⟩ := List.cons_prefix_cons.1 hpart
  obtain ⟨more, hmore⟩ := htail
  simp only [Bool.or_eq_false_iff, Bool.and_eq_false_iff] at hdigit
  have hzero : (d == '0') = false := by
    rw [beq_eq_false_iff_ne]
    rintro rfl
    exact absurd hdigit.1 (by decide)
  have hdigit' : (d.isDigit || (d == '.' && (t ++ rest).head?.any Char.isDigit)) = false := by
    rw [hdigit.1, Bool.false_or, Bool.and_eq_false_iff]
    refine hdigit.2.imp_right fun hd => ?_
    rw [← hmore, ← heads_iff_any] at hd
    exact heads_iff_any.1 (hd.of_part hrest fun _ => not_isDigit_of_isBlank)
  rw [ht, List.cons_append] at hleading hcomment' hdrop ⊢
  simp only [piece, hcomment', hname, hzero, hdigit', Bool.false_and, Bool.false_eq_true, if_false, hleading, ht, hdrop]

theorem hexadecimal_piece_again {c : Char} {cs : List Char} {kind : TokenKind} (hname : isNameStart c = false)
    (hhex : (c == '0' && (cs.head?.any fun x => x == 'x' || x == 'X')) = true)
    (h : (hexadecimal ((c :: cs).take 2) ((c :: cs).drop 2)).found = .ok kind) {rest : List Char}
    (hrest : Blanked rest) :
    piece ((hexadecimal ((c :: cs).take 2) ((c :: cs).drop 2)).text ++ rest) =
      ⟨(hexadecimal ((c :: cs).take 2) ((c :: cs).drop 2)).text, rest, .ok kind⟩ := by
  simp only [Bool.and_eq_true, beq_iff_eq] at hhex
  obtain ⟨rfl, hx⟩ := hhex
  obtain ⟨t, ht, hagain⟩ := hexadecimal_again h
  cases cs with
  | nil => cases hx
  | cons x cs =>
    have hmark : (x == 'x' || x == 'X') = true := hx
    have hpiece := hagain rest hrest
    rw [ht]
    simp only [List.take_succ_cons, List.take_zero, List.cons_append, List.nil_append] at hpiece ⊢
    simp only [piece, not_comment (c := '0') (by decide), hname, List.head?_cons, Option.any_some, hmark,
      beq_self_eq_true, Bool.and_self, Bool.false_eq_true, if_false, if_true, List.take_succ_cons, List.take_zero,
      List.drop_succ_cons, List.drop_zero, hpiece]

/-- **A token is taken again**, whatever blank follows it. -/
theorem piece_again {cs : List Char} {kind : TokenKind} (hcs : cs ≠ []) (h : (piece cs).found = .ok kind)
    {rest : List Char} (hrest : Blanked rest) :
    piece ((piece cs).text ++ rest) = ⟨(piece cs).text, rest, .ok kind⟩ := by
  obtain ⟨c, cs, rfl⟩ := List.exists_cons_of_ne_nil hcs
  simp only [piece] at h ⊢
  split at h
  · cases h
  · rename_i hcomment
    rw [if_neg hcomment]
    split at h
    · rename_i hname
      rw [if_pos hname]
      obtain rfl := Except.ok.inj h
      exact name_again cs hname hrest
    · rename_i hname
      rw [if_neg hname]
      split at h
      · rename_i hhex
        rw [if_pos hhex]
        exact hexadecimal_piece_again (Bool.eq_false_iff.2 hname) hhex h hrest
      · rename_i hhex
        rw [if_neg hhex]
        split at h
        · rename_i hdigit
          rw [if_pos hdigit]
          exact decimal_piece_again (Bool.eq_false_iff.2 hname) (Bool.eq_false_iff.2 hhex) hdigit h hrest
        · rename_i hdigit
          rw [if_neg hdigit]
          split at h
          · rename_i p hp
            obtain rfl := Except.ok.inj h
            exact punct_again (Bool.eq_false_iff.2 hcomment) (Bool.eq_false_iff.2 hname)
              (Bool.eq_false_iff.2 hdigit) hp hrest
          · cases h

/-! ## Gaps in front of tokens -/

/-- what a gap leaves starts with no white space and with no comment that has an end -/
theorem gap_rest {cs : List Char} {c : Char} {more : List Char} (h : (gap cs).2 = c :: more) :
    isBlank c = false ∧ (c = '/' → Heads (· ≠ '/') more) := by
  fun_induction gap cs with
  | case1 cs blanks r hr g rest hg ih => exact ih (by rw [hg]; exact h)
  | case2 cs blanks r hr body r' hb g rest hg ih => exact ih (by rw [hg]; exact h)
  | case3 cs blanks r hr hb =>
    obtain ⟨rfl, rfl⟩ := List.cons.inj h
    exact ⟨by decide, fun _ => .cons (by decide) _⟩
  | case4 cs blanks hline hblock =>
    have hrest : cs.dropWhile isBlank = c :: more := h
    have hhead := List.head?_dropWhile_not isBlank cs
    rw [hrest] at hhead hline
    refine ⟨by simpa using hhead, ?_⟩
    rintro rfl d hd rfl
    obtain ⟨as, rfl⟩ := List.head?_eq_some_iff.1 hd
    exact hline as rfl

/-- no gap is in front of what starts with no white space and no comment -/
theorem gap_eq_self {c : Char} {cs : List Char} (hc : isBlank c = false)
    (hcomment : c = '/' → Heads (fun d => d ≠ '/' ∧ d ≠ '*') cs) : gap (c :: cs) = ([], c :: cs) := by
  have hdrop : (c :: cs).dropWhile isBlank = c :: cs := by simp [hc]
  have htake : (c :: cs).takeWhile isBlank = [] := by simp [hc]
  rw [gap]
  split
  · rename_i r hr
    rw [hdrop] at hr
    obtain ⟨rfl, rfl⟩ := List.cons.inj hr
    exact absurd rfl (hcomment rfl '/' rfl).1
  · rename_i r hr
    rw [hdrop] at hr
    obtain ⟨rfl, rfl⟩ := List.cons.inj hr
    exact absurd rfl (hcomment rfl '*' rfl).2
  · rw [htake, hdrop]

theorem gap_nil : (gap []).2 = [] := (List.append_eq_nil_iff.1 (gap_append [])).2

theorem gap_blank {c : Char} (cs : List Char) (hc : isBlank c = true) : (gap (c :: cs)).2 = (gap cs).2 := by
  have hdrop : (c :: cs).dropWhile isBlank = cs.dropWhile isBlank := by simp [hc]
  rw [gap, gap, hdrop]
  split
  · rfl
  · split <;> rfl
  · rfl

/-- white space in front of a text is passed -/
theorem gap_blanks {bs : List Char} (hbs : ∀ c ∈ bs, isBlank c = true) (cs : List Char) :
    (gap (bs ++ cs)).2 = (gap cs).2 := by
  induction bs with
  | nil => rfl
  | cons b bs ih =>
    obtain ⟨hb, hbs⟩ := List.forall_mem_cons.1 hbs
    exact (gap_blank _ hb).trans (ih hbs)

theorem piece_not_comment {cs : List Char} {kind : TokenKind} (h : (piece cs).found = .ok kind) :
    ¬ ['/', '*'] <+: cs := by
  rintro ⟨more, rfl⟩
  exact absurd h (by simp [piece])

/-- no gap is read at a token that stood behind a gap -/
theorem gap_again {cs : List Char} {kind : TokenKind} (hcs : (gap cs).2 ≠ []) (h : (piece (gap cs).2).found = .ok kind)
    {rest : List Char} (hrest : Blanked rest) :
    (gap ((piece (gap cs).2).text ++ rest)).2 = (piece (gap cs).2).text ++ rest := by
  have happend := piece_append (gap cs).2
  have hopen := piece_not_comment h
  obtain ⟨c, more, hmore⟩ := List.exists_cons_of_ne_nil hcs
  obtain ⟨hc, hline⟩ := gap_rest hmore
  rw [hmore] at happend hopen ⊢
  obtain ⟨d, t, ht⟩ := List.exists_cons_of_ne_nil (piece_text_ne_nil c more)
  rw [ht, List.cons_append] at happend ⊢
  obtain ⟨rfl, hpart⟩ := List.cons.inj happend
  have hclear : d = '/' → Heads (fun e => e ≠ '/' ∧ e ≠ '*') (t ++ rest) := by
    rintro rfl
    have hpiece : Heads (fun e => e ≠ '/' ∧ e ≠ '*') (t ++ (piece ('/' :: more)).rest) := by
      rw [hpart]
      refine fun e he => ⟨hline rfl e he, ?_⟩
      rintro rfl
      obtain ⟨as, rfl⟩ := List.head?_eq_some_iff.1 he
      exact hopen ⟨as, rfl⟩
    exact hpiece.of_part hrest fun e he => ⟨ne_of_isBlank he (by decide), ne_of_isBlank he (by decide)⟩
  rw [gap_eq_self hc hclear]

/-! ## Cutting a text into tokens -/

/-- the kinds and texts of the tokens that a text is cut into, with the end of the text as the last -/
inductive Lexes : List Char → List (TokenKind × String) → Prop where
  | stop {cs : List Char} (hcs : (gap cs).2 = []) : Lexes cs [(.eof, "")]
  | token {cs : List Char} {kind : TokenKind} {more : List (TokenKind × String)} (hcs : (gap cs).2 ≠ [])
      (hfound : (piece (gap cs).2).found = .ok kind) (hmore : Lexes (piece (gap cs).2).rest more) :
      Lexes cs ((kind, String.ofList (piece (gap cs).2).text) :: more)

/-- the kind and the text of a token -/
def cut (t : Token) : TokenKind × String := (t.kind, t.lexeme)

/-- steps that are all tokens cut what is left of the source -/
theorem lexes_of_steps {c : Cursor} {tokens : List Token} (h : steps c = tokens.map .ok) :
    Lexes c.rest (tokens.map cut) := by
  induction tokens generalizing c with
  | nil =>
    rw [steps] at h
    dsimp only at h
    split at h <;> cases h
  | cons t tokens ih =>
    cases hend : isEnd (next c).1 with
    | true =>
      rw [steps_of_isEnd hend] at h
      obtain ⟨hfirst, hnone⟩ := List.cons.inj h
      obtain rfl := List.map_eq_nil_iff.1 hnone.symm
      have hgap := gap_of_isEnd hend
      obtain ⟨ht, hkind⟩ := lexeme_next hfirst
      rw [hgap] at ht hkind
      rw [ht, ← Except.ok.inj hkind]
      exact .stop hgap
    | false =>
      rw [steps_of_not_isEnd hend] at h
      obtain ⟨hfirst, hmore⟩ := List.cons.inj h
      obtain ⟨ht, hkind⟩ := lexeme_next hfirst
      rw [List.map_cons, ht]
      exact .token (gap_ne_nil hend) hkind (ih hmore)

theorem steps_of_lexes {cs : List Char} {cuts : List (TokenKind × String)} (h : Lexes cs cuts) {c : Cursor}
    (hc : c.rest = cs) :
    ∃ tokens : List Token, steps c = tokens.map .ok ∧ tokens.map cut = cuts := by
  induction h generalizing c with
  | stop hcs =>
    subst hc
    have hnext : (next c).1 = .ok ⟨.eof, "", spanOf (next c).1⟩ := by simp [next, hcs, piece, spanOf]
    refine ⟨[⟨.eof, "", spanOf (next c).1⟩], ?_, rfl⟩
    rw [steps_of_isEnd (by rw [hnext]; rfl), hnext]
    rfl
  | @token cs kind more hcs hfound hmore ih =>
    subst hc
    obtain ⟨tokens, htokens, hcuts⟩ := ih (c := (next c).2) rfl
    have hnext : (next c).1 = .ok ⟨kind, String.ofList (piece (gap c.rest).2).text, spanOf (next c).1⟩ := by
      simp [next, hfound, spanOf]
    have hend : isEnd (next c).1 = false := by
      cases hend : isEnd (next c).1 with
      | false => rfl
      | true => exact absurd (gap_of_isEnd hend) hcs
    refine ⟨⟨kind, String.ofList (piece (gap c.rest).2).text, spanOf (next c).1⟩ :: tokens, ?_, ?_⟩
    · rw [steps_of_not_isEnd hend, htokens, List.map_cons, ← hnext]
    · rw [List.map_cons, hcuts]
      rfl

theorem lexes_iff {source : String} {cuts : List (TokenKind × String)} :
    Lexes source.toList cuts ↔ ∃ tokens, tokenize source = .ok tokens ∧ tokens.map cut = cuts := by
  simp only [tokenize, mapM_eq_ok]
  refine ⟨fun h => steps_of_lexes h rfl, ?_⟩
  rintro ⟨tokens, htokens, rfl⟩
  exact lexes_of_steps htokens

theorem Lexes.blanks {cs : List Char} {cuts : List (TokenKind × String)} (h : Lexes cs cuts) {bs : List Char}
    (hbs : ∀ c ∈ bs, isBlank c = true) : Lexes (bs ++ cs) cuts := by
  have hgap := gap_blanks hbs cs
  cases h with
  | stop hcs => exact .stop (hgap.trans hcs)
  | token hcs hfound hmore =>
    rw [← hgap] at hcs hfound hmore ⊢
    exact .token hcs hfound hmore

/-- texts one after the other, with a separator of their own between each two -/
def spaced (sep : Nat → String) : List String → String
  | [] => ""
  | [t] => t
  | t :: u :: ts => t ++ sep 0 ++ spaced (fun i => sep (i + 1)) (u :: ts)

/-- separators are not empty and consist of white space -/
def Separates (sep : Nat → String) : Prop := ∀ i, sep i ≠ "" ∧ ∀ c ∈ (sep i).toList, isBlank c = true

/-- a token in front of a text that is cut -/
theorem Lexes.spaced_cons {sep : Nat → String} (hsep : Separates sep) {cs : List Char} {kind : TokenKind}
    (hcs : (gap cs).2 ≠ []) (hfound : (piece (gap cs).2).found = .ok kind) {ts : List String}
    {more : List (TokenKind × String)} (hmore : Lexes (spaced (fun i => sep (i + 1)) ts).toList more) :
    Lexes (spaced sep (String.ofList (piece (gap cs).2).text :: ts)).toList
      ((kind, String.ofList (piece (gap cs).2).text) :: more) := by
  obtain ⟨rest, hrest, hlexes, hspaced⟩ : ∃ rest, Blanked rest ∧ Lexes rest more ∧
      (spaced sep (String.ofList (piece (gap cs).2).text :: ts)).toList = (piece (gap cs).2).text ++ rest := by
    cases ts with
    | nil => exact ⟨[], .nil _, hmore, by simp [Lexer.spaced]⟩
    | cons u ts =>
      obtain ⟨hne, hblank⟩ := hsep 0
      refine ⟨(sep 0).toList ++ (spaced (fun i => sep (i + 1)) (u :: ts)).toList, ?_, hmore.blanks hblank,
        by simp [Lexer.spaced]⟩
      obtain ⟨b, bs, hb⟩ := List.exists_cons_of_ne_nil (show (sep 0).toList ≠ [] by simpa using hne)
      rw [hb] at hblank ⊢
      exact .cons (hblank b List.mem_cons_self) _
  have hgap := gap_again hcs hfound hrest
  have hpiece := piece_again hcs hfound hrest
  have hne : (piece (gap cs).2).text ++ rest ≠ [] := by
    obtain ⟨c, cs', hcs'⟩ := List.exists_cons_of_ne_nil hcs
    rw [hcs']
    exact List.append_ne_nil_of_left_ne_nil (piece_text_ne_nil c cs') rest
  have htoken := @Lexes.token ((piece (gap cs).2).text ++ rest) kind more
  rw [hgap, hpiece] at htoken
  rw [hspaced]
  exact htoken hne rfl hlexes

theorem Separates.tail {sep : Nat → String} (h : Separates sep) : Separates fun i => sep (i + 1) := fun i => h (i + 1)

/-- the texts that a text is cut into are cut the same way if they are separated, with the end counted or not -/
theorem Lexes.spaced {cs : List Char} {cuts : List (TokenKind × String)} (h : Lexes cs cuts) {sep : Nat → String}
    (hsep : Separates sep) :
    Lexes (Lexer.spaced sep (cuts.map (·.2))).toList cuts ∧
      Lexes (Lexer.spaced sep (cuts.dropLast.map (·.2))).toList cuts := by
  induction h generalizing sep with
  | stop hcs => exact ⟨.stop gap_nil, .stop gap_nil⟩
  | token hcs hfound hmore ih =>
    obtain ⟨hall, hinit⟩ := ih hsep.tail
    refine ⟨spaced_cons hsep hcs hfound hall, ?_⟩
    cases hmore with
    | stop hcs => exact spaced_cons hsep ‹_› hfound hinit
    | token => exact spaced_cons hsep ‹_› hfound hinit

/-- **Tokens are self-delimiting.** The lexemes of a source that tokenizes, written one after the other with white space
between them, are cut into the same tokens: they have the same kinds, values included, and the same lexemes. The white
space may be another one at each place, and the end, whose lexeme is empty, may be written with white space in front of
it or left out. -/
theorem tokenize_spaced {source : String} {tokens written : List Token} (h : tokenize source = .ok tokens)
    {sep : Nat → String} (hsep : Separates sep) (hwritten : written = tokens ∨ written = tokens.dropLast) :
    ∃ again, tokenize (spaced sep (written.map (·.lexeme))) = .ok again ∧ again.map (·.kind) = tokens.map (·.kind) ∧
      again.map (·.lexeme) = tokens.map (·.lexeme) := by
  have hlexes := (lexes_iff.2 ⟨tokens, h, rfl⟩).spaced hsep
  have hkinds : ∀ ts : List Token, (ts.map cut).map (·.1) = ts.map (·.kind) := fun ts => List.map_map
  have hlexemes : ∀ ts : List Token, (ts.map cut).map (·.2) = ts.map (·.lexeme) := fun ts => List.map_map
  obtain ⟨again, hagain, hcuts⟩ : ∃ again, tokenize (spaced sep (written.map (·.lexeme))) = .ok again ∧
      again.map cut = tokens.map cut := by
    rw [← lexes_iff, ← hlexemes]
    rcases hwritten with rfl | rfl
    · exact hlexes.1
    · rw [List.map_dropLast]
      exact hlexes.2
  refine ⟨again, hagain, ?_, ?_⟩
  · rw [← hkinds, hcuts, hkinds]
  · rw [← hlexemes, hcuts, hlexemes]

/-- tokens that stand as close as they can -/
def crowded : String := "x<<=.5e-1f+++0x1Fu/*y*/-5.;//z"

theorem crowded_spaced : ∃ tokens again, tokenize crowded = .ok tokens ∧
    tokens.map (·.lexeme) = ["x", "<<=", ".5e-1f", "++", "+", "0x1Fu", "-", "5.", ";", ""] ∧
    tokenize "x <<=\n\t.5e-1f ++\n\t+ 0x1Fu\n\t- 5.\n\t; " = .ok again ∧ again.map (·.kind) = tokens.map (·.kind) := by
  have hlexemes : (tokenize crowded).toOption.map (·.map (·.lexeme)) =
      some ["x", "<<=", ".5e-1f", "++", "+", "0x1Fu", "-", "5.", ";", ""] := by
    decide +kernel
  have hsep : Separates fun i => if i % 2 = 0 then " " else "\n\t" := by
    intro i
    dsimp only
    split <;> exact ⟨by decide, List.all_iff_forall_prop.1 (by decide)⟩
  cases htokens : tokenize crowded with
  | error e =>
    rw [htokens] at hlexemes
    cases hlexemes
  | ok tokens =>
    rw [htokens] at hlexemes
    replace hlexemes : tokens.map (·.lexeme) = _ := Option.some.inj hlexemes
    obtain ⟨again, hagain, hkinds, -⟩ := tokenize_spaced htokens hsep (.inl rfl)
    rw [hlexemes] at hagain
    exact ⟨tokens, again, rfl, hlexemes, hagain, hkinds⟩

end Lexer

end C15

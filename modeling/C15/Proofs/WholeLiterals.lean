/-
Which texts are whole literals, and what they denote.

A whole literal is hexadecimal, with a prefix and perhaps the suffix `u`, or decimal with that suffix, or plain decimal
with a sign that may be missing (`Whole`, `Whole.Regular`). It denotes its value modulo 2 ^ 32 if the value is that of a
signed or an unsigned word, and is out of range otherwise (`denoted`). The reader follows this for every literal without
a sign and for plain ones with a minus. It differs about other signs:
- a plus behind the prefix or in front of a decimal with the suffix is read over, and a minus there counts as out of
  range;
- a numeral with a plus is malformed, not out of range, from 2 ^ 63 on, or from 2 ^ 64 on with prefix or suffix.
`parse_whole` says this of all texts that are not read as floating-point numbers.
-/
import C15.Proofs.Numerals

namespace C15

open Text

namespace Number

/-! ## Whole literals -/

/-- what stands around the digits and their sign -/
inductive Form where
  | hexadecimal (upper unsigned : Bool)
  | unsigned
  | plain
deriving DecidableEq, Repr

namespace Form

/-- the second character of a hexadecimal literal -/
def mark : Bool → Char
  | true => 'X'
  | false => 'x'

def before : Form → List Char
  | .hexadecimal upper _ => ['0', mark upper]
  | .unsigned | .plain => []

def behind : Form → List Char
  | .hexadecimal _ true | .unsigned => ['u']
  | .hexadecimal _ false | .plain => []

def radix : Form → Radix
  | .hexadecimal _ _ => Number.hexadecimal
  | .unsigned | .plain => decimal

/-- the numbers of this form that are read at full length lie below -/
def limit : Form → Int
  | .plain => 0x8000000000000000
  | .hexadecimal _ _ | .unsigned => 0x10000000000000000

end Form

inductive Sign where
  | none
  | plus
  | minus
deriving DecidableEq, Repr

namespace Sign

def text : Sign → List Char
  | .none => []
  | .plus => ['+']
  | .minus => ['-']

def apply : Sign → Nat → Int
  | .none, n | .plus, n => n
  | .minus, n => -n

end Sign

/-- a whole literal: digits with or without a sign, in one of the forms -/
structure Whole where
  form : Form
  sign : Sign
  digits : List Char
  accepted : form.radix.accepts digits = true

namespace Whole

def text (n : Whole) : List Char := n.form.before ++ (n.sign.text ++ n.digits) ++ n.form.behind

def value (n : Whole) : Int := n.sign.apply (n.form.radix.value n.digits)

/-- only a plain literal has a sign -/
def Regular (n : Whole) : Prop := n.form = .plain ∨ n.sign = .none

end Whole

/-- the word of a number that is one, signed or unsigned -/
def denoted (n : Int) : Except NumberError UInt32 :=
  if -0x80000000 ≤ n ∧ n ≤ 0xFFFFFFFF then .ok (UInt32.ofInt n) else .error .outOfRange

theorem denoted_ne_malformed (n : Int) : denoted n ≠ .error .malformed := by
  unfold denoted
  split
  · simp
  · simp

/-! ## Digits behind a sign -/

section Radix

variable {r : Radix} {cs ds : List Char}

/-- a text with a character in front that is no digit -/
theorem accepts_cons_of_not {c : Char} (h : r.isDigit c = false) (cs : List Char) : r.accepts (c :: cs) = false := by
  simp [Radix.accepts, h]

theorem ne_cons_of_accepts (h : r.accepts cs = true) {c : Char} (hc : r.isDigit c = false) (rest : List Char) :
    cs ≠ c :: rest := by
  rintro rfl
  rw [accepts_cons_of_not hc] at h
  cases h

theorem natural_of_not_plus (h : ∀ rest, cs ≠ '+' :: rest) :
    r.natural cs = if r.accepts cs && r.value cs < 0x10000000000000000 then .ok (r.value cs)
      else .error (r.refusal cs) := by
  unfold Radix.natural
  split
  · exact absurd rfl (h _)
  · rfl

theorem refusal_of_not_minus (h : ∀ rest, cs ≠ '-' :: rest) :
    r.refusal cs = if r.accepts cs then .outOfRange else .malformed := by
  unfold Radix.refusal
  split
  · exact absurd rfl (h _)
  · rfl

end Radix

namespace Form

/-- signs are no digits -/
theorem not_digit (f : Form) : f.radix.isDigit '+' = false ∧ f.radix.isDigit '-' = false := by
  cases f <;> exact ⟨rfl, rfl⟩

variable {f : Form} {cs ds : List Char}

theorem natural_digits (h : f.radix.accepts ds = true) :
    f.radix.natural ds = if f.radix.value ds < 0x10000000000000000 then .ok (f.radix.value ds)
      else .error .outOfRange := by
  rw [natural_of_not_plus (ne_cons_of_accepts h f.not_digit.1),
    refusal_of_not_minus (ne_cons_of_accepts h f.not_digit.2)]
  simp [h]

theorem natural_plus (h : f.radix.accepts ds = true) :
    f.radix.natural ('+' :: ds) = if f.radix.value ds < 0x10000000000000000 then .ok (f.radix.value ds)
      else .error .malformed := by
  have hrefusal : f.radix.refusal ('+' :: ds) = .malformed := by
    rw [refusal_of_not_minus (by simp), accepts_cons_of_not f.not_digit.1]
    rfl
  simp [Radix.natural, h, hrefusal]

theorem natural_minus (h : f.radix.accepts ds = true) : f.radix.natural ('-' :: ds) = .error .outOfRange := by
  rw [natural_of_not_plus (by simp), accepts_cons_of_not f.not_digit.2]
  simp [Radix.refusal, h]

end Form

/-- nothing but digits behind at most a sign is a number -/
structure NoNumber (r : Radix) (cs : List Char) : Prop where
  digits : r.accepts cs = false
  plus : ∀ ds, cs = '+' :: ds → r.accepts ds = false
  minus : ∀ ds, cs = '-' :: ds → r.accepts ds = false

namespace NoNumber

variable {r : Radix} {cs : List Char}

theorem refusal (h : NoNumber r cs) : r.refusal cs = .malformed := by
  by_cases hsign : ∃ ds, cs = '-' :: ds
  · obtain ⟨ds, rfl⟩ := hsign
    simp [Radix.refusal, h.minus ds rfl]
  · rw [refusal_of_not_minus (by simpa using hsign), h.digits]
    rfl

theorem natural (h : NoNumber r cs) : r.natural cs = .error .malformed := by
  by_cases hsign : ∃ ds, cs = '+' :: ds
  · obtain ⟨ds, rfl⟩ := hsign
    simp [Radix.natural, h.plus ds rfl, h.refusal]
  · rw [natural_of_not_plus (by simpa using hsign), h.digits, h.refusal]
    rfl

theorem integer (h : NoNumber decimal cs) : integer cs = .error .malformed := by
  have hdigits : decimal.accepts (Binary32.readSign cs).2 = false := by
    unfold Binary32.readSign
    split
    · exact h.minus _ rfl
    · exact h.plus _ rfl
    · exact h.digits
  simp [Number.integer, hdigits, h.refusal]

end NoNumber

theorem readSign_of_accepts {ds : List Char} (h : decimal.accepts ds = true) : Binary32.readSign ds = (false, ds) := by
  apply Binary32.readSign_digits
  intro c hc
  simp only [Radix.accepts, Bool.and_eq_true, List.all_eq_true] at h
  exact h.2 c hc

theorem integer_digits {ds : List Char} (h : decimal.accepts ds = true) :
    integer ds = if ofDigits ds < 0x8000000000000000 then .ok (ofDigits ds : Int) else .error .outOfRange := by
  have hrefusal : decimal.refusal ds = .outOfRange := by
    rw [refusal_of_not_minus (ne_cons_of_accepts h (by decide)), h]
    rfl
  simp [integer, readSign_of_accepts h, h, hrefusal]

theorem integer_plus {ds : List Char} (h : decimal.accepts ds = true) :
    integer ('+' :: ds) = if ofDigits ds < 0x8000000000000000 then .ok (ofDigits ds : Int) else .error .malformed := by
  have hrefusal : decimal.refusal ('+' :: ds) = .malformed := by
    rw [refusal_of_not_minus (by simp), accepts_cons_of_not (by decide)]
    rfl
  simp [integer, Binary32.readSign, h, hrefusal]

theorem integer_minus {ds : List Char} (h : decimal.accepts ds = true) :
    integer ('-' :: ds) = if ofDigits ds < 0x8000000000000001 then .ok (-(ofDigits ds : Int))
      else .error .outOfRange := by
  simp [integer, Binary32.readSign, h, Radix.refusal]

/-! ## What a form reads -/

/-- the word that a form makes of what stands between its prefix and its suffix -/
def Form.read (f : Form) (body : List Char) : Except NumberError UInt32 :=
  if f = .plain then integer body >>= denoted else f.radix.natural body >>= fun n => denoted n

/-- what the reader answers to a whole literal -/
def Whole.answer (n : Whole) : Except NumberError UInt32 :=
  if n.sign = .plus ∧ n.form.limit ≤ n.value then .error .malformed
  else if n.sign = .minus ∧ n.form ≠ .plain then .error .outOfRange
  else denoted n.value

theorem denoted_of_large {n : Int} (h : 0x100000000 ≤ n) : denoted n = .error .outOfRange := if_neg (by omega)

theorem denoted_of_small {n : Int} (h : n < -0x80000000) : denoted n = .error .outOfRange := if_neg (by omega)

section Answers

variable {α : Type} {c : Prop} [Decidable c] (x : α) (g : α → Int)

/-- a number that is too long to be read is out of range -/
theorem bind_outOfRange (h : ¬ c → g x < -0x80000000 ∨ 0x100000000 ≤ g x) :
    ((if c then .ok x else .error .outOfRange : Except NumberError α) >>= fun y => denoted (g y)) = denoted (g x) := by
  by_cases hc : c
  · rw [if_pos hc]
    rfl
  · rw [if_neg hc]
    rcases h hc with hx | hx
    · exact (denoted_of_small hx).symm
    · exact (denoted_of_large hx).symm

/-- a number that is too long to be read with a plus is malformed -/
theorem bind_malformed {limit : Int} (h : c ↔ g x < limit) :
    ((if c then .ok x else .error .malformed : Except NumberError α) >>= fun y => denoted (g y)) =
      if limit ≤ g x then .error .malformed else denoted (g x) := by
  by_cases hc : c
  · rw [if_pos hc, if_neg (not_le.2 (h.1 hc))]
    rfl
  · rw [if_neg hc, if_pos (not_lt.1 fun hlt => hc (h.2 hlt))]
    rfl

end Answers

theorem answer_plus {n : Whole} (h : n.sign = .plus) :
    n.answer = if n.form.limit ≤ n.value then .error .malformed else denoted n.value := by
  simp [Whole.answer, h]

theorem read_plain (sign : Sign) {ds : List Char} (h : Form.plain.radix.accepts ds = true) :
    Form.read .plain (sign.text ++ ds) = Whole.answer ⟨.plain, sign, ds, h⟩ := by
  rw [Form.read, if_pos rfl]
  cases sign with
  | none =>
    rw [Sign.text, List.nil_append, integer_digits h]
    exact bind_outOfRange (ofDigits ds : Int) id (by simp only [id]; omega)
  | plus =>
    rw [Sign.text, List.singleton_append, integer_plus h, answer_plus rfl]
    exact bind_malformed (ofDigits ds : Int) id (by simp only [id, Form.limit]; omega)
  | minus =>
    rw [Sign.text, List.singleton_append, integer_minus h]
    exact bind_outOfRange (-(ofDigits ds : Int)) id (by simp only [id]; omega)

theorem read_marked {f : Form} (hf : f ≠ .plain) (sign : Sign) {ds : List Char} (h : f.radix.accepts ds = true) :
    f.read (sign.text ++ ds) = Whole.answer ⟨f, sign, ds, h⟩ := by
  have hlimit : f.limit = 0x10000000000000000 := by
    cases f with
    | plain => exact absurd rfl hf
    | hexadecimal | unsigned => rfl
  rw [Form.read, if_neg hf]
  cases sign with
  | none =>
    rw [Sign.text, List.nil_append, f.natural_digits h]
    exact bind_outOfRange (f.radix.value ds) Nat.cast (by omega)
  | plus =>
    rw [Sign.text, List.singleton_append, f.natural_plus h, answer_plus rfl]
    exact bind_malformed (f.radix.value ds) Nat.cast (by rw [hlimit]; omega)
  | minus =>
    rw [Sign.text, List.singleton_append, f.natural_minus h]
    simp [Whole.answer, hf, bind, Except.bind]

theorem NoNumber.read {f : Form} {body : List Char} (h : NoNumber f.radix body) : f.read body = .error .malformed := by
  by_cases hf : f = .plain
  · subst hf
    rw [Form.read, if_pos rfl, h.integer]
    rfl
  · rw [Form.read, if_neg hf, h.natural]
    rfl

/-! ## Texts -/

theorem word_eq_denoted (n : Nat) : word n = denoted n := by
  unfold word denoted
  by_cases h : n < 0x100000000
  · have hmod : (n : Int) % 0x100000000 = n := by omega
    have hofInt : UInt32.ofInt n = UInt32.ofNat ((n : Int) % 0x100000000).toNat := rfl
    rw [if_pos h, if_pos (by omega), hofInt, hmod, Int.toNat_natCast]
  · rw [if_neg h, if_neg (by omega)]

theorem parse_hexadecimal_form (upper : Bool) (rest : List Char) :
    parse ('0' :: Form.mark upper :: rest) =
      hexadecimal.natural (if rest.getLast? = some 'u' then rest.dropLast else rest) >>= fun n => denoted n := by
  have hword : word = fun n : Nat => denoted n := funext word_eq_denoted
  cases upper <;>
  · simp only [Form.mark, parse, ← hword]
    generalize (if rest.getLast? = some 'u' then rest.dropLast else rest) = digits
    cases digits with
    | nil => rfl
    | cons c cs => rfl

theorem parse_decimal_form {cs : List Char} (h : ∀ (upper : Bool) rest, cs ≠ '0' :: Form.mark upper :: rest) :
    parse cs = if cs.getLast? = some 'u' then decimal.natural cs.dropLast >>= fun n => denoted n
      else if cs.getLast? = some 'f' ∨ '.' ∈ cs then float cs else integer cs >>= denoted := by
  have hword : word = fun n : Nat => denoted n := funext word_eq_denoted
  rw [parse]
  · by_cases hu : cs.getLast? = some 'u'
    · rw [if_pos hu, if_pos hu, ← hword]
    · rw [if_neg hu, if_neg hu]
      by_cases hfloat : cs.getLast? = some 'f' ∨ '.' ∈ cs
      · rw [if_pos hfloat, if_pos hfloat]
      · rw [if_neg hfloat, if_neg hfloat]
        cases integer cs with
        | error e => rfl
        | ok n =>
          change _ = denoted n
          by_cases hrange : n < -0x80000000 ∨ 0x100000000 ≤ n
          · rw [denoted, if_neg (by omega)]
            simp only [bind, Except.bind, if_pos hrange]
            rfl
          · rw [denoted, if_pos (by omega)]
            simp only [bind, Except.bind, if_neg hrange]
            rfl
  · exact h false
  · exact h true

/-- no text without a mark is hexadecimal -/
theorem ne_marked {cs : List Char} (hx : 'x' ∉ cs) (hX : 'X' ∉ cs) (upper : Bool) (rest : List Char) :
    cs ≠ '0' :: Form.mark upper :: rest := by
  rintro rfl
  cases upper with
  | true => exact hX (List.mem_cons_of_mem _ List.mem_cons_self)
  | false => exact hx (List.mem_cons_of_mem _ List.mem_cons_self)

/-- signs and digits between prefix and suffix are read by their form -/
theorem parse_form (f : Form) {body : List Char} (h : ∀ c ∈ body, c = '+' ∨ c = '-' ∨ f.radix.isDigit c = true) :
    parse (f.before ++ body ++ f.behind) = f.read body := by
  -- marks and points are neither signs nor digits, and so none of them stands in the body
  have hother : ∀ c, c ≠ '+' → c ≠ '-' → f.radix.isDigit c = false → c ∉ body := by
    intro c hplus hminus hdigit hc
    rcases h c hc with rfl | rfl | hc
    · exact hplus rfl
    · exact hminus rfl
    · rw [hdigit] at hc
      cases hc
  cases f with
  | hexadecimal upper unsigned =>
    cases unsigned with
    | true =>
      refine (parse_hexadecimal_form upper (body ++ ['u'])).trans ?_
      rw [List.getLast?_concat, if_pos rfl, List.dropLast_concat]
      rfl
    | false =>
      have hu : 'u' ∉ body := hother 'u' (by decide) (by decide) rfl
      refine (congrArg parse (List.append_nil _)).trans ((parse_hexadecimal_form upper body).trans ?_)
      rw [if_neg fun hlast => hu (List.mem_of_getLast? hlast)]
      rfl
  | unsigned =>
    have hmem : ∀ c, c ≠ 'u' → c ∉ body → c ∉ body ++ ['u'] := by
      intro c hu hc
      rw [List.mem_append, List.mem_singleton]
      exact not_or.2 ⟨hc, hu⟩
    have hmark := ne_marked (hmem 'x' (by decide) (hother 'x' (by decide) (by decide) rfl))
      (hmem 'X' (by decide) (hother 'X' (by decide) (by decide) rfl))
    refine (parse_decimal_form hmark).trans ?_
    rw [List.getLast?_concat, if_pos rfl, List.dropLast_concat]
    rfl
  | plain =>
    have hmark := ne_marked (hother 'x' (by decide) (by decide) rfl) (hother 'X' (by decide) (by decide) rfl)
    have hlast : ∀ c, c ≠ '+' → c ≠ '-' → Form.plain.radix.isDigit c = false → body.getLast? ≠ some c :=
      fun c hplus hminus hdigit heq => hother c hplus hminus hdigit (List.mem_of_getLast? heq)
    have hfloat : ¬ (body.getLast? = some 'f' ∨ '.' ∈ body) :=
      not_or.2 ⟨hlast 'f' (by decide) (by decide) rfl, hother '.' (by decide) (by decide) rfl⟩
    refine (congrArg parse (List.append_nil _)).trans ((parse_decimal_form hmark).trans ?_)
    rw [if_neg (hlast 'u' (by decide) (by decide) rfl), if_neg hfloat]
    rfl

/-- a text that is not read as a floating-point number is read by a form -/
theorem exists_form {cs : List Char} (hf : cs.getLast? ≠ some 'f') (hpoint : '.' ∉ cs) :
    ∃ (f : Form) (body : List Char), cs = f.before ++ body ++ f.behind ∧ parse cs = f.read body := by
  by_cases hmark : ∃ (upper : Bool) (rest : List Char), cs = '0' :: Form.mark upper :: rest
  · obtain ⟨upper, rest, rfl⟩ := hmark
    by_cases hu : rest.getLast? = some 'u'
    · refine ⟨.hexadecimal upper true, rest.dropLast, ?_, ?_⟩
      · rw [Form.before, Form.behind, List.append_assoc, List.dropLast_append_getLast? _ hu]
        rfl
      · rw [parse_hexadecimal_form, if_pos hu]
        rfl
    · refine ⟨.hexadecimal upper false, rest, ?_, ?_⟩
      · rw [Form.behind, List.append_nil]
        rfl
      · rw [parse_hexadecimal_form, if_neg hu]
        rfl
  · have hparse := parse_decimal_form fun upper rest heq => hmark ⟨upper, rest, heq⟩
    by_cases hu : cs.getLast? = some 'u'
    · refine ⟨.unsigned, cs.dropLast, ?_, ?_⟩
      · exact (List.dropLast_append_getLast? _ hu).symm
      · rw [hparse, if_pos hu]
        rfl
    · refine ⟨.plain, cs, (List.append_nil cs).symm, ?_⟩
      rw [hparse, if_neg hu, if_neg (not_or.2 ⟨hf, hpoint⟩)]
      rfl

instance (n : Whole) : Decidable n.Regular := inferInstanceAs (Decidable (_ ∨ _))

theorem parse_whole_text (n : Whole) : parse n.text = n.answer := by
  obtain ⟨f, sign, ds, h⟩ := n
  have hbody : ∀ c ∈ sign.text ++ ds, c = '+' ∨ c = '-' ∨ f.radix.isDigit c = true := by
    intro c hc
    rcases List.mem_append.1 hc with hc | hc
    · cases sign with
      | none => cases hc
      | plus => exact .inl (List.mem_singleton.1 hc)
      | minus => exact .inr (.inl (List.mem_singleton.1 hc))
    · simp only [Radix.accepts, Bool.and_eq_true, List.all_eq_true] at h
      exact .inr (.inr (h.2 c hc))
  refine (parse_form f hbody).trans ?_
  by_cases hf : f = .plain
  · subst hf
    exact read_plain sign h
  · exact read_marked hf sign h

theorem parse_other {cs : List Char} (h : ∀ n : Whole, cs ≠ n.text) (hf : cs.getLast? ≠ some 'f') (hpoint : '.' ∉ cs) :
    parse cs = .error .malformed := by
  obtain ⟨f, body, rfl, hparse⟩ := exists_form hf hpoint
  have hno : ∀ (sign : Sign) ds, body = sign.text ++ ds → f.radix.accepts ds = false := by
    intro sign ds heq
    apply Bool.eq_false_iff.2
    intro hds
    exact h ⟨f, sign, ds, hds⟩ (by rw [heq]; rfl)
  rw [hparse]
  exact NoNumber.read ⟨hno .none body rfl, hno .plus, hno .minus⟩

/-- where the answer is that of the grammar -/
theorem answer_eq_iff (n : Whole) : n.answer = (if n.Regular then denoted n.value else .error .malformed) ↔
    n.sign = .none ∨ n.form = .plain ∧ n.sign = .minus ∨ n.sign = .plus ∧
      (n.form = .plain ↔ n.value < n.form.limit) := by
  have hregular : n.Regular ↔ n.form = .plain ∨ n.sign = .none := Iff.rfl
  cases hsign : n.sign with
  | none => simp [Whole.answer, hregular, hsign]
  | minus => by_cases hform : n.form = .plain <;> simp [Whole.answer, hregular, hsign, hform]
  | plus =>
    have hnot := denoted_ne_malformed n.value
    have hgrammar : n.Regular ↔ n.form = .plain := by simp [hregular, hsign]
    rw [answer_plus hsign]
    simp only [hgrammar, reduceCtorEq, and_false, false_or, true_and]
    by_cases hform : n.form = .plain
    · by_cases hlimit : n.form.limit ≤ n.value
      · simp only [if_pos hlimit, if_pos hform, iff_true_left hform, hnot.symm, false_iff, not_lt]
        exact hlimit
      · simp only [if_neg hlimit, if_pos hform, iff_true_left hform, true_iff]
        exact not_le.1 hlimit
    · by_cases hlimit : n.form.limit ≤ n.value
      · simp only [if_pos hlimit, if_neg hform, iff_false_left hform, true_iff, not_lt]
        exact hlimit
      · simp only [if_neg hlimit, if_neg hform, iff_false_left hform, hnot, false_iff, not_not]
        exact not_le.1 hlimit

/-- **Whole literals.** Every whole literal is answered as `Whole.answer` says, and every other text that is not read as
a floating-point number is malformed. A literal gets the answer of the grammar, which has signs in plain literals only,
if and only if it has no sign, or is plain and negative, or has a plus and is plain exactly if it is below the limit of
its form. -/
theorem parse_whole (cs : List Char) :
    (∀ n : Whole, cs = n.text → parse cs = n.answer ∧
      (parse cs = (if n.Regular then denoted n.value else .error .malformed) ↔
        n.sign = .none ∨ n.form = .plain ∧ n.sign = .minus ∨ n.sign = .plus ∧
          (n.form = .plain ↔ n.value < n.form.limit))) ∧
      ((∀ n : Whole, cs ≠ n.text) → cs.getLast? ≠ some 'f' → '.' ∉ cs → parse cs = .error .malformed) := by
  refine ⟨?_, parse_other⟩
  intro n hn
  rw [hn, parse_whole_text]
  exact ⟨rfl, answer_eq_iff n⟩

/-- `0x+5` is read, `-5u` is out of range, and `-u` is no whole literal -/
theorem signs_answered :
    parse ['0', 'x', '+', '5'] = .ok 5 ∧ parse ['-', '5', 'u'] = .error .outOfRange ∧
      (∀ n : Whole, ['-', 'u'] ≠ n.text) ∧ parse ['-', 'u'] = .error .malformed := by
  have hnone : ∀ n : Whole, ['-', 'u'] ≠ n.text := by
    intro n heq
    have hno : ∀ c ∈ ['-', 'u'], n.form.radix.isDigit c = false := by
      rcases n.form with _ | _ | _ <;> exact List.forall_mem_cons.2 ⟨rfl, List.forall_mem_singleton.2 rfl⟩
    have haccepted := n.accepted
    simp only [Radix.accepts, Bool.and_eq_true, List.all_eq_true] at haccepted
    obtain ⟨c, cs, hdigits⟩ := List.exists_cons_of_ne_nil (l := n.digits) (by simpa using haccepted.1)
    have hdigit := haccepted.2 c (by simp [hdigits])
    rw [hno c (by simp [heq, Whole.text, hdigits])] at hdigit
    cases hdigit
  refine ⟨((parse_whole _).1 ⟨.hexadecimal false false, .plus, ['5'], rfl⟩ rfl).1, ?_, hnone, ?_⟩
  · exact ((parse_whole _).1 ⟨.unsigned, .minus, ['5'], rfl⟩ rfl).1
  · exact (parse_whole _).2 hnone (by decide) (by decide)

/-- a literal of the grammar that is too large: `+` and twenty nines -/
def longPlus : Whole := ⟨.plain, .plus, List.replicate 20 '9', rfl⟩

theorem longPlus_malformed :
    longPlus.Regular ∧ denoted longPlus.value = .error .outOfRange ∧ parse longPlus.text = .error .malformed :=
  ⟨.inl rfl, rfl, rfl⟩

end Number

end C15

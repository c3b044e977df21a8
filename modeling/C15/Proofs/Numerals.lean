/-
The text of a number denotes that number.

Whole numbers are written in decimal or hexadecimal digits, single-precision numbers by their shortest decimal. What is
read back need not be the same decimal, only one of the same value, and that is enough for it to round to the same
number. Results:
- `Binary32.ofText?_text`: the text of a finite number reads back as the number;
- `Number.parse_text`: the text of a literal in assembly denotes its word.
-/
import C15.Assembly.Number
import C15.Literal
import C15.Proofs.Rounding
import Mathlib.Data.List.TakeWhile

namespace C15

open Text

/-! ## Whole numbers -/

namespace Text

theorem ofDigits_eq (ds : List Char) : ofDigits ds = Nat.ofDigitChars 10 ds 0 := rfl

@[simp] theorem ofDigits_toDigits (n : Nat) : ofDigits (Nat.toDigits 10 n) = n := Nat.ofDigitChars_ten_toDigits

theorem ofDigits_append (as bs : List Char) : ofDigits (as ++ bs) = 10 ^ bs.length * ofDigits as + ofDigits bs := by
  rw [ofDigits_eq, Nat.ofDigitChars_append, Nat.ofDigitChars_eq_ofDigitChars_zero]
  rfl

theorem ofDigits_append_zeros (as : List Char) (n : Nat) :
    ofDigits (as ++ List.replicate n '0') = 10 ^ n * ofDigits as := by
  rw [ofDigits_eq, Nat.ofDigitChars_append, Nat.ofDigitChars_replicate_zero]
  rfl

theorem ofDigits_zeros_append (n : Nat) (as : List Char) : ofDigits (List.replicate n '0' ++ as) = ofDigits as := by
  have hzero : ofDigits (List.replicate n '0') = 0 := by
    rw [ofDigits_eq, Nat.ofDigitChars_replicate_zero, Nat.mul_zero]
  rw [ofDigits_append, hzero, Nat.mul_zero, Nat.zero_add]

theorem isDigit_toDigits {n : Nat} {c : Char} (h : c ∈ Nat.toDigits 10 n) : c.isDigit = true :=
  Nat.isDigit_of_mem_toDigits (by norm_num) (by norm_num) h

/-- a digit below sixteen, in upper case -/
theorem hexValue_digitChar {d : Nat} (h : d < 16) :
    isHexDigit d.digitChar.toUpper = true ∧ hexValue d.digitChar.toUpper = d := by
  interval_cases d <;> decide

theorem ofHexDigits_append_singleton (ds : List Char) (c : Char) :
    ofHexDigits (ds ++ [c]) = 16 * ofHexDigits ds + hexValue c := by
  simp [ofHexDigits]

/-- hexadecimal digits in upper case -/
theorem hexDigits_toUpper (n : Nat) :
    ((Nat.toDigits 16 n).map Char.toUpper).all isHexDigit = true ∧
      ofHexDigits ((Nat.toDigits 16 n).map Char.toUpper) = n := by
  induction n using Nat.strong_induction_on with
  | _ n ih =>
    rcases Nat.lt_or_ge n 16 with hlt | hge
    · rw [Nat.toDigits_of_lt_base hlt]
      obtain ⟨hdigit, hvalue⟩ := hexValue_digitChar hlt
      simp [hdigit, ofHexDigits, hvalue]
    · rw [Nat.toDigits_of_base_le (by norm_num) hge]
      obtain ⟨hdigits, hvalues⟩ := ih (n / 16) (Nat.div_lt_self (by omega) (by norm_num))
      obtain ⟨hdigit, hvalue⟩ := hexValue_digitChar (Nat.mod_lt n (by norm_num : 0 < 16))
      rw [List.map_append, List.map_singleton, ofHexDigits_append_singleton, hvalues, hvalue, List.all_append, hdigits]
      exact ⟨by simp [hdigit], Nat.div_add_mod n 16⟩

end Text

/-! ## Decimals -/

namespace Binary32

/-- digits end where something else begins -/
theorem takeWhile_digits {ds : List Char} (hds : ∀ c ∈ ds, c.isDigit = true) {c : Char} (hc : c.isDigit = false)
    (rest : List Char) :
    (ds ++ c :: rest).takeWhile Char.isDigit = ds ∧ (ds ++ c :: rest).dropWhile Char.isDigit = c :: rest := by
  rw [List.takeWhile_append_of_pos hds, List.dropWhile_append_of_pos hds]
  simp [hc]

theorem takeWhile_all_digits {ds : List Char} (hds : ∀ c ∈ ds, c.isDigit = true) :
    ds.takeWhile Char.isDigit = ds ∧ ds.dropWhile Char.isDigit = [] :=
  ⟨List.takeWhile_eq_self_iff.2 hds, List.dropWhile_eq_nil_iff.2 hds⟩

/-- digits with a point among them -/
theorem readDecimal_point {whole fraction : List Char} (hw : ∀ c ∈ whole, c.isDigit = true)
    (hf : ∀ c ∈ fraction, c.isDigit = true) (hne : fraction ≠ []) :
    readDecimal (whole ++ '.' :: fraction) = some ⟨ofDigits (whole ++ fraction), -(fraction.length : Int)⟩ := by
  obtain ⟨htake, hdrop⟩ := takeWhile_digits hw (c := '.') (by decide) fraction
  obtain ⟨htake', hdrop'⟩ := takeWhile_all_digits hf
  simp [readDecimal, htake, hdrop, htake', hdrop', hne]

/-- digits with a point among them and an exponent -/
theorem readDecimal_point_exponent {whole fraction exponent : List Char} {e : Int} (hw : ∀ c ∈ whole, c.isDigit = true)
    (hf : ∀ c ∈ fraction, c.isDigit = true) (hne : fraction ≠ []) (he : readExponent exponent = some e) :
    readDecimal (whole ++ '.' :: (fraction ++ 'e' :: exponent)) =
      some ⟨ofDigits (whole ++ fraction), e - fraction.length⟩ := by
  obtain ⟨htake, hdrop⟩ := takeWhile_digits hw (c := '.') (by decide) (fraction ++ 'e' :: exponent)
  obtain ⟨htake', hdrop'⟩ := takeWhile_digits hf (c := 'e') (by decide) exponent
  simp [readDecimal, htake, hdrop, htake', hdrop', hne, he]

/-- digits and an exponent -/
theorem readDecimal_exponent {whole exponent : List Char} {e : Int} (hw : ∀ c ∈ whole, c.isDigit = true)
    (hne : whole ≠ []) (he : readExponent exponent = some e) :
    readDecimal (whole ++ 'e' :: exponent) = some ⟨ofDigits whole, e⟩ := by
  obtain ⟨htake, hdrop⟩ := takeWhile_digits hw (c := 'e') (by decide) exponent
  simp [readDecimal, htake, hdrop, hne, he]

/-- a digit is not a sign -/
theorem readSign_cons {c : Char} (hc : c.isDigit = true) (rest : List Char) :
    readSign (c :: rest) = (false, c :: rest) := by
  unfold readSign
  split
  · rename_i heq
    rw [(List.cons.inj heq).1] at hc
    exact absurd hc (by decide)
  · rename_i heq
    rw [(List.cons.inj heq).1] at hc
    exact absurd hc (by decide)
  · rfl

theorem readSign_digits {ds : List Char} (hds : ∀ c ∈ ds, c.isDigit = true) : readSign ds = (false, ds) := by
  cases ds with
  | nil => rfl
  | cons c rest => exact readSign_cons (hds c List.mem_cons_self) rest

theorem readExponent_digits {ds : List Char} (hds : ∀ c ∈ ds, c.isDigit = true) (hne : ds ≠ []) :
    readExponent ds = some (ofDigits ds : Int) ∧ readExponent ('-' :: ds) = some (-(ofDigits ds : Int)) := by
  have hall : ds.all Char.isDigit = true := List.all_eq_true.2 hds
  have hempty : ds.isEmpty = false := List.isEmpty_eq_false_iff.2 hne
  constructor
  · simp only [readExponent, readSign_digits hds, hall, hempty]
    rfl
  · simp only [readExponent, readSign, hall, hempty]
    rfl

theorem toList_toString_int (e : Int) :
    (toString e).toList = if 0 ≤ e then Nat.toDigits 10 e.toNat else '-' :: Nat.toDigits 10 (-e).toNat := by
  change e.repr.toList = _
  rw [Int.repr_eq_if]
  split
  · rw [Nat.repr_eq_ofList_toDigits, String.toList_ofList]
  · simp [String.toList_append, Nat.repr_eq_ofList_toDigits]

/-- the text of a whole exponent -/
theorem readExponent_toString (e : Int) : readExponent (toString e).toList = some e := by
  rw [toList_toString_int]
  split
  · rw [(readExponent_digits (fun _ => isDigit_toDigits) Nat.toDigits_ne_nil).1, ofDigits_toDigits]
    congr 1
    omega
  · rw [(readExponent_digits (fun _ => isDigit_toDigits) Nat.toDigits_ne_nil).2, ofDigits_toDigits]
    congr 1
    omega

/-! ## Shortest decimals -/

/-- the value of significant digits before a place -/
def Digits.value (d : Digits) : ℚ := ofDigits d.digits * 10 ^ (d.point - d.digits.length)

/-- digits that stand for a number -/
structure Digits.Valid (d : Digits) : Prop where
  digits : ∀ c ∈ d.digits, c.isDigit = true
  nonempty : d.digits ≠ []

/-- leaving out the zeros at the end changes the place, not the value -/
theorem exists_trailing_zeros (ds : List Char) :
    ∃ n, ds = (ds.reverse.dropWhile (· == '0')).reverse ++ List.replicate n '0' := by
  have hsplit : ds.reverse.takeWhile (· == '0') ++ ds.reverse.dropWhile (· == '0') = ds.reverse :=
    List.takeWhile_append_dropWhile
  have hzeros : ds.reverse.takeWhile (· == '0') = List.replicate (ds.reverse.takeWhile (· == '0')).length '0' :=
    List.eq_replicate_of_mem fun c hc => by simpa using List.mem_takeWhile_imp hc
  refine ⟨(ds.reverse.takeWhile (· == '0')).length, ?_⟩
  have := congrArg List.reverse hsplit
  rw [List.reverse_append, List.reverse_reverse, hzeros, List.reverse_replicate] at this
  exact this.symm

/-- the digits of a positive decimal are digits of its value -/
theorem ofDecimal_valid {d : Decimal} (h : 0 < d.coefficient) :
    (Digits.ofDecimal d).Valid ∧ (Digits.ofDecimal d).value = d.value := by
  obtain ⟨n, hn⟩ := exists_trailing_zeros (Nat.toDigits 10 d.coefficient)
  have hcoefficient : 10 ^ n * ofDigits (Digits.ofDecimal d).digits = d.coefficient := by
    rw [← ofDigits_append_zeros, Digits.ofDecimal, ← hn, ofDigits_toDigits]
  have hlength : (Nat.toDigits 10 d.coefficient).length = (Digits.ofDecimal d).digits.length + n := by
    rw [hn, List.length_append, List.length_replicate]
    rfl
  refine ⟨⟨fun c hc => ?_, fun hnil => ?_⟩, ?_⟩
  · refine isDigit_toDigits (n := d.coefficient) ?_
    rw [hn]
    exact List.mem_append_left _ hc
  · rw [hnil] at hcoefficient
    simp [ofDigits] at hcoefficient
    omega
  · have hpoint : (Digits.ofDecimal d).point - (Digits.ofDecimal d).digits.length = d.exponent + n := by
      rw [show (Digits.ofDecimal d).point = d.exponent + ((Nat.toDigits 10 d.coefficient).length : Int) from rfl,
        hlength]
      push_cast
      ring
    rw [Digits.value, Decimal.value, hpoint, zpow_add₀ (by norm_num), zpow_natCast, ← hcoefficient]
    push_cast
    ring

theorem isDigit_zeros (n : Nat) : ∀ c ∈ List.replicate n '0', c.isDigit = true := by
  intro c hc
  rw [List.eq_of_mem_replicate hc]
  rfl

theorem isDigit_append {as bs : List Char} (ha : ∀ c ∈ as, c.isDigit = true) (hb : ∀ c ∈ bs, c.isDigit = true) :
    ∀ c ∈ as ++ bs, c.isDigit = true := by
  intro c hc
  rcases List.mem_append.1 hc with hc | hc
  · exact ha c hc
  · exact hb c hc

/-- the place is not after the first digit: `0.000ddd` -/
theorem readDecimal_small {d : Digits} (hd : d.Valid) (h : d.point ≤ 0) :
    ∃ e, readDecimal ('0' :: '.' :: (List.replicate (-d.point).toNat '0' ++ d.digits)) = some e ∧
      e.value = d.value := by
  have hfraction := isDigit_append (isDigit_zeros (-d.point).toNat) hd.digits
  have hread := readDecimal_point (isDigit_zeros 1) hfraction (by simp [hd.nonempty])
  refine ⟨_, hread, ?_⟩
  rw [Decimal.value, Digits.value, ofDigits_zeros_append, ofDigits_zeros_append]
  congr 2
  simp only [List.length_append, List.length_replicate]
  omega

/-- the place is among the digits: `dd.ddd` -/
theorem readDecimal_among {d : Digits} (hd : d.Valid) {k : Nat} (hk : d.point = k) (h : k < d.digits.length) :
    ∃ e, readDecimal (d.digits.take k ++ '.' :: d.digits.drop k) = some e ∧ e.value = d.value := by
  have hne : d.digits.drop k ≠ [] := by simpa using h
  have htake : ∀ c ∈ d.digits.take k, c.isDigit = true := fun c hc => hd.digits c (List.mem_of_mem_take hc)
  have hdrop : ∀ c ∈ d.digits.drop k, c.isDigit = true := fun c hc => hd.digits c (List.mem_of_mem_drop hc)
  refine ⟨_, readDecimal_point htake hdrop hne, ?_⟩
  rw [Decimal.value, Digits.value, List.take_append_drop, List.length_drop, hk]
  congr 2
  dsimp only
  omega

/-- the place is after the digits: `ddd000.0` -/
theorem readDecimal_large {d : Digits} (hd : d.Valid) {k : Nat} (hk : d.point = k) (h : d.digits.length ≤ k) :
    ∃ e, readDecimal ((d.digits ++ List.replicate (k - d.digits.length) '0') ++ '.' :: ['0']) = some e ∧
      e.value = d.value := by
  have hread := readDecimal_point (isDigit_append hd.digits (isDigit_zeros (k - d.digits.length)))
    (isDigit_zeros 1) (by simp)
  refine ⟨_, hread, ?_⟩
  have hpoint : d.point - d.digits.length = (k - d.digits.length : Nat) := by omega
  rw [Decimal.value, Digits.value, ofDigits_append_zeros, ofDigits_append_zeros, hpoint,
    List.length_replicate, zpow_natCast]
  push_cast
  rw [zpow_neg]
  norm_num
  ring

/-- with a point the digits are read back as a decimal of the same value -/
theorem readDecimal_positional {d : Digits} (hd : d.Valid) :
    ∃ e, readDecimal d.positional = some e ∧ e.value = d.value := by
  unfold Digits.positional
  split
  · rename_i hpoint
    exact readDecimal_small hd hpoint
  · rename_i hpoint
    have hk : d.point = d.point.toNat := by omega
    rcases Nat.lt_or_ge d.point.toNat d.digits.length with hlt | hge
    · have hnone : d.point.toNat - d.digits.length = 0 := by omega
      have hsome : (d.digits.drop d.point.toNat).isEmpty = false := by simpa using hlt
      simpa [hnone, hsome] using readDecimal_among hd hk hlt
    · have hall : d.digits.take d.point.toNat = d.digits := List.take_of_length_le hge
      have hnil : d.digits.drop d.point.toNat = [] := List.drop_of_length_le hge
      simpa [hall, hnil] using readDecimal_large hd hk hge

/-- with an exponent the digits are read back as a decimal of the same value -/
theorem readDecimal_scientific {d : Digits} (hd : d.Valid) :
    ∃ e, readDecimal d.scientific = some e ∧ e.value = d.value := by
  obtain ⟨first, rest, hdigits⟩ := List.exists_cons_of_ne_nil hd.nonempty
  have hexponent := readExponent_toString (d.point - 1)
  have hfirst : ∀ c ∈ [first], c.isDigit = true := fun c hc => hd.digits c (by simp_all)
  unfold Digits.scientific
  rw [hdigits, List.take_succ_cons, List.drop_succ_cons, List.take_zero, List.drop_zero]
  cases rest with
  | nil =>
    refine ⟨_, readDecimal_exponent hfirst (by simp) hexponent, ?_⟩
    simp [Decimal.value, Digits.value, hdigits]
  | cons second rest =>
    have hrest : ∀ c ∈ second :: rest, c.isDigit = true := fun c hc => hd.digits c (hdigits ▸ List.mem_cons_of_mem _ hc)
    have hread := readDecimal_point_exponent hfirst hrest (by simp) hexponent
    refine ⟨_, by simpa using hread, ?_⟩
    rw [Decimal.value, Digits.value, hdigits]
    congr 2
    simp only [List.length_cons]
    omega

/-! ## Numbers -/

/-- the shortest decimal of a finite magnitude is positive -/
theorem shortest_coefficient_pos {m : Nat} (hm : 0 < m) (hfinite : m < infinityMagnitude) :
    0 < (shortest m).coefficient := by
  rw [Nat.pos_iff_ne_zero]
  intro hzero
  have hround := round_shortest hm hfinite
  rw [Decimal.round, if_pos hzero] at hround
  omega

/-- the text of a finite magnitude is read back as the magnitude -/
theorem readMagnitude_magnitudeText {m : Nat} (hfinite : m < infinityMagnitude) :
    readMagnitude (magnitudeText m) = some m := by
  unfold magnitudeText
  rw [if_neg (not_lt.2 hfinite.le), if_neg hfinite.ne]
  split
  · rename_i hzero
    subst hzero
    decide
  · rename_i hzero
    have hm : 0 < m := Nat.pos_of_ne_zero hzero
    obtain ⟨hvalid, hvalue⟩ := ofDecimal_valid (shortest_coefficient_pos hm hfinite)
    have hread : ∃ e,
        readDecimal (if leastPositional ≤ m ∧ m < leastScientific then (Digits.ofDecimal (shortest m)).positional
        else (Digits.ofDecimal (shortest m)).scientific) = some e ∧
          e.value = (Digits.ofDecimal (shortest m)).value := by
      split
      · exact readDecimal_positional hvalid
      · exact readDecimal_scientific hvalid
    obtain ⟨e, he, hsame⟩ := hread
    have hround : e.round = m := by
      rw [Decimal.round_congr (hsame.trans hvalue), round_shortest hm hfinite]
    simp only [readMagnitude, he, hround]

/-- characters in the text of a finite number -/
def isNumeralChar (c : Char) : Bool := c.isDigit || c == '.' || c == 'e' || c == '-'

/-- a text that begins with a digit and has only the characters of numbers -/
structure Numeral (cs : List Char) : Prop where
  head : ∃ c rest, cs = c :: rest ∧ c.isDigit = true
  chars : ∀ c ∈ cs, isNumeralChar c = true

theorem isNumeralChar_of_isDigit {c : Char} (h : c.isDigit = true) :
    isNumeralChar c = true := by simp [isNumeralChar, h]

theorem numeral_positional {d : Digits} (hd : d.Valid) : Numeral d.positional := by
  have hdigits : ∀ c ∈ d.digits, isNumeralChar c = true := fun c hc => isNumeralChar_of_isDigit (hd.digits c hc)
  have hzeros : ∀ n, ∀ c ∈ List.replicate n '0', isNumeralChar c = true := fun n c hc =>
    isNumeralChar_of_isDigit (isDigit_zeros n c hc)
  obtain ⟨first, rest, hfirst⟩ := List.exists_cons_of_ne_nil hd.nonempty
  unfold Digits.positional
  split
  · refine ⟨⟨'0', _, rfl, rfl⟩, fun c hc => ?_⟩
    simp only [List.mem_cons, List.mem_append] at hc
    rcases hc with rfl | rfl | hc | hc
    · rfl
    · rfl
    · exact hzeros _ c hc
    · exact hdigits c hc
  · rename_i hpoint
    obtain ⟨k, hk⟩ : ∃ k, d.point.toNat = k + 1 := ⟨d.point.toNat - 1, by omega⟩
    refine ⟨⟨first, ?_⟩, fun c hc => ?_⟩
    · simp only [hk, hfirst, List.take_succ_cons, List.cons_append]
      exact ⟨_, rfl, hd.digits first (by simp [hfirst])⟩
    · simp only [List.mem_append, List.mem_cons] at hc
      rcases hc with (hc | hc) | rfl | hc
      · exact hdigits c (List.mem_of_mem_take hc)
      · exact hzeros _ c hc
      · rfl
      · split at hc
        · simp only [List.mem_singleton] at hc
          subst hc
          rfl
        · exact hdigits c (List.mem_of_mem_drop hc)

theorem numeral_scientific {d : Digits} (hd : d.Valid) : Numeral d.scientific := by
  have hdigits : ∀ c ∈ d.digits, isNumeralChar c = true := fun c hc => isNumeralChar_of_isDigit (hd.digits c hc)
  have hexponent : ∀ c ∈ (toString (d.point - 1)).toList, isNumeralChar c = true := by
    intro c hc
    rw [toList_toString_int] at hc
    split at hc
    · exact isNumeralChar_of_isDigit (isDigit_toDigits hc)
    · rcases List.mem_cons.1 hc with rfl | hc
      · rfl
      · exact isNumeralChar_of_isDigit (isDigit_toDigits hc)
  obtain ⟨first, rest, hfirst⟩ := List.exists_cons_of_ne_nil hd.nonempty
  unfold Digits.scientific
  refine ⟨⟨first, ?_⟩, fun c hc => ?_⟩
  · simp only [hfirst, List.take_succ_cons, List.cons_append]
    exact ⟨_, rfl, hd.digits first (by simp [hfirst])⟩
  · simp only [List.mem_append, List.mem_cons] at hc
    rcases hc with (hc | hc) | rfl | hc
    · exact hdigits c (List.mem_of_mem_take hc)
    · split at hc
      · cases hc
      · rcases List.mem_cons.1 hc with rfl | hc
        · rfl
        · exact hdigits c (List.mem_of_mem_drop hc)
    · rfl
    · exact hexponent c hc

theorem numeral_magnitudeText {m : Nat} (hfinite : m < infinityMagnitude) : Numeral (magnitudeText m) := by
  unfold magnitudeText
  rw [if_neg (not_lt.2 hfinite.le), if_neg hfinite.ne]
  split
  · exact ⟨⟨'0', _, rfl, rfl⟩, List.all_eq_true.1 (by decide)⟩
  · rename_i hzero
    obtain ⟨hvalid, -⟩ := ofDecimal_valid (shortest_coefficient_pos (Nat.pos_of_ne_zero hzero) hfinite)
    dsimp only
    split
    · exact numeral_positional hvalid
    · exact numeral_scientific hvalid

theorem ofMagnitude_magnitude (x : Binary32) : ofMagnitude x.isNegative x.magnitude = x := by
  obtain ⟨w⟩ := x
  have hlt : w.toNat < 2 ^ 32 := w.toNat_lt
  have hword :
      (if (⟨w⟩ : Binary32).isNegative then 0x80000000 + (⟨w⟩ : Binary32).magnitude else (⟨w⟩ : Binary32).magnitude) =
      w.toNat := by
    simp only [isNegative, magnitude, decide_eq_true_eq]
    split <;> omega
  rw [ofMagnitude, hword]
  simp

theorem text_toList {x : Binary32} (hfinite : x.magnitude < infinityMagnitude) :
    x.text.toList = (if x.isNegative then ['-'] else []) ++ magnitudeText x.magnitude := by
  rw [text, String.toList_ofList]
  cases x.isNegative <;> simp [hfinite.le]

theorem isNumeralChar_text {x : Binary32} (hx : x.isFinite = true) : ∀ c ∈ x.text.toList, isNumeralChar c = true := by
  have hfinite : x.magnitude < infinityMagnitude := by simpa [isFinite] using hx
  intro c hc
  rw [text_toList hfinite] at hc
  rcases List.mem_append.1 hc with hc | hc
  · split at hc
    · simp only [List.mem_singleton] at hc
      subst hc
      rfl
    · cases hc
  · exact (numeral_magnitudeText hfinite).chars c hc

/-- **Round trip of numbers.** The text of a finite number reads back as the number. -/
theorem ofText?_text {x : Binary32} (hx : x.isFinite = true) : ofText? x.text.toList = some x := by
  have hfinite : x.magnitude < infinityMagnitude := by simpa [isFinite] using hx
  have hread := readMagnitude_magnitudeText hfinite
  obtain ⟨c, rest, htext, hc⟩ := (numeral_magnitudeText hfinite).head
  have hsign : readSign x.text.toList = (x.isNegative, magnitudeText x.magnitude) := by
    rw [text_toList hfinite]
    cases x.isNegative with
    | true => rfl
    | false =>
      rw [htext, if_neg Bool.false_ne_true, List.nil_append, readSign_cons hc]
  simp only [ofText?, hsign, hread, Option.map_some, ofMagnitude_magnitude]

end Binary32

/-! ## Literals -/

/-- a literal that has a text: a number is finite -/
def Literal.Finite : Literal → Prop
  | .int _ | .uint _ => True
  | .float x => x.isFinite = true

namespace Number

theorem not_mem_digits {ds : List Char} (hds : ∀ c ∈ ds, c.isDigit = true) {c : Char} (hc : c.isDigit = false) :
    c ∉ ds :=
  fun hmem => by simp [hds c hmem] at hc

theorem accepts_of_digits {n : Radix} {ds : List Char} (hds : ds.all n.isDigit = true) (hne : ds ≠ []) :
    n.accepts ds = true := by
  rw [Radix.accepts, hds, List.isEmpty_eq_false_iff.2 hne]
  rfl

/-- digits of a word are read as a number -/
theorem natural_of_digits {n : Radix} {ds : List Char} (hds : ds.all n.isDigit = true) (hne : ds ≠ [])
    (hplus : n.isDigit '+' = false) (hlt : n.value ds < 2 ^ 32) : n.natural ds = .ok (n.value ds) := by
  have hhead : ∀ rest, ds ≠ '+' :: rest := by
    rintro rest rfl
    simp [hplus] at hds
  have hsmall : n.value ds < 0x10000000000000000 := by omega
  unfold Radix.natural
  split
  · exact absurd rfl (hhead _)
  · simp only [accepts_of_digits hds hne, Bool.true_and, decide_eq_true hsmall, if_true]

theorem word_toNat (w : UInt32) : word w.toNat = .ok w := by
  rw [word, if_pos w.toNat_lt, UInt32.ofNat_toNat]

/-- a text without the mark of hexadecimal numbers -/
theorem parse_of_not_mem {cs : List Char} (hx : 'x' ∉ cs) (hX : 'X' ∉ cs) :
    parse cs = if cs.getLast? = some 'u' then (do word (← decimal.natural cs.dropLast))
      else if cs.getLast? = some 'f' ∨ '.' ∈ cs then float cs
      else do
        let n ← integer cs
        if n < -0x80000000 ∨ 0x100000000 ≤ n then throw .outOfRange
        return UInt32.ofNat (n % 0x100000000).toNat := by
  unfold parse
  split
  · simp at hx
  · simp at hX
  · rfl

theorem digits_all (n : Nat) : (Nat.toDigits 10 n).all Char.isDigit = true :=
  List.all_eq_true.2 fun _ => isDigit_toDigits

theorem toList_toString (n : Nat) : (toString n).toList = Nat.toDigits 10 n := by
  rw [Nat.toString_eq_ofList_toDigits, String.toList_ofList]

/-- decimal digits denote a word -/
theorem parse_digits {n : Nat} (h : n < 2 ^ 32) : parse (Nat.toDigits 10 n) = .ok (UInt32.ofNat n) := by
  have hds : ∀ c ∈ Nat.toDigits 10 n, c.isDigit = true := fun _ => isDigit_toDigits
  have hlast : ∀ c, c.isDigit = false → (Nat.toDigits 10 n).getLast? ≠ some c := fun c hc heq =>
    not_mem_digits hds hc (List.mem_of_getLast? heq)
  have hinteger : integer (Nat.toDigits 10 n) = .ok (n : Int) := by
    have hsmall : n < 0x8000000000000000 := by omega
    have haccepts : decimal.accepts (Nat.toDigits 10 n) = true := accepts_of_digits (digits_all n) Nat.toDigits_ne_nil
    simp only [integer, Binary32.readSign_digits hds, haccepts, ofDigits_toDigits, Bool.true_and,
      if_neg Bool.false_ne_true, decide_eq_true hsmall, if_true]
  rw [parse_of_not_mem (not_mem_digits hds (by decide)) (not_mem_digits hds (by decide)),
    if_neg (hlast 'u' (by decide)), if_neg (not_or.2 ⟨hlast 'f' (by decide), not_mem_digits hds (by decide)⟩), hinteger]
  have hrange : ¬ ((n : Int) < -0x80000000 ∨ 0x100000000 ≤ (n : Int)) := by omega
  have hmod : ((n : Int) % 0x100000000).toNat = n := by omega
  simp only [bind, Except.bind, if_neg hrange, hmod]
  rfl

/-- digits with the mark of unsigned words -/
theorem parse_unsigned (w : UInt32) : parse (Nat.toDigits 10 w.toNat ++ ['u']) = .ok w := by
  have hds : ∀ c ∈ Nat.toDigits 10 w.toNat, c.isDigit = true := fun _ => isDigit_toDigits
  have hmem : ∀ c, c.isDigit = false → c ≠ 'u' → c ∉ Nat.toDigits 10 w.toNat ++ ['u'] := by
    intro c hc hu
    rw [List.mem_append, List.mem_singleton]
    exact not_or.2 ⟨not_mem_digits hds hc, hu⟩
  have hnatural : decimal.natural (Nat.toDigits 10 w.toNat) = .ok w.toNat := by
    have hvalue : decimal.value (Nat.toDigits 10 w.toNat) = w.toNat := ofDigits_toDigits w.toNat
    rw [natural_of_digits (digits_all _) Nat.toDigits_ne_nil (by decide) (by rw [hvalue]; exact w.toNat_lt), hvalue]
  rw [parse_of_not_mem (hmem 'x' (by decide) (by decide)) (hmem 'X' (by decide) (by decide)), List.getLast?_concat,
    if_pos rfl, List.dropLast_concat, hnatural]
  exact word_toNat w

/-- hexadecimal digits in upper case -/
theorem parse_hexadecimal (w : UInt32) : parse ('0' :: 'x' :: (Nat.toDigits 16 w.toNat).map Char.toUpper) = .ok w := by
  obtain ⟨hall, hvalue⟩ := hexDigits_toUpper w.toNat
  have hne : (Nat.toDigits 16 w.toNat).map Char.toUpper ≠ [] := by simp [Nat.toDigits_ne_nil]
  have hlast : ((Nat.toDigits 16 w.toNat).map Char.toUpper).getLast? ≠ some 'u' := by
    intro heq
    have := List.all_eq_true.1 hall 'u' (List.mem_of_getLast? heq)
    exact absurd this (by decide)
  have hvalue' : hexadecimal.value ((Nat.toDigits 16 w.toNat).map Char.toUpper) = w.toNat := hvalue
  have hnatural : hexadecimal.natural ((Nat.toDigits 16 w.toNat).map Char.toUpper) = .ok w.toNat := by
    rw [natural_of_digits hall hne (by decide) (by rw [hvalue']; exact w.toNat_lt), hvalue']
  simp only [parse, if_neg hlast, List.isEmpty_eq_false_iff.2 hne, hnatural, bind, Except.bind]
  exact word_toNat w

/-- a number with its mark -/
theorem parse_float {x : Binary32} (hx : x.isFinite = true) : parse (x.text.toList ++ ['f']) = .ok x.bits := by
  have hmem : ∀ c, Binary32.isNumeralChar c = false → c ≠ 'f' → c ∉ x.text.toList ++ ['f'] := by
    intro c hc hf
    rw [List.mem_append, List.mem_singleton]
    refine not_or.2 ⟨fun hmem => ?_, hf⟩
    rw [Binary32.isNumeralChar_text hx c hmem] at hc
    cases hc
  rw [parse_of_not_mem (hmem 'x' (by decide) (by decide)) (hmem 'X' (by decide) (by decide)), List.getLast?_concat,
    if_neg (by decide), if_pos (Or.inl rfl), float, List.getLast?_concat, if_pos rfl, List.dropLast_concat,
    Binary32.ofText?_text hx]
  simp only [hx, if_true]

/-- **Literals.** The text of a literal denotes its word. -/
theorem parse_text {value : Literal} (h : value.Finite) : parse value.text.toList = .ok value.bits := by
  cases value with
  | int w =>
    unfold Literal.text
    dsimp only
    split
    · have htext :
          ("0x" ++ Literal.hexText w.toNat).toList = '0' :: 'x' :: (Nat.toDigits 16 w.toNat).map Char.toUpper := by
        simp [String.toList_append, Literal.hexText]
      rw [htext]
      exact parse_hexadecimal w
    · rw [toList_toString, parse_digits w.toNat_lt, UInt32.ofNat_toNat]
      rfl
  | uint w =>
    have htext : (Literal.uint w).text.toList = Nat.toDigits 10 w.toNat ++ ['u'] := by
      simp [Literal.text, String.toList_append]
    rw [htext]
    exact parse_unsigned w
  | float x =>
    have htext : (Literal.float x).text.toList = x.text.toList ++ ['f'] := by
      simp [Literal.text, String.toList_append]
    rw [htext]
    exact parse_float h

end Number

end C15

/-
The text of a document is read back as the document.

Strings, numbers and whole documents are followed with what stands behind them in the text left over: behind a value
that was written comes a comma, a new line or nothing (`Followed`), which no number takes in. A value written at any
level is read in one call that may nest two others for each of its characters; lists and members are followed from an
element on to the closing bracket. Results:
- `Json.parse?_print_zero`: reading undoes writing, for every document;
- `Image.parse?_print`: the file of an image holds the image.
-/
import C15.Image.Document
import C15.Proofs.Numerals

namespace C15

open Text

namespace Json

/-! ## Strings -/

/-- the number of a control character in two digits -/
theorem ofHexDigits_control {n : Nat} (h : n < 0x20) :
    ['0', '0', Nat.digitChar (n / 16), Nat.digitChar (n % 16)].all isHexDigit = true ∧
      ofHexDigits ['0', '0', Nat.digitChar (n / 16), Nat.digitChar (n % 16)] = n := by
  interval_cases n <;> decide

/-- a number that is no surrogate stands for its character, whatever follows -/
theorem charsOf_code {n : Nat} (h : n < 0xD800) (us : List StringUnit) :
    charsOf (.code n :: us) = (charsOf us).map (Char.ofNat n :: ·) := by
  have hhigh : isHighSurrogate n = false := by
    simp only [isHighSurrogate, Bool.and_eq_false_iff, decide_eq_false_iff_not]
    omega
  have hlow : isLowSurrogate n = false := by
    simp only [isLowSurrogate, Bool.and_eq_false_iff, decide_eq_false_iff_not]
    omega
  rcases us with _ | ⟨_ | _, us⟩ <;> simp [charsOf, hhigh, hlow]

/-- an escaped character is one unit, and the unit denotes the character -/
theorem exists_unit_escape (c : Char) :
    ∃ u : StringUnit, (∀ cs, units (escape c ++ cs) = (units cs).map fun r => (u :: r.1, r.2)) ∧
      ∀ us, charsOf (u :: us) = (charsOf us).map (c :: ·) := by
  by_cases hshort : c = '"' ∨ c = '\\' ∨ c = '\x08' ∨ c = '\x0c' ∨ c = '\n' ∨ c = '\r' ∨ c = '\t'
  · refine ⟨.char c, ?_, fun _ => rfl⟩
    intro cs
    rcases hshort with rfl | rfl | rfl | rfl | rfl | rfl | rfl <;> rfl
  · simp only [not_or] at hshort
    obtain ⟨hquote, hbackslash, h3, h4, h5, h6, h7⟩ := hshort
    by_cases hcontrol : c.toNat < 0x20
    · have hescape : escape c = ['\\', 'u', '0', '0', Nat.digitChar (c.toNat / 16), Nat.digitChar (c.toNat % 16)] := by
        simp only [escape, hquote, hbackslash, h3, h4, h5, h6, h7, hcontrol, if_false, if_true]
      obtain ⟨hdigits, hvalue⟩ := ofHexDigits_control hcontrol
      refine ⟨.code c.toNat, ?_, ?_⟩
      · intro cs
        simp only [hescape, List.cons_append, List.nil_append, units, hdigits, hvalue, if_true]
      · intro us
        rw [charsOf_code (by omega), Char.ofNat_toNat]
    · have hescape : escape c = [c] := by
        simp only [escape, hquote, hbackslash, h3, h4, h5, h6, h7, hcontrol, if_false]
      refine ⟨.char c, ?_, fun _ => rfl⟩
      intro cs
      rw [hescape, List.singleton_append, units.eq_def]
      split <;> simp_all

theorem units_escaped (cs rest : List Char) :
    ∃ us, units (cs.flatMap escape ++ '"' :: rest) = some (us, rest) ∧ charsOf us = some cs := by
  induction cs with
  | nil => exact ⟨[], rfl, rfl⟩
  | cons c cs ih =>
    obtain ⟨us, hunits, hchars⟩ := ih
    obtain ⟨u, hu, hc⟩ := exists_unit_escape c
    refine ⟨u :: us, ?_, ?_⟩
    · rw [List.flatMap_cons, List.append_assoc, hu, hunits]
      rfl
    · rw [hc, hchars]
      rfl

/-- a string without a value is one unpaired surrogate -/
theorem readString_print (value : Option String) (rest : List Char) :
    ∃ cs, printString value ++ rest = '"' :: cs ∧ readString cs = some (value, rest) := by
  cases value with
  | none => exact ⟨_, rfl, rfl⟩
  | some s =>
    obtain ⟨us, hunits, hchars⟩ := units_escaped s.toList rest
    refine ⟨s.toList.flatMap escape ++ '"' :: rest, by simp [printString], ?_⟩
    simp only [readString, hunits, Option.map_some, hchars, String.ofList_toList]

/-! ## Numbers -/

/-- what comes behind a value -/
inductive Followed : List Char → Prop where
  | nothing : Followed []
  | comma (cs : List Char) : Followed (',' :: cs)
  | newLine (cs : List Char) : Followed ('\n' :: cs)

theorem head_toDigits {n : Nat} (h : 0 < n) : (Nat.toDigits 10 n).head? ≠ some '0' := by
  induction n using Nat.strong_induction_on with
  | _ n ih =>
    by_cases hlt : n < 10
    · interval_cases n <;> decide
    · rw [Nat.toDigits_of_base_le (by norm_num) (by omega), List.head?_append_of_ne_nil _ Nat.toDigits_ne_nil]
      exact ih (n / 10) (Nat.div_lt_self h (by norm_num)) (by omega)

/-- no number has a zero in front of other digits -/
theorem toDigits_plain (n : Nat) :
    ((Nat.toDigits 10 n).isEmpty || ((Nat.toDigits 10 n).head? == some '0' && 1 < (Nat.toDigits 10 n).length)) =
      false := by
  rcases Nat.eq_zero_or_pos n with rfl | hn
  · decide
  · simp [Nat.toDigits_ne_nil, head_toDigits hn]

/-- the first digit of a number -/
theorem toDigits_cons (n : Nat) : ∃ c cs, Nat.toDigits 10 n = c :: cs ∧ c.isDigit = true := by
  obtain ⟨c, cs, hc⟩ := List.exists_cons_of_ne_nil (Nat.toDigits_ne_nil (b := 10) (n := n))
  exact ⟨c, cs, hc, isDigit_toDigits (n := n) (hc ▸ List.mem_cons_self)⟩

theorem ne_of_isDigit {c d : Char} (hc : c.isDigit = true) (hd : d.isDigit = false) : c ≠ d := by
  rintro rfl
  rw [hc] at hd
  cases hd

theorem Followed.digits {rest : List Char} (h : Followed rest) (ds : List Char) (hds : ∀ c ∈ ds, c.isDigit = true) :
    (ds ++ rest).takeWhile Char.isDigit = ds ∧ (ds ++ rest).dropWhile Char.isDigit = rest := by
  cases h with
  | nothing => simpa using Binary32.takeWhile_all_digits hds
  | comma cs => exact Binary32.takeWhile_digits hds (by decide) cs
  | newLine cs => exact Binary32.takeWhile_digits hds (by decide) cs

theorem readNumber_print (value : Option Nat) {rest : List Char} (h : Followed rest) :
    readNumber (printNumber value ++ rest) = some (value, rest) := by
  -- neither a fraction nor an exponent begins behind the digits
  have hfraction : readFraction rest = some (false, rest) := by cases h <;> rfl
  have hexponent : readExponent rest = some (false, rest) := by cases h <;> rfl
  cases value with
  | none =>
    obtain ⟨htake, hdrop⟩ := h.digits ['0'] (List.forall_mem_singleton.2 rfl)
    simp only [printNumber, List.cons_append, List.nil_append, readNumber] at htake hdrop ⊢
    simp [htake, hdrop, hfraction, hexponent]
  | some n =>
    obtain ⟨htake, hdrop⟩ := h.digits (Nat.toDigits 10 n) fun _ => isDigit_toDigits
    have hplain := toDigits_plain n
    have hunsigned : ∀ ds, Nat.toDigits 10 n ++ rest ≠ '-' :: ds := by
      intro ds heq
      obtain ⟨c, cs, hc, hdigit⟩ := toDigits_cons n
      rw [hc, List.cons_append, List.cons.injEq] at heq
      exact ne_of_isDigit hdigit (by decide) heq.1
    rw [printNumber, readNumber]
    · simp [htake, hdrop, hplain, hfraction, hexponent]
    · exact hunsigned

/-! ## Values -/

/-- a written value starts with neither a blank nor a closing bracket -/
theorem print_cons (level : Nat) (j : Json) : ∃ c cs, print level j = c :: cs ∧ isSpace c = false ∧ c ≠ ']' := by
  cases j with
  | null => exact ⟨'n', _, by rw [print], by decide, by decide⟩
  | bool b =>
    cases b with
    | true => exact ⟨'t', _, by rw [print], by decide, by decide⟩
    | false => exact ⟨'f', _, by rw [print], by decide, by decide⟩
  | number value =>
    rw [print]
    cases value with
    | none => exact ⟨'-', _, rfl, by decide, by decide⟩
    | some n =>
      obtain ⟨c, cs, hc, hdigit⟩ := toDigits_cons n
      refine ⟨c, cs, hc, ?_, ?_⟩
      · simp only [isSpace, Bool.or_eq_false_iff, beq_eq_false_iff_ne]
        refine ⟨⟨⟨?_, ?_⟩, ?_⟩, ?_⟩ <;> exact ne_of_isDigit hdigit (by decide)
      · exact ne_of_isDigit hdigit (by decide)
  | string value =>
    obtain ⟨cs, hcs, -⟩ := readString_print value []
    rw [List.append_nil] at hcs
    exact ⟨'"', cs, by rw [print, hcs], by decide, by decide⟩
  | array items =>
    cases items with
    | nil => exact ⟨'[', _, by rw [print], by decide, by decide⟩
    | cons x xs => exact ⟨'[', _, by simp only [print, List.cons_append]; rfl, by decide, by decide⟩
  | object members =>
    rcases members with _ | ⟨⟨key, x⟩, ms⟩
    · exact ⟨'{', _, by rw [print], by decide, by decide⟩
    · exact ⟨'{', _, by simp only [print, List.cons_append]; rfl, by decide, by decide⟩

theorem length_print_pos (level : Nat) (j : Json) : 0 < (print level j).length := by
  obtain ⟨c, cs, hprint, -⟩ := print_cons level j
  rw [hprint]
  exact Nat.succ_pos _

theorem skip_newLine (level : Nat) (cs : List Char) : skip (newLine level ++ cs) = skip cs := by
  have hblank : ∀ c ∈ newLine level, isSpace c = true := by
    intro c hc
    rcases List.mem_cons.1 hc with rfl | hc
    · decide
    · rw [List.eq_of_mem_replicate hc]
      decide
  rw [skip, List.dropWhile_append_of_pos hblank, skip]

theorem skip_cons {c : Char} (h : isSpace c = false) (cs : List Char) : skip (c :: cs) = c :: cs := by
  simp [skip, h]

theorem skip_printString (key : Option String) (cs : List Char) :
    skip (printString key ++ cs) = printString key ++ cs := by
  obtain ⟨ds, hds, -⟩ := readString_print key cs
  rw [hds, skip_cons rfl]

theorem skip_print (level : Nat) (j : Json) (cs : List Char) : skip (print level j ++ cs) = print level j ++ cs := by
  obtain ⟨c, ds, hprint, hc, -⟩ := print_cons level j
  rw [hprint, List.cons_append, skip_cons hc]

/-- items or members that follow begin with a comma, and the closing bracket stands on a new line -/
theorem followed_printItems (level outer : Nat) (xs : List Json) (cs : List Char) :
    Followed (printItems level xs ++ (newLine outer ++ cs)) := by
  cases xs with
  | nil => exact .newLine _
  | cons x xs =>
    simp only [printItems, List.cons_append]
    exact .comma _

theorem followed_printMembers (level outer : Nat) (ms : List (Option String × Json)) (cs : List Char) :
    Followed (printMembers level ms ++ (newLine outer ++ cs)) := by
  cases ms with
  | nil => exact .newLine _
  | cons m ms =>
    obtain ⟨key, x⟩ := m
    simp only [printMembers, List.cons_append]
    exact .comma _

/-- a value on a line of its own inside brackets is not the closing bracket -/
theorem readValue_array {fuel level : Nat} {x : Json} {cs rest : List Char} {xs : List Json}
    (h : readItems fuel (print level x ++ cs) = some (xs, rest)) :
    readValue (fuel + 1) ('[' :: (newLine level ++ (print level x ++ cs))) = some (.array xs, rest) := by
  obtain ⟨c, ds, hprint, -, hclose⟩ := print_cons level x
  rw [readValue, skip_newLine, skip_print]
  split
  · rename_i heq
    rw [hprint, List.cons_append, List.cons.injEq] at heq
    exact absurd heq.1 hclose
  · rw [h]
    rfl

theorem readValue_object {fuel level : Nat} {key : Option String} {cs rest : List Char}
    {ms : List (Option String × Json)} (h : readMembers fuel (printString key ++ cs) = some (ms, rest)) :
    readValue (fuel + 1) ('{' :: (newLine level ++ (printString key ++ cs))) = some (.object ms, rest) := by
  obtain ⟨ds, hds, -⟩ := readString_print key cs
  rw [hds] at h ⊢
  rw [readValue, skip_newLine, skip_cons (by decide)]
  simp [h]

/-- no other value begins like a number -/
theorem readValue_number {fuel : Nat} {c : Char} (hc : c = '-' ∨ c.isDigit = true) (cs : List Char) :
    readValue (fuel + 1) (c :: cs) = (readNumber (c :: cs)).map fun r => (.number r.1, r.2) := by
  have hne : ∀ d : Char, d.isDigit = false → d ≠ '-' → c ≠ d := by
    rintro d hd hminus rfl
    rcases hc with rfl | hc
    · exact hminus rfl
    · exact ne_of_isDigit hc hd rfl
  rw [readValue]
  all_goals
    intro rest heq
    exact hne _ (by decide) (by decide) (List.cons.inj heq).1

theorem readValue_printNumber {fuel : Nat} (value : Option Nat) {rest : List Char} (h : Followed rest) :
    readValue (fuel + 1) (printNumber value ++ rest) = some (.number value, rest) := by
  have hnumber := readNumber_print value h
  cases value with
  | none =>
    rw [printNumber] at hnumber ⊢
    rw [List.cons_append, readValue_number (.inl rfl), ← List.cons_append, hnumber]
    rfl
  | some n =>
    obtain ⟨c, cs, hc, hdigit⟩ := toDigits_cons n
    rw [printNumber, hc] at hnumber ⊢
    rw [List.cons_append, readValue_number (.inr hdigit), ← List.cons_append, hnumber]
    rfl

/-! ### Items and members, step by step -/

theorem readItems_last {fuel : Nat} {x : Json} {cs behind rest : List Char} (hx : readValue fuel cs = some (x, behind))
    (hclose : skip behind = ']' :: rest) : readItems (fuel + 1) cs = some ([x], rest) := by
  simp only [readItems, hx, Option.bind_eq_bind, Option.bind_some, hclose]
  rfl

theorem readItems_more {fuel : Nat} {x : Json} {xs : List Json} {cs behind next rest : List Char}
    (hx : readValue fuel cs = some (x, behind)) (hcomma : skip behind = ',' :: next)
    (hxs : readItems fuel (skip next) = some (xs, rest)) : readItems (fuel + 1) cs = some (x :: xs, rest) := by
  simp only [readItems, hx, Option.bind_eq_bind, Option.bind_some, hcomma, hxs]
  rfl

theorem readMembers_last {fuel level : Nat} (key : Option String) {x : Json} {behind rest : List Char}
    (hx : readValue fuel (print level x ++ behind) = some (x, behind)) (hclose : skip behind = '}' :: rest) :
    readMembers (fuel + 1) (printString key ++ (':' :: ' ' :: (print level x ++ behind))) =
      some ([(key, x)], rest) := by
  obtain ⟨cs, hcs, hkey⟩ := readString_print key (':' :: ' ' :: (print level x ++ behind))
  have hcolon : skip (':' :: ' ' :: (print level x ++ behind)) = ':' :: ' ' :: (print level x ++ behind) :=
    skip_cons rfl _
  have hblank : skip (' ' :: (print level x ++ behind)) = print level x ++ behind := skip_print level x behind
  simp only [hcs, readMembers, hkey, Option.bind_eq_bind, Option.bind_some, hcolon, hblank, hx, hclose]
  rfl

theorem readMembers_more {fuel level : Nat} (key : Option String) {x : Json} {ms : List (Option String × Json)}
    {behind next rest : List Char} (hx : readValue fuel (print level x ++ behind) = some (x, behind))
    (hcomma : skip behind = ',' :: next) (hms : readMembers fuel (skip next) = some (ms, rest)) :
    readMembers (fuel + 1) (printString key ++ (':' :: ' ' :: (print level x ++ behind))) =
      some ((key, x) :: ms, rest) := by
  obtain ⟨cs, hcs, hkey⟩ := readString_print key (':' :: ' ' :: (print level x ++ behind))
  have hcolon : skip (':' :: ' ' :: (print level x ++ behind)) = ':' :: ' ' :: (print level x ++ behind) :=
    skip_cons rfl _
  have hblank : skip (' ' :: (print level x ++ behind)) = print level x ++ behind := skip_print level x behind
  simp only [hcs, readMembers, hkey, Option.bind_eq_bind, Option.bind_some, hcolon, hblank, hx, hcomma, hms]
  rfl

/-! ### Documents -/

/-- what is written is read by functions that may nest so many calls: two for each character -/
structure Reads (fuel : Nat) : Prop where
  value : ∀ level j rest, Followed rest → 2 * (print level j).length ≤ fuel →
    readValue fuel (print level j ++ rest) = some (j, rest)
  items : ∀ level outer x xs rest, 2 * ((print level x).length + (printItems level xs).length) < fuel →
    readItems fuel (print level x ++ (printItems level xs ++ (newLine outer ++ ']' :: rest))) = some (x :: xs, rest)
  members : ∀ level outer key x ms rest, 2 * ((print level x).length + (printMembers level ms).length) < fuel →
    readMembers fuel (printString key ++
        (':' :: ' ' :: (print level x ++ (printMembers level ms ++ (newLine outer ++ '}' :: rest))))) =
      some ((key, x) :: ms, rest)

section Steps

variable {fuel : Nat}

theorem readValue_print (ih : Reads fuel) (level : Nat) (j : Json) {rest : List Char} (hrest : Followed rest)
    (hfuel : 2 * (print level j).length ≤ fuel + 1) :
    readValue (fuel + 1) (print level j ++ rest) = some (j, rest) := by
  cases j with
  | null => rw [print]; rfl
  | bool b => cases b <;> (rw [print]; rfl)
  | number value =>
    rw [print]
    exact readValue_printNumber value hrest
  | string value =>
    obtain ⟨cs, hcs, hread⟩ := readString_print value rest
    rw [print, hcs, readValue, hread]
    rfl
  | array items =>
    cases items with
    | nil => rw [print]; rfl
    | cons x xs =>
      simp only [print, List.length_cons, List.length_append] at hfuel
      have hitems := ih.items (level + 1) level x xs rest (by omega)
      simpa only [print, List.cons_append, List.append_assoc, List.nil_append] using readValue_array hitems
  | object members =>
    rcases members with _ | ⟨⟨key, x⟩, ms⟩
    · rw [print]; rfl
    · simp only [print, List.length_cons, List.length_append] at hfuel
      have hmembers := ih.members (level + 1) level key x ms rest (by omega)
      simpa only [print, List.cons_append, List.append_assoc, List.nil_append] using readValue_object hmembers

theorem readItems_print (ih : Reads fuel) (level outer : Nat) (x : Json) (xs : List Json) (rest : List Char)
    (hfuel : 2 * ((print level x).length + (printItems level xs).length) < fuel + 1) :
    readItems (fuel + 1) (print level x ++ (printItems level xs ++ (newLine outer ++ ']' :: rest))) =
      some (x :: xs, rest) := by
  have hx := ih.value level x _ (followed_printItems level outer xs (']' :: rest)) (by omega)
  cases xs with
  | nil =>
    apply readItems_last hx
    rw [printItems, List.nil_append, skip_newLine, skip_cons rfl]
  | cons y ys =>
    have hcomma : skip (printItems level (y :: ys) ++ (newLine outer ++ ']' :: rest)) =
        ',' :: (newLine level ++ (print level y ++ (printItems level ys ++ (newLine outer ++ ']' :: rest)))) := by
      simp only [printItems, List.cons_append, List.append_assoc]
      exact skip_cons rfl _
    simp only [printItems, List.length_cons, List.length_append] at hfuel
    apply readItems_more hx hcomma
    rw [skip_newLine, skip_print]
    exact ih.items level outer y ys rest (by omega)

theorem readMembers_print (ih : Reads fuel) (level outer : Nat) (key : Option String) (x : Json)
    (ms : List (Option String × Json)) (rest : List Char)
    (hfuel : 2 * ((print level x).length + (printMembers level ms).length) < fuel + 1) :
    readMembers (fuel + 1)
        (printString key ++
          (':' :: ' ' :: (print level x ++ (printMembers level ms ++ (newLine outer ++ '}' :: rest))))) =
      some ((key, x) :: ms, rest) := by
  have hx := ih.value level x _ (followed_printMembers level outer ms ('}' :: rest)) (by omega)
  rcases ms with _ | ⟨⟨key', y⟩, ms⟩
  · apply readMembers_last key hx
    rw [printMembers, List.nil_append, skip_newLine, skip_cons rfl]
  · have hcomma : skip (printMembers level ((key', y) :: ms) ++ (newLine outer ++ '}' :: rest)) =
        ',' :: (newLine level ++ (printString key' ++
          (':' :: ' ' :: (print level y ++ (printMembers level ms ++ (newLine outer ++ '}' :: rest)))))) := by
      simp only [printMembers, List.cons_append, List.append_assoc, List.nil_append]
      exact skip_cons rfl _
    simp only [printMembers, List.length_cons, List.length_append] at hfuel
    apply readMembers_more key hx hcomma
    rw [skip_newLine, skip_printString]
    exact ih.members level outer key' y ms rest (by omega)

end Steps

theorem reads (fuel : Nat) : Reads fuel := by
  induction fuel with
  | zero =>
    refine ⟨?_, fun _ _ _ _ _ h => absurd h (Nat.not_lt_zero _), fun _ _ _ _ _ _ h => absurd h (Nat.not_lt_zero _)⟩
    intro level j rest _ hfuel
    have hpos := length_print_pos level j
    omega
  | succ fuel ih =>
    exact ⟨fun level j _ => readValue_print ih level j, readItems_print ih, readMembers_print ih⟩

/-- **Reading undoes writing**, for every document. -/
theorem parse?_print_zero (j : Json) : parse? (print 0 j) = some j := by
  have hread := (reads (2 * (print 0 j).length + 2)).value 0 j [] .nothing (by omega)
  have hskip := skip_print 0 j []
  rw [List.append_nil] at hread hskip
  simp only [parse?, hskip, hread]
  rfl

end Json

/-! ## Images -/

theorem Json.word?_ofWord (w : UInt32) : (Json.ofWord w).word? = some w := by
  have hw : w.toNat < 0x100000000 := w.toNat_lt
  simp [Json.ofWord, Json.word?, Json.ofNat, Json.nat?, hw]

/-- what is read element by element is read as a list -/
theorem mapM_map_eq_some {α β : Type} {f : α → β} {g : β → Option α} (h : ∀ a, g (f a) = some a) (xs : List α) :
    (xs.map f).mapM g = some xs := by
  induction xs with
  | nil => rfl
  | cons x xs ih => simp [List.mapM_cons, h, ih]

theorem ReadRegion.ofJson?_toJson (r : ReadRegion) : ReadRegion.ofJson? r.toJson = some r := by
  have hfields : r.toJson.fields? ["address", "name"] = some [.ofWord r.address, .ofString r.name] := by
    simp [ReadRegion.toJson, Json.fields?]
  simp [ReadRegion.ofJson?, hfields, Json.word?_ofWord, Json.ofString, Json.string?]

namespace Image

theorem ofJson?_toJson (a : Image) : ofJson? a.toJson = some a := by
  have hfields : a.toJson.fields? ["stack", "regions", "readRegions"] =
      some [.array (a.stack.map Json.ofWord), .array (a.regions.map Json.ofWord),
        .array (a.reads.map ReadRegion.toJson)] := by
    simp [Image.toJson, Json.fields?]
  simp [ofJson?, hfields, Json.array?, mapM_map_eq_some Json.word?_ofWord, mapM_map_eq_some ReadRegion.ofJson?_toJson]

/-- **The file of an image holds the image**: whatever its words and addresses and however its names are spelled. -/
theorem parse?_print (a : Image) : parse? a.print = some a := by
  rw [parse?, print, String.toList_ofList, Json.parse?_print_zero, Option.bind_some, ofJson?_toJson]

end Image

end C15

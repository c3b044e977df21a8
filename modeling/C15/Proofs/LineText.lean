/-
What a printed line says to the assembler.

A line of assembly is printed as words with single blanks between them. Cut into words again it has the same words, and
each word is read as what it was printed from: a mnemonic, an address, a label, a small number or a literal.
`Line.content` and `Line.addresses` say what a line means without its text; `Line.Printable` collects what the text can
carry: names that do not look like addresses, addresses and numbers of twelve bits, finite numbers, and no separator
inside a name. Result:
- `ofLine_text`: a printable line, printed and read, says what it means.
-/
import C15.Assembly.Statement
import C15.Proofs.Numerals

namespace C15

open Text

/-! ## Words -/

namespace Text

/-- a word: not empty, without a blank, and not cut short by a comment -/
structure Plain (cs : List Char) : Prop where
  nonempty : cs ≠ []
  chars : ∀ c ∈ cs, isBlank c = false ∧ c ≠ '#'

theorem plain_iff {cs : List Char} : (cs ≠ [] ∧ cs.all (fun c => !isBlank c && c != '#') = true) ↔ Plain cs := by
  simp only [List.all_eq_true, Bool.and_eq_true, Bool.not_eq_true', bne_iff_ne]
  exact ⟨fun h => ⟨h.1, h.2⟩, fun h => ⟨h.nonempty, h.chars⟩⟩

instance (cs : List Char) : Decidable (Plain cs) := decidable_of_iff _ plain_iff

theorem toNat_of_isDigit {c : Char} (h : c.isDigit = true) : 48 ≤ c.toNat ∧ c.toNat ≤ 57 := by
  simp only [Char.isDigit, ge_iff_le, Bool.and_eq_true, decide_eq_true_eq, UInt32.le_iff_toNat_le] at h
  exact h

theorem toNat_of_isAlpha {c : Char} (h : c.isAlpha = true) :
    (65 ≤ c.toNat ∧ c.toNat ≤ 90) ∨ (97 ≤ c.toNat ∧ c.toNat ≤ 122) := by
  change (decide ('A'.val ≤ c.val ∧ c.val ≤ 'Z'.val) || (decide ('a'.val ≤ c.val) && decide (c.val ≤ 'z'.val))) =
    true at h
  simp only [Bool.or_eq_true, Bool.and_eq_true, decide_eq_true_eq, UInt32.le_iff_toNat_le] at h
  exact h

/-- the visible characters of ASCII from the digits on -/
theorem plain_char {c : Char} (h : 45 ≤ c.toNat) (h' : c.toNat ≤ 126) : isBlank c = false ∧ c ≠ '#' := by
  constructor
  · simp only [isBlank, Bool.or_eq_false_iff, Bool.and_eq_false_iff, decide_eq_false_iff_not, beq_eq_false_iff_ne]
    omega
  · rintro rfl
    exact absurd h (by decide)

theorem plain_digit {c : Char} (h : c.isDigit = true) : isBlank c = false ∧ c ≠ '#' := by
  have := toNat_of_isDigit h
  exact plain_char (by omega) (by omega)

theorem plain_nameChar {c : Char} (h : c.isAlphanum = true ∨ c = '_') : isBlank c = false ∧ c ≠ '#' := by
  rcases h with h | rfl
  · simp only [Char.isAlphanum, Bool.or_eq_true] at h
    rcases h with h | h
    · have := toNat_of_isAlpha h
      exact plain_char (by omega) (by omega)
    · exact plain_digit h
  · exact plain_char (by decide) (by decide)

theorem plain_hexDigit {c : Char} (h : isHexDigit c = true) : isBlank c = false ∧ c ≠ '#' := by
  simp only [isHexDigit, Bool.or_eq_true, Bool.and_eq_true, decide_eq_true_eq, Char.le_def, UInt32.le_iff_toNat_le] at h
  rcases h with (h | h) | h
  · exact plain_digit h
  · exact plain_char (le_trans (by decide) h.1) (le_trans h.2 (by decide))
  · exact plain_char (le_trans (by decide) h.1) (le_trans h.2 (by decide))

theorem plain_numeralChar {c : Char} (h : Binary32.isNumeralChar c = true) : isBlank c = false ∧ c ≠ '#' := by
  simp only [Binary32.isNumeralChar, Bool.or_eq_true, beq_iff_eq] at h
  rcases h with ((h | rfl) | rfl) | rfl
  · exact plain_digit h
  · decide
  · decide
  · decide

theorem plain_digits (n : Nat) : Plain (Nat.toDigits 10 n) :=
  ⟨Nat.toDigits_ne_nil, fun _ hc => plain_digit (isDigit_toDigits hc)⟩

theorem plain_append_singleton {cs : List Char} (h : ∀ c ∈ cs, isBlank c = false ∧ c ≠ '#') {c : Char}
    (hc : isBlank c = false ∧ c ≠ '#') : Plain (cs ++ [c]) := by
  refine ⟨by simp, fun d hd => ?_⟩
  rcases List.mem_append.1 hd with hd | hd
  · exact h d hd
  · rwa [List.mem_singleton.1 hd]

theorem pieces_of_none {p : Char → Bool} {cs : List Char} (h : ∀ c ∈ cs, p c = false) : pieces p cs = [cs] := by
  induction cs with
  | nil => rfl
  | cons c rest ih =>
    have hrest := ih fun d hd => h d (List.mem_cons_of_mem _ hd)
    simp [pieces, h c List.mem_cons_self, hrest]

@[simp] theorem words_nil : words [] = [] := rfl

theorem words_plain {cs : List Char} (h : Plain cs) : words cs = [cs] := by
  simp [words, pieces_of_none fun c hc => (h.chars c hc).1, h.nonempty]

theorem words_replicate (n : Nat) (cs : List Char) : words (List.replicate n ' ' ++ cs) = words cs := by
  induction n with
  | zero => rfl
  | succ n ih =>
    have hblank : words (' ' :: (List.replicate n ' ' ++ cs)) = words (List.replicate n ' ' ++ cs) :=
      words_append_cons (by decide) [] _
    rw [List.replicate_succ, List.cons_append, hblank, ih]

/-- words with single blanks between them -/
theorem words_intercalate {ws : List (List Char)} (h : ∀ w ∈ ws, Plain w) : words ([' '].intercalate ws) = ws := by
  induction ws with
  | nil => rfl
  | cons w rest ih =>
    have hw := h w List.mem_cons_self
    have hrest := ih fun v hv => h v (List.mem_cons_of_mem _ hv)
    cases rest with
    | nil => simpa using words_plain hw
    | cons v rest =>
      rw [List.intercalate_cons_cons, List.append_assoc, List.singleton_append, words_append_cons (by decide),
        words_plain hw, hrest]
      rfl

/-- between words stand only spaces -/
theorem mem_intercalate {ws : List (List Char)} (h : ∀ w ∈ ws, Plain w) {c : Char} (hc : c ∈ [' '].intercalate ws) :
    c = ' ' ∨ (isBlank c = false ∧ c ≠ '#') := by
  induction ws with
  | nil => exact absurd hc (by simp)
  | cons w rest ih =>
    have hw := (h w List.mem_cons_self).chars
    have hrest := ih fun v hv => h v (List.mem_cons_of_mem _ hv)
    cases rest with
    | nil => exact Or.inr (hw c (by simpa using hc))
    | cons v rest =>
      rw [List.intercalate_cons_cons, List.append_assoc, List.singleton_append, List.mem_append, List.mem_cons] at hc
      rcases hc with hc | rfl | hc
      · exact Or.inr (hw c hc)
      · exact Or.inl rfl
      · exact hrest hc

end Text

/-! ## What lines mean -/

/-- a letter or underscore, then letters, digits and underscores -/
def IsName (s : String) : Prop :=
  ∃ c cs, s.toList = c :: cs ∧ (c.isAlpha = true ∨ c = '_') ∧ ∀ d ∈ cs, d.isAlphanum = true ∨ d = '_'

/-- an `a` and digits: the text of an address -/
def IsAddressText (s : String) : Prop := ∃ ds, s.toList = 'a' :: ds ∧ ds ≠ [] ∧ ∀ d ∈ ds, d.isDigit = true

/-- a name that a label may have -/
def IsLabel (s : String) : Prop := IsName s ∧ ¬ IsAddressText s

def Operand.address? : Operand → Option Nat
  | .data offset => some offset
  | .label _ | .immediate _ => none

namespace Slot

/-- an address or a number of twelve bits -/
def Printable : Slot → Prop
  | .address a => a.index ≤ maxAddress
  | .immediate value => value ≤ maxAddress

def operand : Slot → Operand
  | .address a => .data a.index
  | .immediate value => .immediate value

end Slot

namespace Instruction

def Printable : Instruction → Prop
  | .bare _ => True
  | .address _ a => a.index ≤ maxAddress
  | .jump _ label => IsLabel label
  | .move source destination => source.index ≤ maxAddress ∧ destination.index ≤ maxAddress
  | .store value a => value.Finite ∧ a.index ≤ maxAddress
  | .storePush value => value.Finite
  | .slot _ x => x.Printable
  | .pair _ x y => x.Printable ∧ y.Printable

/-- operands of the word of an instruction -/
def args : Instruction → List Operand
  | .bare _ | .storePush _ => []
  | .address _ a | .store _ a => [.data a.index]
  | .jump _ label => [.label label]
  | .move source destination => [.data source.index, .data destination.index]
  | .slot _ x => [x.operand]
  | .pair _ x y => [x.operand, y.operand]

/-- the word after the instruction, if it carries one -/
def literal? : Instruction → Option UInt32
  | .store value _ | .storePush value => some value.bits
  | _ => none

/-- data addresses that an instruction names -/
def addresses (i : Instruction) : List Nat := i.args.filterMap Operand.address?

end Instruction

namespace Line

/-- a line whose text says what it means -/
def Printable : Line → Prop
  | .label name => IsLabel name
  | .instr i => i.Printable
  | .data value => value.Finite
  | .read a name => a.index ≤ maxAddress ∧ Plain name.toList
  | .comment text => '\n' ∉ text.toList

/-- the words of a line -/
def parts : Line → List String
  | .label name => [name ++ ":"]
  | .instr i => i.mnemonic.text :: i.operands
  | .data value => [".data", value.text]
  | .read a name => [".read", a.text, name]
  | .comment _ => []

/-- spaces before the first word -/
def indent : Line → Nat
  | .instr _ | .data _ => 4
  | .label _ | .read .. | .comment _ => 0

/-- what a line contributes -/
def content : Line → Content
  | .label name => .label name false
  | .instr i => .operation i.mnemonic.opcode i.args i.literal? none
  | .data value => .datum value.bits
  | .read a name => .read (.data a.index) name
  | .comment _ => .nothing

/-- data addresses that a line names -/
def addresses : Line → List Nat
  | .instr i => i.addresses
  | .read a _ => [a.index]
  | .label _ | .data _ | .comment _ => []

end Line

/-! ## Operands -/

namespace Statement

theorem isLabelName_iff {s : String} : isLabelName s.toList = true ↔ IsName s := by
  unfold IsName
  cases s.toList with
  | nil => simp [isLabelName]
  | cons c cs => simp [isLabelName, Lexer.isNameStart, Lexer.isNameChar]

instance (s : String) : Decidable (IsName s) := decidable_of_iff _ isLabelName_iff

theorem isSome_addressDigits?_iff {s : String} : (addressDigits? s.toList).isSome = true ↔ IsAddressText s := by
  unfold addressDigits? IsAddressText
  split
  · rename_i ds heq
    simp [heq, Number.Radix.accepts, Number.decimal]
  · rename_i hne
    constructor
    · intro h
      cases h
    · rintro ⟨ds, hs, -⟩
      exact absurd hs (hne ds)

instance (s : String) : Decidable (IsAddressText s) := decidable_of_iff _ isSome_addressDigits?_iff

theorem addressDigits?_eq_none {s : String} (h : ¬ IsAddressText s) : addressDigits? s.toList = none := by
  rwa [← isSome_addressDigits?_iff, Option.not_isSome_iff_eq_none] at h

instance (s : String) : Decidable (IsLabel s) := inferInstanceAs (Decidable (IsName s ∧ ¬ IsAddressText s))

instance : DecidablePred Literal.Finite
  | .int _ | .uint _ => inferInstanceAs (Decidable True)
  | .float x => inferInstanceAs (Decidable (x.isFinite = true))

instance : DecidablePred Slot.Printable
  | .address a => inferInstanceAs (Decidable (a.index ≤ maxAddress))
  | .immediate value => inferInstanceAs (Decidable (value ≤ maxAddress))

instance : DecidablePred Instruction.Printable
  | .bare _ => inferInstanceAs (Decidable True)
  | .address _ a => inferInstanceAs (Decidable (a.index ≤ maxAddress))
  | .jump _ label => inferInstanceAs (Decidable (IsLabel label))
  | .move source destination => inferInstanceAs (Decidable (source.index ≤ maxAddress ∧ destination.index ≤ maxAddress))
  | .store value a => inferInstanceAs (Decidable (value.Finite ∧ a.index ≤ maxAddress))
  | .storePush value => inferInstanceAs (Decidable value.Finite)
  | .slot _ x => inferInstanceAs (Decidable x.Printable)
  | .pair _ x y => inferInstanceAs (Decidable (x.Printable ∧ y.Printable))

instance : DecidablePred Line.Printable
  | .label name => inferInstanceAs (Decidable (IsLabel name))
  | .instr i => inferInstanceAs (Decidable i.Printable)
  | .data value => inferInstanceAs (Decidable value.Finite)
  | .read a name => inferInstanceAs (Decidable (a.index ≤ maxAddress ∧ Plain name.toList))
  | .comment text => inferInstanceAs (Decidable ('\n' ∉ text.toList))

/-- a label is read as itself -/
theorem target_label {s : String} (h : IsLabel s) : target s.toList = .ok (.label s) := by
  simp only [target, addressDigits?_eq_none h.2, isLabelName_iff.2 h.1, if_true, String.ofList_toList]

theorem toList_address_text (a : Address) : a.text.toList = 'a' :: Nat.toDigits 10 a.index := by
  simp only [Address.text, String.toList_append, Number.toList_toString]
  rfl

theorem addressDigits?_text (a : Address) : addressDigits? a.text.toList = some (Nat.toDigits 10 a.index) := by
  have haccepts : Number.decimal.accepts (Nat.toDigits 10 a.index) = true :=
    Number.accepts_of_digits (Number.digits_all _) Nat.toDigits_ne_nil
  rw [toList_address_text]
  simp only [addressDigits?, haccepts, if_true]

/-- an address is read as its number -/
theorem target_address {a : Address} (h : a.index ≤ maxAddress) : target a.text.toList = .ok (.data a.index) := by
  simp only [target, addressDigits?_text, ofDigits_toDigits, if_pos h]

/-- digits are neither an address nor a label -/
theorem not_target_digits (n : Nat) :
    addressDigits? (Nat.toDigits 10 n) = none ∧ isLabelName (Nat.toDigits 10 n) = false := by
  obtain ⟨c, rest, hdigits⟩ := List.exists_cons_of_ne_nil (Nat.toDigits_ne_nil (n := n) (b := 10))
  have hc : c.isDigit = true := isDigit_toDigits (n := n) (hdigits ▸ List.mem_cons_self)
  rw [hdigits]
  constructor
  · unfold addressDigits?
    split
    · rename_i heq
      rw [(List.cons.inj heq).1] at hc
      exact absurd hc (by decide)
    · rfl
  · have hrange := toNat_of_isDigit hc
    have halpha : c.isAlpha = false := by
      rw [Bool.eq_false_iff]
      intro h
      have := toNat_of_isAlpha h
      omega
    have hscore : c ≠ '_' := by
      rintro rfl
      exact absurd hrange (by decide)
    simp [isLabelName, Lexer.isNameStart, halpha, hscore]

theorem slot_text {x : Slot} (h : x.Printable) : slot x.text.toList = .ok x.operand := by
  cases x with
  | address a =>
    simp only [slot, Slot.text, addressDigits?_text, Option.isSome_some, Bool.true_or, if_true]
    exact target_address h
  | immediate value =>
    have hlt : value < 2 ^ 32 := Nat.lt_of_le_of_lt h (by decide)
    have hword : (UInt32.ofNat value).toNat = value := UInt32.toNat_ofNat_of_lt' hlt
    obtain ⟨haddress, hname⟩ := not_target_digits value
    rw [Slot.text, Number.toList_toString]
    simp only [slot, haddress, hname, Number.parse_digits hlt, hword]
    exact if_pos h

/-! ## Words of a line -/

theorem nameChar_of_mem {s : String} (h : IsName s) {d : Char} (hd : d ∈ s.toList) : d.isAlphanum = true ∨ d = '_' := by
  obtain ⟨c, cs, hs, hc, hcs⟩ := h
  rw [hs] at hd
  rcases List.mem_cons.1 hd with rfl | hd
  · exact hc.imp (fun h => by simp [Char.isAlphanum, h]) id
  · exact hcs d hd

theorem plain_name {s : String} (h : IsName s) : Plain s.toList := by
  refine ⟨?_, fun c hc => plain_nameChar (nameChar_of_mem h hc)⟩
  obtain ⟨c, cs, hs, -⟩ := h
  rw [hs]
  exact List.cons_ne_nil _ _

theorem plain_address (a : Address) : Plain a.text.toList := by
  rw [toList_address_text]
  refine ⟨List.cons_ne_nil _ _, fun c hc => ?_⟩
  rcases List.mem_cons.1 hc with rfl | hc
  · decide
  · exact (plain_digits a.index).chars c hc

theorem plain_slot (x : Slot) : Plain x.text.toList := by
  cases x with
  | address a => exact plain_address a
  | immediate value =>
    rw [Slot.text, Number.toList_toString]
    exact plain_digits value

theorem plain_literal {value : Literal} (h : value.Finite) : Plain value.text.toList := by
  cases value with
  | int w =>
    unfold Literal.text
    dsimp only
    split
    · refine ⟨by simp, fun c hc => ?_⟩
      simp only [String.toList_append, Literal.hexText, String.toList_ofList, List.mem_append] at hc
      rcases hc with hc | hc
      · have hmark : Plain "0x".toList := by decide
        exact hmark.chars c hc
      · exact plain_hexDigit (List.all_eq_true.1 (hexDigits_toUpper w.toNat).1 c hc)
    · rw [Number.toList_toString]
      exact plain_digits _
  | uint w =>
    rw [Literal.text, String.toList_append, Number.toList_toString]
    exact plain_append_singleton (plain_digits _).chars (by decide)
  | float x =>
    rw [Literal.text, String.toList_append]
    exact plain_append_singleton (fun c hc => plain_numeralChar (Binary32.isNumeralChar_text h c hc)) (by decide)

theorem plain_operands {i : Instruction} (h : i.Printable) : ∀ s ∈ i.operands, Plain s.toList := by
  cases i with
  | bare op => exact fun _ hs => nomatch hs
  | address op a => simpa [Instruction.operands] using plain_address a
  | jump op label => simpa [Instruction.operands] using plain_name h.1
  | move source destination => simpa [Instruction.operands] using ⟨plain_address source, plain_address destination⟩
  | store value a => simpa [Instruction.operands] using ⟨plain_literal h.1, plain_address a⟩
  | storePush value => simpa [Instruction.operands] using plain_literal h
  | slot op x => simpa [Instruction.operands] using plain_slot x
  | pair op x y => simpa [Instruction.operands] using ⟨plain_slot x, plain_slot y⟩

/-! ## Mnemonics -/

theorem mem_all (m : Mnemonic) : m ∈ Mnemonic.all := by
  cases m with
  | bare op => cases op <;> decide +kernel
  | address op => cases op <;> decide +kernel
  | jump op => cases op <;> decide +kernel
  | slot op => cases op <;> decide +kernel
  | pair op => cases op <;> decide +kernel
  | move | store | storePush => decide +kernel

/-- a mnemonic is found by its text -/
theorem ofText?_text (m : Mnemonic) : Mnemonic.ofText? m.text = some m := by
  have hall : ∀ m ∈ Mnemonic.all, Mnemonic.ofText? m.text = some m := by decide +kernel
  exact hall m (mem_all m)

/-- mnemonics are written in capitals -/
theorem isUpper_mnemonic (m : Mnemonic) : m.text.toList ≠ [] ∧ ∀ c ∈ m.text.toList, c.isUpper = true := by
  have hall : ∀ m ∈ Mnemonic.all, m.text.toList ≠ [] ∧ m.text.toList.all Char.isUpper = true := by decide +kernel
  obtain ⟨hne, hupper⟩ := hall m (mem_all m)
  exact ⟨hne, List.all_eq_true.1 hupper⟩

theorem plain_mnemonic (m : Mnemonic) : Plain m.text.toList := by
  obtain ⟨hne, hupper⟩ := isUpper_mnemonic m
  refine ⟨hne, fun c hc => plain_nameChar (Or.inl ?_)⟩
  have halpha : c.isAlpha = true := Bool.or_eq_true_iff.2 (Or.inl (hupper c hc))
  simp [Char.isAlphanum, halpha]

theorem mnemonic_ne (m : Mnemonic) {s : String} {c : Char} (hc : c ∈ s.toList) (hupper : c.isUpper = false) :
    m.text ≠ s := by
  rintro rfl
  rw [(isUpper_mnemonic m).2 c hc] at hupper
  cases hupper

/-! ## Lines -/

/-- a first word without a colon defines no label -/
theorem labelOf?_eq_none {w : List Char} (h : ':' ∉ w) : labelOf? w = none := by
  have hdrop : w.dropWhile (· != ':') = [] := List.dropWhile_eq_nil_iff.2 fun c hc => by
    have : c ≠ ':' := fun heq => h (heq ▸ hc)
    simpa using this
  simp [labelOf?, hdrop]

/-- a printed label defines that label -/
theorem labelOf?_label {s : String} (h : IsName s) : labelOf? (s.toList ++ [':']) = some (s.toList, false) := by
  have hcolon : ∀ c ∈ s.toList, (c != ':') = true := by
    intro c hc
    rw [bne_iff_ne]
    rintro rfl
    exact absurd (nameChar_of_mem h hc) (by decide)
  have htake : (s.toList ++ [':']).takeWhile (· != ':') = s.toList := by
    rw [List.takeWhile_append_of_pos hcolon]
    simp
  have hdrop : (s.toList ++ [':']).dropWhile (· != ':') = [':'] := by
    rw [List.dropWhile_append_of_pos hcolon]
    simp
  simp [labelOf?, htake, hdrop, isLabelName_iff.2 h]

/-- a line without a comment is read by its words -/
theorem takeWhile_hash {cs : List Char} (h : '#' ∉ cs) : cs.takeWhile (· != '#') = cs :=
  List.takeWhile_eq_self_iff.2 fun c hc => by
    have : c ≠ '#' := fun heq => h (heq ▸ hc)
    simpa using this

/-- operands that are all well formed -/
theorem onOperands_ok (xs : List Operand) (content : List Operand → Content) :
    onOperands (xs.map .ok) content = ⟨content xs, xs.filterMap Operand.address?⟩ := by
  have hcauses : causesOf (xs.map .ok) = [] := by simp [causesOf, List.filterMap_map]
  have haccepted : acceptedOf (xs.map .ok) = xs := by simp [acceptedOf, List.filterMap_map]
  have htouched : touchedBy (xs.map .ok) = xs.filterMap Operand.address? := by
    rw [touchedBy, List.filterMap_map]
    congr 1
    funext x
    cases x <;> rfl
  simp only [onOperands, hcauses, haccepted, htouched]

/-- the operands of an instruction are read as what they were printed from -/
theorem operation_operands {i : Instruction} (h : i.Printable) :
    operation i.mnemonic (i.operands.map String.toList) =
      ⟨.operation i.mnemonic.opcode i.args i.literal? none, i.addresses⟩ := by
  cases i with
  | bare op => rfl
  | address op a =>
    simp only [operation, Instruction.mnemonic, Mnemonic.shape, Instruction.operands, List.map_cons, List.map_nil,
      target_address h]
    exact onOperands_ok [.data a.index] _
  | jump op label =>
    simp only [operation, Instruction.mnemonic, Mnemonic.shape, Instruction.operands, List.map_cons, List.map_nil,
      target_label h]
    exact onOperands_ok [.label label] _
  | move source destination =>
    simp only [operation, Instruction.mnemonic, Mnemonic.shape, Instruction.operands, List.map_cons, List.map_nil,
      target_address h.1, target_address h.2]
    exact onOperands_ok [.data source.index, .data destination.index] _
  | store value a =>
    simp only [operation, Instruction.mnemonic, Mnemonic.shape, Instruction.operands, List.map_cons, List.map_nil,
      Number.parse_text h.1, target_address h.2]
    exact onOperands_ok [.data a.index] _
  | storePush value =>
    simp only [operation, Instruction.mnemonic, Mnemonic.shape, Instruction.operands, List.map_cons, List.map_nil,
      Number.parse_text h]
    rfl
  | slot op x =>
    simp only [operation, Instruction.mnemonic, Mnemonic.shape, Instruction.operands, List.map_cons,
      List.map_nil, slot_text h]
    exact onOperands_ok [x.operand] _
  | pair op x y =>
    simp only [operation, Instruction.mnemonic, Mnemonic.shape, Instruction.operands, List.map_cons, List.map_nil,
      slot_text h.1, slot_text h.2]
    exact onOperands_ok [x.operand, y.operand] _

/-! ## Lines as words -/

/-- a line other than a comment is its words behind its indent -/
theorem toList_text {l : Line} (hl : ∀ t, l ≠ .comment t) :
    l.text.toList = List.replicate l.indent ' ' ++ [' '].intercalate (l.parts.map String.toList) := by
  cases l with
  | comment t => exact absurd rfl (hl t)
  | label name => simp [Line.text, Line.parts, Line.indent]
  | instr i =>
    rw [Line.text, Instruction.text, String.toList_append, String.toList_intercalate]
    rfl
  | data value => simp [Line.text, Line.parts, Line.indent, List.intercalate_cons_cons, List.replicate]
  | read a name => simp [Line.text, Line.parts, Line.indent, toString, List.intercalate_cons_cons]

theorem plain_parts {l : Line} (h : l.Printable) : ∀ w ∈ l.parts.map String.toList, Plain w := by
  simp only [List.forall_mem_map]
  cases l with
  | label name =>
    simpa [Line.parts] using plain_append_singleton (plain_name h.1).chars (c := ':') (by decide)
  | instr i =>
    intro s hs
    rcases List.mem_cons.1 hs with rfl | hs
    · exact plain_mnemonic _
    · exact plain_operands h s hs
  | data value =>
    have hdata : Plain ".data".toList := by decide
    simpa [Line.parts] using ⟨hdata, plain_literal h⟩
  | read a name =>
    have hread : Plain ".read".toList := by decide
    simpa [Line.parts] using ⟨hread, plain_address a, h.2⟩
  | comment t => exact fun _ hs => nomatch hs

/-- in a line other than a comment, blanks are spaces -/
theorem chars_text {l : Line} (h : l.Printable) (hl : ∀ t, l ≠ .comment t) {c : Char} (hc : c ∈ l.text.toList) :
    c = ' ' ∨ (isBlank c = false ∧ c ≠ '#') := by
  rw [toList_text hl, List.mem_append] at hc
  rcases hc with hc | hc
  · exact Or.inl (List.eq_of_mem_replicate hc)
  · exact mem_intercalate (plain_parts h) hc

/-- a character that can stand only in comments -/
theorem notMem_text {l : Line} (h : l.Printable) (hl : ∀ t, l ≠ .comment t) {c : Char} (hspace : c ≠ ' ')
    (hc : isBlank c = true ∨ c = '#') : c ∉ l.text.toList := by
  intro hmem
  rcases chars_text h hl hmem with heq | ⟨hblank, hhash⟩
  · exact hspace heq
  · rcases hc with hc | hc
    · rw [hc] at hblank
      cases hblank
    · exact hhash hc

theorem newline_notMem_text {l : Line} (h : l.Printable) : '\n' ∉ l.text.toList := by
  by_cases hl : ∀ t, l ≠ .comment t
  · exact notMem_text h hl (by decide) (Or.inl (by decide))
  · push Not at hl
    obtain ⟨t, rfl⟩ := hl
    have hcomment : '\n' ∉ t.toList := h
    simpa [Line.text] using hcomment

theorem dropReturn_text {l : Line} (h : l.Printable) (hl : ∀ t, l ≠ .comment t) :
    dropReturn l.text.toList = l.text.toList :=
  if_neg fun hlast => notMem_text h hl (by decide) (Or.inl (by decide)) (List.mem_of_getLast? hlast)

/-- a printed line has the words it was printed from -/
theorem words_text {l : Line} (h : l.Printable) :
    words ((dropReturn l.text.toList).takeWhile (· != '#')) = l.parts.map String.toList := by
  by_cases hl : ∀ t, l ≠ .comment t
  · have hhash : '#' ∉ l.text.toList := notMem_text h hl (by decide) (Or.inr rfl)
    rw [dropReturn_text h hl, takeWhile_hash hhash, toList_text hl, words_replicate, words_intercalate (plain_parts h)]
  · push Not at hl
    obtain ⟨t, rfl⟩ := hl
    -- with or without a return at its end, a comment starts with the mark
    have htext : (Line.comment t).text.toList = '#' :: ' ' :: t.toList := by simp [Line.text]
    rw [htext, dropReturn]
    split <;> rfl

/-- **A printed line says what it means.** -/
theorem ofLine_text {l : Line} (h : l.Printable) : ofLine (dropReturn l.text.toList) = ⟨l.content, l.addresses⟩ := by
  rw [ofLine, words_text h]
  cases l with
  | label name =>
    have hlabel : labelOf? (name ++ ":").toList = some (name.toList, false) := by
      rw [String.toList_append]
      exact labelOf?_label h.1
    simp only [Line.parts, List.map_cons, List.map_nil, hlabel, String.ofList_toList]
    rfl
  | instr i =>
    have hcolon : ':' ∉ i.mnemonic.text.toList := fun hmem => absurd ((isUpper_mnemonic _).2 _ hmem) (by decide)
    have hdata : i.mnemonic.text ≠ ".data" := mnemonic_ne _ (c := '.') (by decide) (by decide)
    have hread : i.mnemonic.text ≠ ".read" := mnemonic_ne _ (c := '.') (by decide) (by decide)
    simp only [Line.parts, List.map_cons, labelOf?_eq_none hcolon, String.ofList_toList, if_neg hdata,
      if_neg hread, ofText?_text]
    exact operation_operands h
  | data value =>
    have hlabel : labelOf? ".data".toList = none := labelOf?_eq_none (by decide)
    simp only [Line.parts, List.map_cons, List.map_nil, hlabel, String.ofList_toList, if_true, datum,
      Number.parse_text h]
    rfl
  | read a name =>
    have hlabel : labelOf? ".read".toList = none := labelOf?_eq_none (by decide)
    have hdata : ".read" ≠ ".data" := by decide
    have haddress : slot a.text.toList = .ok (.data a.index) := slot_text (x := .address a) h.1
    simp only [Line.parts, List.map_cons, List.map_nil, hlabel, String.ofList_toList, if_neg hdata, if_true,
      read, haddress]
    rfl
  | comment t => rfl

end Statement

end C15

/-
The instruction of a word.

An opcode fills the low byte of a word, but two are wider: `SAVETOA` and `SAVETOB` are the byte of `SAVEPUSH` with a bit
above it, and that bit is one of the first operand field (`encode_spill`). So the byte alone does not say which
instruction a word is. The shapes do: none of the three has an operand, so their words are the opcodes and nothing else,
and a byte that comes with operands belongs to one mnemonic (`Mnemonic.eq_of_opcode_mod`). Results:
- `Operation.ofWord?_eq_some_iff`: which words are instructions, and of each the mnemonic and the fields, can be
  computed;
- `encode_uniquely_decodable`: one word, one mnemonic and one pair of fields;
- `assemble_reads_back`: an assembled operation is read back from its word, unless one of its operands is a far label.
-/
import C15.Proofs.Listing

namespace C15

/-! ## Fields that fit -/

/-- fields that an instruction can have: of twelve bits, and zero where there is no operand -/
structure Mnemonic.Fits (m : Mnemonic) (arg0 arg1 : Nat) : Prop where
  narrow0 : arg0 ≤ maxAddress
  narrow1 : arg1 ≤ maxAddress
  absent0 : m.shape.fieldCount = 0 → arg0 = 0
  absent1 : m.shape.fieldCount ≤ 1 → arg1 = 0

instance (m : Mnemonic) (arg0 arg1 : Nat) : Decidable (m.Fits arg0 arg1) :=
  decidable_of_iff (arg0 ≤ maxAddress ∧ arg1 ≤ maxAddress ∧ (m.shape.fieldCount = 0 → arg0 = 0) ∧
    (m.shape.fieldCount ≤ 1 → arg1 = 0))
    ⟨fun ⟨h0, h1, a0, a1⟩ => ⟨h0, h1, a0, a1⟩, fun h => ⟨h.narrow0, h.narrow1, h.absent0, h.absent1⟩⟩

theorem Mnemonic.Fits.zero (m : Mnemonic) : m.Fits 0 0 := ⟨Nat.zero_le _, Nat.zero_le _, fun _ => rfl, fun _ => rfl⟩

/-- without operands both fields are zero -/
theorem Mnemonic.Fits.eq_zero {m : Mnemonic} {arg0 arg1 : Nat} (h : m.Fits arg0 arg1)
    (hcount : m.shape.fieldCount = 0) : arg0 = 0 ∧ arg1 = 0 :=
  ⟨h.absent0 hcount, h.absent1 (hcount ▸ Nat.zero_le 1)⟩

/-! ## Opcodes -/

namespace Mnemonic

/-- the mnemonic with this opcode -/
def ofOpcode? (n : Nat) : Option Mnemonic := all.find? fun m => m.opcode == n

theorem opcode_of_ofOpcode? {n : Nat} {m : Mnemonic} (h : ofOpcode? n = some m) : m.opcode = n := by
  have hfound := List.find?_some h
  exact eq_of_beq hfound

/-- a mnemonic is found by its opcode -/
theorem ofOpcode?_opcode (m : Mnemonic) : ofOpcode? m.opcode = some m := by
  have hall : ∀ m ∈ all, ofOpcode? m.opcode = some m := by decide +kernel
  exact hall m (Statement.mem_all m)

/-- no opcode is given twice -/
theorem opcode_injective : Function.Injective opcode := by
  intro m m' h
  have hfound := ofOpcode?_opcode m
  rw [h, ofOpcode?_opcode m'] at hfound
  exact (Option.some.inj hfound).symm

theorem opcode_lt_size (m : Mnemonic) : m.opcode < UInt32.size := by
  have hall : ∀ m ∈ all, m.opcode < UInt32.size := by decide +kernel
  exact hall m (Statement.mem_all m)

/-- an opcode is as wide as the byte, or its byte is the one of `SAVEPUSH` -/
theorem opcode_lt_or (m : Mnemonic) : m.opcode < 256 ∨ m.opcode % 256 = (bare .savepush).opcode := by
  by_cases ha : m.opcode = 0x153
  · exact Or.inr (ha ▸ rfl)
  by_cases hb : m.opcode = 0x253
  · exact Or.inr (hb ▸ rfl)
  exact Or.inl (opcode_lt ha hb)

/-- an instruction with operands has an opcode of one byte -/
theorem opcode_lt_of_fields {m : Mnemonic} (h : m.shape.fieldCount ≠ 0) : m.opcode < 256 := by
  apply opcode_lt
  · intro heq
    obtain rfl : m = bare .savetoa := opcode_injective heq
    exact h rfl
  · intro heq
    obtain rfl : m = bare .savetob := opcode_injective heq
    exact h rfl

/-- **A byte that comes with operands belongs to one mnemonic.** The wide opcodes share a byte with each other and with
`SAVEPUSH`, which has no operands, and with nothing else. -/
theorem eq_of_opcode_mod {m m' : Mnemonic} (h : m.shape.fieldCount ≠ 0) (hbyte : m'.opcode % 256 = m.opcode) :
    m' = m := by
  rcases opcode_lt_or m' with hlt | hpush
  · rw [Nat.mod_eq_of_lt hlt] at hbyte
    exact opcode_injective hbyte
  · obtain rfl : m = bare .savepush := opcode_injective (hbyte.symm.trans hpush)
    exact absurd rfl h

end Mnemonic

/-! ## Words -/

/-- what is above the byte of an opcode goes into the first operand field -/
theorem encode_spill (opcode bits arg0 arg1 : UInt32) :
    encode (bits <<< 8 ||| opcode) arg0 arg1 = encode opcode (arg0 ||| bits) arg1 := by
  rw [encode, encode, UInt32.shiftLeft_or, UInt32.or_assoc, UInt32.or_assoc, UInt32.or_assoc]

theorem encode_zero (opcode : UInt32) : encode opcode 0 0 = opcode := by
  simp [encode]

/-- an instruction with what its operand fields hold -/
structure Operation where
  mnemonic : Mnemonic
  arg0 : Nat
  arg1 : Nat
  fits : mnemonic.Fits arg0 arg1
deriving DecidableEq

namespace Operation

def word (o : Operation) : UInt32 := encode (UInt32.ofNat o.mnemonic.opcode) (UInt32.ofNat o.arg0) (UInt32.ofNat o.arg1)

/-- an instruction with these fields, if it can have them -/
def of? (m : Mnemonic) (arg0 arg1 : Nat) : Option Operation :=
  if h : m.Fits arg0 arg1 then some ⟨m, arg0, arg1, h⟩ else none

/-- the instruction of a word. A word that is an opcode as a whole has nothing in its fields; of any other the low byte
is the opcode. -/
def ofWord? (word : UInt32) : Option Operation :=
  match Mnemonic.ofOpcode? word.toNat with
  | some m => some ⟨m, 0, 0, .zero m⟩
  | none => (Mnemonic.ofOpcode? (word.toNat % 256)).bind fun m => of? m (operandField word 0) (operandField word 1)

variable {o : Operation}

theorem of?_eq_some_iff {m : Mnemonic} {arg0 arg1 : Nat} :
    of? m arg0 arg1 = some o ↔ m = o.mnemonic ∧ arg0 = o.arg0 ∧ arg1 = o.arg1 := by
  constructor
  · intro h
    unfold of? at h
    split at h
    · cases h
      exact ⟨rfl, rfl, rfl⟩
    · cases h
  · rintro ⟨rfl, rfl, rfl⟩
    exact dif_pos o.fits

/-- an instruction with something in its fields has operands -/
theorem fieldCount_ne_zero (h : ¬ (o.arg0 = 0 ∧ o.arg1 = 0)) : o.mnemonic.shape.fieldCount ≠ 0 :=
  fun hcount => h (o.fits.eq_zero hcount)

/-- the word of an instruction with operands is the sum of its parts, each at its place -/
theorem toNat_word (h : o.mnemonic.shape.fieldCount ≠ 0) :
    o.word.toNat = o.arg1 * 2 ^ 20 + (o.arg0 * 2 ^ 8 + o.mnemonic.opcode) :=
  toNat_encode (Mnemonic.opcode_lt_of_fields h) o.fits.narrow0 o.fits.narrow1

/-- what has operands that are not zero is not taken for one of the wide opcodes -/
theorem ofOpcode?_word (h : ¬ (o.arg0 = 0 ∧ o.arg1 = 0)) : Mnemonic.ofOpcode? o.word.toNat = none := by
  have hcount := fieldCount_ne_zero h
  have hword := toNat_word hcount
  have hlt := Mnemonic.opcode_lt_of_fields hcount
  cases hfound : Mnemonic.ofOpcode? o.word.toNat with
  | none => rfl
  | some m =>
    -- an opcode that is this word has its byte too, so it is the opcode of the instruction and the fields are empty
    have hopcode := Mnemonic.opcode_of_ofOpcode? hfound
    obtain rfl : m = o.mnemonic := Mnemonic.eq_of_opcode_mod hcount (by omega)
    exact absurd ⟨by omega, by omega⟩ h

/-- **The word of an instruction is read back.** -/
theorem ofWord?_word (o : Operation) : ofWord? o.word = some o := by
  by_cases h : o.arg0 = 0 ∧ o.arg1 = 0
  -- with nothing in the fields the word is the opcode, however wide
  · obtain ⟨m, arg0, arg1, fits⟩ := o
    obtain ⟨rfl, rfl⟩ := h
    have hword : (word ⟨m, 0, 0, fits⟩).toNat = m.opcode :=
      (congrArg UInt32.toNat (encode_zero _)).trans (UInt32.toNat_ofNat_of_lt' m.opcode_lt_size)
    simp only [ofWord?, hword, Mnemonic.ofOpcode?_opcode]
  -- with operands the opcode is one byte, and no part of the word runs into another
  · have hcount := fieldCount_ne_zero h
    have hword := toNat_word hcount
    have hlt := Mnemonic.opcode_lt_of_fields hcount
    have hbyte : o.word.toNat % 256 = o.mnemonic.opcode := by omega
    have hfields := (operandField_encode_iff hlt).2 ⟨o.fits.narrow0, o.fits.narrow1⟩
    simp only [ofWord?, ofOpcode?_word h, hbyte, Mnemonic.ofOpcode?_opcode, Option.bind_some]
    exact of?_eq_some_iff.2 ⟨rfl, hfields⟩

/-- what is read from a word is written as that word -/
theorem word_of_ofWord? {w : UInt32} (h : ofWord? w = some o) : o.word = w := by
  unfold ofWord? at h
  split at h
  · rename_i m hfound
    cases h
    have hopcode := Mnemonic.opcode_of_ofOpcode? hfound
    calc encode (UInt32.ofNat m.opcode) 0 0 = UInt32.ofNat w.toNat := by rw [encode_zero, hopcode]
      _ = w := UInt32.ofNat_toNat
  · obtain ⟨m, hfound, hof⟩ := Option.bind_eq_some_iff.1 h
    have hopcode := Mnemonic.opcode_of_ofOpcode? hfound
    obtain ⟨rfl, h0, h1⟩ := of?_eq_some_iff.1 hof
    have hlt : o.mnemonic.opcode < 256 := hopcode ▸ Nat.mod_lt _ (by decide)
    apply UInt32.toNat_inj.1
    rw [word, toNat_encode hlt o.fits.narrow0 o.fits.narrow1, ← h0, ← h1, hopcode]
    have hw := w.toNat_lt
    unfold operandField
    omega

/-- **Reading is the inverse of writing**, on all words: nothing is read from a word that no instruction is written
as. -/
theorem ofWord?_eq_some_iff {w : UInt32} : ofWord? w = some o ↔ o.word = w :=
  ⟨word_of_ofWord?, fun h => h ▸ ofWord?_word o⟩

example : ofWord? 0x00600512 = some ⟨.move, 5, 6, by decide⟩ := by decide +kernel

-- the byte of `SAVEPUSH` with a three above it: neither wide opcode, and no operand either
example : ofWord? 0x353 = none := by decide +kernel

theorem word_injective : Function.Injective word := by
  intro o o' h
  have hread := ofWord?_word o
  rw [h, ofWord?_word o'] at hread
  exact (Option.some.inj hread).symm

end Operation

/-- **Instruction words are uniquely decodable.** Two mnemonics with fields that they can have give one word only if
mnemonic and fields are the same. This is so although the words of `SAVETOA` and `SAVETOB`, with whatever fields, are
words of `SAVEPUSH` with a bit more in the first. -/
theorem encode_uniquely_decodable {m m' : Mnemonic} {arg0 arg1 arg0' arg1' : Nat} (h : m.Fits arg0 arg1)
    (h' : m'.Fits arg0' arg1') :
    (encode (UInt32.ofNat m.opcode) (UInt32.ofNat arg0) (UInt32.ofNat arg1) =
        encode (UInt32.ofNat m'.opcode) (UInt32.ofNat arg0') (UInt32.ofNat arg1') ↔
      m = m' ∧ arg0 = arg0' ∧ arg1 = arg1') ∧
      ∀ x y : UInt32,
        encode (UInt32.ofNat (Mnemonic.bare .savetoa).opcode) x y =
          encode (UInt32.ofNat (Mnemonic.bare .savepush).opcode) (x ||| 1) y ∧
        encode (UInt32.ofNat (Mnemonic.bare .savetob).opcode) x y =
          encode (UInt32.ofNat (Mnemonic.bare .savepush).opcode) (x ||| 2) y := by
  refine ⟨⟨?_, ?_⟩, fun x y => ⟨encode_spill 0x53 1 x y, encode_spill 0x53 2 x y⟩⟩
  · intro hword
    have hsame : (⟨m, arg0, arg1, h⟩ : Operation) = ⟨m', arg0', arg1', h'⟩ := Operation.word_injective hword
    exact ⟨congrArg Operation.mnemonic hsame, congrArg Operation.arg0 hsame, congrArg Operation.arg1 hsame⟩
  · rintro ⟨rfl, rfl, rfl⟩
    rfl

/-- `SAVETOA` is not `SAVEPUSH`, and its word would be one of `SAVEPUSH` if that could have an operand -/
theorem savetoa_apart :
    (Mnemonic.bare .savetoa).Fits 0 0 ∧ (Mnemonic.bare .savepush).Fits 0 0 ∧ ¬ (Mnemonic.bare .savepush).Fits 1 0 ∧
    encode 0x153 0 0 ≠ encode 0x53 0 0 ∧ encode 0x153 0 0 = encode 0x53 1 0 := by
  have htoa : (Mnemonic.bare .savetoa).Fits 0 0 := by decide
  have hpush : (Mnemonic.bare .savepush).Fits 0 0 := by decide
  obtain ⟨hiff, hspill⟩ := encode_uniquely_decodable htoa hpush
  exact ⟨htoa, hpush, by decide, fun heq => absurd (hiff.1 heq).1 (by decide), (hspill 0 0).1⟩

/-! ## Assembled words -/

/-- an operation of the table has as many operands as its shape says -/
def Content.Shaped : Content → Prop
  | .operation opcode args _ _ => ∃ m : Mnemonic, opcode = m.opcode ∧ args.length = m.shape.fieldCount
  | .nothing | .label .. | .datum _ | .read .. | .refused _ => True

namespace Statement

/-- without causes every operand is accepted -/
theorem length_acceptedOf {operands : List (Except AssemblyCause Operand)} (h : causesOf operands = []) :
    (acceptedOf operands).length = operands.length := by
  induction operands with
  | nil => rfl
  | cons o rest ih =>
    cases o with
    | ok x => exact congrArg Nat.succ (ih h)
    | error e => cases h

theorem operation_shaped (m : Mnemonic) (args : List (List Char)) : (operation m args).content.Shaped := by
  apply operation_cases (P := fun st => st.content.Shaped)
  · intro operands literal hlength _
    unfold onOperands
    split
    · rename_i hcauses
      exact ⟨m, rfl, (length_acceptedOf hcauses).trans hlength⟩
    · trivial
  · intro hcount
    exact ⟨m, rfl, hcount.symm⟩
  · intro _ _
    trivial

theorem datum_shaped (args : List (List Char)) : (datum args).content.Shaped := by
  unfold datum
  split
  · split <;> trivial
  · trivial

theorem read_shaped (args : List (List Char)) : (read args).content.Shaped := by
  unfold read
  split
  · split <;> trivial
  · trivial

theorem ofLine_shaped (line : List Char) : (ofLine line).content.Shaped :=
  ofLine_cases (P := fun st => st.content.Shaped) line trivial (fun _ _ => trivial) datum_shaped read_shaped
    operation_shaped fun _ => trivial

end Statement

/-- every operation that a text is scanned to has as many operands as its shape says -/
theorem Session.scan_shaped {text : String} {span : Span} {opcode : Nat} {args : List Operand}
    (h : .op span opcode args ∈ (scan text).words.toList) :
    ∃ m : Mnemonic, opcode = m.opcode ∧ args.length = m.shape.fieldCount := by
  have hword : .op opcode args ∈ (Listing.ofText text).words :=
    (Denotes.scan text).words ▸ List.mem_map.2 ⟨_, h, rfl⟩
  obtain ⟨st, hst, hmem⟩ := List.mem_flatMap.1 hword
  obtain ⟨raw, -, rfl⟩ := List.mem_map.1 hst
  have hshaped := Statement.ofLine_shaped (Text.dropReturn raw)
  cases hcontent : (Statement.ofLine (Text.dropReturn raw)).content with
  | operation opcode' args' literal ignored =>
    rw [hcontent] at hshaped hmem
    rcases List.mem_cons.1 hmem with heq | hliteral
    · cases heq
      exact hshaped
    · obtain ⟨value, -, heq⟩ := List.mem_map.1 hliteral
      cases heq
  | datum value =>
    rw [hcontent] at hmem
    cases List.mem_singleton.1 hmem
  | nothing | label | read | refused =>
    rw [hcontent] at hmem
    cases hmem

namespace Image

variable {s : Session}

theorem valueAt_of_length_le {args : List Operand} {n : Nat} (h : args.length ≤ n) : valueAt s args n = 0 := by
  simp [valueAt, List.getElem?_eq_none h]

/-- an operation without far labels has fields that fit -/
theorem fits_valueAt {m : Mnemonic} {args : List Operand} (hlength : args.length = m.shape.fieldCount)
    (hnarrow : valueAt s args 0 ≤ maxAddress ∧ valueAt s args 1 ≤ maxAddress) :
    m.Fits (valueAt s args 0) (valueAt s args 1) :=
  ⟨hnarrow.1, hnarrow.2, fun h => valueAt_of_length_le (by omega), fun h => valueAt_of_length_le (by omega)⟩

end Image

open Image in
/-- **An assembled operation can be read back.** At the place of an operation stands a word from which its mnemonic and
the values of its operands are read, exactly if none of these is a far label. -/
theorem assemble_reads_back {text : String} {limit : Nat} {a : Assembled} (h : assemble text limit = .ok a) {i : Nat}
    {span : Span} {opcode : Nat} {args : List Operand}
    (hi : (Session.scan text).words.toList[i]? = some (.op span opcode args)) :
    ∃ word, a.image.stack[i]? = some word ∧
      ((∃ o, Operation.ofWord? word = some o ∧ o.mnemonic.opcode = opcode ∧
        o.arg0 = valueAt (Session.scan text) args 0 ∧
          o.arg1 = valueAt (Session.scan text) args 1) ↔ ∀ x ∈ args, ¬ x.Far (Session.scan text)) := by
  obtain ⟨-, hresolve⟩ := assemble_eq_ok h
  obtain ⟨hresolved, hstack, -⟩ := resolve_eq_ok hresolve
  have hw := List.mem_of_getElem? hi
  have hfar := valueAt_le_iff ((Session.scan_narrow text).words _ hw) (hresolved.words span opcode args hw)
  refine ⟨_, by rw [hstack, List.getElem?_map, hi, Option.map_some], ?_⟩
  rw [← hfar, encodeWord_op]
  constructor
  · rintro ⟨o, -, -, h0, h1⟩
    exact ⟨h0 ▸ o.fits.narrow0, h1 ▸ o.fits.narrow1⟩
  · intro hnarrow
    obtain ⟨m, rfl, hlength⟩ := Session.scan_shaped hw
    exact ⟨⟨m, _, _, fits_valueAt hlength hnarrow⟩, Operation.ofWord?_eq_some_iff.2 rfl, rfl, rfl, rfl⟩

end C15

/-
Operands and the fields of a word.

A word has two operand fields of twelve bits. Numbers and data addresses are checked on the way into them: a number when
its line is read, a data address again when the words before it are counted (`Operand.Narrow`, `Session.Narrow`). The
position of a label is not. So a field holds less than its operand exactly for a label that stands behind word 4095
(`Operand.Far`), and the bits too many run into the other field. Results:
- `Statement.operation_cases`, `Statement.ofLine_cases`: what an operation and a line can be, for all that is said of
  every line;
- `Session.scan_narrow`: what any text is scanned to has narrow operands, and labels inside the code;
- `Image.resolve_eq_ok`, `Image.Resolved.resolve`: an image is made exactly if every operand has a value;
- `operandField_encode_iff`: when the fields of a word are its operands;
- `assemble_fields`: the fields of an assembled text are its operands but for far labels, and there are none if the
  memory is small;
- `jumpOver_overflows`: one word too many, and a jump goes to the wrong end of the code.
-/
import C15.Image
import C15.Proofs.RoundTrip

namespace C15

/-! ## Operands of a line -/

/-- the operands that stand in the word of an instruction; a literal has a word of its own -/
def Shape.fieldCount : Shape → Nat
  | .bare | .value => 0
  | .target | .valueTarget | .slot => 1
  | .twoTargets | .twoSlots => 2

theorem Shape.fieldCount_le (s : Shape) : s.fieldCount ≤ 2 := by
  cases s <;> decide

/-- data addresses and numbers of twelve bits; a label can be anywhere -/
def Operand.Narrow : Operand → Prop
  | .data n | .immediate n => n ≤ maxAddress
  | .label _ => True

/-- an opcode of the table with at most two operands, which are narrow -/
def NarrowOperation (opcode : Nat) (args : List Operand) : Prop :=
  (∃ m : Mnemonic, opcode = m.opcode) ∧ args.length ≤ 2 ∧ ∀ x ∈ args, x.Narrow

def Content.Narrow : Content → Prop
  | .operation opcode args _ _ => NarrowOperation opcode args
  | .read target _ => target.Narrow
  | .nothing | .label .. | .datum _ | .refused _ => True

namespace Statement

theorem target_narrow {cs : List Char} {x : Operand} (h : target cs = .ok x) : x.Narrow := by
  unfold target at h
  split at h
  · dsimp only at h
    split at h
    · rename_i hle
      cases h
      exact hle
    · cases h
  · split at h
    · cases h
      trivial
    · cases h

theorem slot_narrow {cs : List Char} {x : Operand} (h : slot cs = .ok x) : x.Narrow := by
  unfold slot at h
  split at h
  · exact target_narrow h
  · split at h
    · cases h
    · split at h
      · rename_i hle
        cases h
        exact hle
      · cases h

/-- a statement on operands is narrow if its operands are, and as many as before -/
theorem onOperands_narrow {operands : List (Except AssemblyCause Operand)} {content : List Operand → Content}
    (hoperands : ∀ x, .ok x ∈ operands → x.Narrow)
    (hcontent : ∀ xs, xs.length ≤ operands.length → (∀ x ∈ xs, x.Narrow) → (content xs).Narrow) :
    (onOperands operands content).content.Narrow := by
  unfold onOperands
  split
  · refine hcontent _ (List.length_filterMap_le _ _) ?_
    intro x hx
    obtain ⟨o, ho, heq⟩ := List.mem_filterMap.1 hx
    cases o with
    | ok y =>
      obtain rfl := Option.some.inj heq
      exact hoperands y ho
    | error e => cases heq
  · trivial

/-- An operation is on as many operands as its mnemonic has, each read from a text, or it has none and more text is
ignored, or it is refused, and then not for want of space. -/
theorem operation_cases {P : Statement → Prop} (m : Mnemonic) (args : List (List Char))
    (hoperands : ∀ operands literal, operands.length = m.shape.fieldCount →
      (∀ o ∈ operands, ∃ cs, o = target cs ∨ o = slot cs) →
      P (onOperands operands fun xs => .operation m.opcode xs literal none))
    (hignored : m.shape.fieldCount = 0 → P ⟨.operation m.opcode [] none (some m.text), []⟩)
    (hrefused : ∀ cause, (∀ memory stack, cause ≠ .outOfSpace memory stack) → P (refuse cause)) :
      P (operation m args) := by
  have hcount {shape : Shape} (h : m.shape = shape) : shape.fieldCount = m.shape.fieldCount :=
    congrArg Shape.fieldCount h.symm
  have htarget {x : List Char} : ∃ cs, target x = target cs ∨ target x = slot cs := ⟨x, Or.inl rfl⟩
  have hslot {x : List Char} : ∃ cs, slot x = target cs ∨ slot x = slot cs := ⟨x, Or.inr rfl⟩
  unfold operation
  split
  · rename_i hshape
    exact hoperands [] none (hcount hshape) (List.forall_mem_nil _)
  · rename_i hshape _
    exact hignored (hcount hshape).symm
  · rename_i hshape
    exact hoperands [_] none (hcount hshape) (List.forall_mem_singleton.2 htarget)
  · exact hrefused _ nofun
  · rename_i hshape
    exact hoperands [_, _] none (hcount hshape) (List.forall_mem_cons.2 ⟨htarget, List.forall_mem_singleton.2 htarget⟩)
  · rename_i hshape
    split
    · exact hoperands [] _ (hcount hshape) (List.forall_mem_nil _)
    · exact hrefused _ nofun
  · rename_i hshape
    split
    · exact hoperands [_] _ (hcount hshape) (List.forall_mem_singleton.2 htarget)
    · exact hrefused _ nofun
  · rename_i hshape
    exact hoperands [_] none (hcount hshape) (List.forall_mem_singleton.2 hslot)
  · rename_i hshape
    exact hoperands [_, _] none (hcount hshape) (List.forall_mem_cons.2 ⟨hslot, List.forall_mem_singleton.2 hslot⟩)
  all_goals exact hrefused _ nofun

/-- a line says nothing, defines a label, is one of the two directives or an operation, or its first word is not
known -/
theorem ofLine_cases {P : Statement → Prop} (line : List Char) (hnothing : P ⟨.nothing, []⟩)
    (hlabel : ∀ name trailing, P ⟨.label name trailing, []⟩) (hdatum : ∀ args, P (datum args))
    (hread : ∀ args, P (read args)) (hoperation : ∀ m args, P (operation m args))
    (hunknown : ∀ name, P (refuse (.unknownOpcode name))) : P (ofLine line) := by
  unfold ofLine
  split
  · exact hnothing
  · split
    · exact hlabel _ _
    · dsimp only
      split
      · exact hdatum _
      · split
        · exact hread _
        · split
          · exact hoperation _ _
          · exact hunknown _

theorem operation_narrow (m : Mnemonic) (args : List (List Char)) : (operation m args).content.Narrow := by
  apply operation_cases (P := fun st => st.content.Narrow)
  · intro operands literal hlength hread
    refine onOperands_narrow ?_ fun xs hle hxs => ⟨⟨m, rfl⟩, (hle.trans_eq hlength).trans m.shape.fieldCount_le, hxs⟩
    intro x hx
    obtain ⟨cs, htarget | hslot⟩ := hread _ hx
    · exact target_narrow htarget.symm
    · exact slot_narrow hslot.symm
  · intro _
    exact ⟨⟨m, rfl⟩, Nat.zero_le 2, List.forall_mem_nil _⟩
  · intro _ _
    trivial

theorem datum_narrow (args : List (List Char)) : (datum args).content.Narrow := by
  unfold datum
  split
  · split <;> trivial
  · trivial

theorem read_narrow (args : List (List Char)) : (read args).content.Narrow := by
  unfold read
  split
  · split
    · rename_i hslot
      exact slot_narrow hslot
    · trivial
  · trivial

/-- **A line has narrow operands**, whatever its text. -/
theorem ofLine_narrow (line : List Char) : (ofLine line).content.Narrow :=
  ofLine_cases (P := fun st => st.content.Narrow) line trivial (fun _ _ => trivial) datum_narrow read_narrow
    operation_narrow fun _ => trivial

end Statement

/-! ## Operands of a session -/

def Word.Narrow : Word → Prop
  | .op _ opcode args => NarrowOperation opcode args
  | .raw _ => True

namespace Session

/-- words and reads have narrow operands, and labels stand inside the code or at its end -/
structure Narrow (s : Session) : Prop where
  words : ∀ w ∈ s.words.toList, w.Narrow
  reads : ∀ r ∈ s.reads.toList, r.target.Narrow
  labels : ∀ l ∈ s.labels, l.2 ≤ s.stackSize

namespace Narrow

variable {s : Session}

theorem empty : Session.empty.Narrow := ⟨fun _ h => (nomatch h), fun _ h => (nomatch h), fun _ h => nomatch h⟩

theorem report (h : s.Narrow) (d : Diagnostic) : (s.report d).Narrow := ⟨h.words, h.reads, h.labels⟩

theorem touch (h : s.Narrow) (addresses : List Nat) : (s.touch addresses).Narrow := ⟨h.words, h.reads, h.labels⟩

theorem define (h : s.Narrow) (span : Span) (name : String) : (s.define span name).Narrow := by
  have hbound : Session.Narrow { s with labels := (name, s.stackSize) :: s.labels.filter (·.1 != name) } := by
    refine ⟨h.words, h.reads, ?_⟩
    intro l hl
    rcases List.mem_cons.1 hl with rfl | hl
    · exact Nat.le_refl _
    · exact h.labels l (List.mem_of_mem_filter hl)
  unfold Session.define
  dsimp only
  split
  · exact hbound.report _
  · exact hbound

/-- more words leave the labels where they are -/
theorem append (h : s.Narrow) (more : Array Word) (hmore : ∀ w ∈ more.toList, w.Narrow) :
    Session.Narrow { s with words := s.words ++ more } := by
  refine ⟨?_, h.reads, ?_⟩
  · intro w hw
    rw [Array.toList_append, List.mem_append] at hw
    exact hw.elim (h.words w) (hmore w)
  · intro l hl
    refine (h.labels l hl).trans ?_
    rw [stackSize, stackSize, Array.size_append]
    exact Nat.le_add_right _ _

theorem refuseAll (h : s.Narrow) (span : Span) (causes : List AssemblyCause) :
    (causes.foldl (fun s c => s.refuse span c) s).Narrow := by
  induction causes generalizing s with
  | nil => exact h
  | cons cause rest ih => exact ih (h.report _)

theorem add (h : s.Narrow) (span : Span) {c : Content} (hc : c.Narrow) : (s.add span c).Narrow := by
  cases c with
  | nothing => exact h
  | label name trailing =>
    cases trailing with
    | true => exact (h.define span name).report _
    | false => exact h.define span name
  | operation opcode args literal ignored =>
    have hwarned : Session.Narrow (ignored.elim s fun m => s.warn span (.extraText m)) := by
      cases ignored with
      | none => exact h
      | some m => exact h.report _
    have hwords := hwarned.append (#[.op span opcode args] ++ literal.toArray.map .raw) ?_
    · simpa [Session.add] using hwords
    · intro w hw
      cases literal with
      | none =>
        obtain rfl : w = .op span opcode args := by simpa using hw
        exact hc
      | some value =>
        obtain rfl | rfl : w = .op span opcode args ∨ w = .raw value := by simpa using hw
        · exact hc
        · trivial
  | datum value =>
    have hwords := h.append #[.raw value] ?_
    · simpa [Session.add] using hwords
    · intro w hw
      obtain rfl : w = .raw value := by simpa using hw
      trivial
  | read target name =>
    refine ⟨h.words, ?_, h.labels⟩
    intro r hr
    simp only [Session.add, Array.toList_push, List.mem_append, List.mem_singleton] at hr
    rcases hr with hr | rfl
    · exact h.reads r hr
    · exact hc
  | refused causes => exact h.refuseAll span causes

theorem scanLines (h : s.Narrow) (offset : Nat) (lines : List (List Char)) : (s.scanLines offset lines).Narrow := by
  induction lines generalizing s offset with
  | nil => exact h
  | cons line rest ih =>
    apply ih
    exact (h.touch _).add _ (Statement.ofLine_narrow _)

/-- a label stands inside the code or at its end -/
theorem position?_le (h : s.Narrow) {name : String} {n : Nat} (hn : s.position? name = some n) : n ≤ s.stackSize := by
  obtain ⟨before, after, hlabels, -⟩ := List.lookup_eq_some_iff.1 hn
  have hmem : (name, n) ∈ s.labels := hlabels ▸ List.mem_append_right _ List.mem_cons_self
  exact h.labels _ hmem

end Narrow

/-- **Scanning lets only narrow operands through.** -/
theorem scan_narrow (text : String) : (scan text).Narrow := Narrow.empty.scanLines 0 _

end Session

/-! ## Images -/

namespace Image

variable {s : Session}

/-- every operand has a value -/
structure Resolved (s : Session) : Prop where
  words : ∀ span opcode args, .op span opcode args ∈ s.words.toList → ∀ x ∈ args, ∃ v, operandValue s x = .ok v
  reads : ∀ r ∈ s.reads.toList, ∃ v, operandValue s r.target = .ok v

theorem errors_eq_nil_iff {α : Type} (xs : List α) (f : α → Operand) (g : α → AssemblyCause → Diagnostic) :
    (xs.filterMap fun x =>
      match operandValue s (f x) with
      | .ok _ => none
      | .error e => some (g x e)) = [] ↔ ∀ x ∈ xs, ∃ v, operandValue s (f x) = .ok v := by
  rw [List.filterMap_eq_nil_iff]
  refine forall₂_congr fun x _ => ?_
  cases operandValue s (f x) <;> simp

theorem resolved_iff :
    Resolved s ↔ s.words.toList.flatMap (wordErrors s) ++ (s.reads.toList.filterMap fun r =>
      match operandValue s r.target with
      | .ok _ => none
      | .error e => some (.errorAt .assembly r.span e.message)) = [] := by
  rw [List.append_eq_nil_iff, errors_eq_nil_iff, List.flatMap_eq_nil_iff]
  constructor
  · intro h
    refine ⟨?_, h.reads⟩
    rintro (⟨span, opcode, args⟩ | value) hw
    · exact (errors_eq_nil_iff args id _).2 (h.words span opcode args hw)
    · rfl
  · rintro ⟨hwords, hreads⟩
    exact ⟨fun span opcode args hw => (errors_eq_nil_iff args id _).1 (hwords _ hw), hreads⟩

/-- an image has one word for each word of its session, and the reads that have a value -/
theorem resolve_eq_ok {image : Image} (h : resolve s = .ok image) :
    Resolved s ∧ image.stack = s.words.toList.map (encodeWord s) ∧
      image.reads = s.reads.toList.filterMap fun r =>
        (operandValue s r.target).toOption.map fun n => ⟨UInt32.ofNat n, r.name⟩ := by
  unfold resolve at h
  dsimp only at h
  split at h
  · rename_i hempty
    cases h
    exact ⟨resolved_iff.2 (List.isEmpty_iff.1 hempty), rfl, rfl⟩
  · cases h

theorem Resolved.resolve (h : Resolved s) : ∃ image, resolve s = .ok image :=
  ⟨_, if_pos (List.isEmpty_iff.2 (resolved_iff.1 h))⟩

end Image

/-! ## Fields -/

/-- what an operand field of a word holds -/
def operandField (word : UInt32) (n : Nat) : Nat := word.toNat / 2 ^ (8 + 12 * n) % 4096

theorem operandField_le (word : UInt32) (n : Nat) : operandField word n ≤ maxAddress :=
  Nat.le_of_lt_succ (Nat.mod_lt _ (by decide))

/-- a word of narrow operands is their sum, each at its place -/
theorem toNat_encode {opcode arg0 arg1 : Nat} (hopcode : opcode < 256) (h0 : arg0 ≤ maxAddress)
    (h1 : arg1 ≤ maxAddress) :
    (encode (UInt32.ofNat opcode) (UInt32.ofNat arg0) (UInt32.ofNat arg1)).toNat =
      arg1 * 2 ^ 20 + (arg0 * 2 ^ 8 + opcode) := by
  have h0 : arg0 < 2 ^ 12 := Nat.lt_succ_of_le h0
  have h1 : arg1 < 2 ^ 12 := Nat.lt_succ_of_le h1
  have hsize : UInt32.size = 2 ^ 32 := rfl
  have hcode : (UInt32.ofNat opcode).toNat = opcode := UInt32.toNat_ofNat_of_lt' (by omega)
  have hfirst : (UInt32.ofNat arg0 <<< 8).toNat = arg0 <<< 8 := by
    rw [UInt32.toNat_shiftLeft, UInt32.toNat_ofNat_of_lt' (by omega)]
    refine Nat.mod_eq_of_lt ?_
    rw [Nat.shiftLeft_eq]
    exact Nat.lt_of_lt_of_le (Nat.mul_lt_mul_of_pos_right h0 (by decide)) (by decide)
  have hsecond : (UInt32.ofNat arg1 <<< 20).toNat = arg1 <<< 20 := by
    rw [UInt32.toNat_shiftLeft, UInt32.toNat_ofNat_of_lt' (by omega)]
    refine Nat.mod_eq_of_lt ?_
    rw [Nat.shiftLeft_eq]
    exact Nat.lt_of_lt_of_le (Nat.mul_lt_mul_of_pos_right h1 (by decide)) (by decide)
  -- no two parts share a bit, so putting them together is adding them
  have hlow : arg0 <<< 8 + opcode < 2 ^ 20 := by
    rw [Nat.shiftLeft_eq]
    omega
  have hor : arg0 <<< 8 ||| opcode = arg0 <<< 8 + opcode := (Nat.shiftLeft_add_eq_or_of_lt hopcode arg0).symm
  rw [encode, UInt32.toNat_or, UInt32.toNat_or, hsecond, hfirst, hcode, Nat.or_assoc, hor,
    ← Nat.shiftLeft_add_eq_or_of_lt hlow, Nat.shiftLeft_eq, Nat.shiftLeft_eq]

/-- **The fields of a word hold its operands exactly if these are narrow.** -/
theorem operandField_encode_iff {opcode arg0 arg1 : Nat} (hopcode : opcode < 256) :
    (operandField (encode (UInt32.ofNat opcode) (UInt32.ofNat arg0) (UInt32.ofNat arg1)) 0 = arg0 ∧
      operandField (encode (UInt32.ofNat opcode) (UInt32.ofNat arg0) (UInt32.ofNat arg1)) 1 = arg1) ↔
        arg0 ≤ maxAddress ∧ arg1 ≤ maxAddress := by
  constructor
  · rintro ⟨h0, h1⟩
    exact ⟨h0 ▸ operandField_le _ _, h1 ▸ operandField_le _ _⟩
  · rintro ⟨h0, h1⟩
    have hword := toNat_encode hopcode h0 h1
    unfold maxAddress at h0 h1
    simp only [operandField, hword]
    constructor <;> omega

/-! ## Assembled texts -/

theorem Mnemonic.opcode_lt {m : Mnemonic} (ha : m.opcode ≠ 0x153) (hb : m.opcode ≠ 0x253) : m.opcode < 256 := by
  cases m with
  | bare op =>
    cases op with
    | savetoa => exact absurd rfl ha
    | savetob => exact absurd rfl hb
    | _ => decide
  | address op => cases op <;> decide
  | jump op => cases op <;> decide
  | slot op => cases op <;> decide
  | pair op => cases op <;> decide
  | move | store | storePush => decide

/-- an operand that is a label behind the last word that a field can name -/
def Operand.Far (s : Session) (x : Operand) : Prop :=
  ∃ name n, x = .label name ∧ s.position? name = some n ∧ maxAddress < n

namespace Image

variable {s : Session}

/-- the value of an operand by its place, zero if there is none -/
def valueAt (s : Session) (args : List Operand) (n : Nat) : Nat :=
  ((args[n]?).bind fun x => (operandValue s x).toOption).getD 0

/-- a narrow operand has a narrow value unless it is a far label -/
theorem operandValue_le_iff {x : Operand} (hx : x.Narrow) {v : Nat} (hv : operandValue s x = .ok v) :
    v ≤ maxAddress ↔ ¬ x.Far s := by
  cases x with
  | data offset =>
    simp only [operandValue] at hv
    split at hv
    · rename_i hle
      cases hv
      exact iff_of_true hle nofun
    · cases hv
  | immediate n =>
    cases hv
    exact iff_of_true hx nofun
  | label name =>
    simp only [operandValue] at hv
    split at hv
    · rename_i n hn
      cases hv
      rw [← Nat.not_lt, not_iff_not]
      constructor
      · intro hlt
        exact ⟨name, _, rfl, hn, hlt⟩
      · rintro ⟨_, m, heq, hm, hlt⟩
        cases heq
        rw [hn] at hm
        cases hm
        exact hlt
    · cases hv

theorem valueAt_of_getElem? {args : List Operand} {n : Nat} {x : Operand} (hx : args[n]? = some x) {v : Nat}
    (hv : operandValue s x = .ok v) : valueAt s args n = v := by
  simp [valueAt, hx, hv, Except.toOption]

theorem encodeWord_op (span : Span) (opcode : Nat) (args : List Operand) :
    encodeWord s (.op span opcode args) =
      encode (UInt32.ofNat opcode) (UInt32.ofNat (valueAt s args 0)) (UInt32.ofNat (valueAt s args 1)) := by
  have hfield (o : Option Nat) : o.elim 0 UInt32.ofNat = UInt32.ofNat (o.getD 0) := by cases o <;> rfl
  simp only [encodeWord, valueAt, hfield]

/-- the operands of an operation are narrow values exactly if none is a far label -/
theorem valueAt_le_iff {opcode : Nat} {args : List Operand} (hnarrow : NarrowOperation opcode args)
    (hvalues : ∀ x ∈ args, ∃ v, operandValue s x = .ok v) :
    (valueAt s args 0 ≤ maxAddress ∧ valueAt s args 1 ≤ maxAddress) ↔ ∀ x ∈ args, ¬ x.Far s := by
  have hplace {n : Nat} {x : Operand} (hx : args[n]? = some x) : valueAt s args n ≤ maxAddress ↔ ¬ x.Far s := by
    have hmem := List.mem_of_getElem? hx
    obtain ⟨v, hv⟩ := hvalues x hmem
    rw [valueAt_of_getElem? hx hv]
    exact operandValue_le_iff (hnarrow.2.2 x hmem) hv
  constructor
  · rintro ⟨h0, h1⟩ x hx
    obtain ⟨n, hn⟩ := List.mem_iff_getElem?.1 hx
    have hlt : n < args.length := (List.getElem?_eq_some_iff.1 hn).1
    have htwo := hnarrow.2.1
    obtain rfl | rfl : n = 0 ∨ n = 1 := by omega
    · exact (hplace hn).1 h0
    · exact (hplace hn).1 h1
  · intro hfar
    have hle (n : Nat) : valueAt s args n ≤ maxAddress := by
      cases hn : args[n]? with
      | none => simp [valueAt, hn]
      | some x => exact (hplace hn).2 (hfar x (List.mem_of_getElem? hn))
    exact ⟨hle 0, hle 1⟩

end Image

/-- what is there when a text was assembled -/
theorem assemble_eq_ok {text : String} {limit : Nat} {a : Assembled} (h : assemble text limit = .ok a) :
    (Session.scan text).stackSize + (Session.scan text).memorySize ≤ limit ∧
      Image.resolve (Session.scan text) = .ok a.image := by
  simp only [assemble] at h
  split at h
  · rename_i hfits
    refine ⟨of_decide_eq_true hfits, ?_⟩
    split at h
    · cases h
    · rename_i image hresolve
      split at h
      · cases h
      · cases h
        exact hresolve
  · cases h

open Image in
/-- **Operands and fields.** In a text that was assembled every operand has a value, and the value has twelve bits
unless the operand is a far label. The fields of an operation, but for the two opcodes with bits of their own there, are
its operands exactly if none of them is a far label. A memory of no more than 4095 words has no room for one. -/
theorem assemble_fields {text : String} {limit : Nat} {a : Assembled} (h : assemble text limit = .ok a) :
    (limit ≤ maxAddress → ∀ x : Operand, ¬ x.Far (Session.scan text)) ∧
      (∀ span opcode args, .op span opcode args ∈ (Session.scan text).words.toList → ∀ x ∈ args,
        ∃ v, operandValue (Session.scan text) x = .ok v ∧ (v ≤ maxAddress ↔ ¬ x.Far (Session.scan text))) ∧
      (∀ r ∈ (Session.scan text).reads.toList,
        ∃ v, operandValue (Session.scan text) r.target = .ok v ∧
          (v ≤ maxAddress ↔ ¬ r.target.Far (Session.scan text))) ∧
      ∀ (i : Nat) span opcode args, (Session.scan text).words.toList[i]? = some (.op span opcode args) →
        ∃ word, a.image.stack[i]? = some word ∧ (opcode ≠ 0x153 → opcode ≠ 0x253 →
          ((operandField word 0 = valueAt (Session.scan text) args 0 ∧
            operandField word 1 = valueAt (Session.scan text) args 1) ↔ ∀ x ∈ args, ¬ x.Far (Session.scan text))) := by
  obtain ⟨hfits, hresolve⟩ := assemble_eq_ok h
  obtain ⟨hresolved, hstack, -⟩ := resolve_eq_ok hresolve
  have hnarrow := Session.scan_narrow text
  refine ⟨?_, ?_, ?_, ?_⟩
  · rintro hlimit x ⟨name, n, -, hn, hlt⟩
    have hle := hnarrow.position?_le hn
    omega
  · intro span opcode args hw x hx
    obtain ⟨v, hv⟩ := hresolved.words span opcode args hw x hx
    exact ⟨v, hv, operandValue_le_iff ((hnarrow.words _ hw).2.2 x hx) hv⟩
  · intro r hr
    obtain ⟨v, hv⟩ := hresolved.reads r hr
    exact ⟨v, hv, operandValue_le_iff (hnarrow.reads r hr) hv⟩
  · intro i span opcode args hi
    have hw := List.mem_of_getElem? hi
    obtain ⟨⟨m, rfl⟩, htwo, hargs⟩ := hnarrow.words _ hw
    refine ⟨_, by rw [hstack, List.getElem?_map, hi, Option.map_some], fun ha hb => ?_⟩
    rw [encodeWord_op, operandField_encode_iff (Mnemonic.opcode_lt ha hb)]
    exact valueAt_le_iff ⟨⟨m, rfl⟩, htwo, hargs⟩ (hresolved.words span _ args hw)

/-! ## A jump over many words -/

/-- a jump over so many words -/
def jumpOver (n : Nat) : List Line :=
  .instr (.jump .jmp "x") :: ((List.replicate n (.bare .nop)).map .instr ++ [.label "x"])

namespace JumpOver

open Image

variable (n : Nat)

theorem mem_lines {l : Line} (h : l ∈ jumpOver n) :
    l = .instr (.jump .jmp "x") ∨ l = .instr (.bare .nop) ∨ l = .label "x" := by
  rcases List.mem_cons.1 h with rfl | h
  · exact .inl rfl
  rcases List.mem_append.1 h with h | h
  · obtain ⟨i, hi, rfl⟩ := List.mem_map.1 h
    rw [List.eq_of_mem_replicate hi]
    exact .inr (.inl rfl)
  · exact .inr (.inr (List.mem_singleton.1 h))

theorem printable : ∀ l ∈ jumpOver n, l.Printable := by
  intro l hl
  rcases mem_lines n hl with rfl | rfl | rfl <;> decide +kernel

theorem labels : Line.labels (jumpOver n) = ["x"] := by
  rw [jumpOver, Line.labels_instr, Line.labels_append, Line.labels_instrs]
  rfl

theorem labels_nodup : (Line.labels (jumpOver n)).Nodup := by
  rw [labels]
  exact List.nodup_singleton _

/-- the label stands behind the last word -/
theorem position? : (Session.scan (Line.print (jumpOver n))).position? "x" = some (n + 1) := by
  have hlines : jumpOver n = (.instr (.jump .jmp "x") :: (List.replicate n (.bare .nop)).map .instr) ++
      .label "x" :: [] := rfl
  rw [Session.scan_position? (printable n) (labels_nodup n) hlines]
  simp [Line.wordCount, Instruction.wordCount, Nat.add_comm]

theorem operandValue_label : operandValue (Session.scan (Line.print (jumpOver n))) (.label "x") = .ok (n + 1) := by
  simp only [operandValue, position?]

theorem stackSize : (Session.scan (Line.print (jumpOver n))).stackSize = n + 1 := by
  rw [Session.scan_stackSize (printable n)]
  simp [jumpOver, Line.wordCount, Instruction.wordCount, Nat.add_comm]

theorem memorySize : (Session.scan (Line.print (jumpOver n))).memorySize = 0 := by
  have hnone : (jumpOver n).flatMap Line.addresses = [] := by
    rw [List.flatMap_eq_nil_iff]
    intro l hl
    rcases mem_lines n hl with rfl | rfl | rfl <;> rfl
  rw [Session.scan_memorySize (printable n), Line.memorySize, hnone]
  rfl

theorem resolved : Resolved (Session.scan (Line.print (jumpOver n))) := by
  constructor
  · intro span opcode args hw x hx
    obtain ⟨i, hi, rfl⟩ := Session.scan_mem_words (printable n) hw
    rcases mem_lines n hi with hi | hi | hi
    · obtain rfl := Line.instr.inj hi
      obtain rfl := List.mem_singleton.1 hx
      exact ⟨n + 1, operandValue_label n⟩
    · obtain rfl := Line.instr.inj hi
      cases hx
    · cases hi
  · intro r hr
    obtain ⟨a, ha, -⟩ := Session.scan_mem_reads (printable n) hr
    rcases mem_lines n ha with ha | ha | ha <;> cases ha

theorem first_word :
    (Session.scan (Line.print (jumpOver n))).words.toList[0]? = some (.op ⟨0, 9⟩ 0x0A [.label "x"]) := by
  rw [Session.scan_words (printable n)]
  rfl

/-- a memory that holds the words is enough -/
theorem assemble_ok {limit : Nat} (h : n + 1 ≤ limit) :
    ∃ a, assemble (Line.print (jumpOver n)) limit = .ok a ∧ a.warnings = [] ∧
      a.image.stack[0]? = some (encode 0x0A (UInt32.ofNat (n + 1)) 0) := by
  obtain ⟨image, hresolve⟩ := (resolved n).resolve
  have hfits : Usage.fits ⟨n + 1, 0, limit⟩ = true := decide_eq_true h
  refine ⟨⟨image, ⟨n + 1, 0, limit⟩, []⟩, ?_, rfl, ?_⟩
  · simp only [assemble, Session.scan_diagnostics (printable n) (labels_nodup n), stackSize, memorySize, hfits,
      if_true, hresolve]
    rfl
  · rw [(resolve_eq_ok hresolve).2.1, List.getElem?_map, first_word, Option.map_some, encodeWord_op,
      valueAt_of_getElem? rfl (operandValue_label n)]
    rfl

end JumpOver

/-- a label three words ahead is no far label: the field names it -/
theorem jumpOver_fields : ∃ a word, assemble (Line.print (jumpOver 3)) 500 = .ok a ∧ a.image.stack[0]? = some word ∧
    operandField word 0 = 4 ∧ operandField word 1 = 0 := by
  have hroom : 3 + 1 ≤ 500 := by decide
  obtain ⟨a, h, -⟩ := JumpOver.assemble_ok 3 hroom
  obtain ⟨hnear, -, -, hfields⟩ := assemble_fields h
  obtain ⟨word, hstack, hiff⟩ := hfields 0 _ _ _ (JumpOver.first_word 3)
  obtain ⟨h0, h1⟩ := (hiff (by decide) (by decide)).2 fun x _ => hnear (by decide) x
  exact ⟨a, word, h, hstack, h0.trans (Image.valueAt_of_getElem? rfl (JumpOver.operandValue_label 3)), h1⟩

/-- **A far label overflows.** The text fits into 4096 words and is assembled without a report. The label is at position
4096, behind the last word; the word of the jump names the first word of the code, and has a one in the field that the
jump does not use. -/
theorem jumpOver_overflows : ∃ a word, assemble (Line.print (jumpOver 4095)) 4096 = .ok a ∧ a.warnings = [] ∧
    Image.operandValue (Session.scan (Line.print (jumpOver 4095))) (.label "x") = .ok 4096 ∧
      a.image.stack[0]? = some word ∧ operandField word 0 = 0 ∧ operandField word 1 = 1 := by
  obtain ⟨a, h, hwarnings, hword⟩ := JumpOver.assemble_ok 4095 (Nat.le_refl 4096)
  exact ⟨a, _, h, hwarnings, JumpOver.operandValue_label 4095, hword, by decide, by decide⟩

end C15

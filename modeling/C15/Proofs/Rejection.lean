/-
What a refused line leaves behind.

A line is refused as a whole: no word, no label and no read of it is kept, and its errors are reported at its place.
Only the count of data memory can move. It counts every data address that is named by a well-formed operand, and of two
operands one may be well formed and the other refused. `HalfRefused` describes such lines by their words. Results:
- `Statement.touched_of_refused`, `Statement.touched_of_half`: a refused line touches a data address exactly if it is
  half refused, and then that one address;
- `Session.refused_of_error`: an error is reported for refused lines only;
- `Session.scanLine_of_error`: the session after a line for which an error was reported.
-/
import C15.Proofs.Listing

namespace C15

open C15.Text

/-! ## Half refused lines -/

namespace Statement

/-- of two operands one is the data address `n` and the other is refused -/
def Half (read : List Char → Except AssemblyCause Operand) (x y : List Char) (n : Nat) : Prop :=
  (read x = .ok (.data n) ∧ ∃ e, read y = .error e) ∨ ((∃ e, read x = .error e) ∧ read y = .ok (.data n))

/-- the operands of an operation on two addresses or two slots, of which one is the data address `n` and the other is
refused -/
def HalfOperands (m : Mnemonic) (x y : List Char) (n : Nat) : Prop :=
  (m.shape = .twoTargets ∧ Half target x y n) ∨ (m.shape = .twoSlots ∧ Half slot x y n)

/-- a line that says nothing but such an operation -/
def HalfRefused (line : List Char) (n : Nat) : Prop :=
  ∃ m x y, words (line.takeWhile (· != '#')) = [m.text.toList, x, y] ∧ HalfOperands m x y n

/-- a statement on one operand that is refused touches nothing -/
theorem touched_of_one {o : Except AssemblyCause Operand} {content : List Operand → Content}
    {causes : List AssemblyCause} (hcontent : ∀ xs, (content xs).isRefused = false)
    (h : (onOperands [o] content).content = .refused causes) : (onOperands [o] content).touched = [] := by
  cases o with
  | ok x =>
    have haccepted := hcontent [x]
    rw [show content [x] = .refused causes from h] at haccepted
    cases haccepted
  | error e => rfl

/-- a statement on two operands that is refused touches the address among them, if one of them is an address -/
theorem touched_of_two (read : List Char → Except AssemblyCause Operand) (x y : List Char)
    {content : List Operand → Content} {causes : List AssemblyCause} (hcontent : ∀ xs, (content xs).isRefused = false)
    (h : (onOperands [read x, read y] content).content = .refused causes) :
    (onOperands [read x, read y] content).touched = [] ∨
      ∃ n, Half read x y n ∧ (onOperands [read x, read y] content).touched = [n] := by
  cases hx : read x with
  | ok a =>
    cases hy : read y with
    | ok b =>
      rw [hx, hy] at h
      have haccepted := hcontent [a, b]
      rw [show content [a, b] = .refused causes from h] at haccepted
      cases haccepted
    | error e =>
      cases a with
      | data n => exact Or.inr ⟨n, Or.inl ⟨hx, e, hy⟩, rfl⟩
      | label | immediate => exact Or.inl rfl
  | error e =>
    cases hy : read y with
    | error e' => exact Or.inl rfl
    | ok b =>
      cases b with
      | data n => exact Or.inr ⟨n, Or.inr ⟨⟨e, hx⟩, hy⟩, rfl⟩
      | label | immediate => exact Or.inl rfl

theorem touched_of_half_operands {read : List Char → Except AssemblyCause Operand} {x y : List Char} {n : Nat}
    (h : Half read x y n) (content : List Operand → Content) : (onOperands [read x, read y] content).touched = [n] := by
  rcases h with ⟨hx, e, hy⟩ | ⟨⟨e, hx⟩, hy⟩
  · rw [hx, hy]
    rfl
  · rw [hx, hy]
    rfl

/-- a refused operation touches an address only if it is on two operands and half refused -/
theorem operation_touched_of_refused {m : Mnemonic} {args : List (List Char)} {causes : List AssemblyCause}
    (h : (operation m args).content = .refused causes) :
    (operation m args).touched = [] ∨ ∃ x y n, args = [x, y] ∧ HalfOperands m x y n ∧
      (operation m args).touched = [n] := by
  have haccepted (literal : Option UInt32) (xs : List Operand) :
      (Content.operation m.opcode xs literal none).isRefused = false := rfl
  unfold operation at h ⊢
  split at h
  · exact Or.inl rfl
  · exact Or.inl rfl
  · exact Or.inl (touched_of_one (haccepted none) h)
  · exact Or.inl rfl
  · -- where one of two operands is refused, the other one has been read all the same
    rename_i x y hshape
    rcases touched_of_two target x y (haccepted none) h with hnone | ⟨n, hhalf, htouched⟩
    · exact Or.inl hnone
    · exact Or.inr ⟨x, y, n, rfl, Or.inl ⟨hshape, hhalf⟩, htouched⟩
  · split <;> exact Or.inl rfl
  · rename_i v x hshape
    split at h
    · rename_i w hw
      exact Or.inl (touched_of_one (haccepted (some w)) h)
    · exact Or.inl rfl
  · exact Or.inl (touched_of_one (haccepted none) h)
  · rename_i x y hshape
    rcases touched_of_two slot x y (haccepted none) h with hnone | ⟨n, hhalf, htouched⟩
    · exact Or.inl hnone
    · exact Or.inr ⟨x, y, n, rfl, Or.inr ⟨hshape, hhalf⟩, htouched⟩
  all_goals exact Or.inl rfl

theorem operation_touched_of_half {m : Mnemonic} {x y : List Char} {n : Nat} (h : HalfOperands m x y n) :
    (operation m [x, y]).touched = [n] := by
  rcases h with ⟨hshape, hhalf⟩ | ⟨hshape, hhalf⟩
  · simp only [operation, hshape]
    exact touched_of_half_operands hhalf _
  · simp only [operation, hshape]
    exact touched_of_half_operands hhalf _

/-- a line whose first word is a mnemonic is an operation -/
theorem ofLine_mnemonic {line : List Char} {m : Mnemonic} {args : List (List Char)}
    (h : words (line.takeWhile (· != '#')) = m.text.toList :: args) : ofLine line = operation m args := by
  have hcolon : ':' ∉ m.text.toList := fun hmem => absurd ((isUpper_mnemonic m).2 _ hmem) (by decide)
  have hdata : m.text ≠ ".data" := mnemonic_ne m (c := '.') (by decide) (by decide)
  have hread : m.text ≠ ".read" := mnemonic_ne m (c := '.') (by decide) (by decide)
  simp only [ofLine, h, labelOf?_eq_none hcolon, String.ofList_toList, if_neg hdata, if_neg hread, ofText?_text]

theorem datum_touched (args : List (List Char)) : (datum args).touched = [] := by
  unfold datum
  split
  · split <;> rfl
  · rfl

theorem read_touched_of_refused {args : List (List Char)} {causes : List AssemblyCause}
    (h : (read args).content = .refused causes) : (read args).touched = [] := by
  unfold read at h ⊢
  split at h
  · split at h
    · cases h
    · rfl
  · rfl

/-- **Half refused lines.** A refused line that touches an address is half refused, and touches no other address. -/
theorem touched_of_refused {line : List Char} {causes : List AssemblyCause}
    (h : (ofLine line).content = .refused causes) :
    (ofLine line).touched = [] ∨ ∃ n, HalfRefused line n ∧ (ofLine line).touched = [n] := by
  unfold ofLine at h ⊢
  split at h
  · cases h
  · rename_i head args hwords
    dsimp only at h ⊢
    split at h
    · cases h
    · by_cases hdata : String.ofList head = ".data"
      · rw [if_pos hdata]
        exact Or.inl (datum_touched args)
      rw [if_neg hdata] at h ⊢
      by_cases hread : String.ofList head = ".read"
      · rw [if_pos hread] at h ⊢
        exact Or.inl (read_touched_of_refused h)
      rw [if_neg hread] at h ⊢
      split at h
      · rename_i m hm
        rcases operation_touched_of_refused h with hnone | ⟨x, y, n, rfl, hhalf, htouched⟩
        · exact Or.inl hnone
        · refine Or.inr ⟨n, ⟨m, x, y, ?_, hhalf⟩, htouched⟩
          rw [hwords, Mnemonic.text_of_ofText? hm, String.toList_ofList]
      · exact Or.inl rfl

theorem touched_of_half {line : List Char} {n : Nat} (h : HalfRefused line n) : (ofLine line).touched = [n] := by
  obtain ⟨m, x, y, hwords, hhalf⟩ := h
  rw [ofLine_mnemonic hwords]
  exact operation_touched_of_half hhalf

end Statement

/-! ## Sessions -/

namespace Session

/-- what lines that are not refused report are warnings -/
theorem add_reports (s : Session) (span : Span) {c : Content} (hc : c.isRefused = false) :
    ∃ ds : List Diagnostic, (s.add span c).diagnostics.toList = s.diagnostics.toList ++ ds ∧
      ∀ d ∈ ds, d.isError = false := by
  cases c with
  | nothing | datum | read => exact ⟨[], by simp [add], List.forall_mem_nil _⟩
  | label name trailing =>
    obtain ⟨-, -, -, ds, hds, hreports⟩ := s.define_fields span name
    cases trailing with
    | false => exact ⟨ds, hds, fun d hd => (hreports d hd).1⟩
    | true =>
      refine ⟨ds ++ [.warningAt .assembly span (AssemblyCause.textAfterLabel name).message], ?_, ?_⟩
      · simp [add, warn, report, hds]
      · intro d hd
        rcases List.mem_append.1 hd with hd | hd
        · exact (hreports d hd).1
        · exact List.mem_singleton.1 hd ▸ rfl
  | operation opcode args literal ignored =>
    cases ignored with
    | none => exact ⟨[], by simp [add], List.forall_mem_nil _⟩
    | some mnemonic =>
      refine ⟨[.warningAt .assembly span (AssemblyCause.extraText mnemonic).message], by simp [add, warn, report], ?_⟩
      intro d hd
      exact List.mem_singleton.1 hd ▸ rfl
  | refused => cases hc

/-- an error is among the reports that `t` has and `s` had not -/
def ReportsError (s t : Session) : Prop := ∃ d ∈ t.diagnostics.toList.drop s.diagnostics.size, d.isError = true

theorem refused_of_error {s : Session} {line : List Char} {span : Span} (h : s.ReportsError (s.scanLine line span)) :
    ∃ causes, (Statement.ofLine line).content = .refused causes := by
  cases hcontent : (Statement.ofLine line).content with
  | refused causes => exact ⟨causes, rfl⟩
  | nothing | label | operation | datum | read =>
    obtain ⟨d, hd, herror⟩ := h
    obtain ⟨ds, hds, hwarnings⟩ := (s.touch (Statement.ofLine line).touched).add_reports span
      (c := (Statement.ofLine line).content) (by rw [hcontent]; rfl)
    have hnew : (s.scanLine line span).diagnostics.toList = s.diagnostics.toList ++ ds := hds
    rw [hnew, ← Array.length_toList, List.drop_left] at hd
    rw [hwarnings d hd] at herror
    cases herror

/-- `t` is `s` with errors reported at a place; how much data memory is counted is left open -/
structure KeptBut (s t : Session) (span : Span) : Prop where
  words : t.words = s.words
  labels : t.labels = s.labels
  reads : t.reads = s.reads
  reports : ∃ ds, t.diagnostics.toList = s.diagnostics.toList ++ ds ∧ ds ≠ [] ∧
    ∀ d ∈ ds, d.level = .error ∧ d.location = some ⟨.assembly, span⟩

theorem scanLine_refused {s : Session} {line : List Char} {causes : List AssemblyCause}
    (h : (Statement.ofLine line).content = .refused causes) (span : Span) :
    s.KeptBut (s.scanLine line span) span ∧
      (s.scanLine line span).memorySize = (s.touch (Statement.ofLine line).touched).memorySize := by
  obtain ⟨hne, -⟩ := (Statement.ofLine_regular line).causes causes h
  have hsession : s.scanLine line span =
      { s.touch (Statement.ofLine line).touched with
        diagnostics :=
          s.diagnostics ++ (causes.map fun c => Diagnostic.errorAt .assembly span c.message).toArray } := by
    simp only [scanLine, h, add, Denotes.refuseAll_eq, touch_diagnostics]
  rw [hsession]
  refine ⟨⟨rfl, rfl, rfl, causes.map fun c => Diagnostic.errorAt .assembly span c.message,
    by simp, by simpa using hne, ?_⟩, rfl⟩
  intro d hd
  obtain ⟨c, -, rfl⟩ := List.mem_map.1 hd
  exact ⟨rfl, rfl⟩

/-- **A refused line is kept out.** If an error is reported for a line, the words, labels and reads of the session are
as before, and errors at the line are all that is new. The count of data memory is as before too, unless the line is
half refused: then the data address that it names is counted. -/
theorem scanLine_of_error {s : Session} {line : List Char} {span : Span} (h : s.ReportsError (s.scanLine line span)) :
    s.KeptBut (s.scanLine line span) span ∧
    (∀ n, Statement.HalfRefused line n → (s.scanLine line span).memorySize = max s.memorySize (n + 1)) ∧
    ((∀ n, ¬ Statement.HalfRefused line n) → (s.scanLine line span).memorySize = s.memorySize) := by
  obtain ⟨causes, hrefused⟩ := refused_of_error h
  obtain ⟨hkept, hmemory⟩ := scanLine_refused (s := s) hrefused span
  refine ⟨hkept, ?_, ?_⟩
  · intro n hhalf
    rw [hmemory, Statement.touched_of_half hhalf]
    rfl
  · intro hnone
    rcases Statement.touched_of_refused hrefused with htouched | ⟨n, hhalf, -⟩
    · rw [hmemory, htouched]
      rfl
    · exact absurd hhalf (hnone n)

/-- a data address that is out of range, behind one that is not: the first is counted -/
def outOfRange : List Char := "QADD a7 a4096".toList

theorem outOfRange_counted :
    empty.ReportsError (empty.scanLine outOfRange ⟨0, 13⟩) ∧ Statement.HalfRefused outOfRange 7 ∧
    (empty.scanLine outOfRange ⟨0, 13⟩).words = #[] ∧ (empty.scanLine outOfRange ⟨0, 13⟩).memorySize = 8 := by
  have herror : empty.ReportsError (empty.scanLine outOfRange ⟨0, 13⟩) :=
    ⟨.errorAt .assembly ⟨0, 13⟩ AssemblyCause.addressRange.message, by decide +kernel, rfl⟩
  have hhalf : Statement.HalfRefused outOfRange 7 := by
    refine ⟨.pair .qadd, "a7".toList, "a4096".toList, by decide +kernel, Or.inr ⟨rfl, Or.inl ⟨?_, .addressRange, ?_⟩⟩⟩
    · decide +kernel
    · decide +kernel
  obtain ⟨hkept, hcounted, -⟩ := scanLine_of_error herror
  exact ⟨herror, hhalf, hkept.words, hcounted 7 hhalf⟩

/-- a refused move into nothing counts the address that it would have moved from -/
theorem move_counted_though_refused : empty.ReportsError (empty.scanLine "MOV a5 ?".toList ⟨0, 8⟩) ∧
    (empty.scanLine "MOV a5 ?".toList ⟨0, 8⟩).memorySize ≠ empty.memorySize := by
  refine ⟨⟨.errorAt .assembly ⟨0, 8⟩ AssemblyCause.expectedAddress.message, ?_, rfl⟩, ?_⟩
  · decide +kernel
  · decide +kernel

end Session

end C15

/-
Assembling what was generated.

Lines are closed (`Line.Closed`) if each prints as what it means, no label is defined twice and every jump goes to a
label with a word after it. The assembler takes such lines without a report, and if code and data fit into twelve bits
of addresses, every operand has a value of twelve bits. Results:
- `Line.Closed.operandValue_ok`: the values of operands;
- `Line.Closed.assemble_ok`, `Line.Closed.assemble_error`: an image if the lines fit, and otherwise one error;
- `build_iff_fits`: a source that compiles is built exactly if its code and data fit.
-/
import C15.Build
import C15.Proofs.Emission
import C15.Proofs.OperandFields

namespace C15

open Codegen

/-! ## Lines without open jumps -/

namespace Line

/-- lines that can be assembled but for their size -/
structure Closed (lines : List Line) : Prop where
  printable : ∀ l ∈ lines, l.Printable
  nodup : (labels lines).Nodup
  target : ∀ l ∈ lines, ∀ label, l.target? = some label → Bound true lines label

/-- words of lines -/
def size (lines : List Line) : Nat := (lines.map wordCount).sum

/-- the address a line lets the host read, with its name; the data start at some address -/
def region? (start : Nat) : Line → Option (Nat × String)
  | .read a name => some (start + a.index, name)
  | .label _ | .instr _ | .data _ | .comment _ => none

theorem size_append (xs ys : List Line) : size (xs ++ ys) = size xs + size ys := by simp [size]

theorem HasWord.size_pos {lines : List Line} (h : HasWord lines) : 0 < size lines := by
  obtain ⟨l, hl, hpos⟩ := h
  exact Nat.lt_of_lt_of_le hpos (List.single_le_sum (by simp) _ (List.mem_map_of_mem hl))

theorem lt_memorySize {lines : List Line} {l : Line} (hl : l ∈ lines) {a : Nat} (ha : a ∈ l.addresses) :
    a < memorySize lines := by
  have hmem : a + 1 ∈ (lines.flatMap addresses).map (· + 1) := List.mem_map_of_mem (List.mem_flatMap.2 ⟨l, hl, ha⟩)
  exact List.le_max?_getD_of_mem hmem

/-- reads that resolve are regions, in the order of their lines -/
theorem filterMap_reads {f : PendingRead → Option (Nat × String)} {start : Nat} {lines : List Line} (offset : Nat)
    (hf : ∀ a name, .read a name ∈ lines → ∀ span, f ⟨span, .data a.index, name⟩ = (read a name).region? start) :
    ((located offset lines).flatMap fun l => l.value.reads l.span).filterMap f = lines.filterMap (region? start) := by
  induction lines generalizing offset with
  | nil => rfl
  | cons l rest ih =>
    have hrest := ih (offset + l.text.utf8ByteSize + 1) fun a name h => hf a name (List.mem_cons_of_mem _ h)
    rw [located, List.flatMap_cons, List.filterMap_append, hrest]
    cases l with
    | read a name => simp [reads, hf a name List.mem_cons_self, region?]
    | label | instr | data | comment => rfl

end Line

namespace Instruction

theorem target?_of_mem {i : Instruction} {name : String} (h : .label name ∈ i.args) : i.target? = some name := by
  have hslot : ∀ x : Slot, x.operand ≠ .label name := by
    intro x
    cases x <;> exact nofun
  cases i with
  | jump op label => simpa [args, target?, eq_comm] using h
  | bare | storePush | address | store | move => simp [args] at h
  | slot op x => exact absurd (List.mem_singleton.1 h).symm (hslot x)
  | pair op x y => exact (List.mem_pair.1 h).elim (fun h => absurd h.symm (hslot x)) (fun h => absurd h.symm (hslot y))

theorem immediate_le {i : Instruction} (hi : i.Printable) {v : Nat} (h : .immediate v ∈ i.args) : v ≤ maxAddress := by
  have hslot : ∀ x : Slot, x.Printable → .immediate v = x.operand → v ≤ maxAddress := by
    intro x hx hv
    cases x with
    | address a => cases hv
    | immediate value =>
      obtain rfl := Operand.immediate.inj hv
      exact hx
  cases i with
  | bare | storePush | address | store | move | jump => simp [args] at h
  | slot op x => exact hslot x hi (List.mem_singleton.1 h)
  | pair op x y => exact (List.mem_pair.1 h).elim (hslot x hi.1) (hslot y hi.2)

end Instruction

namespace Line.Closed

variable {lines : List Line}

/-- a label stands for a position inside the code -/
theorem position?_lt (h : Closed lines) {label : String} (hbound : Bound true lines label) :
    ∃ n < size lines, (Session.scan (print lines)).position? label = some n := by
  obtain ⟨before, after, hlines, hword⟩ := hbound
  refine ⟨size before, ?_, Session.scan_position? h.printable h.nodup hlines⟩
  have hpos := (hword rfl).size_pos
  rw [hlines, size_append]
  exact Nat.lt_add_of_pos_right (Nat.lt_of_lt_of_le hpos (Nat.le_add_left _ _))

/-- data follows the code -/
theorem operandValue_data (h : Closed lines) (hfits : size lines + memorySize lines ≤ 4096) {l : Line} (hl : l ∈ lines)
    {a : Nat} (ha : a ∈ l.addresses) :
    size lines + a < 4096 ∧ Image.operandValue (Session.scan (print lines)) (.data a) = .ok (size lines + a) := by
  have hsize : (Session.scan (print lines)).stackSize = size lines := Session.scan_stackSize h.printable
  have hlt := lt_memorySize hl ha
  have hrange : size lines + a < 4096 := by omega
  refine ⟨hrange, ?_⟩
  rw [Image.operandValue, hsize]
  exact if_pos (Nat.le_of_lt_succ hrange)

/-- **Operands have values of twelve bits**, if code and data have addresses of twelve bits. -/
theorem operandValue_ok (h : Closed lines) (hfits : size lines + memorySize lines ≤ 4096) {i : Instruction}
    (hi : .instr i ∈ lines) {x : Operand} (hx : x ∈ i.args) :
    ∃ v < 4096, Image.operandValue (Session.scan (print lines)) x = .ok v := by
  cases x with
  | data offset =>
    have haddress : offset ∈ (Line.instr i).addresses := List.mem_filterMap.2 ⟨_, hx, rfl⟩
    obtain ⟨hlt, hvalue⟩ := h.operandValue_data hfits hi haddress
    exact ⟨_, hlt, hvalue⟩
  | label name =>
    obtain ⟨n, hn, hposition⟩ := h.position?_lt (h.target _ hi name (Instruction.target?_of_mem hx))
    exact ⟨n, by omega, by simp only [Image.operandValue, hposition]⟩
  | immediate v =>
    have hle := Instruction.immediate_le (h.printable _ hi) hx
    exact ⟨v, Nat.lt_succ_of_le hle, rfl⟩

theorem mem_words (h : Closed lines) {span : Span} {opcode : Nat} {args : List Operand}
    (hword : .op span opcode args ∈ (Session.scan (print lines)).words.toList) :
    ∃ i, .instr i ∈ lines ∧ args = i.args :=
  Session.scan_mem_words h.printable hword

/-- what a line lets the host read is at an address -/
theorem operandValue_read (h : Closed lines) (hfits : size lines + memorySize lines ≤ 4096) {a : Address}
    {name : String} (hread : .read a name ∈ lines) :
    size lines + a.index < 4096 ∧
      Image.operandValue (Session.scan (print lines)) (.data a.index) = .ok (size lines + a.index) :=
  h.operandValue_data hfits hread List.mem_cons_self

theorem resolved (h : Closed lines) (hfits : size lines + memorySize lines ≤ 4096) :
    Image.Resolved (Session.scan (print lines)) := by
  constructor
  · intro span opcode args hword x hx
    obtain ⟨i, hi, rfl⟩ := h.mem_words hword
    obtain ⟨v, -, hv⟩ := h.operandValue_ok hfits hi hx
    exact ⟨v, hv⟩
  · intro r hr
    obtain ⟨a, ha, htarget⟩ := Session.scan_mem_reads h.printable hr
    rw [htarget]
    exact ⟨_, (h.operandValue_read hfits ha).2⟩

/-- the image of lines whose operands all have values -/
theorem resolve_ok (h : Closed lines) (hfits : size lines + memorySize lines ≤ 4096) :
    ∃ image, Image.resolve (Session.scan (print lines)) = .ok image ∧
      image.stack = (Session.scan (print lines)).words.toList.map (Image.encodeWord (Session.scan (print lines))) ∧
      image.reads.map (fun r => (r.address.toNat, r.name)) = lines.filterMap (region? (size lines)) := by
  obtain ⟨image, hresolve⟩ := (h.resolved hfits).resolve
  obtain ⟨-, hstack, hreads⟩ := Image.resolve_eq_ok hresolve
  refine ⟨image, hresolve, hstack, ?_⟩
  rw [hreads, List.map_filterMap, Session.scan_reads h.printable]
  refine filterMap_reads 0 fun a name ha span => ?_
  obtain ⟨hlt, hvalue⟩ := h.operandValue_read hfits ha
  have hnat : (UInt32.ofNat (size lines + a.index)).toNat = size lines + a.index :=
    UInt32.toNat_ofNat_of_lt' (hlt.trans (by decide))
  rw [hvalue]
  exact congrArg (fun n => some (n, name)) hnat

/-! ## Assembling -/

variable {limit : Nat}

/-- lines that fit are assembled without a report -/
theorem assemble_ok (h : Closed lines) (hlimit : limit ≤ 4096) (hfits : size lines + memorySize lines ≤ limit) :
    ∃ a, assemble (print lines) limit = .ok a ∧ a.warnings = [] ∧
      a.image.stack = (Session.scan (print lines)).words.toList.map (Image.encodeWord (Session.scan (print lines))) ∧
      a.image.reads.map (fun r => (r.address.toNat, r.name)) = lines.filterMap (region? (size lines)) := by
  obtain ⟨image, hresolve, hstack, hreads⟩ := h.resolve_ok (hfits.trans hlimit)
  have hdiagnostics := Session.scan_diagnostics h.printable h.nodup
  have hsize : (Session.scan (print lines)).stackSize = size lines := Session.scan_stackSize h.printable
  have hmemory := Session.scan_memorySize h.printable
  have husage : Usage.fits ⟨size lines, memorySize lines, limit⟩ = true := decide_eq_true hfits
  refine ⟨⟨image, ⟨size lines, memorySize lines, limit⟩, []⟩, ?_, rfl, hstack, hreads⟩
  simp only [assemble, hdiagnostics, hsize, hmemory, husage, if_true, hresolve]
  rfl

/-- lines that do not fit are refused with one error -/
theorem assemble_error (h : Closed lines) (hfits : ¬ size lines + memorySize lines ≤ limit) :
    assemble (print lines) limit =
      .error [.errorOf (AssemblyCause.outOfSpace (memorySize lines) (size lines)).message] := by
  have hdiagnostics := Session.scan_diagnostics h.printable h.nodup
  have hsize : (Session.scan (print lines)).stackSize = size lines := Session.scan_stackSize h.printable
  have hmemory := Session.scan_memorySize h.printable
  have husage : Usage.fits ⟨size lines, memorySize lines, limit⟩ = false := decide_eq_false hfits
  simp only [assemble, hdiagnostics, hsize, hmemory, husage]
  rfl

end Line.Closed

/-! ## Building -/

namespace Program.Parts

variable {p : Program} {info : TypeInfo} {out : Generated}

theorem closed (parts : p.Parts info out) (hrec : p.Recorded info) (hspelled : ∀ item ∈ p.items, item.Spelled .source)
    (hroom : p.cells.length ≤ maxAddress + 1) : Line.Closed out.lines where
  printable l hl := by
    rw [parts.lines_eq, List.mem_append] at hl
    rcases hl with hl | hl
    · obtain ⟨g, hg, rfl⟩ := List.mem_map.1 hl
      obtain ⟨hname, haddress⟩ := parts.globals_writable hspelled hroom g hg
      exact ⟨haddress, Statement.plain_name hname.1⟩
    · exact (parts.emitted hrec hspelled hroom).printable l hl
  nodup := parts.labels_nodup hrec.names
  target l hl label htarget := by
    rw [parts.lines_eq, List.mem_append] at hl
    rcases hl with hl | hl
    · obtain ⟨g, -, rfl⟩ := List.mem_map.1 hl
      cases htarget
    · rw [parts.lines_eq]
      exact (((parts.emitted hrec hspelled hroom).target l hl label htarget).resolve_left id).right _

/-- the host reads the globals, which stand first among the data -/
theorem filterMap_region (parts : p.Parts info out) (hcode : ∀ l ∈ parts.code, ∀ span, l.reads span = [])
    (start : Nat) : out.lines.filterMap (Line.region? start) = p.globals.mapIdx fun i d => (start + i, d.name) := by
  have hnone : parts.code.filterMap (Line.region? start) = [] := by
    refine List.filterMap_eq_nil_iff.2 fun l hl => ?_
    have hreads := hcode l hl ⟨0, 0⟩
    cases l with
    | read a name => cases hreads
    | label | instr | data | comment => rfl
  rw [parts.lines_eq, List.filterMap_append, hnone, List.append_nil, List.filterMap_map, parts.addresses_eq,
    addressesFrom, List.zip_map_right, List.filterMap_map, ← List.zipIdx_eq_zip_range', List.mapIdx_eq_zipIdx_map]
  exact congrFun List.filterMap_eq_map _

end Program.Parts

/-- the lines of a source that compiles are closed, and let the host read its globals -/
theorem closed_of_compile {source : String} {g : Generated} (h : compile source = .ok g) :
    Line.Closed g.lines ∧ ∃ tokens p, Lexer.tokenize source = .ok tokens ∧ Program.parse tokens = .ok p ∧
      ∀ start, g.lines.filterMap (Line.region? start) = p.globals.mapIdx fun i d => (start + i, d.name) := by
  obtain ⟨tokens, p, info, htokens, hparse, hcheck, hgen⟩ := compile_eq_ok h
  have hwf : p.WellFormed .source := wellFormed_of_source htokens hparse
  have hrec := recorded_of_check hcheck hwf.distinct
  have hroom := Program.Parts.cells_le hgen hrec hwf.spelled
  obtain ⟨parts⟩ := Program.nonempty_parts hgen
  have hreads := (parts.emitted hrec hwf.spelled hroom).reads
  exact ⟨parts.closed hrec hwf.spelled hroom, tokens, p, htokens, hparse, parts.filterMap_region hreads⟩

theorem build_of_compile {source : String} {g : Generated} (h : compile source = .ok g) (limit : Nat) :
    build source limit = match assemble g.assembly limit with
      | .ok a => .ok ⟨g, a⟩
      | .error ds => .error ⟨g.warnings ++ ds, some g.assembly⟩ := by
  unfold build
  cases ha : assemble g.assembly limit with
  | ok a => simp only [h, ha]
  | error ds => simp only [h, ha]

/-- **Generated code is assembled if it fits.** A source that compiles is built exactly if its words and the data up to
the highest address fit. Then the assembler has nothing to report, operands have values of twelve bits, and the host
reads the globals in order after the code. Otherwise the one error says that there is not enough space, and the assembly
is kept. -/
theorem build_iff_fits {source : String} {g : Generated} (hcompile : compile source = .ok g) (limit : Nat)
    (hlimit : limit ≤ 4096) :
    ((∃ b, build source limit = .ok b) ↔ g.wordCount + Line.memorySize g.lines ≤ limit) ∧
      (∀ b, build source limit = .ok b →
        b.generated = g ∧ b.assembled.warnings = [] ∧
        b.assembled.image.stack.length = g.wordCount ∧
        b.assembled.image.stack =
          (Session.scan g.assembly).words.toList.map (Image.encodeWord (Session.scan g.assembly)) ∧
        (∀ span opcode args, Word.op span opcode args ∈ (Session.scan g.assembly).words.toList →
          ∀ x ∈ args, ∃ v < 4096, Image.operandValue (Session.scan g.assembly) x = .ok v) ∧
        ∃ tokens p, Lexer.tokenize source = .ok tokens ∧ Program.parse tokens = .ok p ∧
          b.assembled.image.reads.map (fun r => (r.address.toNat, r.name)) =
            p.globals.mapIdx fun i d => (g.wordCount + i, d.name)) ∧
      ∀ e, build source limit = .error e →
        e.diagnostics = g.warnings ++
          [⟨.error, s!"Not enough space, ({Line.memorySize g.lines},{g.wordCount}).", none⟩] ∧
        e.assembly = some g.assembly := by
  obtain ⟨hclosed, tokens, p, htokens, hparse, hregions⟩ := closed_of_compile hcompile
  rw [build_of_compile hcompile]
  by_cases hfits : g.wordCount + Line.memorySize g.lines ≤ limit
  · obtain ⟨a, hassemble, hwarnings, hstack, hreads⟩ := hclosed.assemble_ok hlimit hfits
    have hassemble : assemble g.assembly limit = .ok a := hassemble
    rw [hassemble]
    refine ⟨iff_of_true ⟨_, rfl⟩ hfits, fun b hb => ?_, fun e he => nomatch he⟩
    obtain rfl := Except.ok.inj hb
    have hlength : a.image.stack.length = g.wordCount := by
      rw [hstack, List.length_map]
      exact Session.scan_stackSize hclosed.printable
    refine ⟨rfl, hwarnings, hlength, hstack, fun span opcode args hword x hx => ?_, tokens, p, htokens, hparse, ?_⟩
    · obtain ⟨i, hi, rfl⟩ := hclosed.mem_words hword
      exact hclosed.operandValue_ok (hfits.trans hlimit) hi hx
    · exact hreads.trans (hregions g.wordCount)
  · have hassemble : assemble g.assembly limit = .error _ := hclosed.assemble_error hfits
    rw [hassemble]
    refine ⟨iff_of_false (fun ⟨b, hb⟩ => nomatch hb) hfits, (fun b hb => nomatch hb), fun e he => ?_⟩
    obtain rfl := Except.error.inj he
    exact ⟨rfl, rfl⟩

/-- a sum of squares, in 38 words and four variables -/
def squares : String :=
  "int total; int square(int n) { return n * n; } " ++
  "void main() { for (int i = 0; i < 5; i++) { total += square(i); } }"

theorem squares_built : (∃ b, build squares 42 = .ok b) ∧ ∃ e, build squares 41 = .error e := by
  have hsizes : (compile squares).toOption.map (fun g => (g.wordCount, Line.memorySize g.lines)) = some (38, 4) := by
    decide +kernel
  cases hcompile : compile squares with
  | error e =>
    rw [hcompile] at hsizes
    cases hsizes
  | ok g =>
    rw [hcompile] at hsizes
    obtain ⟨hwords, hmemory⟩ := Prod.mk.inj (Option.some.inj hsizes)
    have hbuilt := (build_iff_fits hcompile 42 (by decide)).1
    have hrefused := (build_iff_fits hcompile 41 (by decide)).1
    rw [hwords, hmemory] at hbuilt hrefused
    refine ⟨hbuilt.2 (by decide), ?_⟩
    cases hbuild : build squares 41 with
    | error e => exact ⟨e, rfl⟩
    | ok b => exact absurd (hrefused.1 ⟨b, hbuild⟩) (by decide)

end C15

/-
A text as what its lines denote, one by one.

The assembler goes through a text once and keeps words, positions and addresses as they come; data addresses are counted
from the end of code whose size it does not know yet, and labels may stand behind the jumps to them. Here is what a text
means without an order of reading: the list of what its lines say (`Listing`), each line for itself, its words in a row,
and
- `Listing.size`, `Listing.memorySize`: how many words there are, and one past the highest data address;
- `Listing.position?`: the words in front of the last definition of a label (`position?_eq_some_iff`);
- `Listing.value`, `Listing.encodeWord`: operands and words, once the size is known;
- `Listing.Sound`: no line is refused, and every operand has a value.
`Session.Denotes` is the invariant of the pass: what was collected so far is what the lines so far denote.
`assemble_eq_listing` says that the assembler gives an image exactly for sound listings that fit, and that it is the
image of the listing.
-/
import C15.Proofs.OperandFields

namespace C15

open C15.Text

/-! ## Lines -/

/-- a word as its line denotes it, its operands still symbolic -/
inductive SymbolicWord where
  | op (opcode : Nat) (args : List Operand)
  | raw (value : UInt32)
deriving DecidableEq, Repr

def SymbolicWord.operands : SymbolicWord → List Operand
  | .op _ args => args
  | .raw _ => []

/-- a collected word without its place -/
def Word.symbolic : Word → SymbolicWord
  | .op _ opcode args => .op opcode args
  | .raw value => .raw value

/-- a collected read without its place -/
def PendingRead.request (r : PendingRead) : Operand × String := (r.target, r.name)

namespace Content

/-- the words that a line denotes, two for an operation with a literal -/
def words : Content → List SymbolicWord
  | .operation opcode args literal _ => .op opcode args :: literal.toList.map .raw
  | .datum value => [.raw value]
  | .nothing | .label .. | .read .. | .refused _ => []

/-- the label that a line defines -/
def defines : Content → Option String
  | .label name _ => some name
  | .nothing | .operation .. | .datum _ | .read .. | .refused _ => none

/-- the address that a line asks for, with its name -/
def reads : Content → List (Operand × String)
  | .read target name => [(target, name)]
  | .nothing | .label .. | .operation .. | .datum _ | .refused _ => []

def isRefused : Content → Bool
  | .refused _ => true
  | .nothing | .label .. | .operation .. | .datum _ | .read .. => false

/-- the operands of a line's words and of its read -/
def operands (c : Content) : List Operand := c.words.flatMap SymbolicWord.operands ++ c.reads.map Prod.fst

end Content

/-! ## Listings -/

/-- what the lines of a text say -/
abbrev Listing := List Statement

namespace Listing

/-- each line by itself, without the carriage return at its end -/
def ofText (text : String) : Listing :=
  (pieces (· == '\n') text.toList).map fun raw => Statement.ofLine (dropReturn raw)

variable (l : Listing)

def words : List SymbolicWord := l.flatMap (·.content.words)

/-- the number of words -/
def size : Nat := (words l).length

/-- one past the highest data address that is named, zero if there is none -/
def memorySize : Nat := (l.flatMap (·.touched)).max?.elim 0 (· + 1)

def reads : List (Operand × String) := l.flatMap (·.content.reads)

/-- the operands of instructions -/
def instructionOperands : List Operand := (words l).flatMap SymbolicWord.operands

/-- the operands of instructions and of reads -/
def operands : List Operand := instructionOperands l ++ (reads l).map Prod.fst

/-- the words in front of the last definition of a label -/
def position? : Listing → String → Option Nat
  | [], _ => none
  | st :: rest, name =>
    match position? rest name with
    | some n => some (st.content.words.length + n)
    | none => if st.content.defines = some name then some 0 else none

/-- what an operand stands for: data follows the code -/
def value : Operand → Option Nat
  | .immediate n => some n
  | .label name => position? l name
  | .data offset => some (size l + offset)

/-- a word with its operands replaced, zero for one that it does not have -/
def encodeWord : SymbolicWord → UInt32
  | .raw n => n
  | .op opcode args =>
    let field (n : Nat) : UInt32 := ((args[n]?).bind (value l)).elim 0 UInt32.ofNat
    encode (UInt32.ofNat opcode) (field 0) (field 1)

/-- no line is refused, labels that are used are defined somewhere, and data addresses can be named in twelve bits -/
structure Sound : Prop where
  accepted : ∀ st ∈ l, st.content.isRefused = false
  labels : ∀ name, .label name ∈ operands l → ∃ st ∈ l, st.content.defines = some name
  addresses : ∀ offset, .data offset ∈ operands l → size l + offset ≤ maxAddress

section Append

variable (l m : Listing)

@[simp] theorem words_append : words (l ++ m) = words l ++ words m := List.flatMap_append

@[simp] theorem reads_append : reads (l ++ m) = reads l ++ reads m := List.flatMap_append

@[simp] theorem size_append : size (l ++ m) = size l + size m := by simp [size]

end Append

variable {l}

/-- one more line: a definition in it is the last one -/
theorem position?_concat (l : Listing) (st : Statement) (name : String) :
    position? (l ++ [st]) name = if st.content.defines = some name then some (size l) else position? l name := by
  induction l with
  | nil => by_cases h : st.content.defines = some name <;> simp [position?, h, size, words]
  | cons head rest ih =>
    rw [List.cons_append, position?, ih]
    by_cases h : st.content.defines = some name
    · simp [h, size, words]
    · simp only [if_neg h, position?]

theorem position?_eq_none_iff {name : String} : position? l name = none ↔ ∀ st ∈ l, st.content.defines ≠ some name := by
  induction l using List.reverseRecOn with
  | nil => simp [position?]
  | append_singleton l st ih =>
    rw [position?_concat]
    by_cases h : st.content.defines = some name
    · simp [h]
    · simp only [if_neg h, ih, List.mem_append, List.mem_singleton]
      constructor
      · intro hall t ht
        rcases ht with ht | rfl
        · exact hall t ht
        · exact h
      · intro hall t ht
        exact hall t (.inl ht)

/-- **A label stands at the number of words before its last definition.** -/
theorem position?_eq_some_iff {name : String} {n : Nat} :
    position? l name = some n ↔ ∃ before st after, l = before ++ st :: after ∧ st.content.defines = some name ∧
      (∀ t ∈ after, t.content.defines ≠ some name) ∧ n = size before := by
  induction l using List.reverseRecOn generalizing n with
  | nil => simp [position?]
  | append_singleton l st ih =>
    rw [position?_concat]
    constructor
    · intro h
      by_cases hst : st.content.defines = some name
      · rw [if_pos hst] at h
        exact ⟨l, st, [], rfl, hst, by simp, (Option.some.inj h).symm⟩
      · rw [if_neg hst] at h
        obtain ⟨before, t, after, rfl, ht, hafter, hn⟩ := ih.1 h
        refine ⟨before, t, after ++ [st], by simp, ht, ?_, hn⟩
        intro u hu
        rcases List.mem_append.1 hu with hu | hu
        · exact hafter u hu
        · exact List.mem_singleton.1 hu ▸ hst
    · intro h
      obtain ⟨before, t, after, heq, ht, hafter, hn⟩ := h
      rcases List.eq_nil_or_concat after with rfl | ⟨after, u, rfl⟩
      · obtain ⟨rfl, hlast⟩ := List.append_inj' heq rfl
        rw [List.singleton_inj.1 hlast, if_pos ht, hn]
      · rw [List.concat_eq_append] at heq hafter
        rw [← List.cons_append, ← List.append_assoc] at heq
        obtain ⟨rfl, hlast⟩ := List.append_inj' heq rfl
        obtain rfl := List.singleton_inj.1 hlast
        rw [if_neg (hafter st (by simp))]
        refine ih.2 ⟨before, t, after, rfl, ht, ?_, hn⟩
        intro v hv
        exact hafter v (List.mem_append_left _ hv)

theorem memorySize_le_iff {k : Nat} : memorySize l ≤ k ↔ ∀ a ∈ l.flatMap (·.touched), a < k := by
  rw [memorySize]
  cases hmax : (l.flatMap (·.touched)).max? with
  | none => simp [List.max?_eq_none_iff.1 hmax]
  | some b =>
    obtain ⟨hb, hle⟩ := List.max?_eq_some_iff.1 hmax
    rw [Option.elim_some, Nat.succ_le_iff]
    constructor
    · intro hlt a ha
      exact Nat.lt_of_le_of_lt (hle a ha) hlt
    · intro hall
      exact hall b hb

theorem memorySize_concat (l : Listing) (st : Statement) :
    memorySize (l ++ [st]) = st.touched.foldl (fun m a => max m (a + 1)) (memorySize l) := by
  have hfold : ∀ (as : List Nat) (m k : Nat), as.foldl (fun m a => max m (a + 1)) m ≤ k ↔ m ≤ k ∧ ∀ a ∈ as, a < k := by
    intro as
    induction as with
    | nil => simp
    | cons a rest ih =>
      intro m k
      rw [List.foldl_cons, ih, List.forall_mem_cons, max_le_iff, Nat.succ_le_iff, and_assoc]
  refine eq_of_forall_ge_iff fun k => ?_
  rw [hfold, memorySize_le_iff, memorySize_le_iff, List.flatMap_append, List.flatMap_singleton, List.forall_mem_append]

/-- an operand is one of a line -/
theorem mem_operands {x : Operand} : x ∈ operands l ↔ ∃ st ∈ l, x ∈ st.content.operands := by
  simp only [operands, instructionOperands, words, reads, Content.operands, List.mem_append,
    List.mem_flatMap, List.mem_map]
  constructor
  · intro h
    rcases h with ⟨w, ⟨st, hst, hw⟩, hx⟩ | ⟨r, ⟨st, hst, hr⟩, hx⟩
    · exact ⟨st, hst, .inl ⟨w, hw, hx⟩⟩
    · exact ⟨st, hst, .inr ⟨r, hr, hx⟩⟩
  · intro h
    rcases h with ⟨st, hst, ⟨w, hw, hx⟩ | ⟨r, hr, hx⟩⟩
    · exact .inl ⟨w, ⟨st, hst, hw⟩, hx⟩
    · exact .inr ⟨r, ⟨st, hst, hr⟩, hx⟩

end Listing

/-! ## What every line keeps to -/

/-- a text that tells that there is no room -/
def Diagnostic.isAboutSpace (d : Diagnostic) : Bool := "Not enough space".toList.isPrefixOf d.message.toList

def AssemblyCause.isSpace : AssemblyCause → Bool
  | .outOfSpace .. => true
  | _ => false

theorem AssemblyCause.isSpace_eq_false {c : AssemblyCause} (h : ∀ memory stack, c ≠ .outOfSpace memory stack) :
    c.isSpace = false := by
  cases c with
  | outOfSpace memory stack => exact absurd rfl (h memory stack)
  | _ => rfl

/-- the first letter of a message tells it from those about space -/
theorem AssemblyCause.head?_message {c : AssemblyCause} (h : c.isSpace = false) :
    c.message.toList.head? ≠ some 'N' := by
  have hstart {a b : String} {d : Char} (ha : a.toList.head? = some d) : (a ++ b).toList.head? = some d := by
    rw [String.toList_append, List.head?_append, ha, Option.some_or]
  have hother {m : String} (d : Char) (hd : d ≠ 'N') (hm : m.toList.head? = some d) : m.toList.head? ≠ some 'N' := by
    rw [hm]
    exact fun heq => hd (Option.some.inj heq)
  cases c with
  | outOfSpace => cases h
  | number e => cases e <;> decide
  | oneArgument | singleArgument | twoArguments | addressRange | expectedAddress => decide
  | unknownOpcode => exact hother 'U' (by decide) (hstart (hstart rfl))
  | slotRange => exact hother 'T' (by decide) (hstart (hstart (hstart (hstart rfl))))
  | labelNotFound | textAfterLabel => exact hother 'T' (by decide) (hstart (hstart rfl))
  | labelRedefined => exact hother 'L' (by decide) (hstart (hstart rfl))
  | extraText => exact hother '\'' (by decide) (hstart (hstart rfl))

/-- a refusal has causes, which are not about space, and the data addresses of a line's operands are among those it
touches -/
structure Statement.Regular (st : Statement) : Prop where
  causes : ∀ cs, st.content = .refused cs → cs ≠ [] ∧ ∀ c ∈ cs, c.isSpace = false
  touched : ∀ offset, .data offset ∈ st.content.operands → offset ∈ st.touched

namespace Statement

theorem target_cause {cs : List Char} {e : AssemblyCause} (h : target cs = .error e) : e.isSpace = false := by
  unfold target at h
  split at h
  · dsimp only at h
    split at h
    · cases h
    · cases h
      rfl
  · split at h
    · cases h
    · cases h
      rfl

theorem slot_cause {cs : List Char} {e : AssemblyCause} (h : slot cs = .error e) : e.isSpace = false := by
  unfold slot at h
  split at h
  · exact target_cause h
  · split at h
    · cases h
      rfl
    · split at h
      · cases h
      · cases h
        rfl

namespace Regular

theorem refuse {c : AssemblyCause} (h : c.isSpace = false) : (Statement.refuse c).Regular := by
  refine ⟨?_, nofun⟩
  intro cs hcs
  cases hcs
  exact ⟨nofun, fun d hd => List.mem_singleton.1 hd ▸ h⟩

/-- a line without operands -/
theorem plain {c : Content} (hc : c.isRefused = false) (hoperands : c.operands = []) : Regular ⟨c, []⟩ := by
  refine ⟨?_, ?_⟩
  · intro cs hcs
    obtain rfl : c = .refused cs := hcs
    cases hc
  · intro offset hoffset
    rw [hoperands] at hoffset
    cases hoffset

theorem mem_touchedBy {operands : List (Except AssemblyCause Operand)} {offset : Nat}
    (h : .data offset ∈ acceptedOf operands) : offset ∈ touchedBy operands := by
  obtain ⟨o, ho, heq⟩ := List.mem_filterMap.1 h
  cases o with
  | ok x =>
    obtain rfl := Option.some.inj heq
    exact List.mem_filterMap.2 ⟨_, ho, rfl⟩
  | error e => cases heq

/-- a statement on operands: their addresses are touched, whichever of them is refused -/
theorem onOperands {operands : List (Except AssemblyCause Operand)} {content : List Operand → Content}
    (hcauses : ∀ e, .error e ∈ operands → e.isSpace = false) (haccepted : ∀ xs, (content xs).isRefused = false)
    (hoperands : ∀ xs, (content xs).operands = xs) : (onOperands operands content).Regular := by
  unfold Statement.onOperands
  split
  · refine ⟨?_, ?_⟩
    · intro cs hcs
      have hrefused := haccepted (acceptedOf operands)
      rw [show content (acceptedOf operands) = .refused cs from hcs] at hrefused
      cases hrefused
    · intro offset hoffset
      rw [hoperands] at hoffset
      exact mem_touchedBy hoffset
  · rename_i causes hne
    refine ⟨?_, nofun⟩
    intro cs hcs
    cases hcs
    refine ⟨hne, ?_⟩
    intro c hc
    obtain ⟨o, ho, heq⟩ := List.mem_filterMap.1 hc
    cases o with
    | ok x => cases heq
    | error e =>
      obtain rfl := Option.some.inj heq
      exact hcauses e ho

end Regular

theorem operation_regular (m : Mnemonic) (args : List (List Char)) : (operation m args).Regular := by
  apply operation_cases
  · intro operands literal _ hread
    refine .onOperands ?_ (fun _ => rfl) fun xs => ?_
    · intro e he
      obtain ⟨cs, htarget | hslot⟩ := hread _ he
      · exact target_cause htarget.symm
      · exact slot_cause hslot.symm
    · cases literal <;> simp [Content.operands, Content.words, Content.reads, SymbolicWord.operands]
  · intro _
    exact .plain rfl rfl
  · intro cause hcause
    exact .refuse (AssemblyCause.isSpace_eq_false hcause)

theorem datum_regular (args : List (List Char)) : (datum args).Regular := by
  unfold datum
  split
  · split
    · exact .plain rfl rfl
    · exact .refuse rfl
  · exact .refuse rfl

theorem read_regular (args : List (List Char)) : (read args).Regular := by
  unfold read
  split
  · split
    · rename_i operand hslot
      refine ⟨nofun, ?_⟩
      intro offset hoffset
      obtain rfl : .data offset = operand := by simpa [Content.operands, Content.words, Content.reads] using hoffset
      exact List.mem_singleton_self _
    · rename_i hslot
      exact .refuse (slot_cause hslot)
  · exact .refuse rfl

theorem ofLine_regular (line : List Char) : (ofLine line).Regular :=
  ofLine_cases line (.plain rfl rfl) (fun _ _ => .plain rfl rfl) datum_regular read_regular operation_regular fun _ =>
    .refuse rfl

end Statement

/-! ## Sessions -/

/-- a report on a line: it has a place, and is not about space -/
structure Diagnostic.OnLine (d : Diagnostic) : Prop where
  located : d.location.isSome = true
  notSpace : d.isAboutSpace = false

theorem AssemblyCause.not_isAboutSpace {c : AssemblyCause} (h : c.isSpace = false) {d : Diagnostic}
    (hd : d.message = c.message) : d.isAboutSpace = false := by
  rw [Diagnostic.isAboutSpace, hd, Bool.eq_false_iff, ne_eq, List.isPrefixOf_iff_prefix]
  rintro ⟨rest, hrest⟩
  refine head?_message h ?_
  rw [← hrest]
  rfl

namespace Session

variable {s : Session}

@[simp] theorem touch_words (s : Session) (addresses : List Nat) : (s.touch addresses).words = s.words := rfl

@[simp] theorem touch_reads (s : Session) (addresses : List Nat) : (s.touch addresses).reads = s.reads := rfl

@[simp] theorem touch_diagnostics (s : Session) (addresses : List Nat) :
    (s.touch addresses).diagnostics = s.diagnostics := rfl

/-- one more label, and perhaps a report on it -/
theorem define_fields (s : Session) (span : Span) (name : String) :
    (s.define span name).words = s.words ∧ (s.define span name).reads = s.reads ∧
      (s.define span name).memorySize = s.memorySize ∧
      ∃ ds : List Diagnostic, (s.define span name).diagnostics.toList = s.diagnostics.toList ++ ds ∧
        ∀ d ∈ ds, d.isError = false ∧ d.OnLine := by
  unfold define
  dsimp only
  split
  · refine ⟨rfl, rfl, rfl, [.warningAt .assembly span (AssemblyCause.labelRedefined name).message],
      by simp [warn, report], ?_⟩
    intro d hd
    obtain rfl := List.mem_singleton.1 hd
    exact ⟨rfl, rfl, AssemblyCause.not_isAboutSpace (c := .labelRedefined name) rfl rfl⟩
  · exact ⟨rfl, rfl, rfl, [], by simp, List.forall_mem_nil _⟩

/-- what was collected is what these lines denote -/
structure Denotes (s : Session) (l : Listing) : Prop where
  words : s.words.toList.map Word.symbolic = l.words
  reads : s.reads.toList.map PendingRead.request = l.reads
  memory : s.memorySize = l.memorySize
  positions : ∀ name, s.position? name = l.position? name
  errors : s.diagnostics.toList.any Diagnostic.isError = l.any (·.content.isRefused)
  reports : ∀ d ∈ s.diagnostics.toList, d.OnLine

namespace Denotes

variable {l : Listing}

theorem empty : Session.empty.Denotes [] := ⟨rfl, rfl, rfl, fun _ => rfl, rfl, List.forall_mem_nil _⟩

theorem stackSize (h : s.Denotes l) : s.stackSize = l.size := by
  rw [Session.stackSize, ← Array.length_toList, ← List.length_map Word.symbolic, h.words]
  rfl

/-- one more line: its words and reads behind the others, its label at the end of the words, and its reports -/
theorem extend (h : s.Denotes l) {s' : Session} {st : Statement}
    (hwords : s'.words.toList.map Word.symbolic = s.words.toList.map Word.symbolic ++ st.content.words)
    (hreads : s'.reads.toList.map PendingRead.request = s.reads.toList.map PendingRead.request ++ st.content.reads)
    (hmemory : s'.memorySize = (s.touch st.touched).memorySize)
    (hpositions : ∀ name, s'.position? name = if st.content.defines =
      some name then some s.stackSize else s.position? name)
    (hreports : ∃ ds, s'.diagnostics.toList = s.diagnostics.toList ++ ds ∧
      ds.any Diagnostic.isError = st.content.isRefused ∧ ∀ d ∈ ds, d.OnLine) : s'.Denotes (l ++ [st]) := by
  obtain ⟨ds, hdiagnostics, herrors, honLine⟩ := hreports
  refine ⟨?_, ?_, ?_, ?_, ?_, ?_⟩
  · rw [hwords, h.words, Listing.words_append]
    simp [Listing.words]
  · rw [hreads, h.reads, Listing.reads_append]
    simp [Listing.reads]
  · rw [hmemory, Listing.memorySize_concat, ← h.memory]
    rfl
  · intro name
    rw [hpositions, Listing.position?_concat, h.stackSize, h.positions]
  · rw [hdiagnostics, List.any_append, List.any_append, h.errors, herrors]
    simp
  · intro d hd
    rw [hdiagnostics, List.mem_append] at hd
    exact hd.elim (h.reports d) (honLine d)

theorem onLine_at (span : Span) {c : AssemblyCause} (hc : c.isSpace = false) :
    (Diagnostic.warningAt .assembly span c.message).OnLine ∧ (Diagnostic.errorAt .assembly span c.message).OnLine :=
  ⟨⟨rfl, AssemblyCause.not_isAboutSpace hc rfl⟩, ⟨rfl, AssemblyCause.not_isAboutSpace hc rfl⟩⟩

/-- each cause of a refusal is reported -/
theorem refuseAll_eq (s : Session) (span : Span) (causes : List AssemblyCause) :
    causes.foldl (fun s c => s.refuse span c) s =
      { s with diagnostics :=
  s.diagnostics ++ (causes.map fun c => Diagnostic.errorAt .assembly span c.message).toArray } := by
  induction causes generalizing s with
  | nil => simp
  | cons c rest ih =>
    rw [List.foldl_cons, ih]
    simp [refuse, report]

/-- a line that defines nothing leaves the labels alone -/
theorem positions_of_labels {s' : Session} {c : Content} (hc : c.defines = none) (hlabels : s'.labels = s.labels)
    (name : String) : s'.position? name = if c.defines = some name then some s.stackSize else s.position? name := by
  rw [hc, if_neg nofun, position?, hlabels]
  rfl

theorem add_label (h : s.Denotes l) (span : Span) (name : String) (trailing : Bool) (touched : List Nat) :
    ((s.touch touched).add span (.label name trailing)).Denotes (l ++ [⟨.label name trailing, touched⟩]) := by
  obtain ⟨hwords, hreads, hmemory, ds, hds, hreports⟩ := (s.touch touched).define_fields span name
  have hpositions (other : String) : ((s.touch touched).define span name).position? other =
      if (Content.label name trailing).defines = some other then some s.stackSize else s.position? other := by
    by_cases hname : name = other
    · subst hname
      simp only [position?_define, Content.defines, if_true]
      rfl
    · simp only [position?_define_of_ne _ _ (Ne.symm hname), Content.defines, Option.some.injEq, if_neg hname]
      rfl
  have hnone : ds.any Diagnostic.isError = false := List.any_eq_false.2 fun d hd => by simp [(hreports d hd).1]
  cases trailing with
  | false =>
    refine h.extend ?_ ?_ hmemory hpositions ⟨ds, hds, hnone, fun d hd => (hreports d hd).2⟩
    · simp [Session.add, Content.words, hwords]
    · simp [Session.add, Content.reads, hreads]
  | true =>
    have hwarning := (onLine_at span (c := .textAfterLabel name) rfl).1
    refine h.extend ?_ ?_ hmemory hpositions
      ⟨ds ++ [.warningAt .assembly span (AssemblyCause.textAfterLabel name).message], ?_, ?_, ?_⟩
    · simp [Session.add, warn, report, Content.words, hwords]
    · simp [Session.add, warn, report, Content.reads, hreads]
    · simp [Session.add, warn, report, hds]
    · rw [List.any_append, hnone]
      rfl
    · intro d hd
      rcases List.mem_append.1 hd with hd | hd
      · exact (hreports d hd).2
      · exact List.mem_singleton.1 hd ▸ hwarning

theorem add_operation (h : s.Denotes l) (span : Span) (opcode : Nat) (args : List Operand) (literal : Option UInt32)
    (ignored : Option String) (touched : List Nat) :
    ((s.touch touched).add span (.operation opcode args literal ignored)).Denotes
      (l ++ [⟨.operation opcode args literal ignored, touched⟩]) := by
  have hwords : (((s.touch touched).add span (.operation opcode args literal ignored)).words.toList.map Word.symbolic) =
      s.words.toList.map Word.symbolic ++ (Content.operation opcode args literal ignored).words := by
    cases ignored <;> cases literal <;>
      simp [Session.add, warn, report, Content.words, Word.symbolic]
  cases ignored with
  | none =>
    refine h.extend hwords ?_ rfl (positions_of_labels rfl rfl) ⟨[], ?_, rfl, List.forall_mem_nil _⟩
    · simp [Session.add, Content.reads]
    · simp [Session.add]
  | some mnemonic =>
    have hwarning := (onLine_at span (c := .extraText mnemonic) rfl).1
    refine h.extend hwords ?_ rfl (positions_of_labels rfl rfl)
      ⟨[.warningAt .assembly span (AssemblyCause.extraText mnemonic).message], ?_, rfl, ?_⟩
    · simp [Session.add, warn, report, Content.reads]
    · simp [Session.add, warn, report]
    · intro d hd
      exact List.mem_singleton.1 hd ▸ hwarning

theorem add_refused (h : s.Denotes l) (span : Span) {causes : List AssemblyCause} (hne : causes ≠ [])
    (hcauses : ∀ c ∈ causes, c.isSpace = false) (touched : List Nat) :
    ((s.touch touched).add span (.refused causes)).Denotes (l ++ [⟨.refused causes, touched⟩]) := by
  rw [Session.add, refuseAll_eq]
  refine h.extend ?_ ?_ rfl (positions_of_labels rfl rfl)
    ⟨causes.map fun c => .errorAt .assembly span c.message, ?_, ?_, ?_⟩
  · simp [Content.words]
  · simp [Content.reads]
  · simp
  · obtain ⟨c, rest, rfl⟩ := List.exists_cons_of_ne_nil hne
    rfl
  · intro d hd
    obtain ⟨c, hc, rfl⟩ := List.mem_map.1 hd
    exact (onLine_at span (hcauses c hc)).2

/-- **One line.** Whatever it denotes, the pass collects. -/
theorem add (h : s.Denotes l) (span : Span) {st : Statement} (hst : st.Regular) :
    ((s.touch st.touched).add span st.content).Denotes (l ++ [st]) := by
  obtain ⟨content, touched⟩ := st
  cases content with
  | nothing =>
    refine h.extend ?_ ?_ rfl (positions_of_labels rfl rfl) ⟨[], ?_, rfl, List.forall_mem_nil _⟩ <;>
      simp [Session.add, Content.words, Content.reads]
  | label name trailing => exact h.add_label span name trailing touched
  | operation opcode args literal ignored => exact h.add_operation span opcode args literal ignored touched
  | datum value =>
    refine h.extend ?_ ?_ rfl (positions_of_labels rfl rfl) ⟨[], ?_, rfl, List.forall_mem_nil _⟩ <;>
      simp [Session.add, Content.words, Content.reads, Word.symbolic]
  | read target name =>
    refine h.extend ?_ ?_ rfl (positions_of_labels rfl rfl) ⟨[], ?_, rfl, List.forall_mem_nil _⟩ <;>
      simp [Session.add, Content.words, Content.reads, PendingRead.request]
  | refused causes =>
    obtain ⟨hne, hcauses⟩ := hst.causes causes rfl
    exact h.add_refused span hne hcauses touched

/-- **All lines.** -/
theorem scanLines (h : s.Denotes l) (offset : Nat) (raws : List (List Char)) :
    (s.scanLines offset raws).Denotes (l ++ raws.map fun raw => Statement.ofLine (dropReturn raw)) := by
  induction raws generalizing s l offset with
  | nil => simpa [Session.scanLines] using h
  | cons raw rest ih =>
    have hline := h.add ⟨offset, offset + width (dropReturn raw)⟩ (Statement.ofLine_regular (dropReturn raw))
    have hrest := ih hline (offset + width raw + 1)
    rw [List.append_assoc] at hrest
    exact hrest

theorem scan (text : String) : (Session.scan text).Denotes (.ofText text) := empty.scanLines 0 _

end Denotes

end Session

/-! ## Images -/

namespace Image

open Session

variable {s : Session} {l : Listing}

/-- an operand has a value in a session exactly if it has one in the listing and an address is not too far -/
theorem operandValue_eq_ok (h : s.Denotes l) {x : Operand} {n : Nat} :
    operandValue s x = .ok n ↔ l.value x = some n ∧ ∀ offset, x = .data offset → l.size + offset ≤ maxAddress := by
  cases x with
  | immediate m => simp [operandValue, Listing.value]
  | label name =>
    rw [operandValue, h.positions, Listing.value]
    cases l.position? name <;> simp
  | data offset =>
    rw [operandValue, h.stackSize, Listing.value]
    by_cases hle : l.size + offset ≤ maxAddress <;> simp [hle]

/-- sound operands, one by one -/
theorem exists_value_iff (h : s.Denotes l) {x : Operand} :
    (∃ n, operandValue s x = .ok n) ↔ (∀ name, x = .label name → ∃ st ∈ l, st.content.defines = some name) ∧
      ∀ offset, x = .data offset → l.size + offset ≤ maxAddress := by
  cases x with
  | immediate m => simp [operandValue]
  | label name =>
    rw [operandValue, h.positions]
    cases hposition : l.position? name with
    | none => simpa using Listing.position?_eq_none_iff.1 hposition
    | some n =>
      obtain ⟨before, st, after, rfl, hst, -⟩ := Listing.position?_eq_some_iff.1 hposition
      simpa using ⟨st, by simp, hst⟩
  | data offset =>
    rw [operandValue, h.stackSize]
    by_cases hle : l.size + offset ≤ maxAddress <;> simp [hle]

theorem resolved_iff_operands (h : s.Denotes l) : Resolved s ↔ ∀ x ∈ l.operands, ∃ n, operandValue s x = .ok n := by
  rw [Listing.operands, Listing.instructionOperands, ← h.words, ← h.reads]
  constructor
  · intro hr x hx
    rcases List.mem_append.1 hx with hx | hx
    · obtain ⟨_, hsymbolic, hx⟩ := List.mem_flatMap.1 hx
      obtain ⟨w, hw, rfl⟩ := List.mem_map.1 hsymbolic
      cases w with
      | op span opcode args => exact hr.words span opcode args hw x hx
      | raw value => cases hx
    · obtain ⟨_, hrequest, rfl⟩ := List.mem_map.1 hx
      obtain ⟨r, hread, rfl⟩ := List.mem_map.1 hrequest
      exact hr.reads r hread
  · intro hall
    refine ⟨?_, ?_⟩
    · intro span opcode args hw x hx
      exact hall x (List.mem_append_left _ (List.mem_flatMap.2 ⟨_, List.mem_map_of_mem hw, hx⟩))
    · intro r hr
      exact hall _ (List.mem_append_right _ (List.mem_map_of_mem (List.mem_map_of_mem hr)))

/-- a resolved word is the word of the listing with its operands replaced -/
theorem encodeWord_symbolic (h : s.Denotes l) (hr : Resolved s) {w : Word} (hw : w ∈ s.words.toList) :
    encodeWord s w = l.encodeWord w.symbolic := by
  cases w with
  | raw value => rfl
  | op span opcode args =>
    have hfield (n : Nat) : ((args[n]?).bind fun x => (operandValue s x).toOption) = (args[n]?).bind l.value := by
      cases hx : args[n]? with
      | none => rfl
      | some x =>
        obtain ⟨v, hv⟩ := hr.words span opcode args hw x (List.mem_of_getElem? hx)
        simp [hv, ((operandValue_eq_ok h).1 hv).1, Except.toOption]
    simp only [encodeWord, Listing.encodeWord, Word.symbolic, hfield]

theorem mem_foldl_insertRegion {k : Nat} (ns acc : List Nat) :
    k ∈ ns.foldl (fun acc n => insertRegion n acc) acc ↔ k ∈ ns ∨ k ∈ acc := by
  induction ns generalizing acc with
  | nil => simp
  | cons n rest ih =>
    rw [List.foldl_cons, ih, mem_insertRegion, List.mem_cons]
    tauto

theorem pairwise_foldl_insertRegion (ns : List Nat) {acc : List Nat} (h : acc.Pairwise (· < ·)) :
    (ns.foldl (fun acc n => insertRegion n acc) acc).Pairwise (· < ·) := by
  induction ns generalizing acc with
  | nil => exact h
  | cons n rest ih => exact ih (pairwise_insertRegion h)

theorem mem_wordRegions (h : s.Denotes l) {n : Nat} :
    n ∈ s.words.toList.flatMap (wordRegions s) ↔ ∃ offset, .data offset ∈ l.instructionOperands ∧
      n = l.size + offset := by
  rw [Listing.instructionOperands, ← h.words, ← h.stackSize]
  constructor
  · intro hn
    obtain ⟨w, hw, hn⟩ := List.mem_flatMap.1 hn
    cases w with
    | raw value => cases hn
    | op span opcode args =>
      obtain ⟨x, hx, heq⟩ := List.mem_filterMap.1 hn
      cases x with
      | data offset => exact ⟨offset, List.mem_flatMap.2 ⟨_, List.mem_map_of_mem hw, hx⟩, (Option.some.inj heq).symm⟩
      | label name => cases heq
      | immediate m => cases heq
  · rintro ⟨offset, hoffset, rfl⟩
    obtain ⟨_, hsymbolic, hx⟩ := List.mem_flatMap.1 hoffset
    obtain ⟨w, hw, rfl⟩ := List.mem_map.1 hsymbolic
    cases w with
    | raw value => cases hx
    | op span opcode args => exact List.mem_flatMap.2 ⟨_, hw, List.mem_filterMap.2 ⟨_, hx, rfl⟩⟩

/-- an image has the regions of its session's words -/
theorem regions_of_resolve {image : Image} (h : resolve s = .ok image) :
    image.regions =
      ((s.words.toList.flatMap (wordRegions s)).foldl (fun acc n => insertRegion n acc) []).map UInt32.ofNat := by
  unfold resolve at h
  dsimp only at h
  split at h
  · cases h
    rfl
  · cases h

end Image

/-- an image is that of a listing: its words encoded one by one, the addresses that its instructions name in ascending
order, and the addresses it asks for in the order of the lines -/
structure Image.Of (l : Listing) (image : Image) : Prop where
  length : image.stack.length = l.size
  stack : image.stack = l.words.map l.encodeWord
  ordered : image.regions.Pairwise (· < ·)
  regions : ∀ r, r ∈ image.regions ↔ ∃ offset, .data offset ∈ l.instructionOperands ∧ r.toNat = l.size + offset
  inside : ∀ r ∈ image.regions, l.size ≤ r.toNat ∧ r.toNat < l.size + l.memorySize
  reads : List.Forall₂ (fun r out => ∃ n, l.value r.1 = some n ∧ out = ⟨UInt32.ofNat n, r.2⟩) l.reads image.reads

namespace Image

open Session

variable {s : Session} {l : Listing} {image : Image}

theorem reads_of_resolve (h : s.Denotes l) (hresolve : resolve s = .ok image) :
    List.Forall₂ (fun r out => ∃ n, l.value r.1 = some n ∧ out = ⟨UInt32.ofNat n, r.2⟩) l.reads image.reads := by
  obtain ⟨hr, -, hreads⟩ := resolve_eq_ok hresolve
  have hall : ∀ rs : List PendingRead, (∀ r ∈ rs, ∃ n, operandValue s r.target = .ok n) →
      List.Forall₂ (fun r out => ∃ n, l.value r.1 = some n ∧ out = ⟨UInt32.ofNat n, r.2⟩) (rs.map PendingRead.request)
        (rs.filterMap fun r => (operandValue s r.target).toOption.map fun n =>
          (⟨UInt32.ofNat n, r.name⟩ : ReadRegion)) := by
    intro rs
    induction rs with
    | nil => exact fun _ => .nil
    | cons r rest ih =>
      intro hvalues
      obtain ⟨⟨n, hn⟩, hrest⟩ := List.forall_mem_cons.1 hvalues
      rw [List.filterMap_cons, hn]
      exact .cons ⟨n, ((operandValue_eq_ok h).1 hn).1, rfl⟩ (ih hrest)
  rw [hreads, ← h.reads]
  exact hall _ hr.reads

/-- **The image of a session is the image of the lines it has read.** -/
theorem of_resolve (h : s.Denotes l) (hregular : ∀ st ∈ l, st.Regular) (hresolve : resolve s = .ok image) :
    image.Of l := by
  obtain ⟨hr, hstack, -⟩ := resolve_eq_ok hresolve
  have hwords : image.stack = l.words.map l.encodeWord := by
    rw [hstack, ← h.words, List.map_map]
    exact List.map_congr_left fun w hw => encodeWord_symbolic h hr hw
  -- a region fits its word, since the address was in range
  have hnarrow {n : Nat} (hn : n ∈ s.words.toList.flatMap (wordRegions s)) : n ≤ maxAddress := by
    obtain ⟨offset, hoffset, rfl⟩ := (mem_wordRegions h).1 hn
    obtain ⟨v, hv⟩ := (resolved_iff_operands h).1 hr _ (List.mem_append_left _ hoffset)
    exact ((operandValue_eq_ok h).1 hv).2 offset rfl
  have htoNat {n : Nat} (hn : n ∈ s.words.toList.flatMap (wordRegions s)) : (UInt32.ofNat n).toNat = n :=
    UInt32.toNat_ofNat_of_lt' (Nat.lt_of_le_of_lt (hnarrow hn) (by decide))
  have hmem (n : Nat) : n ∈ (s.words.toList.flatMap (wordRegions s)).foldl (fun acc n => insertRegion n acc) [] ↔
      n ∈ s.words.toList.flatMap (wordRegions s) := by simp [mem_foldl_insertRegion]
  have hregions (r : UInt32) :
      r ∈ image.regions ↔ ∃ offset, .data offset ∈ l.instructionOperands ∧ r.toNat = l.size + offset := by
    rw [regions_of_resolve hresolve, List.mem_map]
    constructor
    · rintro ⟨n, hn, rfl⟩
      rw [hmem] at hn
      obtain ⟨offset, hoffset, heq⟩ := (mem_wordRegions h).1 hn
      exact ⟨offset, hoffset, (htoNat hn).trans heq⟩
    · rintro ⟨offset, hoffset, heq⟩
      refine ⟨r.toNat, ?_, UInt32.ofNat_toNat⟩
      rw [hmem, mem_wordRegions h]
      exact ⟨offset, hoffset, heq⟩
  refine ⟨?_, hwords, ?_, hregions, ?_, reads_of_resolve h hresolve⟩
  · rw [hwords, List.length_map]
    rfl
  · rw [regions_of_resolve hresolve, List.pairwise_map]
    refine (pairwise_foldl_insertRegion _ .nil).imp_of_mem ?_
    intro a b ha hb hlt
    rw [UInt32.lt_iff_toNat_lt, htoNat ((hmem a).1 ha), htoNat ((hmem b).1 hb)]
    exact hlt
  · intro r hr
    obtain ⟨offset, hoffset, heq⟩ := (hregions r).1 hr
    obtain ⟨st, hst, hx⟩ := Listing.mem_operands.1 (List.mem_append_left _ hoffset)
    have htouched : offset ∈ l.flatMap (·.touched) := List.mem_flatMap.2 ⟨st, hst, (hregular st hst).touched offset hx⟩
    have hlt := Listing.memorySize_le_iff.1 (Nat.le_refl _) offset htouched
    omega

/-- a session without errors is resolved exactly if its listing is sound -/
theorem sound_iff (h : s.Denotes l) : l.Sound ↔ Resolved s ∧ s.diagnostics.toList.any Diagnostic.isError = false := by
  rw [h.errors, resolved_iff_operands h, List.any_eq_false]
  constructor
  · intro hl
    refine ⟨?_, fun st hst => by simp [hl.accepted st hst]⟩
    intro x hx
    exact (exists_value_iff h).2 ⟨fun name heq => hl.labels name (heq ▸ hx), fun offset heq =>
      hl.addresses offset (heq ▸ hx)⟩
  · rintro ⟨hvalues, haccepted⟩
    refine ⟨fun st hst => by simpa using haccepted st hst, ?_, ?_⟩
    · intro name hx
      exact ((exists_value_iff h).1 (hvalues _ hx)).1 name rfl
    · intro offset hx
      exact ((exists_value_iff h).1 (hvalues _ hx)).2 offset rfl

end Image

/-! ## Texts -/

theorem Listing.regular_ofText (text : String) : ∀ st ∈ ofText text, st.Regular := by
  intro st hst
  obtain ⟨raw, -, rfl⟩ := List.mem_map.1 hst
  exact Statement.ofLine_regular _

/-- the report that a program takes too much -/
def Diagnostic.noSpace (l : Listing) : Diagnostic := .errorOf s!"Not enough space, ({l.memorySize},{l.size})."

theorem Diagnostic.isAboutSpace_noSpace (l : Listing) : (noSpace l).isAboutSpace = true := by
  rw [isAboutSpace, List.isPrefixOf_iff_prefix]
  simp only [noSpace, errorOf, String.toList_append, List.append_assoc]
  exact (by decide : "Not enough space".toList <+: "Not enough space, (".toList).trans (List.prefix_append _ _)

/-- there is an image exactly if the text fits, its operands are resolved and no line was refused -/
theorem assemble_eq_ok_iff {text : String} {limit : Nat} {a : Assembled} :
    assemble text limit = .ok a ↔ (Session.scan text).stackSize + (Session.scan text).memorySize ≤ limit ∧
      ∃ image, Image.resolve (Session.scan text) = .ok image ∧
        (Session.scan text).diagnostics.toList.any Diagnostic.isError = false ∧
        a = ⟨image, ⟨(Session.scan text).stackSize, (Session.scan text).memorySize, limit⟩,
          (Session.scan text).diagnostics.toList⟩ := by
  simp only [assemble, Usage.fits, Usage.total]
  by_cases hfits : (Session.scan text).stackSize + (Session.scan text).memorySize ≤ limit
  · cases Image.resolve (Session.scan text) with
    | error errors => simp [hfits]
    | ok image =>
      by_cases herrors : (Session.scan text).diagnostics.toList.any Diagnostic.isError = true
      · simp [hfits, herrors]
      · simp [hfits, herrors, eq_comm]
  · simp [hfits]

/-- **Assembling a text is assembling what its lines denote.** There is an image exactly if no line is refused, the
words and the data fit, labels that are used are defined somewhere, and data addresses can be named; it is then the
image of the listing. If the text takes too much, that is reported, once, behind the reports on lines. -/
theorem assemble_eq_listing (text : String) (limit : Nat) :
    ((∃ a, assemble text limit = .ok a) ↔
      (Listing.ofText text).Sound ∧ (Listing.ofText text).size + (Listing.ofText text).memorySize ≤ limit) ∧
    (∀ a, assemble text limit = .ok a → a.image.Of (Listing.ofText text) ∧
      a.usage = ⟨(Listing.ofText text).size, (Listing.ofText text).memorySize, limit⟩) ∧
    (limit < (Listing.ofText text).size + (Listing.ofText text).memorySize →
      ∃ reports, assemble text limit = .error (reports ++ [.noSpace (.ofText text)]) ∧
        (reports ++ [.noSpace (.ofText text)]).filter Diagnostic.isAboutSpace = [.noSpace (.ofText text)]) := by
  have hscan := Session.Denotes.scan text
  refine ⟨?_, ?_, ?_⟩
  · rw [Image.sound_iff hscan, ← hscan.stackSize, ← hscan.memory]
    constructor
    · rintro ⟨a, ha⟩
      obtain ⟨hfits, image, hresolve, herrors, -⟩ := assemble_eq_ok_iff.1 ha
      exact ⟨⟨(Image.resolve_eq_ok hresolve).1, herrors⟩, hfits⟩
    · rintro ⟨⟨hresolved, herrors⟩, hfits⟩
      obtain ⟨image, hresolve⟩ := hresolved.resolve
      exact ⟨_, assemble_eq_ok_iff.2 ⟨hfits, image, hresolve, herrors, rfl⟩⟩
  · intro a ha
    obtain ⟨-, image, hresolve, -, rfl⟩ := assemble_eq_ok_iff.1 ha
    refine ⟨Image.of_resolve hscan (Listing.regular_ofText text) hresolve, ?_⟩
    rw [hscan.stackSize, hscan.memory]
  · intro hlt
    rw [← hscan.stackSize, ← hscan.memory] at hlt
    refine ⟨(Session.scan text).diagnostics.toList, ?_, ?_⟩
    · have hfits : Usage.fits ⟨(Session.scan text).stackSize, (Session.scan text).memorySize, limit⟩ = false :=
        decide_eq_false (Nat.not_le.2 hlt)
      simp only [assemble, hfits, Bool.false_eq_true, if_false]
      rw [hscan.stackSize, hscan.memory]
      rfl
    · have hlines : (Session.scan text).diagnostics.toList.filter Diagnostic.isAboutSpace = [] :=
        List.filter_eq_nil_iff.2 fun d hd => by simp [(hscan.reports d hd).notSpace]
      rw [List.filter_append, hlines, List.nil_append, List.filter_singleton, Diagnostic.isAboutSpace_noSpace]
      rfl

/-- the label is bound to the word behind the jump, where it is defined last; the read makes one address of data -/
def relabelled : String := "x: # moved below\n  JMP x\nx:\n  STOREPUSH 7\n.read a0 v\n"

theorem relabelled_assembled : (Listing.ofText relabelled).position? "x" = some 1 ∧
    (∃ a, assemble relabelled 4 = .ok a ∧ a.image.Of (.ofText relabelled)) ∧
    ∃ reports, assemble relabelled 3 = .error (reports ++ [.noSpace (.ofText relabelled)]) := by
  have hsizes : (Listing.ofText relabelled).size = 3 ∧ (Listing.ofText relabelled).memorySize = 1 := by decide +kernel
  have hassembled : (assemble relabelled 4).toOption.isSome = true := by decide +kernel
  obtain ⟨-, himage, -⟩ := assemble_eq_listing relabelled 4
  obtain ⟨-, -, hrefused⟩ := assemble_eq_listing relabelled 3
  refine ⟨by decide +kernel, ?_, ?_⟩
  · cases h : assemble relabelled 4 with
    | error e =>
      rw [h] at hassembled
      cases hassembled
    | ok a => exact ⟨a, rfl, (himage a h).1⟩
  · rw [hsizes.1, hsizes.2] at hrefused
    obtain ⟨reports, hreports, -⟩ := hrefused (by decide)
    exact ⟨reports, hreports⟩

end C15

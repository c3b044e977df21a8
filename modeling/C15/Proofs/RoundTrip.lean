/-
Printed assembly, read back.

Printing puts every line of assembly on a line of text, so scanning the text takes the lines one after another, each at
the span it was printed at (`scan_print_eq`). What a session collects from a line is stated for one line and, by
induction, for all:
- `takeAll_words`, `takeAll_reads`: the words and the reads of the lines, in order;
- `takeAll_memorySize`: one past the highest address printed;
- `takeAll_diagnostics`: nothing is reported while no label is defined twice;
- `takeAll_position?`: a label is bound to the number of words before it.
The `scan` lemmas say the same of a whole text, and `scan_print` puts these together: what the assembler reads is what
was printed.
-/
import C15.Assembly.Session
import C15.Proofs.Labels
import C15.Proofs.LineText

namespace C15

open Text

/-! ## What lines stand for -/

namespace Line

/-- words of a line at a span -/
def words (span : Span) : Line → List Word
  | .instr i => .op span i.mnemonic.opcode i.args :: i.literal?.toList.map .raw
  | .data value => [.raw value.bits]
  | .label _ | .read .. | .comment _ => []

/-- reads that a line at a span asks for -/
def reads (span : Span) : Line → List PendingRead
  | .read a name => [⟨span, .data a.index, name⟩]
  | .label _ | .instr _ | .data _ | .comment _ => []

/-- lines with the spans they are printed at, the first at an offset -/
def located (offset : Nat) : List Line → List (Located Line)
  | [] => []
  | l :: rest => ⟨l, offset, offset + l.text.utf8ByteSize⟩ :: located (offset + l.text.utf8ByteSize + 1) rest

/-- one past the highest address in lines, zero if there is none -/
def memorySize (lines : List Line) : Nat := ((lines.flatMap addresses).map (· + 1)).max?.getD 0

@[simp] theorem length_words (span : Span) (l : Line) : (l.words span).length = l.wordCount := by
  cases l with
  | instr i => cases i <;> rfl
  | label | data | read | comment => rfl

@[simp] theorem map_value_located (offset : Nat) (lines : List Line) :
    (located offset lines).map (·.value) = lines := by
  induction lines generalizing offset with
  | nil => rfl
  | cons l rest ih => simp [located, ih]

theorem mem_of_located {offset : Nat} {lines : List Line} {l : Located Line} (h : l ∈ located offset lines) :
    l.value ∈ lines := by
  rw [← map_value_located offset lines]
  exact List.mem_map_of_mem h

theorem map_wordCount_located (offset : Nat) (lines : List Line) :
    (located offset lines).map (fun l => l.value.wordCount) = lines.map wordCount := by
  conv_rhs => rw [← map_value_located offset lines, List.map_map]
  rfl

theorem located_append (offset : Nat) (xs ys : List Line) :
    ∃ offset', located offset (xs ++ ys) = located offset xs ++ located offset' ys := by
  induction xs generalizing offset with
  | nil => exact ⟨offset, rfl⟩
  | cons l rest ih =>
    obtain ⟨offset', h⟩ := ih (offset + l.text.utf8ByteSize + 1)
    exact ⟨offset', by simp [located, h]⟩

end Line

/-! ## Taking lines -/

namespace Session

/-- take what a line says -/
def takeLine (s : Session) (l : Located Line) : Session := (s.touch l.value.addresses).add l.span l.value.content

def takeAll (s : Session) (ls : List (Located Line)) : Session := ls.foldl takeLine s

@[simp] theorem takeAll_nil (s : Session) : s.takeAll [] = s := rfl

@[simp] theorem takeAll_cons (s : Session) (l : Located Line) (ls : List (Located Line)) :
    s.takeAll (l :: ls) = (s.takeLine l).takeAll ls := rfl

theorem takeAll_append (s : Session) (xs ys : List (Located Line)) : s.takeAll (xs ++ ys) = (s.takeAll xs).takeAll ys :=
  List.foldl_append

/-- binding a label changes labels and diagnostics only -/
theorem define_eq (s : Session) (span : Span) (name : String) :
    ∃ ls ds, s.define span name = { s with labels := ls, diagnostics := ds } := by
  unfold define
  dsimp only
  split
  · exact ⟨_, _, rfl⟩
  · exact ⟨_, _, rfl⟩

theorem takeLine_label (s : Session) (name : String) (span : Span) :
    s.takeLine ⟨.label name, span⟩ = s.define span name := rfl

/-! ## Words, reads and addresses -/

@[simp] theorem takeLine_words (s : Session) (l : Located Line) :
    (s.takeLine l).words.toList = s.words.toList ++ l.value.words l.span := by
  obtain ⟨l, span⟩ := l
  cases l with
  | label name =>
    obtain ⟨ls, ds, h⟩ := s.define_eq span name
    simp [takeLine_label, h, Line.words]
  | instr i => cases h : i.literal? <;> simp [takeLine, Line.content, add, touch, Line.words, h]
  | data | read | comment => simp [takeLine, Line.content, add, touch, Line.words]

@[simp] theorem takeLine_reads (s : Session) (l : Located Line) :
    (s.takeLine l).reads.toList = s.reads.toList ++ l.value.reads l.span := by
  obtain ⟨l, span⟩ := l
  cases l with
  | label name =>
    obtain ⟨ls, ds, h⟩ := s.define_eq span name
    simp [takeLine_label, h, Line.reads]
  | instr | data | read | comment => simp [takeLine, Line.content, add, touch, Line.reads]

@[simp] theorem takeLine_memorySize (s : Session) (l : Located Line) :
    (s.takeLine l).memorySize = l.value.addresses.foldl (fun m a => max m (a + 1)) s.memorySize := by
  obtain ⟨l, span⟩ := l
  cases l with
  | label name =>
    obtain ⟨ls, ds, h⟩ := s.define_eq span name
    simp [takeLine_label, h, Line.addresses]
  | instr | data | read | comment => simp [takeLine, Line.content, add, touch]

theorem takeAll_words (s : Session) (ls : List (Located Line)) :
    (s.takeAll ls).words.toList = s.words.toList ++ ls.flatMap fun l => l.value.words l.span := by
  induction ls generalizing s with
  | nil => simp
  | cons l rest ih => simp [ih]

theorem takeAll_reads (s : Session) (ls : List (Located Line)) :
    (s.takeAll ls).reads.toList = s.reads.toList ++ ls.flatMap fun l => l.value.reads l.span := by
  induction ls generalizing s with
  | nil => simp
  | cons l rest ih => simp [ih]

/-- each line adds as many words as it takes -/
theorem takeAll_stackSize (s : Session) (ls : List (Located Line)) :
    (s.takeAll ls).stackSize = s.stackSize + (ls.map fun l => l.value.wordCount).sum := by
  have hwords := congrArg List.length (takeAll_words s ls)
  simpa [List.length_flatMap, stackSize] using hwords

theorem takeAll_memorySize (s : Session) (ls : List (Located Line)) :
    (s.takeAll ls).memorySize =
      ((ls.map (·.value)).flatMap Line.addresses).foldl (fun m a => max m (a + 1)) s.memorySize := by
  induction ls generalizing s with
  | nil => rfl
  | cons l rest ih => simp [ih, List.foldl_append]

/-! ## Labels -/

theorem position?_define_of_ne (s : Session) (span : Span) {name other : String} (h : name ≠ other) :
    (s.define span other).position? name = s.position? name := by
  have hlookup : ∀ ls : List (String × Nat), (ls.filter (·.1 != other)).lookup name = ls.lookup name := by
    intro ls
    induction ls with
    | nil => rfl
    | cons l rest ih =>
      obtain ⟨key, n⟩ := l
      by_cases hkey : key = other
      · rw [List.filter_cons_of_neg (by simpa using hkey), ih, List.lookup_cons, hkey, beq_false_of_ne h]
      · simp [hkey, List.lookup_cons, ih]
  have hbound : ∀ (n : Nat) (ls : List (String × Nat)),
      ((other, n) :: ls.filter (·.1 != other)).lookup name = ls.lookup name := by
    intro n ls
    rw [List.lookup_cons, beq_false_of_ne h]
    exact hlookup ls
  unfold define
  dsimp only
  split
  · exact hbound _ _
  · exact hbound _ _

/-- a line binds its own label only -/
theorem takeLine_position? (s : Session) (l : Located Line) {name : String} (h : name ∉ Line.labels [l.value]) :
    (s.takeLine l).position? name = s.position? name := by
  obtain ⟨l, span⟩ := l
  cases l with
  | label other =>
    rw [takeLine_label]
    exact position?_define_of_ne s span (by simpa using h)
  | instr | data | read | comment => rfl

/-- a line reports nothing, unless it defines a label again -/
theorem takeLine_diagnostics (s : Session) (l : Located Line)
    (h : ∀ name ∈ Line.labels [l.value], s.position? name = none) : (s.takeLine l).diagnostics = s.diagnostics := by
  obtain ⟨l, span⟩ := l
  cases l with
  | label name =>
    have hnew : s.position? name = none := h name (by simp)
    simp [takeLine_label, define, hnew]
  | instr | data | read | comment => rfl

theorem labels_cons (l : Line) (rest : List Line) : Line.labels (l :: rest) = Line.labels [l] ++ Line.labels rest :=
  Line.labels_append [l] rest

theorem takeAll_position?_of_notMem (s : Session) (ls : List (Located Line)) {name : String}
    (h : name ∉ Line.labels (ls.map (·.value))) : (s.takeAll ls).position? name = s.position? name := by
  induction ls generalizing s with
  | nil => rfl
  | cons l rest ih =>
    rw [List.map_cons, labels_cons, List.mem_append, not_or] at h
    rw [takeAll_cons, ih _ h.2, takeLine_position? s l h.1]

/-- distinct labels not bound before are taken without a report -/
theorem takeAll_diagnostics (s : Session) (ls : List (Located Line)) (hnodup : (Line.labels (ls.map (·.value))).Nodup)
    (hnew : ∀ name ∈ Line.labels (ls.map (·.value)), s.position? name = none) :
    (s.takeAll ls).diagnostics = s.diagnostics := by
  induction ls generalizing s with
  | nil => rfl
  | cons l rest ih =>
    rw [List.map_cons, labels_cons] at hnodup hnew
    obtain ⟨-, hrest, hdisjoint⟩ := List.nodup_append.1 hnodup
    have hfirst : (s.takeLine l).diagnostics = s.diagnostics :=
      takeLine_diagnostics s l fun name hname => hnew name (List.mem_append_left _ hname)
    rw [takeAll_cons, ih _ hrest, hfirst]
    intro name hname
    have hother : name ∉ Line.labels [l.value] := fun hmem => hdisjoint name hmem name hname rfl
    rw [takeLine_position? s l hother]
    exact hnew name (List.mem_append_right _ hname)

/-- a label defined once is bound to the number of words before it -/
theorem takeAll_position? (s : Session) (before after : List (Located Line)) (name : String) (span : Span)
    (h : name ∉ Line.labels (after.map (·.value))) :
    (s.takeAll (before ++ ⟨.label name, span⟩ :: after)).position? name =
      some (s.stackSize + (before.map fun l => l.value.wordCount).sum) := by
  rw [takeAll_append, takeAll_cons, takeAll_position?_of_notMem _ _ h, takeLine_label, position?_define,
    takeAll_stackSize]

/-! ## Scanning printed lines -/

theorem scanLine_text {l : Line} (h : l.Printable) (s : Session) (span : Span) :
    s.scanLine (dropReturn l.text.toList) span = s.takeLine ⟨l, span⟩ := by
  simp only [scanLine, Statement.ofLine_text h, takeLine]

theorem scanLines_text {lines : List Line} (h : ∀ l ∈ lines, l.Printable) (s : Session) (offset : Nat) :
    s.scanLines offset (lines.map (fun l => l.text.toList) ++ [[]]) = s.takeAll (Line.located offset lines) := by
  induction lines generalizing s offset with
  | nil => rfl
  | cons l rest ih =>
    have hl := h l List.mem_cons_self
    have hrest := ih fun m hm => h m (List.mem_cons_of_mem _ hm)
    have hwidth : width l.text.toList = l.text.utf8ByteSize := by rw [width_ofList, String.ofList_toList]
    have hfirst : s.scanLine (dropReturn l.text.toList) ⟨offset, offset + width (dropReturn l.text.toList)⟩ =
        s.takeLine ⟨l, offset, offset + l.text.utf8ByteSize⟩ := by
      rw [scanLine_text hl]
      by_cases hcomment : ∀ t, l ≠ .comment t
      · rw [Statement.dropReturn_text hl hcomment, hwidth]
      · -- a comment says nothing, wherever it ends
        push Not at hcomment
        obtain ⟨t, rfl⟩ := hcomment
        rfl
    rw [List.map_cons, List.cons_append, scanLines, Line.located, takeAll_cons, hfirst, hrest, hwidth]

theorem pieces_print {lines : List Line} (h : ∀ l ∈ lines, l.Printable) :
    pieces (· == '\n') (Line.print lines).toList = lines.map (fun l => l.text.toList) ++ [[]] := by
  induction lines with
  | nil => rfl
  | cons l rest ih =>
    have hrest := ih fun m hm => h m (List.mem_cons_of_mem _ hm)
    have hline : ∀ c ∈ l.text.toList, (c == '\n') = false := by
      intro c hc
      rw [beq_eq_false_iff_ne]
      rintro rfl
      exact Statement.newline_notMem_text (h l List.mem_cons_self) hc
    have hprint : (Line.print (l :: rest)).toList = l.text.toList ++ '\n' :: (Line.print rest).toList := by
      simp [Line.print, String.join_cons]
    rw [hprint, pieces_append_cons (by decide), pieces_of_none hline, hrest]
    rfl

/-- scanning printed lines takes them one after another -/
theorem scan_print_eq {lines : List Line} (h : ∀ l ∈ lines, l.Printable) :
    scan (Line.print lines) = empty.takeAll (Line.located 0 lines) := by
  rw [scan, pieces_print h, scanLines_text h]

section Scanned

variable {lines : List Line}

theorem scan_words (h : ∀ l ∈ lines, l.Printable) :
    (scan (Line.print lines)).words.toList = (Line.located 0 lines).flatMap fun l => l.value.words l.span := by
  rw [scan_print_eq h]
  exact takeAll_words empty _

theorem scan_reads (h : ∀ l ∈ lines, l.Printable) :
    (scan (Line.print lines)).reads.toList = (Line.located 0 lines).flatMap fun l => l.value.reads l.span := by
  rw [scan_print_eq h]
  exact takeAll_reads empty _

/-- the words of lines are operations of their instructions, and literals -/
theorem scan_mem_words (h : ∀ l ∈ lines, l.Printable) {span : Span} {opcode : Nat} {args : List Operand}
    (hword : .op span opcode args ∈ (scan (Line.print lines)).words.toList) :
    ∃ i, .instr i ∈ lines ∧ args = i.args := by
  rw [scan_words h] at hword
  obtain ⟨⟨l, _⟩, hl, hmem⟩ := List.mem_flatMap.1 hword
  have hl : l ∈ lines := Line.mem_of_located hl
  cases l with
  | instr i =>
    refine ⟨i, hl, ?_⟩
    rcases List.mem_cons.1 hmem with heq | hmem
    · exact (Word.op.inj heq).2.2
    · obtain ⟨_, -, heq⟩ := List.mem_map.1 hmem
      cases heq
  | data value => cases List.mem_singleton.1 hmem
  | label | read | comment => cases hmem

/-- the reads of lines are those of their `.read` lines -/
theorem scan_mem_reads (h : ∀ l ∈ lines, l.Printable) {r : PendingRead}
    (hread : r ∈ (scan (Line.print lines)).reads.toList) :
    ∃ a, .read a r.name ∈ lines ∧ r.target = .data a.index := by
  rw [scan_reads h] at hread
  obtain ⟨⟨l, _⟩, hl, hmem⟩ := List.mem_flatMap.1 hread
  have hl : l ∈ lines := Line.mem_of_located hl
  cases l with
  | read a name =>
    obtain rfl := List.mem_singleton.1 hmem
    exact ⟨a, hl, rfl⟩
  | label | instr | data | comment => cases hmem

theorem scan_stackSize (h : ∀ l ∈ lines, l.Printable) :
    (scan (Line.print lines)).stackSize = (lines.map Line.wordCount).sum := by
  rw [scan_print_eq h, takeAll_stackSize, Line.map_wordCount_located]
  exact Nat.zero_add _

theorem scan_memorySize (h : ∀ l ∈ lines, l.Printable) :
    (scan (Line.print lines)).memorySize = Line.memorySize lines := by
  rw [scan_print_eq h, takeAll_memorySize, Line.map_value_located, Line.memorySize]
  have hmax := List.foldl_max (l := (lines.flatMap Line.addresses).map (· + 1)) (a := 0)
  rw [List.foldl_map] at hmax
  exact hmax.trans (Nat.zero_max _)

theorem scan_diagnostics (h : ∀ l ∈ lines, l.Printable) (hlabels : (Line.labels lines).Nodup) :
    (scan (Line.print lines)).diagnostics = #[] := by
  rw [scan_print_eq h]
  exact takeAll_diagnostics _ _ (by rwa [Line.map_value_located]) fun _ _ => rfl

theorem scan_position? (h : ∀ l ∈ lines, l.Printable) (hlabels : (Line.labels lines).Nodup) {before after : List Line}
    {name : String} (hlines : lines = before ++ .label name :: after) :
    (scan (Line.print lines)).position? name = some (before.map Line.wordCount).sum := by
  rw [scan_print_eq h]
  subst hlines
  obtain ⟨offset, hlocated⟩ := Line.located_append 0 before (.label name :: after)
  have hafter : name ∉ Line.labels after := by
    rw [Line.labels_append, Line.labels_label] at hlabels
    exact (List.nodup_cons.1 (List.nodup_append.1 hlabels).2.1).1
  rw [hlocated, Line.located, takeAll_position? _ _ _ _ _ (by rwa [Line.map_value_located]), Line.map_wordCount_located]
  exact congrArg some (Nat.zero_add _)

theorem scan_position?_of_notMem (h : ∀ l ∈ lines, l.Printable) {name : String} (hname : name ∉ Line.labels lines) :
    (scan (Line.print lines)).position? name = none := by
  rw [scan_print_eq h, takeAll_position?_of_notMem _ _ (by rwa [Line.map_value_located])]
  rfl

end Scanned

/-- **Printed assembly is read back.** Lines that are printable and define no label twice, printed and scanned, give
their words and reads in order and nothing to report; each label stands for the number of words before it, and no other
name is bound. -/
theorem scan_print {lines : List Line} (h : ∀ l ∈ lines, l.Printable) (hlabels : (Line.labels lines).Nodup) :
    (scan (Line.print lines)).diagnostics = #[] ∧
    (scan (Line.print lines)).words.toList = (Line.located 0 lines).flatMap (fun l => l.value.words l.span) ∧
    (∀ before name after, lines = before ++ .label name :: after →
      (scan (Line.print lines)).position? name = some (before.map Line.wordCount).sum) ∧
    (∀ name, name ∉ Line.labels lines → (scan (Line.print lines)).position? name = none) ∧
    (scan (Line.print lines)).reads.toList = (Line.located 0 lines).flatMap (fun l => l.value.reads l.span) ∧
    (scan (Line.print lines)).memorySize = Line.memorySize lines :=
  ⟨scan_diagnostics h hlabels, scan_words h, fun _ _ _ hlines => scan_position? h hlabels hlines,
    fun _ hname => scan_position?_of_notMem h hname, scan_reads h, scan_memorySize h⟩

/-- a loop with a number of each kind, a jump back and a read -/
def loop : List Line :=
  [.comment "all kinds of lines", .instr (.store (.int (-7)) ⟨0⟩), .label "loop_0",
   .instr (.storePush (.float ⟨0x3F400000⟩)), .instr (.pair .qadd (.address ⟨7⟩) (.immediate 12)),
   .instr (.jump .jmp "loop_0"), .data (.uint 300), .read ⟨0⟩ "Σ"]

/-- the loop is printed and read back -/
theorem loop_scanned :
    (∀ l ∈ loop, l.Printable) ∧ (Line.labels loop).Nodup ∧ (scan (Line.print loop)).diagnostics = #[] ∧
    (scan (Line.print loop)).words.toList =
      [.op ⟨21, 44⟩ 2 [.data 0], .raw 0xFFFFFFF9, .op ⟨53, 72⟩ 86 [], .raw 0x3F400000,
        .op ⟨73, 87⟩ 50 [.data 7, .immediate 12], .op ⟨88, 102⟩ 10 [.label "loop_0"], .raw 300] ∧
    (scan (Line.print loop)).position? "loop_0" = some 2 ∧
    (scan (Line.print loop)).reads.toList = [⟨⟨118, 129⟩, .data 0, "Σ"⟩] ∧
    (scan (Line.print loop)).memorySize = 8 := by
  have hprintable : ∀ l ∈ loop, l.Printable := by decide +kernel
  have hlabels : (Line.labels loop).Nodup := by decide
  obtain ⟨hdiagnostics, hwords, hposition, -, hreads, hmemory⟩ := scan_print hprintable hlabels
  exact ⟨hprintable, hlabels, hdiagnostics, hwords.trans (by decide +kernel),
    hposition (loop.take 2) "loop_0" (loop.drop 3) rfl, hreads.trans (by decide +kernel), hmemory⟩

end Session

end C15

/-
What generated lines give the assembler to read.

Every line that is generated says what it means when it is printed, and every jump goes to a label that stands before
some word: `Emitted K ends lines` says so of a part of the code, with `K` the labels that stand elsewhere. If control
ends in that part, there is a word after each label jumped to already within it, since a diverging `if` leaves an unused
label at its end. Results:
- `Emitted.append`: parts in sequence;
- `lowerExpr_emitted`, `lowerStmt_emitted`: expressions and statements;
- `Program.Parts.emitted`: a generated program, with no label left open.
-/
import C15.Proofs.Capacity
import C15.Proofs.RoundTrip
import C15.Proofs.Spelling

namespace C15

/-! ## Jumps and labels in lines -/

/-- the label that an instruction may jump to -/
def Instruction.target? : Instruction → Option String
  | .jump _ label => some label
  | _ => none

namespace Line

def target? : Line → Option String
  | .instr i => i.target?
  | _ => none

/-- some line is a word -/
def HasWord (lines : List Line) : Prop := ∃ l ∈ lines, 0 < l.wordCount

theorem HasWord.left {xs : List Line} (h : HasWord xs) (ys : List Line) : HasWord (xs ++ ys) := by
  obtain ⟨l, hl, hpos⟩ := h
  exact ⟨l, List.mem_append_left ys hl, hpos⟩

theorem HasWord.right {ys : List Line} (h : HasWord ys) (xs : List Line) : HasWord (xs ++ ys) := by
  obtain ⟨l, hl, hpos⟩ := h
  exact ⟨l, List.mem_append_right xs hl, hpos⟩

/-- a label stands in lines, before a word if that is asked for -/
def Bound (ends : Bool) (lines : List Line) (label : String) : Prop :=
  ∃ before after, lines = before ++ .label label :: after ∧ (ends = true → HasWord after)

namespace Bound

variable {ends : Bool} {xs ys : List Line} {label : String}

theorem right (h : Bound ends ys label) (xs : List Line) : Bound ends (xs ++ ys) label := by
  obtain ⟨before, after, rfl, hword⟩ := h
  exact ⟨xs ++ before, after, (List.append_assoc ..).symm, hword⟩

theorem left (h : Bound ends xs label) (ys : List Line) : Bound ends (xs ++ ys) label := by
  obtain ⟨before, after, rfl, hword⟩ := h
  exact ⟨before, after ++ ys, by simp, fun hends => (hword hends).left ys⟩

/-- whatever stands after a word -/
theorem left_of_word {ends' : Bool} (h : Bound ends' xs label) (hword : ends = true → HasWord ys) :
    Bound ends (xs ++ ys) label := by
  obtain ⟨before, after, rfl, -⟩ := h
  exact ⟨before, after ++ ys, by simp, fun hends => (hword hends).right after⟩

theorem of_mem (h : .label label ∈ xs) : Bound false xs label := by
  obtain ⟨before, after, rfl⟩ := List.append_of_mem h
  exact ⟨before, after, rfl, fun h => nomatch h⟩

theorem head (hword : ends = true → HasWord ys) : Bound ends (.label label :: ys) label := ⟨[], ys, rfl, hword⟩

end Bound

end Line

/-! ## Parts of code -/

namespace Codegen

open Line (HasWord Bound)

/-- code that prints as what it means; its jumps go to labels that are known or stand in it, and if control ends here,
before a word -/
structure Emitted (K : String → Prop) (ends : Bool) (lines : List Line) : Prop where
  printable : ∀ l ∈ lines, l.Printable
  reads : ∀ l ∈ lines, ∀ span, l.reads span = []
  target : ∀ l ∈ lines, ∀ label, l.target? = some label → K label ∨ Bound ends lines label
  word : ends = true → HasWord lines

/-- an instruction that may be emitted where these labels are known -/
def Allowed (K : String → Prop) : Instruction → Prop
  | .jump _ label => K label
  | i => i.Printable

/-- labels known, and the own ones of a construct -/
def With (K : String → Prop) (own : List String) (label : String) : Prop := K label ∨ label ∈ own

@[simp] theorem allowed_bare {K : String → Prop} {op : BareOp} : Allowed K (.bare op) := trivial

@[simp] theorem allowed_address {K : String → Prop} {op : AddressOp} {a : Address} :
    Allowed K (.address op a) ↔ a.index ≤ maxAddress := Iff.rfl

@[simp] theorem allowed_storePush {K : String → Prop} {value : Literal} : Allowed K (.storePush value) ↔ value.Finite :=
  Iff.rfl

namespace Emitted

variable {K : String → Prop} {ends ends' : Bool} {xs ys : List Line}

theorem nil : Emitted K false [] where
  printable _ hl := nomatch hl
  reads _ hl := nomatch hl
  target _ hl := nomatch hl
  word h := nomatch h

/-- what comes first may fall through; whether control ends is up to what comes last -/
theorem append (hx : Emitted K ends' xs) (hy : Emitted K ends ys) : Emitted K ends (xs ++ ys) where
  printable l hl := (List.mem_append.1 hl).elim (hx.printable l) (hy.printable l)
  reads l hl := (List.mem_append.1 hl).elim (hx.reads l) (hy.reads l)
  target l hl label hlabel := by
    rcases List.mem_append.1 hl with hl | hl
    -- a label at the very end of the first part stands before the first word of the second
    · exact (hx.target l hl label hlabel).imp id fun h => h.left_of_word hy.word
    · exact (hy.target l hl label hlabel).imp id fun h => h.right xs
  word hends := (hy.word hends).right xs

/-- a label at the end does not matter to what comes before -/
theorem append_label {label : String} (hx : Emitted K ends xs) (hlabel : IsLabel label) :
    Emitted K ends (xs ++ [.label label]) where
  printable l hl := by
    rcases List.mem_append.1 hl with hl | hl
    · exact hx.printable l hl
    · rw [List.mem_singleton.1 hl]
      exact hlabel
  reads l hl span := by
    rcases List.mem_append.1 hl with hl | hl
    · exact hx.reads l hl span
    · rw [List.mem_singleton.1 hl]
      rfl
  target l hl name hname := by
    rcases List.mem_append.1 hl with hl | hl
    · exact (hx.target l hl name hname).imp id fun h => h.left _
    · rw [List.mem_singleton.1 hl] at hname
      cases hname
  word hends := (hx.word hends).left _

theorem label {label : String} (hlabel : IsLabel label) : Emitted K false [.label label] := append_label nil hlabel

theorem weaken (h : Emitted K ends xs) : Emitted K false xs where
  printable := h.printable
  reads := h.reads
  target l hl label hlabel := (h.target l hl label hlabel).imp id fun ⟨before, after, heq, _⟩ =>
    ⟨before, after, heq, fun h => nomatch h⟩
  word h := nomatch h

/-- labels that stand in the code need not be known -/
theorem bind {own : List String} (h : Emitted (With K own) ends xs) (hown : ∀ l ∈ own, Bound ends xs l) :
    Emitted K ends xs where
  printable := h.printable
  reads := h.reads
  target l hl label hlabel := by
    rcases h.target l hl label hlabel with (hknown | hmem) | hbound
    · exact Or.inl hknown
    · exact Or.inr (hown label hmem)
    · exact Or.inr hbound
  word := h.word

theorem instr (hK : ∀ l, K l → IsLabel l) {i : Instruction} (hi : Allowed K i) : Emitted K true [.instr i] where
  printable l hl := by
    rw [List.mem_singleton.1 hl]
    cases i with
    | jump op label => exact hK label hi
    | bare | address | move | store | storePush | slot | pair => exact hi
  reads l hl span := by
    rw [List.mem_singleton.1 hl]
    rfl
  target l hl label hlabel := by
    rw [List.mem_singleton.1 hl] at hlabel
    cases i with
    | jump op name =>
      obtain rfl := Option.some.inj hlabel
      exact Or.inl hi
    | bare | address | move | store | storePush | slot | pair => cases hlabel
  word _ := by
    refine ⟨_, List.mem_singleton_self _, ?_⟩
    cases i <;> exact Nat.succ_pos _

theorem instrs (hK : ∀ l, K l → IsLabel l) {is : List Instruction} (his : ∀ i ∈ is, Allowed K i) :
    Emitted K false (is.map .instr) := by
  induction is with
  | nil => exact nil
  | cons i rest ih =>
    have hrest := ih fun j hj => his j (List.mem_cons_of_mem i hj)
    exact (instr hK (his i List.mem_cons_self)).append hrest

end Emitted

/-! ## Labels -/

theorem isLabel_of_toList {s start : String} {cs : List Char} (hs : s.toList = start.toList ++ cs)
    (hstart : IsName start) (hhead : start.toList.head? ≠ some 'a') (hcs : ∀ d ∈ cs, d.isAlphanum = true ∨ d = '_') :
    IsLabel s := by
  obtain ⟨c, rest, hstart, hc, hrest⟩ := hstart
  rw [hstart, List.cons_append] at hs
  constructor
  · refine ⟨c, rest ++ cs, hs, hc, fun d hd => ?_⟩
    exact (List.mem_append.1 hd).elim (hrest d) (hcs d)
  · rintro ⟨ds, hds, -⟩
    rw [hs] at hds
    rw [hstart, (List.cons.inj hds).1] at hhead
    exact hhead rfl

theorem isLabel_label {kind : String} (hkind : kind ∈ kinds) (n : Nat) : IsLabel (label kind n) := by
  have hkinds : ∀ k ∈ kinds, IsName k ∧ k.toList.head? ≠ some 'a' := by decide +kernel
  refine isLabel_of_toList (toList_label kind n) (hkinds kind hkind).1 (hkinds kind hkind).2 fun d hd => ?_
  rcases List.mem_cons.1 hd with rfl | hd
  · exact Or.inr rfl
  · exact Or.inl (by simp [Char.isAlphanum, Text.isDigit_toDigits hd])

theorem isLabel_functionLabel {name : String} (h : IsName name) : IsLabel (functionLabel name) :=
  isLabel_of_toList (String.toList_append ..) (by decide +kernel) (by decide) fun _ hd => Statement.nameChar_of_mem h hd

/-! ## Expressions -/

/-- the labels that code may jump to, and frames whose addresses can be written -/
structure Known (K : String → Prop) (cx : Context) (loop : Option LoopLabels) : Prop where
  label : ∀ l, K l → IsLabel l
  call : ∀ name frame, cx.frames.lookup name = some frame → K (functionLabel name)
  params : ∀ name frame, cx.frames.lookup name = some frame → ∀ a ∈ frame.params, a.index ≤ maxAddress
  result : ∀ name frame, cx.frames.lookup name = some frame → ∀ a ∈ frame.result, a.index ≤ maxAddress
  jump : ∀ l ∈ loop, K l.breakTo ∧ K l.continueTo

/-- addresses that can be written -/
def Slots.Writable (slots : Slots) : Prop := ∀ decl a, slots.lookup decl = some a → a.index ≤ maxAddress

section Expr

variable {K : String → Prop} {cx : Context} {loop : Option LoopLabels} {slots : Slots}

/-- the value of an assignment, if it is used -/
theorem result_emitted (hk : Known K cx loop) {a : Address} (ha : a.index ≤ maxAddress) (used : Bool) :
    Emitted K false (if used then [.instr (pushA a)] else []) := by
  cases used with
  | false => exact .nil
  | true => exact (Emitted.instr hk.label (i := pushA a) ha).weaken

mutual

theorem lowerExpr_emitted (hk : Known K cx loop) (hslots : Slots.Writable slots) (e : Expr) (hs : e.Spelled .source)
    {used : Bool} {frag : Fragment} (h : lowerExpr cx slots used e = .ok frag) : Emitted K false frag.lines := by
  cases e with
  | literal id span value =>
    rw [lowerExpr_literal h]
    exact (Emitted.instr hk.label (i := .storePush value) hs).weaken
  | ident id span name =>
    obtain ⟨v, a, -, ha, hlines⟩ := lowerExpr_ident h
    rw [hlines]
    exact (Emitted.instr hk.label (i := pushA a) (hslots _ _ ha)).weaken
  | binary id span op lhs rhs =>
    obtain ⟨f, i, left, right, -, -, hl, hr, hlines⟩ := lowerExpr_binary h
    have hcode : Emitted K false ((computeTwo i).map .instr) := .instrs hk.label (by simp [computeTwo])
    rw [hlines]
    exact ((lowerExpr_emitted hk hslots lhs hs.1 hl).append (lowerExpr_emitted hk hslots rhs hs.2 hr)).append hcode
  | unary id span op operand =>
    obtain ⟨f, inner, -, hi, hlines⟩ := lowerExpr_unary h
    have hcode : Emitted K false ((unaryCode op f).map .instr) := by
      refine .instrs hk.label ?_
      have hones : (if f = Family.unsigned then Literal.uint 0xFFFFFFFF else .int 0xFFFFFFFF).Finite := by
        split <;> trivial
      cases op <;> simp [unaryCode, computeTwo, computeOne, hones]
    rw [hlines]
    exact (lowerExpr_emitted hk hslots operand hs hi).append hcode
  | update id span op targetId targetSpan target =>
    obtain ⟨v, a, f, -, ha, -, hlines⟩ := lowerExpr_update h
    have haddress := hslots _ _ ha
    rw [hlines]
    refine .instrs hk.label ?_
    unfold updateCode
    cases used <;> cases op.isPost <;> simp [pushA, loadA, saveA, haddress]
  | call id span callee calleeSpan args =>
    obtain ⟨frame, inner, hframe, hi, hlines⟩ := lowerExpr_call h
    have hparams : Emitted K false ((frame.params.reverse.map popA).map .instr) := by
      refine .instrs hk.label fun i hi => ?_
      obtain ⟨a, ha, rfl⟩ := List.mem_map.1 hi
      exact hk.params callee frame hframe a (List.mem_reverse.1 ha)
    have hcall : Emitted K true [.instr (.jump .call (functionLabel callee))] :=
      .instr hk.label (hk.call callee frame hframe)
    have hresult : Emitted K false ((if used then frame.result.toList.map pushA else []).map .instr) := by
      refine .instrs hk.label fun i hi => ?_
      cases used with
      | false => cases hi
      | true =>
        obtain ⟨a, ha, rfl⟩ := List.mem_map.1 hi
        exact hk.result callee frame hframe a (Option.mem_toList.1 ha)
    rw [hlines]
    exact (((lowerArgs_emitted hk hslots args hs hi).append hparams).append hcall).append hresult
  | intrinsic id span callee calleeSpan args =>
    obtain ⟨inner, hi, hlines⟩ := lowerExpr_intrinsic h
    have hcode : Emitted K false ((intrinsicCode callee).map .instr) :=
      .instrs hk.label (by cases callee <;> simp [intrinsicCode])
    rw [hlines]
    exact (lowerArgs_emitted hk hslots args hs hi).append hcode
  | assign id span op target targetSpan value =>
    cases op with
    | none =>
      obtain ⟨v, a, inner, -, ha, hi, hlines⟩ := lowerExpr_assign h
      have hpop : Emitted K true [.instr (popA a)] := .instr hk.label (hslots _ _ ha)
      rw [hlines]
      exact ((lowerExpr_emitted hk hslots value hs hi).append hpop).append (result_emitted hk (hslots _ _ ha) used)
    | some op =>
      obtain ⟨v, a, f, i, inner, -, ha, -, -, hi, hlines⟩ := lowerExpr_compound h
      have haddress := hslots _ _ ha
      have hpush : Emitted K true [.instr (pushA a)] := .instr hk.label haddress
      have hcode : Emitted K false ([.bare .getpopb, .bare .getpopa, .bare i, saveA a].map .instr) :=
        .instrs hk.label (by simp [saveA, haddress])
      rw [hlines]
      exact ((hpush.append (lowerExpr_emitted hk hslots value hs hi)).append hcode).append
        (result_emitted hk haddress used)
  | cast id span base operand =>
    obtain ⟨source, target, inner, -, -, hi, hlines⟩ := lowerExpr_cast h
    have hcode : Emitted K false (((source.conversion target).elim [] computeOne).map .instr) := by
      refine .instrs hk.label ?_
      cases source.conversion target <;> simp [computeOne]
    rw [hlines]
    exact (lowerExpr_emitted hk hslots operand hs.2 hi).append hcode

theorem lowerArgs_emitted (hk : Known K cx loop) (hslots : Slots.Writable slots) (args : List Expr)
    (hs : Expr.AllSpelled .source args) {frag : Fragment} (h : lowerArgs cx slots args = .ok frag) :
    Emitted K false frag.lines := by
  cases args with
  | nil =>
    rw [lowerArgs_nil h]
    exact .nil
  | cons arg rest =>
    obtain ⟨first, more, hf, hr, hlines⟩ := lowerArgs_cons h
    rw [hlines]
    exact (lowerExpr_emitted hk hslots arg hs.1 hf).append (lowerArgs_emitted hk hslots rest hs.2 hr)

end

theorem lowerEffect_emitted (hk : Known K cx loop) (hslots : Slots.Writable slots) {e : Expr} (hs : e.Spelled .source)
    {frag : Fragment} (h : lowerEffect cx slots e = .ok frag) : Emitted K false frag.lines := by
  rcases lowerEffect_eq_ok h with ⟨-, h⟩ | ⟨inner, h, hlines⟩
  · exact lowerExpr_emitted hk hslots e hs h
  · have hdrop : Emitted K false ((cx.info.familyOf e.id).elim [] fun _ => [.instr (.bare .popnop)]) := by
      cases cx.info.familyOf e.id with
      | none => exact .nil
      | some f => exact (Emitted.instr hk.label allowed_bare).weaken
    rw [hlines]
    exact (lowerExpr_emitted hk hslots e hs h).append hdrop

theorem lowerCondition_emitted (hk : Known K cx loop) (hslots : Slots.Writable slots) {e : Expr}
    (hs : e.Spelled .source) {frag : Fragment} (h : lowerCondition cx slots e = .ok frag) :
    Emitted K true frag.lines := by
  obtain ⟨inner, h, hlines⟩ := lowerCondition_eq_ok h
  rw [hlines]
  exact (lowerExpr_emitted hk hslots e hs h).append (.instr hk.label allowed_bare)

theorem TestCode.emitted (hk : Known K cx loop) (hslots : Slots.Writable slots) {exit : String} (hexit : K exit)
    {lines : List Line} {cond : Option Expr} (hs : ∀ e ∈ cond, e.Spelled .source)
    (h : TestCode cx slots exit lines cond) : Emitted K false lines := by
  cases cond with
  | none =>
    obtain rfl := h
    exact .nil
  | some e =>
    obtain ⟨test, ht, rfl⟩ := h
    have hjump : Emitted K true [.instr (.jump .jz exit)] := .instr hk.label hexit
    exact ((lowerCondition_emitted hk hslots (hs e rfl) ht).append hjump).weaken

end Expr

/-! ## Statements -/

/-- inside a construct its own labels are known too -/
theorem Known.extend {K : String → Prop} {cx : Context} {loop : Option LoopLabels} (hk : Known K cx loop)
    {own : List String} (hown : ∀ l ∈ own, IsLabel l) : Known (With K own) cx loop where
  label l hl := hl.elim (hk.label l) (hown l)
  call name frame h := Or.inl (hk.call name frame h)
  params := hk.params
  result := hk.result
  jump l hl := (hk.jump l hl).imp Or.inl Or.inl

/-- inside a loop `break` and `continue` go to its own labels -/
theorem Known.inLoop {K : String → Prop} {cx : Context} {loop : Option LoopLabels} (hk : Known K cx loop)
    {exit again : String} (hexit : K exit) (hagain : K again) : Known K cx (some ⟨exit, again⟩) where
  label := hk.label
  call := hk.call
  params := hk.params
  result := hk.result
  jump l hl := by
    obtain rfl := Option.some.inj hl
    exact ⟨hexit, hagain⟩

theorem Slots.Writable.growFor {st : Storage} (h : Slots.Writable st.slots) (hroom : st.destinations.size ≤ maxAddress)
    (decl : NodeId) (name : String) (ty : Ty) (span : Span) : Slots.Writable (st.growFor decl name ty span).slots := by
  intro decl' a ha
  simp only [Storage.growFor, List.lookup_cons] at ha
  split at ha
  · obtain rfl := Option.some.inj ha
    exact hroom
  · exact h decl' a ha

theorem Slots.Writable.numbered {st : Storage} (h : Slots.Writable st.slots) : Slots.Writable st.numbered.slots := h

section Stmt

variable {K : String → Prop} {cx : Context} {loop : Option LoopLabels} {st st' : Storage} {frag : Fragment}

theorem lowerLocal_emitted (hk : Known K cx loop) (hslots : Slots.Writable st.slots) {d : VarDecl}
    (hs : d.Spelled .source) (h : (lowerLocal cx d).run st = .ok (frag, st')) :
    Emitted K false frag.lines ∧ Slots.Writable st'.slots := by
  cases hd : d.init with
  | none =>
    obtain ⟨hroom, rfl, hlines⟩ := lowerLocal_declare hd h
    rw [hlines]
    exact ⟨.nil, hslots.growFor hroom _ _ _ _⟩
  | some e =>
    obtain ⟨inner, he, hroom, rfl, hlines⟩ := lowerLocal_value hd h
    have hpop : Emitted K true [.instr (popA ⟨st.destinations.size⟩)] := .instr hk.label hroom
    rw [hlines]
    exact ⟨((lowerExpr_emitted hk hslots e (hs.2 e hd) he).append hpop).weaken, hslots.growFor hroom _ _ _ _⟩

theorem lowerForInit_emitted (hk : Known K cx loop) (hslots : Slots.Writable st.slots) {init : ForInit}
    (hs : init.Spelled .source) {span : Span} (h : (lowerStmt cx loop (init.stmt span)).run st = .ok (frag, st')) :
    Emitted K false frag.lines ∧ Slots.Writable st'.slots := by
  cases init with
  | nothing =>
    obtain ⟨rfl, hlines⟩ := lowerStmt_empty h
    rw [hlines]
    exact ⟨.nil, hslots⟩
  | decl d =>
    simp only [ForInit.stmt, lowerStmt] at h
    exact lowerLocal_emitted hk hslots hs h
  | expr span e =>
    obtain ⟨he, rfl⟩ := lowerStmt_expr h
    exact ⟨lowerEffect_emitted hk hslots hs he, hslots⟩

theorem lowerStep_emitted (hk : Known K cx loop) (hslots : Slots.Writable st.slots) {step : Option Expr}
    (hs : ∀ e ∈ step, e.Spelled .source) {span : Span}
    (h : (lowerStmt cx loop (.ofStep span step)).run st = .ok (frag, st')) : Emitted K false frag.lines := by
  cases step with
  | none =>
    rw [(lowerStmt_empty h).2]
    exact .nil
  | some e => exact lowerEffect_emitted hk hslots (hs e rfl) (lowerStmt_expr h).1

/-! ### Constructs, with their own labels -/

section Constructs

variable {K : String → Prop} {ends ends' : Bool} {test yes no body init step : List Line}
  {head again other exit : String}

theorem ifThen_emitted (hexit : IsLabel exit) (htest : Emitted (With K [exit]) false test)
    (hyes : Emitted (With K [exit]) ends yes) : Emitted K false (test ++ yes ++ [.label exit]) := by
  refine ((htest.append hyes).weaken.append_label hexit).bind fun l hl => .of_mem ?_
  rw [List.mem_singleton.1 hl]
  simp

/-- both branches end control: nothing jumps to the label at the end -/
theorem ifElse_emitted_ends (hother : IsLabel other) (hexit : IsLabel exit)
    (htest : Emitted (With K [other]) false test) (hyes : Emitted (With K [other]) true yes)
    (hno : Emitted (With K [other]) true no) :
    Emitted K true (test ++ yes ++ [] ++ .label other :: no ++ [.label exit]) := by
  rw [List.append_nil]
  refine (((htest.append hyes).append ((Emitted.label hother).append hno)).append_label hexit).bind fun l hl => ?_
  rw [List.mem_singleton.1 hl]
  exact ((Bound.head hno.word).right (test ++ yes)).left _

theorem ifElse_emitted {skip : List Line} (hother : IsLabel other) (hexit : IsLabel exit)
    (htest : Emitted (With K [other, exit]) false test) (hyes : Emitted (With K [other, exit]) ends yes)
    (hskip : Emitted (With K [other, exit]) false skip) (hno : Emitted (With K [other, exit]) ends' no) :
    Emitted K false (test ++ yes ++ skip ++ .label other :: no ++ [.label exit]) := by
  have hcode :=
    (((htest.append hyes).append hskip).append ((Emitted.label hother).append hno)).weaken.append_label hexit
  refine hcode.bind fun l hl => .of_mem ?_
  rcases List.mem_pair.1 hl with rfl | rfl <;> simp

theorem while_emitted (hhead : IsLabel head) (hexit : IsLabel exit) (htest : Emitted (With K [head, exit]) false test)
    (hbody : Emitted (With K [head, exit]) ends body)
    (hback : Emitted (With K [head, exit]) true [.instr (.jump .jmp head)]) :
    Emitted K false (.label head :: test ++ body ++ [.instr (.jump .jmp head), .label exit]) := by
  have hcode := ((((Emitted.label hhead).append htest).append hbody).append (hback.weaken.append_label hexit))
  refine hcode.bind fun l hl => .of_mem ?_
  rcases List.mem_pair.1 hl with rfl | rfl <;> simp

theorem doWhile_emitted (hhead : IsLabel head) (hagain : IsLabel again) (hexit : IsLabel exit)
    (hbody : Emitted (With K [head, again, exit]) ends body) (htest : Emitted (With K [head, again, exit]) ends' test)
    (hback : Emitted (With K [head, again, exit]) true [.instr (.jump .jnz head)]) :
    Emitted K false (.label head :: body ++ .label again :: test ++ [.instr (.jump .jnz head), .label exit]) := by
  have hcode := (((Emitted.label hhead).append hbody).append ((Emitted.label hagain).append htest)).append
    (hback.weaken.append_label hexit)
  refine hcode.bind fun l hl => .of_mem ?_
  rcases List.mem_cons.1 hl with rfl | hl
  · simp
  · rcases List.mem_pair.1 hl with rfl | rfl <;> simp

theorem for_emitted (hhead : IsLabel head) (hagain : IsLabel again) (hexit : IsLabel exit)
    (hinit : Emitted (With K [head, again, exit]) false init) (htest : Emitted (With K [head, again, exit]) false test)
    (hbody : Emitted (With K [head, again, exit]) ends body) (hstep : Emitted (With K [head, again, exit]) false step)
    (hback : Emitted (With K [head, again, exit]) true [.instr (.jump .jmp head)]) :
    Emitted K false
      (init ++ .label head :: test ++ body ++ .label again :: step ++ [.instr (.jump .jmp head), .label exit]) := by
  have hcode :=
    (((hinit.append ((Emitted.label hhead).append htest)).append hbody).append
    ((Emitted.label hagain).append hstep)).append (hback.weaken.append_label hexit)
  refine hcode.bind fun l hl => .of_mem ?_
  rcases List.mem_cons.1 hl with rfl | hl
  · simp
  · rcases List.mem_pair.1 hl with rfl | rfl <;> simp

end Constructs

mutual

/-- the code of a statement, lowered where `K` is known -/
theorem lowerStmt_emitted (s : Stmt) {K : String → Prop} {loop : Option LoopLabels} {st st' : Storage} {frag : Fragment}
    (hk : Known K cx loop) (hslots : Slots.Writable st.slots) (hs : s.Spelled .source)
    (h : (lowerStmt cx loop s).run st = .ok (frag, st')) :
    Emitted K s.diverges frag.lines ∧ Slots.Writable st'.slots := by
  cases s with
  | decl d =>
    simp only [lowerStmt] at h
    exact lowerLocal_emitted hk hslots hs h
  | ifThen span cond yes =>
    obtain ⟨test, yesCode, ht, hy, hlines⟩ := lowerStmt_ifThen h
    have hexit : IsLabel (label "if_end" st.nextLabel) := isLabel_label (by decide) _
    have hk' : Known (With K [label "if_end" st.nextLabel]) cx loop := hk.extend (by simpa using hexit)
    have htest := ht.emitted hk' hslots (by simp [With]) (by simpa using hs.1)
    obtain ⟨hyes, hslots'⟩ := lowerStmt_emitted yes hk' hslots.numbered hs.2 hy
    rw [hlines]
    exact ⟨ifThen_emitted hexit htest hyes, hslots'⟩
  | ifElse span cond yes no =>
    obtain ⟨test, yesCode, st₁, noCode, ht, hy, hn, hlines⟩ := lowerStmt_ifElse h
    have hother : IsLabel (label "if_else" st.nextLabel) := isLabel_label (by decide) _
    have hexit : IsLabel (label "if_end" st.nextLabel) := isLabel_label (by decide) _
    rw [hlines, Stmt.diverges]
    cases hends : yes.diverges && no.diverges with
    | true =>
      have hk' : Known (With K [label "if_else" st.nextLabel]) cx loop := hk.extend (by simpa using hother)
      have htest := ht.emitted hk' hslots (by simp [With]) (by simpa using hs.1)
      obtain ⟨hyes, hslots₁⟩ := lowerStmt_emitted yes hk' hslots.numbered hs.2.1 hy
      obtain ⟨hno, hslots'⟩ := lowerStmt_emitted no hk' hslots₁ hs.2.2 hn
      obtain ⟨hyesEnds, hnoEnds⟩ := (Bool.and_eq_true _ _).mp hends
      rw [hyesEnds] at hyes ⊢
      rw [hnoEnds] at hno
      exact ⟨ifElse_emitted_ends hother hexit htest hyes hno, hslots'⟩
    | false =>
      have hk' : Known (With K [label "if_else" st.nextLabel, label "if_end" st.nextLabel]) cx loop :=
        hk.extend (by simp [hother, hexit])
      have htest := ht.emitted hk' hslots (by simp [With]) (by simpa using hs.1)
      obtain ⟨hyes, hslots₁⟩ := lowerStmt_emitted yes hk' hslots.numbered hs.2.1 hy
      obtain ⟨hno, hslots'⟩ := lowerStmt_emitted no hk' hslots₁ hs.2.2 hn
      have hskip : Emitted (With K [label "if_else" st.nextLabel, label "if_end" st.nextLabel]) false
          (if yes.diverges then [] else [.instr (.jump .jmp (label "if_end" st.nextLabel))]) := by
        split
        · exact .nil
        · exact (Emitted.instr hk'.label (by simp [Allowed, With])).weaken
      exact ⟨ifElse_emitted hother hexit htest hyes hskip hno, hslots'⟩
  | while_ span cond body =>
    obtain ⟨test, bodyCode, ht, hb, hlines⟩ := lowerStmt_while h
    have hhead : IsLabel (label "while_head" st.nextLabel) := isLabel_label (by decide) _
    have hexit : IsLabel (label "while_end" st.nextLabel) := isLabel_label (by decide) _
    have hk' : Known (With K [label "while_head" st.nextLabel, label "while_end" st.nextLabel]) cx loop :=
      hk.extend (by simp [hhead, hexit])
    have htest := ht.emitted hk' hslots (by simp [With]) (by simpa using hs.1)
    obtain ⟨hbody, hslots'⟩ :=
      lowerStmt_emitted body (hk'.inLoop (by simp [With]) (by simp [With])) hslots.numbered hs.2 hb
    rw [hlines]
    exact ⟨while_emitted hhead hexit htest hbody (.instr hk'.label (by simp [Allowed, With])), hslots'⟩
  | doWhile span body cond =>
    obtain ⟨bodyCode, test, hb, ht, hlines⟩ := lowerStmt_doWhile h
    have hhead : IsLabel (label "do_body" st.nextLabel) := isLabel_label (by decide) _
    have hagain : IsLabel (label "do_cond" st.nextLabel) := isLabel_label (by decide) _
    have hexit : IsLabel (label "do_end" st.nextLabel) := isLabel_label (by decide) _
    have hk' : Known (With K [label "do_body" st.nextLabel, label "do_cond" st.nextLabel,
        label "do_end" st.nextLabel]) cx loop :=
      hk.extend (by simp [hhead, hagain, hexit])
    obtain ⟨hbody, hslots'⟩ :=
      lowerStmt_emitted body (hk'.inLoop (by simp [With]) (by simp [With])) hslots.numbered hs.2 hb
    have htest := lowerCondition_emitted hk' hslots' hs.1 ht
    rw [hlines]
    exact ⟨doWhile_emitted hhead hagain hexit hbody htest (.instr hk'.label (by simp [Allowed, With])), hslots'⟩
  | for_ span init cond step body =>
    obtain ⟨initCode, st₁, test, bodyCode, stepCode, hi, ht, hb, hstep, hlines⟩ := lowerStmt_for h
    obtain ⟨hsInit, hsCond, hsStep, hsBody⟩ := hs
    have hhead : IsLabel (label "for_head" st.nextLabel) := isLabel_label (by decide) _
    have hagain : IsLabel (label "for_step" st.nextLabel) := isLabel_label (by decide) _
    have hexit : IsLabel (label "for_end" st.nextLabel) := isLabel_label (by decide) _
    have hk' : Known (With K [label "for_head" st.nextLabel, label "for_step" st.nextLabel,
        label "for_end" st.nextLabel]) cx loop :=
      hk.extend (by simp [hhead, hagain, hexit])
    obtain ⟨hinit, hslots₁⟩ := lowerForInit_emitted hk' hslots.numbered hsInit hi
    have htest := ht.emitted hk' hslots₁ (by simp [With]) hsCond
    obtain ⟨hbody, hslots'⟩ := lowerStmt_emitted body (hk'.inLoop (by simp [With]) (by simp [With])) hslots₁ hsBody hb
    have hstepCode := lowerStep_emitted hk' hslots' hsStep hstep
    rw [hlines]
    exact ⟨for_emitted hhead hagain hexit hinit htest hbody hstepCode (.instr hk'.label (by simp [Allowed, With])),
      hslots'⟩
  | break_ span =>
    obtain ⟨l, rfl, rfl, hlines⟩ := lowerStmt_break h
    rw [hlines]
    exact ⟨.instr hk.label (hk.jump l rfl).1, hslots⟩
  | continue_ span =>
    obtain ⟨l, rfl, rfl, hlines⟩ := lowerStmt_continue h
    rw [hlines]
    exact ⟨.instr hk.label (hk.jump l rfl).2, hslots⟩
  | return_ span value =>
    cases value with
    | none =>
      obtain ⟨rfl, hlines⟩ := lowerStmt_return h
      rw [hlines]
      exact ⟨.instr hk.label allowed_bare, hslots⟩
    | some e =>
      obtain ⟨frame, a, inner, hframe, ha, he, rfl, hlines⟩ := lowerStmt_returnValue h
      have hpop : Emitted K true [.instr (popA a)] := .instr hk.label (hk.result _ frame hframe a ha)
      have hlast : Emitted K true [.instr (.bare .rtn)] := .instr hk.label allowed_bare
      rw [hlines]
      exact ⟨(lowerExpr_emitted hk hslots e (hs e rfl) he).append (hpop.append hlast), hslots⟩
  | expr span e =>
    obtain ⟨he, rfl⟩ := lowerStmt_expr h
    exact ⟨lowerEffect_emitted hk hslots hs he, hslots⟩
  | block span body =>
    simp only [lowerStmt] at h
    exact lowerStmts_emitted body hk hslots hs h
  | empty span =>
    obtain ⟨rfl, hlines⟩ := lowerStmt_empty h
    rw [hlines]
    exact ⟨.nil, hslots⟩

theorem lowerStmts_emitted (ss : List Stmt) {K : String → Prop} {loop : Option LoopLabels} {st st' : Storage}
    {frag : Fragment} (hk : Known K cx loop) (hslots : Slots.Writable st.slots) (hs : Stmt.AllSpelled .source ss)
    (h : (lowerStmts cx loop ss).run st = .ok (frag, st')) :
    Emitted K (Stmt.anyDiverges ss) frag.lines ∧ Slots.Writable st'.slots := by
  cases ss with
  | nil =>
    obtain ⟨rfl, hlines⟩ := lowerStmts_nil h
    rw [hlines]
    exact ⟨.nil, hslots⟩
  | cons s rest =>
    cases hdiverges : s.diverges with
    | true =>
      obtain ⟨first, hf, hlines⟩ := lowerStmts_cons_diverges hdiverges h
      obtain ⟨hfirst, hslots'⟩ := lowerStmt_emitted s hk hslots hs.1 hf
      rw [hlines, Stmt.anyDiverges, hdiverges, Bool.true_or]
      exact ⟨hdiverges ▸ hfirst, hslots'⟩
    | false =>
      obtain ⟨first, st₁, more, hf, hm, hlines⟩ := lowerStmts_cons hdiverges h
      obtain ⟨hfirst, hslots₁⟩ := lowerStmt_emitted s hk hslots hs.1 hf
      obtain ⟨hrest, hslots'⟩ := lowerStmts_emitted rest hk hslots₁ hs.2 hm
      rw [hlines, Stmt.anyDiverges, hdiverges, Bool.false_or]
      exact ⟨hfirst.append hrest, hslots'⟩

end

end Stmt

/-! ## Programs -/

theorem Known.ofFunction {K : String → Prop} {cx : Context} {loop : Option LoopLabels} (hk : Known K cx loop)
    (name : String) : Known K { cx with function := name } loop := ⟨hk.label, hk.call, hk.params, hk.result, hk.jump⟩

theorem finite_zero (f : Option Family) : (Literal.zero f).Finite := by
  rcases f with _ | _ | _ | _ <;> decide

section Program

variable {K : String → Prop} {cx : Context} {st st' : Storage} {frag : Fragment}

theorem lowerGlobals_emitted (hk : Known K cx none) (hslots : Slots.Writable st.slots) (gs : List (VarDecl × Address))
    (hgs : ∀ g ∈ gs, g.1.Spelled .source ∧ g.2.index ≤ maxAddress) (h : (lowerGlobals cx gs).run st = .ok (frag, st')) :
    Emitted K false frag.lines := by
  induction gs generalizing frag with
  | nil =>
    rw [(lowerGlobals_nil h).2]
    exact .nil
  | cons g rest ih =>
    obtain ⟨d, a⟩ := g
    obtain ⟨hd, ha⟩ := hgs (d, a) List.mem_cons_self
    have hrest : ∀ g ∈ rest, g.1.Spelled .source ∧ g.2.index ≤ maxAddress :=
      fun g hg => hgs g (List.mem_cons_of_mem _ hg)
    cases hinit : d.init with
    | none =>
      obtain ⟨more, hm, hlines⟩ := lowerGlobals_zero hinit h
      have hstore : Emitted K true [.instr (.store (.zero d.ty.family) a)] := .instr hk.label ⟨finite_zero _, ha⟩
      rw [hlines]
      exact hstore.append (ih hrest hm)
    | some e =>
      obtain ⟨inner, more, he, hm, hlines⟩ := lowerGlobals_value hinit h
      have hpop : Emitted K true [.instr (popA a)] := .instr hk.label ha
      rw [hlines]
      exact (lowerExpr_emitted hk hslots e (hd.2 e hinit) he).append (hpop.append (ih hrest hm))

/-- a function ends control -/
theorem lowerFunction_emitted (hk : Known K cx none) (hslots : Slots.Writable st.slots) {f : FunctionDecl}
    (hname : IsName f.name) (hbody : Stmt.AllSpelled .source f.body)
    (h : (lowerFunction cx f).run st = .ok (frag, st')) :
    Emitted K true frag.lines ∧ Bound true frag.lines (functionLabel f.name) ∧ Slots.Writable st'.slots := by
  obtain ⟨body, hb, hlines⟩ := lowerFunction_eq_ok h
  obtain ⟨hcode, hslots'⟩ := lowerStmts_emitted f.body (hk.ofFunction f.name) hslots hbody hb
  have hrest : Emitted K true (body.lines ++ if Stmt.anyDiverges f.body then [] else [.instr (.bare .rtn)]) := by
    cases hends : Stmt.anyDiverges f.body with
    | true =>
      rw [hends] at hcode
      simpa using hcode
    | false => exact hcode.append (.instr hk.label allowed_bare)
  rw [hlines, List.cons_append]
  exact ⟨(Emitted.label (isLabel_functionLabel hname)).append hrest, .head hrest.word, hslots'⟩

theorem lowerFunctions_emitted (hk : Known K cx none) (hslots : Slots.Writable st.slots) (fs : List FunctionDecl)
    (hfs : ∀ f ∈ fs, IsName f.name ∧ Stmt.AllSpelled .source f.body)
    (h : (lowerFunctions cx fs).run st = .ok (frag, st')) {before : List Line} (hbefore : Emitted K true before) :
    Emitted K true (before ++ frag.lines) ∧ ∀ f ∈ fs, Bound true frag.lines (functionLabel f.name) := by
  induction fs generalizing st frag before with
  | nil =>
    rw [(lowerFunctions_nil h).2, List.append_nil]
    exact ⟨hbefore, fun f hf => nomatch hf⟩
  | cons f rest ih =>
    obtain ⟨first, st₁, more, hf, hm, hlines⟩ := lowerFunctions_cons h
    obtain ⟨hname, hbody⟩ := hfs f List.mem_cons_self
    obtain ⟨hfirst, hbound, hslots₁⟩ := lowerFunction_emitted hk hslots hname hbody hf
    obtain ⟨hcode, hbounds⟩ := ih hslots₁ (fun g hg => hfs g (List.mem_cons_of_mem _ hg)) hm (hbefore.append hfirst)
    rw [hlines, ← List.append_assoc]
    refine ⟨hcode, fun g hg => ?_⟩
    rcases List.mem_cons.1 hg with rfl | hg
    · exact hbound.left _
    · exact (hbounds g hg).right _

end Program

/-- addresses of cells can be written if there are not too many cells -/
theorem Places.writable {cells placed : List Cell} {as : List Address} (h : Places cells as placed)
    (hroom : cells.length ≤ maxAddress + 1) : ∀ a ∈ as, a.index ≤ maxAddress := by
  induction h with
  | nil => exact fun a ha => nomatch ha
  | cons hc _ ih =>
    have hlt := (List.getElem?_eq_some_iff.1 hc).1
    intro a ha
    rcases List.mem_cons.1 ha with rfl | ha
    · omega
    · exact ih a ha

theorem Storage.Tracks.writable {st : Storage} {cells : List Cell} (h : st.Tracks cells)
    (hroom : cells.length ≤ maxAddress + 1) : Slots.Writable st.slots := by
  intro decl a ha
  have hlt := (List.getElem?_eq_some_iff.1 (h.sound decl a ha)).1
  omega

end Codegen

open Codegen

namespace Program.Parts

variable {p : Program} {info : TypeInfo} {out : Generated}

/-- a generated program has not more cells than there are addresses -/
theorem cells_le {lx : Lexicon} (hgen : p.generate info = .ok out) (hrec : p.Recorded info)
    (hspelled : ∀ item ∈ p.items, item.Spelled lx) : p.cells.length ≤ maxAddress + 1 := by
  rcases lowerProgram_reserves hrec hspelled with ⟨hle, -⟩ | ⟨-, span, herror⟩
  · simpa using hle
  · unfold Program.generate at hgen
    rw [herror] at hgen
    cases hgen

/-- the labels of its functions are known all over a program -/
theorem known (parts : p.Parts info out) (hrec : p.Recorded info) (hspelled : ∀ item ∈ p.items, item.Spelled .source)
    (hroom : p.cells.length ≤ maxAddress + 1) :
    Known (With (fun _ => False) (p.functions.map fun f => functionLabel f.name))
      ⟨info, .ofFunctions p.functions, parts.frames, ""⟩ none where
  label l hl := by
    obtain ⟨f, hf, rfl⟩ := List.mem_map.1 (hl.resolve_left id)
    exact isLabel_functionLabel (hspelled _ (mem_functions.1 hf)).1
  call name frame h := by
    obtain ⟨f, hf, rfl, -⟩ := parts.exists_function hrec.names h
    exact Or.inr (List.mem_map_of_mem hf)
  params name frame h := by
    obtain ⟨f, -, -, hplaced⟩ := parts.exists_function hrec.names h
    exact hplaced.params.writable hroom
  result name frame h := by
    obtain ⟨f, -, -, hplaced⟩ := parts.exists_function hrec.names h
    exact fun a ha => hplaced.result.writable hroom a (Option.mem_toList.2 ha)
  jump l hl := nomatch hl

/-- the lines after the readable globals -/
def code (parts : p.Parts info out) : List Line :=
  parts.entry.lines ++ [.instr (.jump .call (functionLabel "main")), .instr (.bare .halt)] ++ parts.functions.lines

theorem lines_eq (parts : p.Parts info out) :
    out.lines = (p.globals.zip parts.addresses).map (fun g => .read g.2 g.1.name) ++ parts.code := by
  rw [parts.lines, code, List.append_assoc, List.append_assoc, List.append_assoc]

theorem framed_writable (parts : p.Parts info out) (hrec : p.Recorded info) (hroom : p.cells.length ≤ maxAddress + 1) :
    Slots.Writable parts.framed.slots := by
  refine (parts.framed_tracks hrec.names).writable (Nat.le_trans ?_ hroom)
  rw [Program.cells]
  exact (List.sublist_append_left _ _).length_le

theorem globals_writable (parts : p.Parts info out) (hspelled : ∀ item ∈ p.items, item.Spelled .source)
    (hroom : p.cells.length ≤ maxAddress + 1) :
    ∀ g ∈ p.globals.zip parts.addresses, g.1.Spelled .source ∧ g.2.index ≤ maxAddress := by
  rintro ⟨d, a⟩ hg
  obtain ⟨hd, ha⟩ := List.of_mem_zip hg
  exact ⟨hspelled _ (mem_globals.1 hd), parts.globals_placed.writable hroom a ha⟩

/-- **Generated code can be assembled.** Every line prints as what it means, and every jump goes to a label before a
word. -/
theorem emitted (parts : p.Parts info out) (hrec : p.Recorded info) (hspelled : ∀ item ∈ p.items, item.Spelled .source)
    (hroom : p.cells.length ≤ maxAddress + 1) : Emitted (fun _ => False) true parts.code := by
  have hk := parts.known hrec hspelled hroom
  have hslots := parts.framed_writable hrec hroom
  have hglobals := parts.globals_writable hspelled hroom
  obtain ⟨main, hfind, -⟩ := hrec.main
  have hname : main.name = "main" := by simpa using List.find?_some hfind
  have hmain : functionLabel "main" ∈ p.functions.map fun f => functionLabel f.name :=
    List.mem_map.2 ⟨main, List.mem_of_find?_eq_some hfind, by rw [hname]⟩
  have hentry := lowerGlobals_emitted hk hslots _ hglobals parts.lowerGlobals
  have hcall := Emitted.instr hk.label (i := .jump .call (functionLabel "main")) (Or.inr hmain)
  have hhalt := Emitted.instr hk.label (i := .bare .halt) allowed_bare
  have hfunctions : ∀ f ∈ p.functions, IsName f.name ∧ Stmt.AllSpelled .source f.body :=
    fun f hf => hspelled _ (mem_functions.1 hf)
  rw [← parts.entered_eq] at hslots
  obtain ⟨hcode, hbound⟩ := lowerFunctions_emitted hk hslots p.functions hfunctions parts.lowerFunctions
    (hentry.append (hcall.append hhalt))
  refine hcode.bind fun l hl => ?_
  obtain ⟨f, hf, rfl⟩ := List.mem_map.1 hl
  exact (hbound f hf).right _

end Program.Parts

end C15

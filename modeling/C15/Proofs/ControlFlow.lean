/-
Where control can go in generated code.

Positions count lines. Control passes from a line to the next one unless the line is a `JMP`, a `RTN` or a `HALT`, and
from a jump to wherever its label stands. A call comes back, so control passes on from it (`Flow`). Code is contained in
three respects:
- a jump in the code of a statement goes to a label of that code, or to one of the loop around it (`Contained.target`);
- code of a statement that diverges ends with a line that is never passed, and behind it stand only labels that nothing
  jumps to, since an `if` puts its last label there even if both branches diverge (`Line.Ends`);
- labels of different parts have different numbers, so no part jumps into another (`Older`).
Results:
- `Line.Sealed.path_inFunction`: control that enters the code of a function at its label stays in it;
- `lowerStmt_contained`, `lowerFunctions_block`: the code of statements and functions is contained;
- `Program.generate_contains_control`: control does not leave a function but by returning, nor the entry code but by
  halting.
-/
import C15.Proofs.Storage
import C15.Proofs.Labels

namespace C15

/-! ## Flow -/

/-- jumps that come back -/
def JumpOp.isCall : JumpOp → Bool
  | .call | .rcall => true
  | _ => false

namespace Line

/-- control never passes from the line to the next one -/
def stops : Line → Bool
  | .instr (.jump .jmp _) | .instr (.bare .rtn) | .instr (.bare .halt) => true
  | _ => false

/-- the label that a jump goes to, calls apart -/
def jump? : Line → Option String
  | .instr (.jump op t) => if op.isCall then none else some t
  | _ => none

/-- the label that is called -/
def call? : Line → Option String
  | .instr (.jump op t) => if op.isCall then some t else none
  | _ => none

/-- the labels that lines jump to -/
def jumps (lines : List Line) : List String := lines.filterMap jump?

/-- the labels that lines call -/
def calls (lines : List Line) : List String := lines.filterMap call?

@[simp] theorem jumps_nil : jumps [] = [] := rfl

@[simp] theorem calls_nil : calls [] = [] := rfl

@[simp] theorem jumps_append (xs ys : List Line) : jumps (xs ++ ys) = jumps xs ++ jumps ys := List.filterMap_append

@[simp] theorem calls_append (xs ys : List Line) : calls (xs ++ ys) = calls xs ++ calls ys := List.filterMap_append

@[simp] theorem jumps_label (t : String) (rest : List Line) : jumps (.label t :: rest) = jumps rest := rfl

theorem jump?_eq {op : JumpOp} (hop : op.isCall = false) (t : String) : (instr (.jump op t)).jump? = some t := by
  simp [jump?, hop]

theorem mem_jumps {lines : List Line} {t : String} : t ∈ jumps lines ↔ ∃ l ∈ lines, l.jump? = some t :=
  List.mem_filterMap

theorem mem_labels {lines : List Line} {t : String} : t ∈ labels lines ↔ .label t ∈ lines := by
  unfold labels
  rw [List.mem_filterMap]
  constructor
  · rintro ⟨l, hl, h⟩
    cases l with
    | label name => cases h; exact hl
    | instr | data | read | comment => cases h
  · intro h
    exact ⟨.label t, h, rfl⟩

/-- control can pass from one position to another -/
inductive Flow (lines : List Line) : Nat → Nat → Prop
  | next {i : Nat} {l : Line} (hi : lines[i]? = some l) (hl : l.stops = false) : Flow lines i (i + 1)
  | jump {i j : Nat} {op : JumpOp} {t : String} (hi : lines[i]? = some (.instr (.jump op t))) (hop : op.isCall = false)
      (hj : lines[j]? = some (.label t)) : Flow lines i j

/-- any number of passes -/
def Path (lines : List Line) : Nat → Nat → Prop := Relation.ReflTransGen (Flow lines)

/-- a position belongs to the function that starts at another: it is a line, and up to it no other function starts -/
structure InFunction (lines : List Line) (start i : Nat) : Prop where
  le : start ≤ i
  lt : i < lines.length
  same : ∀ k, start < k → k ≤ i → ∀ name, lines[k]? ≠ some (.label (Codegen.functionLabel name))

/-- where labels are distinct, a label stands at one position -/
theorem position_unique {lines : List Line} (hnodup : (labels lines).Nodup) {i j : Nat} {t : String}
    (hi : lines[i]? = some (.label t)) (hj : lines[j]? = some (.label t)) : i = j := by
  induction lines generalizing i j with
  | nil => cases hi
  | cons l rest ih =>
    have hrest : (labels rest).Nodup := by
      rw [← List.singleton_append, labels_append] at hnodup
      exact (List.nodup_append.1 hnodup).2.1
    have hfirst : ∀ k : Nat, some l = some (Line.label t) → rest[k]? ≠ some (Line.label t) := by
      intro k h0 hk
      obtain rfl := Option.some.inj h0
      rw [labels_label, List.nodup_cons] at hnodup
      exact hnodup.1 (mem_labels.2 (List.mem_of_getElem? hk))
    rcases i with _ | i <;> rcases j with _ | j
    · rfl
    · exact absurd hj (hfirst j hi)
    · exact absurd hi (hfirst i hj)
    · rw [ih hrest hi hj]

/-! ## Code that control does not run out of -/

/-- control that enters lines does not pass their end: behind a line that is never passed stand only labels that nothing
in the lines jumps to -/
def Ends (lines : List Line) : Prop :=
  ∃ core last trailing, lines = core ++ last :: trailing ∧ last.stops = true ∧
    ∀ l ∈ trailing, ∃ t, l = .label t ∧ t ∉ jumps lines

namespace Ends

variable {xs ys : List Line}

theorem of_last (xs : List Line) {last : Line} (h : last.stops = true) : Ends (xs ++ [last]) :=
  ⟨xs, last, [], rfl, h, fun _ hl => nomatch hl⟩

/-- what comes before matters only if it jumps behind the last line -/
theorem prepend (h : Ends ys) (hxs : ∀ t ∈ labels ys, t ∉ jumps xs) : Ends (xs ++ ys) := by
  obtain ⟨core, last, trailing, rfl, hlast, htrailing⟩ := h
  refine ⟨xs ++ core, last, trailing, (List.append_assoc ..).symm, hlast, ?_⟩
  intro l hl
  obtain ⟨t, rfl, ht⟩ := htrailing l hl
  refine ⟨t, rfl, ?_⟩
  rw [jumps_append, List.mem_append, not_or]
  refine ⟨hxs t (mem_labels.2 ?_), ht⟩
  exact List.mem_append_right _ (List.mem_cons_of_mem _ hl)

/-- a label at the end that nothing jumps to -/
theorem append_label (h : Ends xs) {t : String} (ht : t ∉ jumps xs) : Ends (xs ++ [.label t]) := by
  obtain ⟨core, last, trailing, rfl, hlast, htrailing⟩ := h
  have hjumps : jumps (core ++ last :: trailing ++ [.label t]) = jumps (core ++ last :: trailing) := by
    rw [jumps_append, jumps_label, jumps_nil, List.append_nil]
  refine ⟨core, last, trailing ++ [.label t], by simp, hlast, ?_⟩
  intro l hl
  rw [hjumps]
  rcases List.mem_append.1 hl with hl | hl
  · exact htrailing l hl
  · exact ⟨t, List.mem_singleton.1 hl, ht⟩

end Ends

/-- the code of a function after its label: it jumps to its own labels only and does not pass its end -/
structure Sealed (code : List Line) : Prop where
  target : ∀ t ∈ jumps code, t ∈ labels code
  ends : Ends code
  inner : ∀ name, Codegen.functionLabel name ∉ labels code

namespace Sealed

variable {lines before code after : List Line} {name : String}

/-- the lines of a function are where they were put -/
theorem getElem?_block (hlines : lines = before ++ (.label (Codegen.functionLabel name) :: code) ++ after) {k : Nat}
    (hk : k < code.length) : lines[before.length + (k + 1)]? = code[k]? := by
  rw [hlines, List.append_assoc, List.getElem?_append_right (Nat.le_add_right _ _), Nat.add_sub_cancel_left,
    List.cons_append, List.getElem?_cons_succ, List.getElem?_append_left hk]

theorem getElem?_start (hlines : lines = before ++ (.label (Codegen.functionLabel name) :: code) ++ after) :
    lines[before.length]? = some (.label (Codegen.functionLabel name)) := by
  simp [hlines]

/-- every line of a function belongs to it -/
theorem inFunction (hlines : lines = before ++ (.label (Codegen.functionLabel name) :: code) ++ after)
    (hcode : Sealed code) {k : Nat} (hk : k ≤ code.length) : InFunction lines before.length (before.length + k) where
  le := Nat.le_add_right _ _
  lt := by
    rw [hlines]
    simp only [List.length_append, List.length_cons]
    omega
  same m hlt hle other h := by
    obtain ⟨k', rfl⟩ : ∃ k', m = before.length + (k' + 1) := ⟨m - before.length - 1, by omega⟩
    rw [getElem?_block hlines (by omega)] at h
    exact hcode.inner other (mem_labels.2 (List.mem_of_getElem? h))

/-- a jump out of a line of a function goes to a line of that function -/
theorem jump_inside (hnodup : (labels lines).Nodup)
    (hlines : lines = before ++ (.label (Codegen.functionLabel name) :: code) ++ after) (hcode : Sealed code)
    {t : String} (ht : t ∈ jumps code) {j : Nat} (hj : lines[j]? = some (.label t)) :
    ∃ k < code.length, code[k]? = some (.label t) ∧ j = before.length + (k + 1) := by
  obtain ⟨k, hk⟩ := List.mem_iff_getElem?.1 (mem_labels.1 (hcode.target t ht))
  have hlt : k < code.length := (List.getElem?_eq_some_iff.1 hk).1
  refine ⟨k, hlt, hk, position_unique hnodup hj ?_⟩
  rw [getElem?_block hlines hlt, hk]

/-- **Containment.** Control that enters a function at its label stays in it. The invariant is that control is not
behind the last line that can be reached. -/
theorem path_inFunction (hnodup : (labels lines).Nodup)
    (hlines : lines = before ++ (.label (Codegen.functionLabel name) :: code) ++ after) (hcode : Sealed code) {i : Nat}
    (hpath : Path lines before.length i) : InFunction lines before.length i := by
  obtain ⟨core, last, trailing, hsplit, hlast, htrailing⟩ := hcode.ends
  have hlength : core.length < code.length := by
    rw [hsplit]
    simp
  have hreach : ∃ k ≤ core.length + 1, i = before.length + k := by
    induction hpath with
    | refl => exact ⟨0, Nat.zero_le _, rfl⟩
    | tail _ hflow ih =>
      obtain ⟨k, hk, rfl⟩ := ih
      cases hflow with
      | next hi hl =>
        -- the line is not the last one, which is never passed
        refine ⟨k + 1, Nat.succ_le_succ ?_, rfl⟩
        by_contra hlt
        obtain rfl : k = core.length + 1 := by omega
        rw [getElem?_block hlines hlength, hsplit] at hi
        obtain rfl : last = _ := by simpa using hi
        rw [hl] at hlast
        cases hlast
      | @jump _ op t hi hop hj =>
        have hjump : t ∈ jumps code := by
          rcases k with _ | k
          · rw [Nat.add_zero, getElem?_start hlines] at hi
            cases hi
          · rw [getElem?_block hlines (by omega)] at hi
            exact mem_jumps.2 ⟨_, List.mem_of_getElem? hi, jump?_eq hop t⟩
        obtain ⟨m, -, hm, rfl⟩ := hcode.jump_inside hnodup hlines hjump hj
        refine ⟨m + 1, Nat.succ_le_succ ?_, rfl⟩
        by_contra hlt
        -- the labels behind the last line are not jumped to
        obtain ⟨n, rfl⟩ : ∃ n, m = core.length + (n + 1) := ⟨m - core.length - 1, by omega⟩
        rw [hsplit, List.getElem?_append_right (Nat.le_add_right _ _), Nat.add_sub_cancel_left,
          List.getElem?_cons_succ] at hm
        obtain ⟨t', heq, ht'⟩ := htrailing _ (List.mem_of_getElem? hm)
        obtain rfl := Line.label.inj heq
        exact ht' hjump
  obtain ⟨k, hk, rfl⟩ := hreach
  exact inFunction hlines hcode (by omega)

end Sealed

/-- control that enters lines without jumps at their start does not pass the first `HALT` behind them -/
theorem path_le_of_halt {entry rest : List Line} (hentry : jumps entry = []) {i : Nat}
    (hpath : Path (entry ++ .instr (.bare .halt) :: rest) 0 i) : i ≤ entry.length := by
  induction hpath with
  | refl => exact Nat.zero_le _
  | @tail j _ _ hflow ih =>
    rcases Nat.lt_or_eq_of_le ih with hlt | rfl
    · cases hflow with
      | next => exact hlt
      | @jump _ op t hi hop =>
        rw [List.getElem?_append_left hlt] at hi
        have hmem : t ∈ jumps entry := mem_jumps.2 ⟨_, List.mem_of_getElem? hi, jump?_eq hop t⟩
        rw [hentry] at hmem
        cases hmem
    · cases hflow with
      | next hi hl =>
        obtain rfl : Line.instr (.bare .halt) = _ := by simpa using hi
        cases hl
      | jump hi => simp at hi

end Line

namespace Codegen

/-! ## Code of expressions and statements -/

/-- the label of a function that has a frame -/
def Context.Callable (cx : Context) (t : String) : Prop :=
  ∃ name frame, cx.frames.lookup name = some frame ∧ t = functionLabel name

/-- arguments are taken off the stack without a jump -/
theorem silent_pops (as : List Address) :
    Line.jumps ((as.map popA).map .instr) = [] ∧ Line.calls ((as.map popA).map .instr) = [] := by
  induction as with
  | nil => exact ⟨rfl, rfl⟩
  | cons a as ih => exact ih

/-- code that jumps to its own labels or to given ones, and calls functions only -/
structure Contained (cx : Context) (outer : List String) (lines : List Line) : Prop where
  target : ∀ t ∈ Line.jumps lines, t ∈ Line.labels lines ∨ t ∈ outer
  call : ∀ t ∈ Line.calls lines, cx.Callable t

namespace Contained

variable {cx : Context} {outer : List String} {xs ys : List Line}

theorem nil : Contained cx outer [] := ⟨fun _ ht => (nomatch ht), fun _ ht => nomatch ht⟩

theorem append (hx : Contained cx outer xs) (hy : Contained cx outer ys) : Contained cx outer (xs ++ ys) := by
  constructor
  · intro t ht
    rw [Line.labels_append, List.mem_append, or_right_comm]
    rw [Line.jumps_append, List.mem_append] at ht
    rcases ht with ht | ht
    · rcases hx.target t ht with h | h
      · exact .inl (.inl h)
      · exact .inl (.inr h)
    · rw [or_right_comm, or_assoc]
      exact .inr (hy.target t ht)
  · intro t ht
    rw [Line.calls_append, List.mem_append] at ht
    exact ht.elim (hx.call t) (hy.call t)

theorem mono {outer' : List String} (h : Contained cx outer xs) (hsub : ∀ t ∈ outer, t ∈ outer') :
    Contained cx outer' xs :=
  ⟨fun t ht => (h.target t ht).imp_right (hsub t), h.call⟩

/-- jumps to labels that stand in the code are its own -/
theorem close (own : List String) (h : Contained cx (own ++ outer) xs) (hown : ∀ t ∈ own, t ∈ Line.labels xs) :
    Contained cx outer xs := by
  refine ⟨fun t ht => ?_, h.call⟩
  rcases h.target t ht with hin | hout
  · exact .inl hin
  · exact (List.mem_append.1 hout).imp_left (hown t)

/-- code without labels that is given none does not jump -/
theorem jumps_eq_nil (h : Contained cx [] xs) (hlabels : Line.labels xs = []) : Line.jumps xs = [] := by
  rw [List.eq_nil_iff_forall_not_mem]
  intro t ht
  rcases h.target t ht with hin | hout
  · rw [hlabels] at hin
    cases hin
  · cases hout

theorem label (t : String) : Contained cx outer [.label t] := ⟨fun _ ht => (nomatch ht), fun _ ht => nomatch ht⟩

theorem jump {op : JumpOp} (hop : op.isCall = false) {t : String} (ht : t ∈ outer) :
    Contained cx outer [.instr (.jump op t)] := by
  constructor
  · intro t' ht'
    obtain rfl : t' = t := by simpa [Line.jumps, Line.jump?, hop] using ht'
    exact .inr ht
  · intro t' ht'
    simp [Line.calls, Line.call?, hop] at ht'

theorem callTo {t : String} (ht : cx.Callable t) : Contained cx outer [.instr (.jump .call t)] := by
  refine ⟨fun _ ht' => (nomatch ht'), ?_⟩
  intro t' ht'
  obtain rfl : t' = t := by simpa [Line.calls, Line.call?, JumpOp.isCall] using ht'
  exact ht

/-- lines without jumps -/
theorem silent (hjumps : Line.jumps xs = []) (hcalls : Line.calls xs = []) : Contained cx outer xs := by
  constructor
  · intro t ht
    rw [hjumps] at ht
    cases ht
  · intro t ht
    rw [hcalls] at ht
    cases ht

end Contained

section Expr

variable {cx : Context} {slots : Slots} {outer : List String} {frag : Fragment}

mutual

/-- the code of an expression calls functions and does not jump otherwise -/
theorem lowerExpr_contained (e : Expr) {used : Bool} {frag : Fragment} (h : lowerExpr cx slots used e = .ok frag) :
    Contained cx outer frag.lines := by
  cases e with
  | literal id span value =>
    rw [lowerExpr_literal h]
    exact .silent rfl rfl
  | ident id span name =>
    obtain ⟨_, _, -, -, hlines⟩ := lowerExpr_ident h
    rw [hlines]
    exact .silent rfl rfl
  | binary id span op lhs rhs =>
    obtain ⟨_, _, _, _, -, -, hl, hr, hlines⟩ := lowerExpr_binary h
    rw [hlines]
    exact ((lowerExpr_contained lhs hl).append (lowerExpr_contained rhs hr)).append (.silent rfl rfl)
  | unary id span op operand =>
    obtain ⟨_, _, -, hi, hlines⟩ := lowerExpr_unary h
    rw [hlines]
    refine (lowerExpr_contained operand hi).append ?_
    cases op <;> exact .silent rfl rfl
  | update id span op targetId targetSpan target =>
    obtain ⟨_, _, _, -, -, -, hlines⟩ := lowerExpr_update h
    rw [hlines]
    cases op <;> cases used <;> exact .silent rfl rfl
  | call id span callee calleeSpan args =>
    obtain ⟨frame, _, hframe, hi, hlines⟩ := lowerExpr_call h
    rw [hlines]
    have hcall : Contained cx outer [.instr (.jump .call (functionLabel callee))] :=
      .callTo ⟨callee, frame, hframe, rfl⟩
    have hpops := silent_pops frame.params.reverse
    refine (((lowerArgs_contained args hi).append (.silent hpops.1 hpops.2)).append hcall).append ?_
    cases used <;> cases frame.result <;> exact .silent rfl rfl
  | intrinsic id span callee calleeSpan args =>
    obtain ⟨_, hi, hlines⟩ := lowerExpr_intrinsic h
    rw [hlines]
    refine (lowerArgs_contained args hi).append ?_
    cases callee <;> exact .silent rfl rfl
  | assign id span op target targetSpan value =>
    have hresult (a : Address) : Contained cx outer (if used then [.instr (pushA a)] else []) := by
      cases used with
      | true => exact .silent rfl rfl
      | false => exact .nil
    cases op with
    | none =>
      obtain ⟨_, a, _, -, -, hi, hlines⟩ := lowerExpr_assign h
      rw [hlines]
      exact ((lowerExpr_contained value hi).append (.silent rfl rfl)).append (hresult a)
    | some op =>
      obtain ⟨_, a, _, i, _, -, -, -, -, hi, hlines⟩ := lowerExpr_compound h
      rw [hlines]
      have hload : Contained cx outer [.instr (pushA a)] := .silent rfl rfl
      exact ((hload.append (lowerExpr_contained value hi)).append (.silent rfl rfl)).append (hresult a)
  | cast id span base operand =>
    obtain ⟨source, target, _, -, -, hi, hlines⟩ := lowerExpr_cast h
    rw [hlines]
    refine (lowerExpr_contained operand hi).append ?_
    cases source.conversion target <;> exact .silent rfl rfl

theorem lowerArgs_contained (args : List Expr) {frag : Fragment} (h : lowerArgs cx slots args = .ok frag) :
    Contained cx outer frag.lines := by
  cases args with
  | nil =>
    rw [lowerArgs_nil h]
    exact .nil
  | cons arg rest =>
    obtain ⟨_, _, hf, hr, hlines⟩ := lowerArgs_cons h
    rw [hlines]
    exact (lowerExpr_contained arg hf).append (lowerArgs_contained rest hr)

end

theorem lowerEffect_contained {e : Expr} (h : lowerEffect cx slots e = .ok frag) : Contained cx outer frag.lines := by
  rcases lowerEffect_eq_ok h with ⟨-, h⟩ | ⟨_, h, hlines⟩
  · exact lowerExpr_contained e h
  · rw [hlines]
    refine (lowerExpr_contained e h).append ?_
    cases cx.info.familyOf e.id with
    | none => exact .nil
    | some f => exact .silent rfl rfl

theorem lowerCondition_contained {e : Expr} (h : lowerCondition cx slots e = .ok frag) :
    Contained cx outer frag.lines := by
  obtain ⟨_, h, hlines⟩ := lowerCondition_eq_ok h
  rw [hlines]
  exact (lowerExpr_contained e h).append (.silent rfl rfl)

theorem TestCode.contained {exit : String} {lines : List Line} {cond : Option Expr}
    (h : TestCode cx slots exit lines cond) (hexit : exit ∈ outer) : Contained cx outer lines := by
  cases cond with
  | none =>
    obtain rfl := h
    exact .nil
  | some e =>
    obtain ⟨_, ht, rfl⟩ := h
    exact (lowerCondition_contained ht).append (.jump rfl hexit)

end Expr

/-- the labels that `break` and `continue` go to -/
def loopTargets : Option LoopLabels → List String
  | none => []
  | some l => [l.breakTo, l.continueTo]

section Stmt

variable {cx : Context}

theorem lowerLocal_contained {outer : List String} {d : VarDecl} {st st' : Storage} {frag : Fragment}
    (h : (lowerLocal cx d).run st = .ok (frag, st')) : Contained cx outer frag.lines := by
  cases hd : d.init with
  | none =>
    obtain ⟨-, -, hlines⟩ := lowerLocal_declare hd h
    rw [hlines]
    exact .nil
  | some e =>
    obtain ⟨_, he, -, -, hlines⟩ := lowerLocal_value hd h
    rw [hlines]
    exact (lowerExpr_contained e he).append (.silent rfl rfl)

theorem lowerForInit_contained {outer : List String} {loop : Option LoopLabels} {init : ForInit} {span : Span}
    {st st' : Storage} {frag : Fragment} (h : (lowerStmt cx loop (init.stmt span)).run st = .ok (frag, st')) :
    Contained cx outer frag.lines := by
  cases init with
  | nothing =>
    rw [(lowerStmt_empty h).2]
    exact .nil
  | decl d =>
    simp only [ForInit.stmt, lowerStmt] at h
    exact lowerLocal_contained h
  | expr span e => exact lowerEffect_contained (lowerStmt_expr h).1

theorem lowerStep_contained {outer : List String} {loop : Option LoopLabels} {step : Option Expr} {span : Span}
    {st st' : Storage} {frag : Fragment} (h : (lowerStmt cx loop (.ofStep span step)).run st = .ok (frag, st')) :
    Contained cx outer frag.lines := by
  cases step with
  | none =>
    rw [(lowerStmt_empty h).2]
    exact .nil
  | some e => exact lowerEffect_contained (lowerStmt_expr h).1

mutual

/-- a statement jumps inside its own code or to a label of the loop around it -/
theorem lowerStmt_contained (s : Stmt) {loop : Option LoopLabels} {st st' : Storage} {frag : Fragment}
    (h : (lowerStmt cx loop s).run st = .ok (frag, st')) : Contained cx (loopTargets loop) frag.lines := by
  cases s with
  | decl d =>
    simp only [lowerStmt] at h
    exact lowerLocal_contained h
  | ifThen span cond yes =>
    obtain ⟨test, yesCode, ht, hy, hlines⟩ := lowerStmt_ifThen h
    rw [hlines]
    refine .close [label "if_end" st.nextLabel] ?_ (by simp)
    refine ((ht.contained (by simp)).append ?_).append (.label _)
    exact (lowerStmt_contained yes hy).mono (by simp +contextual)
  | ifElse span cond yes no =>
    obtain ⟨test, yesCode, st₁, noCode, ht, hy, hn, hlines⟩ := lowerStmt_ifElse h
    rw [hlines]
    refine .close [label "if_else" st.nextLabel, label "if_end" st.nextLabel] ?_ (by simp)
    have hskip : Contained cx ([label "if_else" st.nextLabel, label "if_end" st.nextLabel] ++ loopTargets loop)
        (if yes.diverges then [] else [.instr (.jump .jmp (label "if_end" st.nextLabel))]) := by
      cases yes.diverges with
      | true => exact .nil
      | false => exact .jump rfl (by simp)
    have hyes := (lowerStmt_contained yes hy).mono fun t ht =>
      List.mem_append_right [label "if_else" st.nextLabel, label "if_end" st.nextLabel] ht
    have hno := (lowerStmt_contained no hn).mono fun t ht =>
      List.mem_append_right [label "if_else" st.nextLabel, label "if_end" st.nextLabel] ht
    exact ((((ht.contained (by simp)).append hyes).append hskip).append ((Contained.label _).append hno)).append
      (.label _)
  | while_ span cond body =>
    obtain ⟨test, bodyCode, ht, hb, hlines⟩ := lowerStmt_while h
    rw [hlines]
    refine .close [label "while_end" st.nextLabel, label "while_head" st.nextLabel] ?_ (by simp)
    -- `break` and `continue` in the body mean this loop, so its targets replace those of the loop around it
    have hbody := (lowerStmt_contained body hb).mono fun t ht => List.mem_append_left (loopTargets loop) ht
    refine (((Contained.label _).append (ht.contained (by simp [loopTargets]))).append hbody).append ?_
    exact (Contained.jump rfl (by simp [loopTargets])).append (.label _)
  | doWhile span body cond =>
    obtain ⟨bodyCode, test, hb, ht, hlines⟩ := lowerStmt_doWhile h
    rw [hlines]
    refine .close [label "do_body" st.nextLabel, label "do_end" st.nextLabel, label "do_cond" st.nextLabel] ?_ (by simp)
    have hbody := (lowerStmt_contained body hb).mono fun t ht =>
      List.mem_append_left (loopTargets loop) (List.mem_cons_of_mem (label "do_body" st.nextLabel) ht)
    refine (((Contained.label _).append hbody).append
      ((Contained.label _).append (lowerCondition_contained ht))).append ?_
    exact (Contained.jump rfl (by simp [loopTargets])).append (.label _)
  | for_ span init cond step body =>
    obtain ⟨initCode, st₁, test, bodyCode, stepCode, hi, ht, hb, hs, hlines⟩ := lowerStmt_for h
    rw [hlines]
    refine .close [label "for_head" st.nextLabel, label "for_end" st.nextLabel, label "for_step" st.nextLabel] ?_
      (by simp)
    have hbody := (lowerStmt_contained body hb).mono fun t ht =>
      List.mem_append_left (loopTargets loop) (List.mem_cons_of_mem (label "for_head" st.nextLabel) ht)
    refine ((((lowerForInit_contained hi).append
      ((Contained.label _).append (ht.contained (by simp [loopTargets])))).append
      hbody).append ((Contained.label _).append (lowerStep_contained hs))).append ?_
    exact (Contained.jump rfl (by simp [loopTargets])).append (.label _)
  | break_ span =>
    obtain ⟨l, rfl, -, hlines⟩ := lowerStmt_break h
    rw [hlines]
    exact .jump rfl (by simp [loopTargets])
  | continue_ span =>
    obtain ⟨l, rfl, -, hlines⟩ := lowerStmt_continue h
    rw [hlines]
    exact .jump rfl (by simp [loopTargets])
  | return_ span value =>
    cases value with
    | none =>
      rw [(lowerStmt_return h).2]
      exact .silent rfl rfl
    | some e =>
      obtain ⟨_, a, _, -, -, he, -, hlines⟩ := lowerStmt_returnValue h
      rw [hlines]
      exact (lowerExpr_contained e he).append (.silent rfl rfl)
  | expr span e => exact lowerEffect_contained (lowerStmt_expr h).1
  | block span body =>
    simp only [lowerStmt] at h
    exact lowerStmts_contained body h
  | empty span =>
    rw [(lowerStmt_empty h).2]
    exact .nil

theorem lowerStmts_contained (ss : List Stmt) {loop : Option LoopLabels} {st st' : Storage} {frag : Fragment}
    (h : (lowerStmts cx loop ss).run st = .ok (frag, st')) : Contained cx (loopTargets loop) frag.lines := by
  cases ss with
  | nil =>
    rw [(lowerStmts_nil h).2]
    exact .nil
  | cons s rest =>
    cases hs : s.diverges with
    | true =>
      obtain ⟨_, hf, hlines⟩ := lowerStmts_cons_diverges hs h
      rw [hlines]
      exact lowerStmt_contained s hf
    | false =>
      obtain ⟨_, _, _, hf, hm, hlines⟩ := lowerStmts_cons hs h
      rw [hlines]
      exact (lowerStmt_contained s hf).append (lowerStmts_contained rest hm)

end

end Stmt

/-! ## Statements that diverge -/

/-- labels of constructs with numbers below a bound -/
def Older (n : Nat) (names : List String) : Prop := ∀ t ∈ names, ∃ kind m, m < n ∧ t = label kind m

namespace Older

variable {m n : Nat} {names : List String}

theorem nil (n : Nat) : Older n [] := fun _ ht => nomatch ht

theorem mono (h : Older m names) (hle : m ≤ n) : Older n names := by
  intro t ht
  obtain ⟨kind, k, hk, rfl⟩ := h t ht
  exact ⟨kind, k, hk.trans_le hle, rfl⟩

theorem append {more : List String} (h : Older n names) (hmore : Older n more) : Older n (names ++ more) := by
  intro t ht
  exact (List.mem_append.1 ht).elim (h t) (hmore t)

/-- labels with higher numbers are others -/
theorem disjoint (h : Older n names) {hi : Nat} {later : List String} (hlater : Numbered n hi later) :
    ∀ t ∈ later, t ∉ names := by
  intro t ht hmem
  obtain ⟨kind, -, k, hk, -, rfl⟩ := hlater.range t ht
  obtain ⟨kind', k', hk', heq⟩ := h _ hmem
  obtain ⟨-, rfl⟩ := label_inj heq
  omega

end Older

section Diverges

variable {cx : Context} {outer : List String} {lines : List Line} {lo hi : Nat}

/-- numbered code jumps to labels with numbers below its last -/
theorem Contained.older (h : Contained cx outer lines) (hlines : Numbered lo hi (Line.labels lines))
    (houter : Older lo outer) : Older hi (Line.jumps lines) := by
  intro t ht
  rcases h.target t ht with hin | hout
  · obtain ⟨kind, -, n, -, hn, rfl⟩ := hlines.range t hin
    exact ⟨kind, n, hn, rfl⟩
  · exact houter.mono hlines.le t hout

/-- a part of a construct jumps to none of its labels unless they are given to it -/
theorem Contained.not_jumps (h : Contained cx outer lines) (hlines : Numbered lo hi (Line.labels lines)) {n : Nat}
    (hn : n < lo) (houter : Older n outer) (kind : String) : Codegen.label kind n ∉ Line.jumps lines := by
  intro hmem
  rcases h.target _ hmem with hin | hout
  · obtain ⟨kind', -, m, hm, -, heq⟩ := hlines.range _ hin
    obtain ⟨-, rfl⟩ := label_inj heq
    omega
  · obtain ⟨kind', m, hm, heq⟩ := houter _ hout
    obtain ⟨-, rfl⟩ := label_inj heq
    omega

theorem TestCode.jumps {slots : Slots} {exit : String} {test : List Line} {cond : Expr}
    (h : TestCode cx slots exit test (some cond)) : Line.jumps test = [exit] := by
  obtain ⟨frag, ht, rfl⟩ := h
  rw [Line.jumps_append, (lowerCondition_contained ht).jumps_eq_nil (lowerCondition_labels ht)]
  rfl

mutual

/-- control does not pass the end of a statement that diverges -/
theorem lowerStmt_ends (s : Stmt) (hs : s.diverges = true) {loop : Option LoopLabels} {st st' : Storage}
    {frag : Fragment} (hloop : Older st.nextLabel (loopTargets loop))
    (h : (lowerStmt cx loop s).run st = .ok (frag, st')) : Line.Ends frag.lines := by
  cases s with
  | break_ span =>
    obtain ⟨_, -, -, hlines⟩ := lowerStmt_break h
    rw [hlines]
    exact .of_last [] rfl
  | continue_ span =>
    obtain ⟨_, -, -, hlines⟩ := lowerStmt_continue h
    rw [hlines]
    exact .of_last [] rfl
  | return_ span value =>
    cases value with
    | none =>
      rw [(lowerStmt_return h).2]
      exact .of_last [] rfl
    | some e =>
      obtain ⟨_, a, inner, -, -, -, -, hlines⟩ := lowerStmt_returnValue h
      rw [hlines, ← List.singleton_append, ← List.append_assoc]
      exact .of_last _ rfl
  | block span body =>
    simp only [lowerStmt] at h
    exact lowerStmts_ends body hs hloop h
  | ifElse span cond yes no =>
    obtain ⟨hyes, hno⟩ : yes.diverges = true ∧ no.diverges = true := by simpa [Stmt.diverges] using hs
    obtain ⟨test, yesCode, st₁, noCode, ht, hy, hn, hlines⟩ := lowerStmt_ifElse h
    rw [hyes, if_pos rfl, List.append_nil] at hlines
    rw [hlines]
    have hnumYes := lowerStmt_numbered yes hy
    have hnumNo := lowerStmt_numbered no hn
    have hinYes := lowerStmt_contained yes hy
    have hinNo := lowerStmt_contained no hn
    have hmid : st.nextLabel + 1 ≤ st₁.nextLabel := hnumYes.le
    have hloop' : Older st.numbered.nextLabel (loopTargets loop) := hloop.mono (Nat.le_succ _)
    have hloop₁ : Older st₁.nextLabel (loopTargets loop) := hloop.mono (by omega)
    have hends : Line.Ends noCode.lines := lowerStmt_ends no hno hloop₁ hn
    -- what stands before the second branch was numbered before it
    have hbefore :
        Older st₁.nextLabel (Line.jumps (test ++ yesCode.lines ++ [.label (label "if_else" st.nextLabel)])) := by
      rw [Line.jumps_append, Line.jumps_append, ht.jumps, Line.jumps_label, Line.jumps_nil, List.append_nil]
      refine Older.append ?_ (hinYes.older hnumYes hloop')
      intro t ht
      exact ⟨_, _, by omega, List.mem_singleton.1 ht⟩
    have hall := hends.prepend (hbefore.disjoint hnumNo)
    rw [List.append_assoc _ [_] _, List.singleton_append] at hall
    refine hall.append_label ?_
    -- the last label would be jumped to from the first branch only if that did not diverge
    rw [Line.jumps_append, Line.jumps_append, ht.jumps, Line.jumps_label]
    simp only [List.mem_append, List.mem_singleton, not_or]
    refine ⟨⟨?_, hinYes.not_jumps hnumYes (Nat.lt_succ_self _) hloop _⟩, hinNo.not_jumps hnumNo hmid hloop _⟩
    intro heq
    exact absurd (label_inj heq).1 (by decide)
  | decl | ifThen | while_ | doWhile | for_ | expr | empty => cases hs

theorem lowerStmts_ends (ss : List Stmt) (hs : Stmt.anyDiverges ss = true) {loop : Option LoopLabels} {st st' : Storage}
    {frag : Fragment} (hloop : Older st.nextLabel (loopTargets loop))
    (h : (lowerStmts cx loop ss).run st = .ok (frag, st')) : Line.Ends frag.lines := by
  cases ss with
  | nil => cases hs
  | cons s rest =>
    cases hdiv : s.diverges with
    | true =>
      obtain ⟨_, hf, hlines⟩ := lowerStmts_cons_diverges hdiv h
      rw [hlines]
      exact lowerStmt_ends s hdiv hloop hf
    | false =>
      obtain ⟨_, _, _, hf, hm, hlines⟩ := lowerStmts_cons hdiv h
      rw [Stmt.anyDiverges, hdiv, Bool.false_or] at hs
      have hnum := lowerStmt_numbered s hf
      rw [hlines]
      refine (lowerStmts_ends rest hs (hloop.mono hnum.le) hm).prepend ?_
      exact ((lowerStmt_contained s hf).older hnum hloop).disjoint (lowerStmts_numbered rest hm)

end

end Diverges

/-! ## Functions and programs -/

section Program

variable {cx : Context} {st st' : Storage} {frag : Fragment}

theorem lowerGlobals_contained {outer : List String} (gs : List (VarDecl × Address))
    (h : (lowerGlobals cx gs).run st = .ok (frag, st')) : Contained cx outer frag.lines := by
  induction gs generalizing frag with
  | nil =>
    rw [(lowerGlobals_nil h).2]
    exact .nil
  | cons g rest ih =>
    obtain ⟨d, a⟩ := g
    cases hd : d.init with
    | none =>
      obtain ⟨_, hm, hlines⟩ := lowerGlobals_zero hd h
      rw [hlines]
      have hstore : Contained cx outer [.instr (.store (.zero d.ty.family) a)] := .silent rfl rfl
      exact hstore.append (ih hm)
    | some e =>
      obtain ⟨_, _, he, hm, hlines⟩ := lowerGlobals_value hd h
      rw [hlines]
      have hpop : Contained cx outer [.instr (popA a)] := .silent rfl rfl
      exact (lowerExpr_contained e he).append (hpop.append (ih hm))

/-- the code of a function: its label and code that control does not leave -/
theorem lowerFunction_sealed {f : FunctionDecl} (h : (lowerFunction cx f).run st = .ok (frag, st')) :
    ∃ code, frag.lines = .label (functionLabel f.name) :: code ∧ Line.Sealed code ∧ Contained cx [] code := by
  obtain ⟨body, hb, hlines⟩ := lowerFunction_eq_ok h
  rw [List.cons_append] at hlines
  have hnum := lowerStmts_numbered f.body hb
  have hbody : Contained cx [] body.lines :=
    ⟨(lowerStmts_contained f.body hb).target, (lowerStmts_contained f.body hb).call⟩
  have hlast : Contained cx [] (if Stmt.anyDiverges f.body then [] else [.instr (.bare .rtn)]) := by
    cases Stmt.anyDiverges f.body with
    | true => exact .nil
    | false => exact .silent rfl rfl
  have hcode := hbody.append hlast
  refine ⟨_, hlines, ⟨?_, ?_, ?_⟩, hcode⟩
  · intro t ht
    exact (hcode.target t ht).resolve_right (by simp)
  · cases hdiv : Stmt.anyDiverges f.body with
    | true =>
      rw [if_pos rfl, List.append_nil]
      exact lowerStmts_ends f.body hdiv (Older.nil _) hb
    | false => exact .of_last _ rfl
  · intro name hmem
    have hnone : Line.labels (if Stmt.anyDiverges f.body then [] else [.instr (.bare .rtn)]) = [] := by
      cases Stmt.anyDiverges f.body <;> rfl
    rw [Line.labels_append, hnone, List.append_nil] at hmem
    obtain ⟨kind, hkind, n, -, -, heq⟩ := hnum.range _ hmem
    exact functionLabel_ne_label hkind heq

/-- the code of a function behind its label -/
def IsCodeOf (cx : Context) (f : FunctionDecl) (code : List Line) : Prop :=
  ∃ st frag st', (lowerFunction cx f).run st = .ok (frag, st') ∧ frag.lines = .label (functionLabel f.name) :: code

theorem IsCodeOf.sealed {f : FunctionDecl} {code : List Line} (h : IsCodeOf cx f code) : Line.Sealed code := by
  obtain ⟨_, _, _, hf, hlines⟩ := h
  obtain ⟨_, hfirst, hsealed, -⟩ := lowerFunction_sealed hf
  rw [hlines] at hfirst
  rwa [(List.cons.inj hfirst).2]

theorem lowerFunctions_contained (fs : List FunctionDecl) (h : (lowerFunctions cx fs).run st = .ok (frag, st')) :
    Contained cx [] frag.lines := by
  induction fs generalizing st frag with
  | nil =>
    rw [(lowerFunctions_nil h).2]
    exact .nil
  | cons f rest ih =>
    obtain ⟨_, _, _, hf, hm, hlines⟩ := lowerFunctions_cons h
    obtain ⟨_, hfirst, -, hcode⟩ := lowerFunction_sealed hf
    rw [hlines, hfirst]
    exact ((Contained.label _).append hcode).append (ih hm)

/-- every line belongs to the code of a function -/
theorem lowerFunctions_block (fs : List FunctionDecl) (h : (lowerFunctions cx fs).run st = .ok (frag, st')) {i : Nat}
    (hi : i < frag.lines.length) :
    ∃ f ∈ fs, ∃ before code after, frag.lines = before ++ (.label (functionLabel f.name) :: code) ++ after ∧
      IsCodeOf cx f code ∧ before.length ≤ i ∧ i ≤ before.length + code.length := by
  induction fs generalizing st frag i with
  | nil =>
    rw [(lowerFunctions_nil h).2] at hi
    cases hi
  | cons f rest ih =>
    obtain ⟨_, _, more, hf, hm, hlines⟩ := lowerFunctions_cons h
    obtain ⟨code, hfirst, -⟩ := lowerFunction_sealed hf
    rw [hfirst] at hlines
    by_cases hin : i ≤ code.length
    · exact ⟨f, List.mem_cons_self, [], code, more.lines, hlines, ⟨_, _, _, hf, hfirst⟩, Nat.zero_le i,
        by simpa using hin⟩
    · rw [hlines, List.length_append, List.length_cons] at hi
      obtain ⟨g, hg, before, code', after, hmore, hcode', hle, hlast⟩ := ih (i := i - (code.length + 1)) hm (by omega)
      refine ⟨g, List.mem_cons_of_mem _ hg, .label (functionLabel f.name) :: code ++ before, code', after, ?_,
        hcode', ?_, ?_⟩
      · rw [hlines, hmore]
        simp
      · rw [List.length_append, List.length_cons]
        omega
      · rw [List.length_append, List.length_cons]
        omega

end Program

end Codegen

/-- the lines before the code of the functions -/
def Program.Parts.entryLines {p : Program} {info : TypeInfo} {out : Generated} (parts : p.Parts info out) : List Line :=
  (p.globals.zip parts.addresses).map (fun x => .read x.2 x.1.name) ++ parts.entry.lines ++
    [.instr (.jump .call (Codegen.functionLabel "main"))]

namespace Program.Parts

open Codegen

variable {p : Program} {info : TypeInfo} {out : Generated}

theorem lines_entry (parts : p.Parts info out) :
    out.lines = parts.entryLines ++ .instr (.bare .halt) :: parts.functions.lines := by
  rw [parts.lines]
  simp [entryLines]

theorem entryLines_labels (parts : p.Parts info out) : Line.labels parts.entryLines = [] := by
  simp [entryLines, lowerGlobals_labels _ parts.lowerGlobals]

/-- the entry code does not jump, and calls functions of the program only -/
theorem entryLines_contained (parts : p.Parts info out) (hmain : "main" ∈ p.functions.map (·.name))
    (hnames : (p.functions.map (·.name)).Nodup) :
    Contained ⟨info, .ofFunctions p.functions, parts.frames, ""⟩ [] parts.entryLines := by
  obtain ⟨f, hf, hname⟩ := List.mem_map.1 hmain
  obtain ⟨frame, hframe, -⟩ := parts.frame_placed hnames hf
  have hreads : Contained ⟨info, .ofFunctions p.functions, parts.frames, ""⟩ []
      ((p.globals.zip parts.addresses).map fun x => .read x.2 x.1.name) := by
    constructor
    · intro t ht
      obtain ⟨l, hl, heq⟩ := Line.mem_jumps.1 ht
      obtain ⟨_, -, rfl⟩ := List.mem_map.1 hl
      cases heq
    · intro t ht
      obtain ⟨l, hl, heq⟩ := List.mem_filterMap.1 ht
      obtain ⟨_, -, rfl⟩ := List.mem_map.1 hl
      cases heq
  refine (hreads.append (lowerGlobals_contained _ parts.lowerGlobals)).append (.callTo ?_)
  exact ⟨f.name, frame, hframe, by rw [hname]⟩

/-- every line behind the entry code belongs to the code of a function -/
theorem exists_block (parts : p.Parts info out) {i : Nat} (hi : parts.entryLines.length < i)
    (hlt : i < out.lines.length) :
    ∃ f ∈ p.functions, ∃ before code after, out.lines = before ++ (.label (functionLabel f.name) :: code) ++ after ∧
      IsCodeOf ⟨info, .ofFunctions p.functions, parts.frames, ""⟩ f code ∧
        ∃ k ≤ code.length, i = before.length + k := by
  rw [parts.lines_entry, List.length_append, List.length_cons] at hlt
  obtain ⟨f, hf, before, code, after, hlines, hcode, hle, hlast⟩ :=
    lowerFunctions_block p.functions parts.lowerFunctions (i := i - (parts.entryLines.length + 1)) (by omega)
  refine ⟨f, hf, parts.entryLines ++ .instr (.bare .halt) :: before, code, after, ?_, hcode,
    i - (parts.entryLines.length + 1 + before.length), by omega, ?_⟩
  · rw [parts.lines_entry, hlines]
    simp
  · rw [List.length_append, List.length_cons]
    omega

/-- labels stand behind the entry code -/
theorem entry_lt_label (parts : p.Parts info out) {i : Nat} {t : String} (h : out.lines[i]? = some (.label t)) :
    parts.entryLines.length < i := by
  by_contra hle
  rw [parts.lines_entry] at h
  rcases Nat.lt_or_eq_of_le (Nat.not_lt.1 hle) with hin | heq
  · rw [List.getElem?_append_left hin] at h
    have hmem := Line.mem_labels.2 (List.mem_of_getElem? h)
    rw [parts.entryLines_labels] at hmem
    cases hmem
  · simp [heq] at h

/-- the code of a function starts at its label -/
theorem block_of_start (parts : p.Parts info out) {start : Nat} {name : String}
    (h : out.lines[start]? = some (.label (functionLabel name))) :
    ∃ f ∈ p.functions, ∃ before code after, out.lines = before ++ (.label (functionLabel f.name) :: code) ++ after ∧
      Line.Sealed code ∧ start = before.length := by
  obtain ⟨hlt, -⟩ := List.getElem?_eq_some_iff.1 h
  obtain ⟨f, hf, before, code, after, hlines, hcode, k, hk, rfl⟩ := parts.exists_block (parts.entry_lt_label h) hlt
  refine ⟨f, hf, before, code, after, hlines, hcode.sealed, ?_⟩
  rcases k with _ | k
  · rfl
  · rw [Line.Sealed.getElem?_block hlines hk] at h
    exact absurd (Line.mem_labels.2 (List.mem_of_getElem? h)) (hcode.sealed.inner name)

theorem exists_start (parts : p.Parts info out) {f : FunctionDecl} (hf : f ∈ p.functions) :
    ∃ start : Nat, out.lines[start]? = some (.label (functionLabel f.name)) := by
  obtain ⟨inner, -, hperm⟩ := lowerFunctions_labels p.functions parts.lowerFunctions
  have hmem : functionLabel f.name ∈ Line.labels parts.functions.lines :=
    hperm.mem_iff.1 (List.mem_append_left _ (List.mem_map.2 ⟨f, hf, rfl⟩))
  refine List.mem_iff_getElem?.1 ?_
  rw [parts.lines_entry]
  exact List.mem_append_right _ (List.mem_cons_of_mem _ (Line.mem_labels.1 hmem))

/-- a jump and its label belong to the same function -/
theorem jump_inFunction (parts : p.Parts info out) (hmain : "main" ∈ p.functions.map (·.name))
    (hnames : (p.functions.map (·.name)).Nodup) {i : Nat} {op : JumpOp} {t : String}
    (hi : out.lines[i]? = some (.instr (.jump op t))) (hop : op.isCall = false) :
    ∃ f ∈ p.functions, ∃ start j : Nat, out.lines[start]? = some (.label (functionLabel f.name)) ∧
      out.lines[j]? = some (.label t) ∧ Line.InFunction out.lines start i ∧ Line.InFunction out.lines start j := by
  obtain ⟨hlt, -⟩ := List.getElem?_eq_some_iff.1 hi
  have hentry : parts.entryLines.length < i := by
    by_contra hle
    rw [parts.lines_entry] at hi
    rcases Nat.lt_or_eq_of_le (Nat.not_lt.1 hle) with hin | heq
    · rw [List.getElem?_append_left hin] at hi
      have hmem : t ∈ Line.jumps parts.entryLines := Line.mem_jumps.2 ⟨_, List.mem_of_getElem? hi, Line.jump?_eq hop t⟩
      rw [(parts.entryLines_contained hmain hnames).jumps_eq_nil parts.entryLines_labels] at hmem
      cases hmem
    · simp [heq] at hi
  obtain ⟨f, hf, before, code, after, hlines, hcode, k, hk, rfl⟩ := parts.exists_block hentry hlt
  have hsealed := hcode.sealed
  rcases k with _ | k
  · rw [Nat.add_zero, Line.Sealed.getElem?_start hlines] at hi
    cases hi
  · rw [Line.Sealed.getElem?_block hlines hk] at hi
    have hjump : t ∈ Line.jumps code := Line.mem_jumps.2 ⟨_, List.mem_of_getElem? hi, Line.jump?_eq hop t⟩
    obtain ⟨m, hm⟩ := List.mem_iff_getElem?.1 (Line.mem_labels.1 (hsealed.target t hjump))
    have hmlt : m < code.length := (List.getElem?_eq_some_iff.1 hm).1
    refine ⟨f, hf, before.length, before.length + (m + 1), Line.Sealed.getElem?_start hlines, ?_,
      hsealed.inFunction hlines hk, hsealed.inFunction hlines hmlt⟩
    rw [Line.Sealed.getElem?_block hlines hmlt, hm]

/-- calls are calls of functions of the program -/
theorem call_function (parts : p.Parts info out) (hmain : "main" ∈ p.functions.map (·.name))
    (hnames : (p.functions.map (·.name)).Nodup) {op : JumpOp} {t : String} (h : .instr (.jump op t) ∈ out.lines)
    (hop : op.isCall = true) : ∃ f ∈ p.functions, t = functionLabel f.name := by
  have hcall : t ∈ Line.calls out.lines := List.mem_filterMap.2 ⟨_, h, by simp [Line.call?, hop]⟩
  have hhalt : Contained ⟨info, .ofFunctions p.functions, parts.frames, ""⟩ [] [.instr (.bare .halt)] := .silent rfl rfl
  have hall := (parts.entryLines_contained hmain hnames).append
    (hhalt.append (lowerFunctions_contained p.functions parts.lowerFunctions))
  rw [parts.lines_entry] at hcall
  obtain ⟨name, frame, hframe, rfl⟩ := hall.call t hcall
  obtain ⟨f, hf, rfl, -⟩ := parts.exists_function hnames hframe
  exact ⟨f, hf, rfl⟩

end Program.Parts

open Codegen in
/-- **Control flow is contained.** In generated code labels are distinct, a jump and its label belong to the same
function, and what is called are the functions of the program, which all have their labels. The entry code has no labels
and ends in `HALT`, which control that starts there does not pass; control that starts at a function stays in it. -/
theorem Program.generate_contains_control {p : Program} {info : TypeInfo} {out : Generated}
    (hcheck : p.check = .ok info) (hgen : p.generate info = .ok out) :
    (Line.labels out.lines).Nodup ∧
      (∀ (i : Nat) op t, out.lines[i]? = some (.instr (.jump op t)) → op.isCall = false →
        ∃ f ∈ p.functions, ∃ start j : Nat, out.lines[start]? = some (.label (functionLabel f.name)) ∧
          out.lines[j]? = some (.label t) ∧ Line.InFunction out.lines start i ∧ Line.InFunction out.lines start j) ∧
      (∀ op t, .instr (.jump op t) ∈ out.lines → op.isCall = true → ∃ f ∈ p.functions, t = functionLabel f.name) ∧
      (∃ entry rest name, out.lines = entry ++ .instr (.bare .halt) :: .label (functionLabel name) :: rest ∧
        Line.labels entry = [] ∧ ∀ i, Line.Path out.lines 0 i → i ≤ entry.length) ∧
      ∀ f ∈ p.functions, ∃ start : Nat, out.lines[start]? = some (.label (functionLabel f.name)) ∧
        ∀ i, Line.Path out.lines start i → Line.InFunction out.lines start i := by
  obtain ⟨hnames, hmain⟩ := names_of_check hcheck
  obtain ⟨parts⟩ := Program.nonempty_parts hgen
  have hnodup := parts.labels_nodup hnames
  refine ⟨hnodup, ?_, ?_, ?_, ?_⟩
  · intro i op t hi hop
    exact parts.jump_inFunction hmain hnames hi hop
  · intro op t h hop
    exact parts.call_function hmain hnames h hop
  · obtain ⟨name, rest, hrest⟩ : ∃ name rest, parts.functions.lines = .label (functionLabel name) :: rest := by
      have hlower := parts.lowerFunctions
      cases hfs : p.functions with
      | nil => simp [hfs] at hmain
      | cons f fs =>
        rw [hfs] at hlower
        obtain ⟨first, _, more, hf, -, hlines⟩ := lowerFunctions_cons hlower
        obtain ⟨code, hfirst, -⟩ := lowerFunction_sealed hf
        exact ⟨f.name, code ++ more.lines, by rw [hlines, hfirst, List.cons_append]⟩
    refine ⟨parts.entryLines, rest, name, by rw [parts.lines_entry, hrest], parts.entryLines_labels, ?_⟩
    intro i hpath
    rw [parts.lines_entry] at hpath
    refine Line.path_le_of_halt ?_ hpath
    exact (parts.entryLines_contained hmain hnames).jumps_eq_nil parts.entryLines_labels
  · intro f hf
    obtain ⟨start, hstart⟩ := parts.exists_start hf
    obtain ⟨_, -, before, code, after, hlines, hsealed, rfl⟩ := parts.block_of_start hstart
    exact ⟨before.length, hstart, fun i hpath => hsealed.path_inFunction hnodup hlines hpath⟩

/--
```
int pick(int n) {
  while (n) { if (n) break; else continue; }
  if (n) return 1; else return 2;
}
void main() { pick(3); }
```
-/
def picking : Program :=
  { span := ⟨0, 0⟩
    items :=
      [.function ⟨⟨0, 0⟩, "pick", ⟨0, 0⟩, .plain .int, [⟨0, ⟨0, 0⟩, "n", .plain .int⟩], ⟨0, 0⟩,
        [.while_ ⟨0, 0⟩ (.ident 1 ⟨0, 0⟩ "n") (.block ⟨0, 0⟩
          [.ifElse ⟨0, 0⟩ (.ident 2 ⟨0, 0⟩ "n") (.break_ ⟨0, 0⟩) (.continue_ ⟨0, 0⟩)]),
         .ifElse ⟨0, 0⟩ (.ident 3 ⟨0, 0⟩ "n") (.return_ ⟨0, 0⟩ (some (.literal 4 ⟨0, 0⟩ (.int 1))))
          (.return_ ⟨0, 0⟩ (some (.literal 5 ⟨0, 0⟩ (.int 2))))]⟩,
       .function ⟨⟨0, 0⟩, "main", ⟨0, 0⟩, .plain .void, [], ⟨0, 0⟩,
        [.expr ⟨0, 0⟩ (.call 7 ⟨0, 0⟩ "pick" ⟨0, 0⟩ [.literal 6 ⟨0, 0⟩ (.int 3)])]⟩] }

/-- the code of `pick` has no `RTN` at its end but a label, and the code of `main` follows; control does not get
there -/
theorem picking_stays_inside : ∃ info out, picking.check = .ok info ∧ picking.generate info = .ok out ∧
    out.lines[2]? = some (.label "fn_pick") ∧ out.lines[26]? = some (.label "if_end_2") ∧
      out.lines[27]? = some (.label "fn_main") ∧ ∀ i, Line.Path out.lines 2 i → i < 27 := by
  obtain ⟨info, out, hcheck, hgen, hpick, hlast, hmain⟩ : ∃ info out, picking.check = .ok info ∧
      picking.generate info = .ok out ∧
      out.lines[2]? = some (.label (Codegen.functionLabel "pick")) ∧ out.lines[26]? = some (.label "if_end_2") ∧
        out.lines[27]? = some (.label (Codegen.functionLabel "main")) := ⟨_, _, rfl, rfl, rfl, rfl, rfl⟩
  refine ⟨info, out, hcheck, hgen, hpick, hlast, hmain, fun i hpath => ?_⟩
  obtain ⟨hnodup, -, -, -, hstarts⟩ := Program.generate_contains_control hcheck hgen
  obtain ⟨start, hstart, hinside⟩ := hstarts _ List.mem_cons_self
  obtain rfl : start = 2 := Line.position_unique hnodup hstart hpick
  by_contra hlt
  exact (hinside i hpath).same 27 (by decide) (Nat.not_lt.1 hlt) "main" hmain

end C15

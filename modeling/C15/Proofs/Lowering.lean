/-
How code is put together, form by form.

Generation threads storage through a program and may fail at every step. For each form that it lowers there is one lemma
here that takes a successful run apart: which parts were lowered, with which storage, and how the lines of the whole
consist of the lines of the parts. Nothing later looks into the generator itself.
-/
import C15.Codegen
import C15.Proofs.Facts

namespace C15

namespace Codegen

variable {α β : Type} {st st' : Storage}

/-! ## Runs that succeed -/

theorem run_bind_eq_ok {x : Gen α} {f : α → Gen β} {b : β} {st'' : Storage} :
    (x >>= f).run st = .ok (b, st'') ↔ ∃ a st', x.run st = .ok (a, st') ∧ (f a).run st' = .ok (b, st'') := by
  rw [StateT.run_bind, bind_eq_ok, Prod.exists]

theorem run_pure_eq_ok {a b : α} : (pure a : Gen α).run st = .ok (b, st') ↔ a = b ∧ st = st' := by
  rw [StateT.run_pure, pure_eq_ok, Prod.mk.injEq]

theorem run_map_eq_ok {f : α → β} {x : Gen α} {b : β} :
    (f <$> x).run st = .ok (b, st') ↔ ∃ a, x.run st = .ok (a, st') ∧ f a = b := by
  rw [StateT.run_map]
  cases x.run st <;> simp [Functor.map, Except.map, Prod.ext_iff, and_comm]

theorem run_throw (e : CodegenError) : (throw e : Gen α).run st = .error e := rfl

theorem run_freshLabel : freshLabel.run st = .ok (st.nextLabel, { st with nextLabel := st.nextLabel + 1 }) := rfl

theorem run_withSlots (f : Slots → Except CodegenError Fragment) :
    (withSlots f).run st = (f st.slots).map fun frag => (frag, st) := by
  simp only [withSlots, StateT.run_bind, StateT.run_get, StateT.run_monadLift]
  cases h : f st.slots <;> simp [h, bind, Except.bind, Except.map, monadLift, pure, Except.pure]

theorem run_withSlots_eq_ok {f : Slots → Except CodegenError Fragment} {frag : Fragment} :
    (withSlots f).run st = .ok (frag, st') ↔ f st.slots = .ok frag ∧ st = st' := by
  rw [run_withSlots]
  cases f st.slots <;> simp [Except.map]

/-- the storage with one more address given out -/
def Storage.grow (st : Storage) (name : String) (ty : Ty) (span : Span) : Storage :=
  { st with destinations := st.destinations.push ⟨⟨st.destinations.size⟩, name, ty, span⟩ }

/-- the storage with one more address, given to a declaration -/
def Storage.growFor (st : Storage) (decl : NodeId) (name : String) (ty : Ty) (span : Span) : Storage :=
  { st.grow name ty span with slots := (decl, ⟨st.destinations.size⟩) :: st.slots }

theorem run_allocate (name : String) (ty : Ty) (span : Span) :
    (allocate name ty span).run st =
      if st.destinations.size ≤ maxAddress then .ok (⟨st.destinations.size⟩, st.grow name ty span)
      else .error ⟨.outOfMemory, span⟩ := by
  simp only [allocate, StateT.run_bind, StateT.run_get, pure_bind]
  split
  · rfl
  · rfl

theorem run_bindSlot (decl : NodeId) (name : String) (ty : Ty) (span : Span) :
    (bindSlot decl name ty span).run st =
      if st.destinations.size ≤ maxAddress then .ok (⟨st.destinations.size⟩, st.growFor decl name ty span)
      else .error ⟨.outOfMemory, span⟩ := by
  simp only [bindSlot, StateT.run_bind, run_allocate]
  split
  · rfl
  · rfl

theorem run_allocate_eq_ok {name : String} {ty : Ty} {span : Span} {a : Address} :
    (allocate name ty span).run st = .ok (a, st') ↔
      st.destinations.size ≤ maxAddress ∧ ⟨st.destinations.size⟩ = a ∧ st.grow name ty span = st' := by
  rw [run_allocate]
  split <;> simp [*]

theorem run_bindSlot_eq_ok {decl : NodeId} {name : String} {ty : Ty} {span : Span} {a : Address} :
    (bindSlot decl name ty span).run st = .ok (a, st') ↔
      st.destinations.size ≤ maxAddress ∧ ⟨st.destinations.size⟩ = a ∧ st.growFor decl name ty span = st' := by
  rw [run_bindSlot]
  split <;> simp [*]

/-! ## Expressions -/

section Expr

variable {cx : Context} {slots : Slots} {used : Bool} {frag : Fragment}

@[simp] theorem lines_emit (is : List Instruction) : (Fragment.emit is).lines = is.map .instr := rfl

@[simp] theorem lines_place (l : String) : (Fragment.place l).lines = [.label l] := rfl

@[simp] theorem lines_symbol (span : Span) (c : SymbolClass) : (Fragment.symbol span c).lines = [] := rfl

@[simp] theorem lines_warn (span : Span) (message : String) : (Fragment.warn span message).lines = [] := rfl

@[simp] theorem lines_empty : ({} : Fragment).lines = [] := rfl

theorem slotOf_eq_ok {id : NodeId} {span : Span} {a : Address} {c : SymbolClass}
    (h : cx.slotOf slots id span = .ok (a, c)) :
    ∃ v, cx.info.variableOf id = some v ∧ slots.lookup v.decl = some a := by
  unfold Context.slotOf at h
  split at h
  · cases h
  · rename_i v hv
    split at h
    · cases h
    · rename_i b hb
      cases h
      exact ⟨v, hv, hb⟩

theorem contextFamily_eq_ok {id : NodeId} {span : Span} {f : Family} :
    cx.family id span = .ok f ↔ cx.info.familyOf id = some f := by
  unfold Context.family
  cases cx.info.familyOf id <;> simp

theorem select_eq_ok {op : BinOp} {f : Family} {symbol : String} {span : Span} {i : BareOp} :
    select op f symbol span = .ok i ↔ op.select f = some i := by
  unfold select
  cases op.select f <;> simp

theorem lowerExpr_literal {id : NodeId} {span : Span} {value : Literal}
    (h : lowerExpr cx slots used (.literal id span value) = .ok frag) : frag.lines = [.instr (.storePush value)] := by
  simp only [lowerExpr, pure_eq_ok] at h
  subst h
  rfl

theorem lowerExpr_ident {id : NodeId} {span : Span} {name : String}
    (h : lowerExpr cx slots used (.ident id span name) = .ok frag) :
    ∃ v a, cx.info.variableOf id = some v ∧ slots.lookup v.decl = some a ∧ frag.lines = [.instr (pushA a)] := by
  simp only [lowerExpr, bind_eq_ok, pure_eq_ok, Prod.exists] at h
  obtain ⟨a, c, hslot, rfl⟩ := h
  obtain ⟨v, hv, ha⟩ := slotOf_eq_ok hslot
  exact ⟨v, a, hv, ha, rfl⟩

theorem lowerExpr_binary {id : NodeId} {span : Span} {op : BinOp} {lhs rhs : Expr}
    (h : lowerExpr cx slots used (.binary id span op lhs rhs) = .ok frag) :
    ∃ f i left right, cx.info.familyOf lhs.id = some f ∧ op.select f = some i ∧ lowerExpr cx slots true lhs = .ok left ∧
      lowerExpr cx slots true rhs = .ok right ∧
        frag.lines = left.lines ++ right.lines ++ (computeTwo i).map .instr := by
  simp only [lowerExpr, bind_eq_ok, pure_eq_ok, contextFamily_eq_ok, select_eq_ok] at h
  obtain ⟨f, hf, i, hi, left, hl, right, hr, rfl⟩ := h
  exact ⟨f, i, left, right, hf, hi, hl, hr, rfl⟩

/-- the instructions of an operator on one value, after the value -/
def unaryCode (op : UnOp) (f : Family) : List Instruction :=
  match op with
  | .bitNot => .storePush (if f = .unsigned then .uint 0xFFFFFFFF else .int 0xFFFFFFFF) :: computeTwo .xor
  | .not => computeOne .not
  | .neg => computeOne f.negation

theorem lowerExpr_unary {id : NodeId} {span : Span} {op : UnOp} {operand : Expr}
    (h : lowerExpr cx slots used (.unary id span op operand) = .ok frag) :
    ∃ f inner, cx.info.familyOf operand.id = some f ∧ lowerExpr cx slots true operand = .ok inner ∧
      frag.lines = inner.lines ++ (unaryCode op f).map .instr := by
  cases op with
  | bitNot | not | neg =>
    simp only [lowerExpr, bind_eq_ok, pure_eq_ok, contextFamily_eq_ok] at h
    obtain ⟨f, hf, inner, hi, rfl⟩ := h
    exact ⟨f, inner, hf, hi, rfl⟩

theorem lowerExpr_update {id : NodeId} {span : Span} {op : UpdateOp} {targetId : NodeId} {targetSpan : Span}
    {target : String} (h : lowerExpr cx slots used (.update id span op targetId targetSpan target) = .ok frag) :
    ∃ v a f, cx.info.variableOf id = some v ∧ slots.lookup v.decl = some a ∧ cx.info.familyOf id = some f ∧
      frag.lines = (updateCode op f a used).map .instr := by
  simp only [lowerExpr, bind_eq_ok, pure_eq_ok, contextFamily_eq_ok, Prod.exists] at h
  obtain ⟨a, c, hslot, f, hf, rfl⟩ := h
  obtain ⟨v, hv, ha⟩ := slotOf_eq_ok hslot
  exact ⟨v, a, f, hv, ha, hf, rfl⟩

theorem lowerExpr_assign {id : NodeId} {span : Span} {target : String} {targetSpan : Span} {value : Expr}
    (h : lowerExpr cx slots used (.assign id span none target targetSpan value) = .ok frag) :
    ∃ v a inner, cx.info.variableOf id = some v ∧ slots.lookup v.decl = some a ∧
      lowerExpr cx slots true value = .ok inner ∧
      frag.lines = inner.lines ++ [.instr (popA a)] ++ (if used then [.instr (pushA a)] else []) := by
  simp only [lowerExpr, bind_eq_ok, pure_eq_ok, Prod.exists] at h
  obtain ⟨a, c, hslot, inner, hi, rfl⟩ := h
  obtain ⟨v, hv, ha⟩ := slotOf_eq_ok hslot
  exact ⟨v, a, inner, hv, ha, hi, by cases used <;> simp⟩

theorem lowerExpr_compound {id : NodeId} {span : Span} {op : BinOp} {target : String} {targetSpan : Span} {value : Expr}
    (h : lowerExpr cx slots used (.assign id span (some op) target targetSpan value) = .ok frag) :
    ∃ v a f i inner, cx.info.variableOf id = some v ∧ slots.lookup v.decl = some a ∧
      cx.info.familyOf value.id = some f ∧ op.select f = some i ∧ lowerExpr cx slots true value = .ok inner ∧
      frag.lines = .instr (pushA a) :: inner.lines ++
        [.instr (.bare .getpopb), .instr (.bare .getpopa), .instr (.bare i), .instr (saveA a)] ++
          (if used then [.instr (pushA a)] else []) := by
  simp only [lowerExpr, bind_eq_ok, pure_eq_ok, contextFamily_eq_ok, select_eq_ok, Prod.exists] at h
  obtain ⟨a, c, hslot, f, hf, i, hsel, inner, hi, rfl⟩ := h
  obtain ⟨v, hv, ha⟩ := slotOf_eq_ok hslot
  exact ⟨v, a, f, i, inner, hv, ha, hf, hsel, hi, by cases used <;> simp⟩

theorem lowerExpr_call {id : NodeId} {span : Span} {callee : String} {calleeSpan : Span} {args : List Expr}
    (h : lowerExpr cx slots used (.call id span callee calleeSpan args) = .ok frag) :
    ∃ frame inner, cx.frames.lookup callee = some frame ∧ lowerArgs cx slots args = .ok inner ∧
      frag.lines = inner.lines ++ (frame.params.reverse.map popA).map .instr ++
        [.instr (.jump .call (functionLabel callee))] ++
        (if used then frame.result.toList.map pushA else []).map .instr := by
  simp only [lowerExpr, bind_eq_ok] at h
  obtain ⟨inner, hi, h⟩ := h
  split at h
  · rw [throw_eq_ok] at h
    exact h.elim
  · rename_i frame hframe
    rw [pure_eq_ok] at h
    subst h
    refine ⟨frame, inner, hframe, hi, ?_⟩
    split <;> simp

theorem lowerExpr_intrinsic {id : NodeId} {span : Span} {callee : Intrinsic} {calleeSpan : Span} {args : List Expr}
    (h : lowerExpr cx slots used (.intrinsic id span callee calleeSpan args) = .ok frag) :
    ∃ inner, lowerArgs cx slots args = .ok inner ∧ frag.lines = inner.lines ++ (intrinsicCode callee).map .instr := by
  simp only [lowerExpr, bind_eq_ok, pure_eq_ok] at h
  obtain ⟨inner, hi, rfl⟩ := h
  exact ⟨inner, hi, by simp⟩

theorem lowerExpr_cast {id : NodeId} {span : Span} {base : Base} {operand : Expr}
    (h : lowerExpr cx slots used (.cast id span base operand) = .ok frag) :
    ∃ source target inner, cx.info.familyOf operand.id = some source ∧ base.family = some target ∧
      lowerExpr cx slots true operand = .ok inner ∧
      frag.lines = inner.lines ++ ((source.conversion target).elim [] computeOne).map .instr := by
  simp only [lowerExpr, bind_eq_ok, contextFamily_eq_ok] at h
  obtain ⟨source, hs, h⟩ := h
  split at h
  · rw [throw_eq_ok] at h
    exact h.elim
  · rename_i target ht
    rw [bind_eq_ok] at h
    obtain ⟨inner, hi, h⟩ := h
    refine ⟨source, target, inner, hs, ht, hi, ?_⟩
    split at h
    · rename_i i hconv
      rw [pure_eq_ok] at h
      subst h
      simp [hconv]
    · rename_i hconv
      rw [pure_eq_ok] at h
      subst h
      simp [hconv]

theorem lowerArgs_nil (h : lowerArgs cx slots [] = .ok frag) : frag.lines = [] := by
  simp only [lowerArgs, pure_eq_ok] at h
  subst h
  rfl

theorem lowerArgs_cons {arg : Expr} {args : List Expr} (h : lowerArgs cx slots (arg :: args) = .ok frag) :
    ∃ first rest, lowerExpr cx slots true arg = .ok first ∧ lowerArgs cx slots args = .ok rest ∧
      frag.lines = first.lines ++ rest.lines := by
  simp only [lowerArgs, bind_eq_ok, pure_eq_ok] at h
  obtain ⟨first, hf, rest, hr, rfl⟩ := h
  exact ⟨first, rest, hf, hr, rfl⟩

theorem lowerCondition_eq_ok {e : Expr} (h : lowerCondition cx slots e = .ok frag) :
    ∃ inner, lowerExpr cx slots true e = .ok inner ∧ frag.lines = inner.lines ++ [.instr (.bare .getpopr)] := by
  simp only [lowerCondition, bind_eq_ok, pure_eq_ok] at h
  obtain ⟨inner, hi, rfl⟩ := h
  exact ⟨inner, hi, rfl⟩

end Expr

end Codegen

/-- an expression whose value need not be pushed if it is not used -/
def Expr.isDroppable : Expr → Bool
  | .assign .. | .call .. | .update .. => true
  | _ => false

namespace Codegen

/-- the value of any other expression, if it has one, is taken off the stack -/
theorem lowerEffect_of_not_droppable (cx : Context) (slots : Slots) {e : Expr} (h : e.isDroppable = false) :
    lowerEffect cx slots e = do
      let inner ← lowerExpr cx slots true e
      return (cx.info.familyOf e.id).elim inner fun _ => inner ++ .emit [.bare .popnop] := by
  unfold lowerEffect
  split
  · cases h
  · cases h
  · cases h
  · congr 1
    funext inner
    unfold TypeInfo.familyOf
    rcases cx.info.typeOf e.id with _ | (_ | _ | _ | _) <;> rfl

/-- an effect is lowered without its value, or its value, if it has one, is taken off the stack -/
theorem lowerEffect_eq_ok {cx : Context} {slots : Slots} {e : Expr} {frag : Fragment}
    (h : lowerEffect cx slots e = .ok frag) :
    (e.isDroppable = true ∧ lowerExpr cx slots false e = .ok frag) ∨
      ∃ inner, lowerExpr cx slots true e = .ok inner ∧
        frag.lines = inner.lines ++ ((cx.info.familyOf e.id).elim [] fun _ => [.instr (.bare .popnop)]) := by
  cases hdrop : e.isDroppable with
  | true =>
    refine Or.inl ⟨rfl, ?_⟩
    cases e with
    | assign | call | update => exact h
    | literal | ident | binary | unary | intrinsic | cast => cases hdrop
  | false =>
    rw [lowerEffect_of_not_droppable cx slots hdrop, bind_eq_ok] at h
    obtain ⟨inner, hi, h⟩ := h
    rw [pure_eq_ok] at h
    subst h
    refine Or.inr ⟨inner, hi, ?_⟩
    cases cx.info.familyOf e.id <;> simp

/-! ## Statements -/

/-- the code of a test that jumps out when it fails; without a condition there is none -/
def TestCode (cx : Context) (slots : Slots) (exit : String) (lines : List Line) : Option Expr → Prop
  | none => lines = []
  | some e => ∃ test, lowerCondition cx slots e = .ok test ∧ lines = test.lines ++ [.instr (.jump .jz exit)]

/-- the storage with one more label number taken -/
def Storage.numbered (st : Storage) : Storage := { st with nextLabel := st.nextLabel + 1 }

section Stmt

variable {cx : Context} {loop : Option LoopLabels} {frag : Fragment} {span : Span} {st st' : Storage}

theorem lowerLocal_declare {d : VarDecl} (hd : d.init = none) (h : (lowerLocal cx d).run st = .ok (frag, st')) :
    st.destinations.size ≤ maxAddress ∧ st' = st.growFor d.id d.name d.ty d.nameSpan ∧ frag.lines = [] := by
  simp only [lowerLocal, hd, run_bind_eq_ok, run_bindSlot_eq_ok, run_pure_eq_ok] at h
  obtain ⟨_, _, ⟨hroom, rfl, rfl⟩, rfl, rfl⟩ := h
  refine ⟨hroom, rfl, ?_⟩
  by_cases hu : cx.info.isUsed d.id = true <;> simp [hu]

theorem lowerLocal_value {d : VarDecl} {e : Expr} (hd : d.init = some e)
    (h : (lowerLocal cx d).run st = .ok (frag, st')) :
    ∃ inner, lowerExpr cx st.slots true e = .ok inner ∧ st.destinations.size ≤ maxAddress ∧
      st' = st.growFor d.id d.name d.ty d.nameSpan ∧
        frag.lines = inner.lines ++ [.instr (popA ⟨st.destinations.size⟩)] := by
  simp only [lowerLocal, hd, run_bind_eq_ok, run_withSlots_eq_ok, run_bindSlot_eq_ok, run_pure_eq_ok] at h
  obtain ⟨inner, _, ⟨hi, rfl⟩, _, _, ⟨hroom, rfl, rfl⟩, rfl, rfl⟩ := h
  refine ⟨inner, hi, hroom, rfl, ?_⟩
  by_cases hu : cx.info.isUsed d.id = true <;> simp [hu]

theorem lowerForInit_eq (loop : Option LoopLabels) (span : Span) (init : ForInit) :
    lowerForInit cx init = lowerStmt cx loop (init.stmt span) := by
  cases init <;> simp only [lowerForInit, ForInit.stmt, lowerStmt]

theorem lowerStep_eq (loop : Option LoopLabels) (span : Span) (step : Option Expr) :
    lowerStep cx step = lowerStmt cx loop (.ofStep span step) := by
  cases step <;> simp only [lowerStep, Stmt.ofStep, lowerStmt]

theorem lowerForCondition_eq_ok {exit : String} {cond : Option Expr}
    (h : (lowerForCondition cx exit cond).run st = .ok (frag, st')) :
    TestCode cx st.slots exit frag.lines cond ∧ st = st' := by
  cases cond with
  | none =>
    simp only [lowerForCondition, run_pure_eq_ok] at h
    obtain ⟨rfl, rfl⟩ := h
    exact ⟨rfl, rfl⟩
  | some e =>
    simp only [lowerForCondition, run_bind_eq_ok, run_withSlots_eq_ok, run_pure_eq_ok] at h
    obtain ⟨test, _, ⟨ht, rfl⟩, rfl, rfl⟩ := h
    exact ⟨⟨test, ht, rfl⟩, rfl⟩

theorem lowerStmt_ifThen {cond : Expr} {yes : Stmt}
    (h : (lowerStmt cx loop (.ifThen span cond yes)).run st = .ok (frag, st')) :
    ∃ test yesCode, TestCode cx st.slots (label "if_end" st.nextLabel) test (some cond) ∧
      (lowerStmt cx loop yes).run st.numbered = .ok (yesCode, st') ∧
      frag.lines = test ++ yesCode.lines ++ [.label (label "if_end" st.nextLabel)] := by
  simp only [lowerStmt, run_bind_eq_ok, run_freshLabel, Except.ok.injEq, Prod.mk.injEq, run_withSlots_eq_ok,
    run_pure_eq_ok] at h
  obtain ⟨_, _, ⟨rfl, rfl⟩, test, _, ⟨ht, rfl⟩, yesCode, _, hy, rfl, rfl⟩ := h
  exact ⟨_, yesCode, ⟨test, ht, rfl⟩, hy, by simp⟩

theorem lowerStmt_ifElse {cond : Expr} {yes no : Stmt}
    (h : (lowerStmt cx loop (.ifElse span cond yes no)).run st = .ok (frag, st')) :
    ∃ test yesCode st₁ noCode, TestCode cx st.slots (label "if_else" st.nextLabel) test (some cond) ∧
      (lowerStmt cx loop yes).run st.numbered = .ok (yesCode, st₁) ∧
        (lowerStmt cx loop no).run st₁ = .ok (noCode, st') ∧
      frag.lines = test ++ yesCode.lines ++
        (if yes.diverges then [] else [.instr (.jump .jmp (label "if_end" st.nextLabel))]) ++
        .label (label "if_else" st.nextLabel) :: noCode.lines ++ [.label (label "if_end" st.nextLabel)] := by
  simp only [lowerStmt, run_bind_eq_ok, run_freshLabel, Except.ok.injEq, Prod.mk.injEq, run_withSlots_eq_ok,
    run_pure_eq_ok] at h
  obtain ⟨_, _, ⟨rfl, rfl⟩, test, _, ⟨ht, rfl⟩, yesCode, st₁, hy, noCode, _, hn, rfl, rfl⟩ := h
  exact ⟨_, yesCode, st₁, noCode, ⟨test, ht, rfl⟩, hy, hn, by split <;> simp⟩

theorem lowerStmt_while {cond : Expr} {body : Stmt}
    (h : (lowerStmt cx loop (.while_ span cond body)).run st = .ok (frag, st')) :
    ∃ test bodyCode, TestCode cx st.slots (label "while_end" st.nextLabel) test (some cond) ∧
      (lowerStmt cx (some ⟨label "while_end" st.nextLabel, label "while_head" st.nextLabel⟩) body).run st.numbered =
        .ok (bodyCode, st') ∧
      frag.lines = .label (label "while_head" st.nextLabel) :: test ++ bodyCode.lines ++
        [.instr (.jump .jmp (label "while_head" st.nextLabel)), .label (label "while_end" st.nextLabel)] := by
  simp only [lowerStmt, run_bind_eq_ok, run_freshLabel, Except.ok.injEq, Prod.mk.injEq, run_withSlots_eq_ok,
    run_pure_eq_ok] at h
  obtain ⟨_, _, ⟨rfl, rfl⟩, test, _, ⟨ht, rfl⟩, bodyCode, _, hb, rfl, rfl⟩ := h
  exact ⟨_, bodyCode, ⟨test, ht, rfl⟩, hb, by simp⟩

theorem lowerStmt_doWhile {cond : Expr} {body : Stmt}
    (h : (lowerStmt cx loop (.doWhile span body cond)).run st = .ok (frag, st')) :
    ∃ bodyCode test,
      (lowerStmt cx (some ⟨label "do_end" st.nextLabel, label "do_cond" st.nextLabel⟩) body).run st.numbered =
        .ok (bodyCode, st') ∧
      lowerCondition cx st'.slots cond = .ok test ∧
      frag.lines = .label (label "do_body" st.nextLabel) :: bodyCode.lines ++
        .label (label "do_cond" st.nextLabel) :: test.lines ++
          [.instr (.jump .jnz (label "do_body" st.nextLabel)), .label (label "do_end" st.nextLabel)] := by
  simp only [lowerStmt, run_bind_eq_ok, run_freshLabel, Except.ok.injEq, Prod.mk.injEq, run_withSlots_eq_ok,
    run_pure_eq_ok] at h
  obtain ⟨_, _, ⟨rfl, rfl⟩, bodyCode, _, hb, test, _, ⟨ht, rfl⟩, rfl, rfl⟩ := h
  exact ⟨bodyCode, test, hb, ht, by simp⟩

/-- a step only looks at the addresses -/
theorem lowerStmt_ofStep {step : Option Expr} (h : (lowerStmt cx loop (.ofStep span step)).run st = .ok (frag, st')) :
    st' = st := by
  cases step with
  | none =>
    simp only [Stmt.ofStep, lowerStmt, run_pure_eq_ok] at h
    exact h.2.symm
  | some e =>
    simp only [Stmt.ofStep, lowerStmt, run_withSlots_eq_ok] at h
    exact h.2.symm

theorem lowerStmt_for {init : ForInit} {cond step : Option Expr} {body : Stmt}
    (h : (lowerStmt cx loop (.for_ span init cond step body)).run st = .ok (frag, st')) :
    ∃ initCode st₁ test bodyCode stepCode, (lowerStmt cx loop (init.stmt span)).run st.numbered = .ok (initCode, st₁) ∧
      TestCode cx st₁.slots (label "for_end" st.nextLabel) test cond ∧
      (lowerStmt cx (some ⟨label "for_end" st.nextLabel, label "for_step" st.nextLabel⟩) body).run st₁ =
        .ok (bodyCode, st') ∧
      (lowerStmt cx loop (.ofStep span step)).run st' = .ok (stepCode, st') ∧
      frag.lines = initCode.lines ++ .label (label "for_head" st.nextLabel) :: test ++ bodyCode.lines ++
        .label (label "for_step" st.nextLabel) :: stepCode.lines ++
          [.instr (.jump .jmp (label "for_head" st.nextLabel)), .label (label "for_end" st.nextLabel)] := by
  simp only [lowerStmt, lowerForInit_eq loop span, lowerStep_eq loop span, run_bind_eq_ok, run_freshLabel,
    Except.ok.injEq, Prod.mk.injEq, run_pure_eq_ok] at h
  obtain ⟨_, _, ⟨rfl, rfl⟩, initCode, st₁, hi, test, _, ht, bodyCode, st₂, hb, stepCode, _, hs, rfl, rfl⟩ := h
  obtain ⟨htest, rfl⟩ := lowerForCondition_eq_ok ht
  obtain rfl := lowerStmt_ofStep hs
  exact ⟨initCode, _, test.lines, bodyCode, stepCode, hi, htest, hb, hs, by simp⟩

theorem lowerStmt_break (h : (lowerStmt cx loop (.break_ span)).run st = .ok (frag, st')) :
    ∃ l, loop = some l ∧ st' = st ∧ frag.lines = [.instr (.jump .jmp l.breakTo)] := by
  cases loop with
  | none =>
    simp only [lowerStmt, run_throw] at h
    cases h
  | some l =>
    simp only [lowerStmt, run_pure_eq_ok] at h
    obtain ⟨rfl, rfl⟩ := h
    exact ⟨l, rfl, rfl, rfl⟩

theorem lowerStmt_continue (h : (lowerStmt cx loop (.continue_ span)).run st = .ok (frag, st')) :
    ∃ l, loop = some l ∧ st' = st ∧ frag.lines = [.instr (.jump .jmp l.continueTo)] := by
  cases loop with
  | none =>
    simp only [lowerStmt, run_throw] at h
    cases h
  | some l =>
    simp only [lowerStmt, run_pure_eq_ok] at h
    obtain ⟨rfl, rfl⟩ := h
    exact ⟨l, rfl, rfl, rfl⟩

theorem lowerStmt_return (h : (lowerStmt cx loop (.return_ span none)).run st = .ok (frag, st')) :
    st' = st ∧ frag.lines = [.instr (.bare .rtn)] := by
  simp only [lowerStmt, lowerReturn, run_pure_eq_ok] at h
  obtain ⟨rfl, rfl⟩ := h
  exact ⟨rfl, rfl⟩

theorem lowerStmt_returnValue {e : Expr} (h : (lowerStmt cx loop (.return_ span (some e))).run st = .ok (frag, st')) :
    ∃ frame a inner, cx.frames.lookup cx.function = some frame ∧ frame.result = some a ∧
      lowerExpr cx st.slots true e = .ok inner ∧ st' = st ∧
      frag.lines = inner.lines ++ [.instr (popA a), .instr (.bare .rtn)] := by
  simp only [lowerStmt, lowerReturn, run_bind_eq_ok, run_withSlots_eq_ok] at h
  obtain ⟨inner, _, ⟨hi, rfl⟩, h⟩ := h
  split at h
  · rw [run_throw] at h
    cases h
  · rename_i a ha
    rw [run_pure_eq_ok] at h
    obtain ⟨rfl, rfl⟩ := h
    obtain ⟨frame, hframe, hresult⟩ := Option.bind_eq_some_iff.1 ha
    exact ⟨frame, a, inner, hframe, hresult, hi, rfl, rfl⟩

theorem lowerStmt_expr {e : Expr} (h : (lowerStmt cx loop (.expr span e)).run st = .ok (frag, st')) :
    lowerEffect cx st.slots e = .ok frag ∧ st' = st := by
  simp only [lowerStmt, run_withSlots_eq_ok] at h
  exact ⟨h.1, h.2.symm⟩

theorem lowerStmt_empty (h : (lowerStmt cx loop (.empty span)).run st = .ok (frag, st')) :
    st' = st ∧ frag.lines = [] := by
  simp only [lowerStmt, run_pure_eq_ok] at h
  obtain ⟨rfl, rfl⟩ := h
  exact ⟨rfl, rfl⟩

theorem lowerStmts_nil (h : (lowerStmts cx loop []).run st = .ok (frag, st')) : st' = st ∧ frag.lines = [] := by
  simp only [lowerStmts, run_pure_eq_ok] at h
  obtain ⟨rfl, rfl⟩ := h
  exact ⟨rfl, rfl⟩

theorem lines_unreachableWarning (rest : List Stmt) : (unreachableWarning rest).lines = [] := by
  unfold unreachableWarning
  split <;> rfl

/-- nothing is lowered after a statement that diverges -/
theorem lowerStmts_cons_diverges {s : Stmt} {rest : List Stmt} (hs : s.diverges = true)
    (h : (lowerStmts cx loop (s :: rest)).run st = .ok (frag, st')) :
    ∃ first, (lowerStmt cx loop s).run st = .ok (first, st') ∧ frag.lines = first.lines := by
  simp only [lowerStmts, hs, if_true, run_bind_eq_ok, run_pure_eq_ok] at h
  obtain ⟨first, _, hf, rfl, rfl⟩ := h
  exact ⟨first, hf, by simp [lines_unreachableWarning]⟩

theorem lowerStmts_cons {s : Stmt} {rest : List Stmt} (hs : s.diverges = false)
    (h : (lowerStmts cx loop (s :: rest)).run st = .ok (frag, st')) :
    ∃ first st₁ more, (lowerStmt cx loop s).run st = .ok (first, st₁) ∧
      (lowerStmts cx loop rest).run st₁ = .ok (more, st') ∧ frag.lines = first.lines ++ more.lines := by
  simp only [lowerStmts, hs, Bool.false_eq_true, if_false, run_bind_eq_ok, run_pure_eq_ok] at h
  obtain ⟨first, st₁, hf, more, _, hm, rfl, rfl⟩ := h
  exact ⟨first, st₁, more, hf, hm, rfl⟩

end Stmt

/-! ## Programs -/

section Program

variable {cx : Context} {frag : Fragment} {st st' : Storage}

theorem lowerGlobals_nil (h : (lowerGlobals cx []).run st = .ok (frag, st')) : st' = st ∧ frag.lines = [] := by
  simp only [lowerGlobals, run_pure_eq_ok] at h
  obtain ⟨rfl, rfl⟩ := h
  exact ⟨rfl, rfl⟩

theorem lowerGlobals_zero {d : VarDecl} {a : Address} {rest : List (VarDecl × Address)} (hd : d.init = none)
    (h : (lowerGlobals cx ((d, a) :: rest)).run st = .ok (frag, st')) :
    ∃ more, (lowerGlobals cx rest).run st = .ok (more, st') ∧
      frag.lines = .instr (.store (.zero d.ty.family) a) :: more.lines := by
  simp only [lowerGlobals, hd, run_bind_eq_ok, run_pure_eq_ok] at h
  obtain ⟨_, _, ⟨rfl, rfl⟩, more, _, hm, rfl, rfl⟩ := h
  exact ⟨more, hm, rfl⟩

theorem lowerGlobals_value {d : VarDecl} {a : Address} {rest : List (VarDecl × Address)} {e : Expr}
    (hd : d.init = some e) (h : (lowerGlobals cx ((d, a) :: rest)).run st = .ok (frag, st')) :
    ∃ inner more, lowerExpr cx st.slots true e = .ok inner ∧ (lowerGlobals cx rest).run st = .ok (more, st') ∧
      frag.lines = inner.lines ++ .instr (popA a) :: more.lines := by
  simp only [lowerGlobals, hd, run_bind_eq_ok, run_withSlots_eq_ok, run_pure_eq_ok] at h
  obtain ⟨inner, _, ⟨hi, rfl⟩, _, _, ⟨rfl, rfl⟩, more, _, hm, rfl, rfl⟩ := h
  exact ⟨inner, more, hi, hm, by simp⟩

theorem lines_foldl_params (ps : List Param) (acc : Fragment) :
    (ps.foldl (fun acc p => acc ++ .symbol p.span .parameter) acc).lines = acc.lines := by
  induction ps generalizing acc with
  | nil => rfl
  | cons p rest ih => simp [ih]

theorem lowerFunction_eq_ok {f : FunctionDecl} (h : (lowerFunction cx f).run st = .ok (frag, st')) :
    ∃ body, (lowerStmts { cx with function := f.name } none f.body).run st = .ok (body, st') ∧
      frag.lines = .label (functionLabel f.name) :: body.lines ++
        (if Stmt.anyDiverges f.body then [] else [.instr (.bare .rtn)]) := by
  simp only [lowerFunction, run_bind_eq_ok, run_pure_eq_ok] at h
  obtain ⟨body, _, hb, rfl, rfl⟩ := h
  refine ⟨body, hb, ?_⟩
  split <;> simp [lines_foldl_params]

theorem lowerFunctions_nil (h : (lowerFunctions cx []).run st = .ok (frag, st')) : st' = st ∧ frag.lines = [] := by
  simp only [lowerFunctions, run_pure_eq_ok] at h
  obtain ⟨rfl, rfl⟩ := h
  exact ⟨rfl, rfl⟩

theorem lowerFunctions_cons {f : FunctionDecl} {rest : List FunctionDecl}
    (h : (lowerFunctions cx (f :: rest)).run st = .ok (frag, st')) :
    ∃ first st₁ more, (lowerFunction cx f).run st = .ok (first, st₁) ∧
      (lowerFunctions cx rest).run st₁ = .ok (more, st') ∧ frag.lines = first.lines ++ more.lines := by
  simp only [lowerFunctions, run_bind_eq_ok, run_pure_eq_ok] at h
  obtain ⟨first, st₁, hf, more, _, hm, rfl, rfl⟩ := h
  exact ⟨first, st₁, more, hf, hm, rfl⟩

end Program

end Codegen

/-- the parts of a generated program -/
structure Program.Parts (p : Program) (info : TypeInfo) (out : Generated) where
  addresses : List Address
  bound : Codegen.Storage
  frames : List (String × Codegen.Frame)
  framed : Codegen.Storage
  entry : Codegen.Fragment
  entered : Codegen.Storage
  functions : Codegen.Fragment
  final : Codegen.Storage
  bindGlobals : (Codegen.bindGlobals p.globals).run ⟨#[], [], 0⟩ = .ok (addresses, bound)
  bindFrames : (Codegen.bindFrames [] p.functions).run bound = .ok (frames, framed)
  lowerGlobals :
    (Codegen.lowerGlobals ⟨info, .ofFunctions p.functions, frames, ""⟩ (p.globals.zip addresses)).run framed =
    .ok (entry, entered)
  lowerFunctions : (Codegen.lowerFunctions ⟨info, .ofFunctions p.functions, frames, ""⟩ p.functions).run entered =
    .ok (functions, final)
  lines : out.lines = (p.globals.zip addresses).map (fun x => .read x.2 x.1.name) ++ entry.lines ++
    [.instr (.jump .call (Codegen.functionLabel "main")), .instr (.bare .halt)] ++ functions.lines
  destinations : out.destinations = final.destinations.toList

/-- the parts of a generated program, and where its warnings come from -/
theorem Program.exists_parts {p : Program} {info : TypeInfo} {out : Generated} (h : p.generate info = .ok out) :
    ∃ parts : p.Parts info out, out.warnings = parts.entry.warnings ++ parts.functions.warnings := by
  simp only [Program.generate, bind_eq_ok, pure_eq_ok, Prod.exists, Codegen.lowerProgram, Codegen.run_bind_eq_ok,
    Codegen.run_pure_eq_ok] at h
  obtain ⟨_, _, ⟨addresses, bound, hg, frames, framed, hf, entry, entered, he, functions, final, hfs, rfl, rfl⟩,
    rfl⟩ := h
  refine ⟨⟨addresses, bound, frames, framed, entry, entered, functions, final, hg, hf, he, hfs, ?_, rfl⟩, ?_⟩
  · simp [Codegen.globalSymbols, Codegen.readLines]
  · simp [Codegen.globalSymbols, Codegen.readLines, Codegen.Fragment.emit]

theorem Program.nonempty_parts {p : Program} {info : TypeInfo} {out : Generated} (h : p.generate info = .ok out) :
    Nonempty (p.Parts info out) := by
  obtain ⟨parts, -⟩ := exists_parts h
  exact ⟨parts⟩

end C15

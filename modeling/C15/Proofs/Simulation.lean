/-
Code of expressions does what the expressions do.

A `Linked` program is one loaded into the machine with the code of its functions in place. For each relation of the
semantics on expressions there is a predicate that says what it means for the code (`ExprRuns`, `ArgsRun`, `CallRuns`,
`TestRuns`), and for each rule one lemma: the predicate holds of the whole if it holds of the parts. The code of an
expression leaves its value on the stack, unless it is dropped, and memory and events as the evaluation leaves cells and
events.
-/
import C15.Proofs.Machine

namespace C15

open Semantics Machine

/-! ## Selected instructions compute their operators -/

section Selection

variable (ops : Operators) {x y : UInt32}

theorem compute_select {op : BinOp} {f : Family} {i : BareOp} (h : op.select f = some i) :
    compute ops i x y = some (ops.binary op f x y) := by
  cases op with
  | and | or =>
    obtain rfl := Option.some.inj h
    rw [ops.binary_logical _ f]
    · rfl
    · rfl
  | bitAnd | bitOr | bitXor | shl | shr =>
    cases f with
    | float => cases h
    | unsigned =>
      obtain rfl := Option.some.inj h
      rfl
    | signed =>
      obtain rfl := Option.some.inj h
      rw [ops.binary_bits]
      · rfl
      · rfl
  | add | sub | mul | div | rem | lt | gt | le | ge | eq | ne =>
    cases f <;> cases h <;> rfl

theorem compute_negation (f : Family) : compute ops f.negation x y = some (ops.unary .neg f x) := by
  cases f <;> rfl

theorem compute_step (op : UpdateOp) (f : Family) :
    compute ops (op.select f) x y = some (ops.step op.isIncrement f x) := by
  cases op <;> cases f <;> rfl

/-- a conversion is an instruction, or changes nothing -/
theorem compute_conversion (source target : Family) :
    (∃ i, source.conversion target = some i ∧ ∀ y, compute ops i x y = some (ops.convert source target x)) ∨
      source.conversion target = none ∧ ops.convert source target x = x := by
  cases source with
  | float =>
    cases target with
    | float => exact Or.inr ⟨rfl, ops.convert_self .float x⟩
    | signed => exact Or.inl ⟨_, rfl, fun _ => congrArg some (congrFun ops.convert_ofFloat x).symm⟩
    | unsigned => exact Or.inl ⟨_, rfl, fun _ => rfl⟩
  | signed =>
    cases target with
    | float => exact Or.inl ⟨_, rfl, fun _ => congrArg some (congrFun ops.convert_toFloat x).symm⟩
    | signed => exact Or.inr ⟨rfl, ops.convert_self .signed x⟩
    | unsigned => exact Or.inr ⟨rfl, (ops.convert_sign x).1⟩
  | unsigned =>
    cases target with
    | float => exact Or.inl ⟨_, rfl, fun _ => rfl⟩
    | signed => exact Or.inr ⟨rfl, (ops.convert_sign x).2⟩
    | unsigned => exact Or.inr ⟨rfl, ops.convert_self .unsigned x⟩

end Selection

/-! ## Linked programs -/

namespace Codegen

/-- the slots are the addresses of the variables' cells -/
def Sound (cells : List Cell) (slots : Slots) : Prop :=
  ∀ decl a, slots.lookup decl = some a → cells[a.index]? = some (.variable decl)

theorem Storage.Tracks.toSound {st : Storage} {cells more : List Cell} (h : st.Tracks cells) (hmore : cells <+: more) :
    Sound more st.slots := by
  obtain ⟨rest, rfl⟩ := hmore
  exact fun decl a ha => Storage.Tracks.get_append (h.sound decl a ha) rest

end Codegen

open Codegen Typing Loaded

/-- a program that checking has described and that is loaded with its functions in place -/
structure Linked extends Loaded where
  program : Program
  info : TypeInfo
  graph : CallGraph
  frames : List (String × Frame)
  /-- a frame has the address of its function's result -/
  framed : ∀ name frame a, frames.lookup name = some frame → frame.result = some a →
    cells[a.index]? = some (.result name)
  /-- a declared function is defined in the program -/
  declared : ∀ name sig, info.functions.lookup name = some sig →
    ∃ globals f, definition? name [] program.items = some (globals, f) ∧ f.signature = sig
  /-- a defined function has a frame, and its code is at its label -/
  defined : ∀ name globals f, definition? name [] program.items = some (globals, f) →
    f.name = name ∧ (f.params.map Param.cell).Nodup ∧
      (∃ frame, frames.lookup name = some frame ∧ frame.Placed cells f) ∧
      ∃ env : Env, env.scopes = Scopes.ofFunction globals f ∧ env.functions = info.functions ∧
        Stmt.RecordedAll info env f.body ∧
        ∃ st st' before body rest, st.Tracks before ∧ before ++ f.localCells <+: cells ∧
          (lowerStmts ⟨info, graph, frames, name⟩ none f.body).run st = .ok (body, st') ∧
          (.label (functionLabel name) :: body.lines ++
            (if Stmt.anyDiverges f.body then [] else [.instr (.bare .rtn)]) ++ rest) <:+ lines

/-- what is pushed for the value of an expression -/
def pushed (r : Option Value) : List StackEntry := r.toList.map fun v => .word v.word

/-- a value is of a type; `void` has none -/
def Typed : Option Value → Base → Prop
  | none, b => b = .void
  | some v, b => b = v.family.base

theorem BinOp.base_resultFamily (op : BinOp) (f : Family) :
    (op.resultFamily f).base = if op.isComparison || op.isLogical then .int else f.base := by
  unfold BinOp.resultFamily
  split <;> rfl

theorem UnOp.base_resultFamily (op : UnOp) (f : Family) :
    (op.resultFamily f).base = if op = .not then .int else f.base := by
  unfold UnOp.resultFamily
  split <;> rfl

theorem typed_of_perform {dev : Device} {σ σ' : World} {callee : Intrinsic} {words : List UInt32} {r : Option Value}
    (h : perform dev σ callee words = some (r, σ')) : Typed r callee.result := by
  cases callee with
  | setLed | loadA | loadB | push =>
    rcases words with _ | ⟨w, _ | ⟨v, rest⟩⟩
    · cases h
    · cases h
      rfl
    · cases h
  | tick | urand | popInt | popUInt | popFloat =>
    rcases words with _ | ⟨w, rest⟩
    · cases h
      rfl
    · cases h

namespace Linked

variable (P : Linked)

/-- what an expression is lowered with -/
structure Scene where
  cx : Context
  env : Env
  slots : Slots
  info_eq : cx.info = P.info
  frames_eq : cx.frames = P.frames
  functions_eq : env.functions = P.info.functions
  sound : Sound P.cells slots

/-! ## Predicates on code -/

/-- the code of an expression pushes its value, if that is used -/
def ExprRuns (scopes : Scopes) (e : Expr) (σ : World) (r : Option Value) (σ' : World) : Prop :=
  ∀ (here : P.Scene) (used : Bool) (b : Base) (frag : Fragment), here.env.scopes = scopes →
    e.Recorded P.info here.env b → lowerExpr here.cx here.slots used e = .ok frag →
    (used = true ∨ e.isDroppable = true) →
    Typed r b ∧ ∀ k S, P.Goes ⟨frag.lines ++ k, S, σ⟩ ⟨k, (if used then pushed r else []) ++ S, σ'⟩

/-- the code of arguments pushes their words from left to right -/
def ArgsRun (scopes : Scopes) (args : List Expr) (σ : World) (words : List UInt32) (σ' : World) : Prop :=
  ∀ (here : P.Scene) (frag : Fragment), here.env.scopes = scopes → Expr.RecordedValues P.info here.env args →
    lowerArgs here.cx here.slots args = .ok frag →
    words.length = args.length ∧ ∀ k S, P.Goes ⟨frag.lines ++ k, S, σ⟩ ⟨k, words.reverse.map .word ++ S, σ'⟩

/-- a call takes the words off the stack and leaves the value in the result's address -/
def CallRuns (name : String) (words : List UInt32) (σ : World) (r : Option Value) (σ' : World) : Prop :=
  ∀ (frame : Frame) (sig : Signature), P.frames.lookup name = some frame → P.info.functions.lookup name = some sig →
    words.length = sig.params.length →
    Typed r sig.result.base ∧
      (∀ k S, P.Goes ⟨(frame.params.reverse.map popA).map .instr ++ .instr (.jump .call (functionLabel name)) :: k,
        words.reverse.map .word ++ S, σ⟩ ⟨k, S, σ'⟩) ∧
      ∀ k S, P.Goes ⟨(frame.result.toList.map pushA).map .instr ++ k, S, σ'⟩ ⟨k, pushed r ++ S, σ'⟩

/-- the code of a condition pushes a word that is zero if the condition fails -/
def TestRuns (scopes : Scopes) (σ : World) (holds : Bool) (σ' : World) : Option Expr → Prop
  | none => holds = true ∧ σ' = σ
  | some e => ∃ w, holds = (w != 0) ∧ ∀ (here : P.Scene) (frag : Fragment), here.env.scopes = scopes →
      e.RecordedValue P.info here.env → lowerExpr here.cx here.slots true e = .ok frag →
      ∀ k S, P.Goes ⟨frag.lines ++ k, S, σ⟩ ⟨k, .word w :: S, σ'⟩

variable {P}

/-! ## Expressions -/

section Expr

variable {scopes : Scopes} {id : NodeId} {span : Span} {σ σ₁ σ₂ : World} {x y : Value} {r : Option Value}

/-- the code of an expression with a value, when the value is used -/
theorem ExprRuns.value {e : Expr} (h : P.ExprRuns scopes e σ (some x) σ₁) (here : P.Scene) {b : Base} {frag : Fragment}
    (hs : here.env.scopes = scopes) (hr : e.Recorded P.info here.env b)
    (hl : lowerExpr here.cx here.slots true e = .ok frag) :
    b = x.family.base ∧ ∀ k S, P.Goes ⟨frag.lines ++ k, S, σ⟩ ⟨k, .word x.word :: S, σ₁⟩ :=
  h here true b frag hs hr hl (Or.inl rfl)

/-- for an expression that always pushes its value it is enough to say so -/
theorem ExprRuns.of_value {e : Expr} (he : e.isDroppable = false)
    (h : ∀ (here : P.Scene) (b : Base) (used : Bool) (frag : Fragment), here.env.scopes = scopes →
      e.Recorded P.info here.env b → lowerExpr here.cx here.slots used e = .ok frag →
      Typed r b ∧ ∀ k S, P.Goes ⟨frag.lines ++ k, S, σ⟩ ⟨k, pushed r ++ S, σ₁⟩) : P.ExprRuns scopes e σ r σ₁ := by
  intro here used b frag hs hr hl hu
  have hu : used = true := hu.resolve_right (by simp [he])
  subst hu
  exact h here b true frag hs hr hl

theorem Scene.cell_of_slot (here : P.Scene) {v w : Variable} {a : Address} (hv : P.info.variableOf id = some v)
    (hw : here.cx.info.variableOf id = some w) (ha : here.slots.lookup w.decl = some a) :
    P.cells[a.index]? = some (.variable v.decl) := by
  rw [here.info_eq, hv] at hw
  obtain rfl := Option.some.inj hw
  exact here.sound v.decl a ha

theorem exprRuns_literal {value : Literal} :
    P.ExprRuns scopes (.literal id span value) σ (some ⟨value.family, value.bits⟩) σ := by
  refine ExprRuns.of_value rfl fun here b used frag hs hr hl => ⟨?_, fun k S => ?_⟩
  · obtain ⟨rfl, -⟩ := hr
    cases value <;> rfl
  · rw [lowerExpr_literal hl]
    exact goes_storePush

theorem exprRuns_ident {name : String} {v : Variable} {f : Family} (hv : scopes.find? name = some v)
    (hf : v.ty.family = some f) :
    P.ExprRuns scopes (.ident id span name) σ (some ⟨f, σ.store (.variable v.decl)⟩) σ := by
  refine ExprRuns.of_value rfl fun here b used frag hs hr hl => ?_
  obtain ⟨u, hu, hvar, -, rfl, -⟩ := hr
  obtain ⟨w, a, hw, ha, hlines⟩ := lowerExpr_ident hl
  rw [Env.find?_eq, hs, hv] at hu
  obtain rfl := Option.some.inj hu
  refine ⟨Base.family_eq_some.1 hf, fun k S => ?_⟩
  rw [hlines]
  exact goes_push (here.cell_of_slot hvar hw ha)

theorem exprRuns_binary {op : BinOp} {lhs rhs : Expr} (hl : P.ExprRuns scopes lhs σ (some x) σ₁)
    (hr : P.ExprRuns scopes rhs σ₁ (some y) σ₂) :
    P.ExprRuns scopes (.binary id span op lhs rhs) σ
      (some ⟨op.resultFamily x.family, P.ops.binary op x.family x.word y.word⟩) σ₂ := by
  refine ExprRuns.of_value rfl fun here b used frag hs hrec hlower => ?_
  obtain ⟨f, hlrec, hrrec, -, rfl, -⟩ := hrec
  obtain ⟨g, i, left, right, hg, hi, hleft, hright, hlines⟩ := lowerExpr_binary hlower
  obtain ⟨hbase, goesLeft⟩ := hl.value here hs hlrec hleft
  obtain ⟨-, goesRight⟩ := hr.value here hs hrrec hright
  -- the family that the instruction is selected for is that of the left value
  have hfx : f = x.family := Family.base_inj.1 hbase
  have hgf : g = f := by
    rw [here.info_eq, hlrec.familyOf] at hg
    exact (Option.some.inj hg).symm
  subst hgf hfx
  refine ⟨?_, fun k S => ?_⟩
  · exact (op.base_resultFamily x.family).symm
  · rw [hlines, List.append_assoc, List.append_assoc]
    calc
      P.Goes _ ⟨_, _, σ₁⟩ := goesLeft _ S
      P.Goes _ ⟨_, _, σ₂⟩ := goesRight _ _
      P.Goes _ _ := goes_computeTwo (compute_select P.ops hi)

/-- the instructions after an operand do what the operator does -/
theorem goes_unaryCode {op : UnOp} {f : Family} {w : UInt32} {k : List Line} {S : List StackEntry}
    (hf : op = .bitNot → f ≠ .float) :
    P.Goes ⟨(unaryCode op f).map .instr ++ k, .word w :: S, σ⟩ ⟨k, .word (P.ops.unary op f w) :: S, σ⟩ := by
  cases op with
  | neg => exact goes_computeOne fun _ => compute_negation P.ops f
  | not =>
    refine goes_computeOne fun _ => ?_
    rw [P.ops.unary_not f]
    rfl
  | bitNot =>
    have hselect : BinOp.select .bitXor f = some .xor := by
      cases f with
      | float => exact absurd rfl (hf rfl)
      | signed | unsigned => rfl
    have hones (value : Literal) (hbits : value.bits = 0xFFFFFFFF) :
        P.Goes ⟨.instr (.storePush value) :: (computeTwo .xor).map .instr ++ k, .word w :: S, σ⟩
          ⟨k, .word (P.ops.unary .bitNot f w) :: S, σ⟩ := by
      rw [P.ops.unary_bitNot f w (hf rfl), ← hbits]
      exact goes_storePush.trans (goes_computeTwo (compute_select P.ops hselect))
    refine hones _ ?_
    split <;> rfl

theorem exprRuns_unary {op : UnOp} {operand : Expr} (h : P.ExprRuns scopes operand σ (some x) σ₁) :
    P.ExprRuns scopes (.unary id span op operand) σ
      (some ⟨op.resultFamily x.family, P.ops.unary op x.family x.word⟩) σ₁ := by
  refine ExprRuns.of_value rfl fun here b used frag hs hrec hlower => ?_
  obtain ⟨f, hrec, hbit, rfl, -⟩ := hrec
  obtain ⟨g, inner, hg, hinner, hlines⟩ := lowerExpr_unary hlower
  obtain ⟨hbase, goes⟩ := h.value here hs hrec hinner
  have hfx : f = x.family := Family.base_inj.1 hbase
  have hgf : g = f := by
    rw [here.info_eq, hrec.familyOf] at hg
    exact (Option.some.inj hg).symm
  subst hgf hfx
  refine ⟨(op.base_resultFamily x.family).symm, fun k S => ?_⟩
  rw [hlines, List.append_assoc]
  exact (goes _ S).trans (goes_unaryCode hbit)

theorem exprRuns_update {op : UpdateOp} {targetId : NodeId} {targetSpan : Span} {target : String} {v : Variable}
    {f : Family} {old new : UInt32} (hv : scopes.find? target = some v) (hf : v.ty.family = some f)
    (hold : old = σ.store (.variable v.decl)) (hnew : new = P.ops.step op.isIncrement f old) :
    P.ExprRuns scopes (.update id span op targetId targetSpan target) σ (some ⟨f, if op.isPost then old else new⟩)
      (σ.write (.variable v.decl) new) := by
  intro here used b frag hs hrec hlower _
  obtain ⟨u, hu, hvar, -, -, rfl, ht⟩ := hrec
  obtain ⟨w, a, g, hw, ha, hg, hlines⟩ := lowerExpr_update hlower
  rw [Env.find?_eq, hs, hv] at hu
  obtain rfl := Option.some.inj hu
  have hbase : v.ty.base = f.base := Base.family_eq_some.1 hf
  have hgf : g = f := by
    rw [here.info_eq, TypeInfo.familyOf, ht, hbase, Option.bind_some, Family.family_base] at hg
    exact (Option.some.inj hg).symm
  subst hgf
  have hcell := here.cell_of_slot hvar hw ha
  refine ⟨hbase, fun k S => ?_⟩
  have store (k : List Line) (S : List StackEntry) :
      P.Goes ⟨.instr (loadA a) :: .instr (.bare (op.select g)) :: .instr (saveA a) :: k, S, σ⟩
        ⟨k, S, σ.write (.variable v.decl) new⟩ := by
    refine goes_stepSave hcell fun _ => ?_
    rw [hnew, hold]
    exact compute_step P.ops op g
  rw [hlines]
  cases used with
  | false => exact store _ _
  | true =>
    -- the old value is pushed before the step, the new one after it
    cases hpost : op.isPost with
    | true =>
      simp only [updateCode, hpost]
      subst hold
      exact (goes_push hcell).trans (store _ _)
    | false =>
      simp only [updateCode, hpost]
      exact (store _ _).trans (goes_pushWritten hcell)

theorem exprRuns_assign {target : String} {targetSpan : Span} {value : Expr} {v : Variable} {f : Family}
    (hv : scopes.find? target = some v) (hf : v.ty.family = some f) (h : P.ExprRuns scopes value σ (some x) σ₁) :
    P.ExprRuns scopes (.assign id span none target targetSpan value) σ (some ⟨f, x.word⟩)
      (σ₁.write (.variable v.decl) x.word) := by
  intro here used b frag hs hrec hlower _
  obtain ⟨u, g, hu, hvar, -, hbase, hrec, -, rfl, -⟩ := hrec
  obtain ⟨w, a, inner, hw, ha, hinner, hlines⟩ := lowerExpr_assign hlower
  rw [Env.find?_eq, hs, hv] at hu
  obtain rfl := Option.some.inj hu
  have hcell := here.cell_of_slot hvar hw ha
  obtain ⟨-, goes⟩ := h.value here hs hrec hinner
  refine ⟨hbase.symm.trans (Base.family_eq_some.1 hf), fun k S => ?_⟩
  rw [hlines]
  cases used with
  | false =>
    simp only [Bool.false_eq_true, if_false, List.append_nil, List.append_assoc]
    exact (goes _ S).trans (goes_pop hcell)
  | true =>
    simp only [if_true, List.append_assoc]
    calc
      P.Goes _ ⟨_, _, σ₁⟩ := goes _ S
      P.Goes _ ⟨_, _, _⟩ := goes_pop hcell
      P.Goes _ _ := goes_pushWritten hcell

theorem exprRuns_compound {op : BinOp} {target : String} {targetSpan : Span} {value : Expr} {v : Variable} {f : Family}
    {w : UInt32} (hv : scopes.find? target = some v) (hf : v.ty.family = some f)
    (h : P.ExprRuns scopes value σ (some x) σ₁) (hw : w = P.ops.binary op f (σ.store (.variable v.decl)) x.word) :
    P.ExprRuns scopes (.assign id span (some op) target targetSpan value) σ (some ⟨f, w⟩)
      (σ₁.write (.variable v.decl) w) := by
  intro here used b frag hs hrec hlower _
  obtain ⟨u, g, hu, hvar, -, hbase, hrec, -, rfl, -⟩ := hrec
  obtain ⟨z, a, g', i, inner, hz, ha, hg', hi, hinner, hlines⟩ := lowerExpr_compound hlower
  rw [Env.find?_eq, hs, hv] at hu
  obtain rfl := Option.some.inj hu
  have hcell := here.cell_of_slot hvar hz ha
  obtain ⟨-, goes⟩ := h.value here hs hrec hinner
  -- the instruction is selected for the family of the value, which is that of the variable
  have hgf : g = f := Family.base_inj.1 (hbase.symm.trans (Base.family_eq_some.1 hf))
  have hgg : g' = g := by
    rw [here.info_eq, hrec.familyOf] at hg'
    exact (Option.some.inj hg').symm
  subst hgg hgf hw
  refine ⟨rfl, fun k S => ?_⟩
  rw [hlines]
  cases used with
  | false =>
    simp only [Bool.false_eq_true, if_false, List.append_nil, List.append_assoc, List.cons_append]
    calc
      P.Goes _ ⟨_, _, σ⟩ := goes_push hcell
      P.Goes _ ⟨_, _, σ₁⟩ := goes _ _
      P.Goes _ _ := goes_computeSave (compute_select P.ops hi) hcell
  | true =>
    simp only [if_true, List.append_assoc, List.cons_append]
    calc
      P.Goes _ ⟨_, _, σ⟩ := goes_push hcell
      P.Goes _ ⟨_, _, σ₁⟩ := goes _ _
      P.Goes _ ⟨_, _, _⟩ := goes_computeSave (compute_select P.ops hi) hcell
      P.Goes _ _ := goes_pushWritten hcell

theorem exprRuns_cast {base : Base} {operand : Expr} {f : Family} (h : P.ExprRuns scopes operand σ (some x) σ₁)
    (hf : base.family = some f) :
    P.ExprRuns scopes (.cast id span base operand) σ (some ⟨f, P.ops.convert x.family f x.word⟩) σ₁ := by
  refine ExprRuns.of_value rfl fun here b used frag hs hrec hlower => ?_
  obtain ⟨⟨g, hrec⟩, rfl, -⟩ := hrec
  obtain ⟨source, target, inner, hsource, htarget, hinner, hlines⟩ := lowerExpr_cast hlower
  obtain ⟨hbase, goes⟩ := h.value here hs hrec hinner
  have hgx : g = x.family := Family.base_inj.1 hbase
  have hsg : source = g := by
    rw [here.info_eq, hrec.familyOf] at hsource
    exact (Option.some.inj hsource).symm
  have htf : target = f := Option.some.inj (htarget.symm.trans hf)
  subst hsg hgx htf
  refine ⟨Base.family_eq_some.1 hf, fun k S => ?_⟩
  rw [hlines, List.append_assoc]
  refine (goes _ S).trans ?_
  rcases compute_conversion P.ops (x := x.word) x.family target with ⟨i, hi, hcompute⟩ | ⟨hnone, hsame⟩
  · rw [hi]
    exact goes_computeOne hcompute
  · rw [hnone, hsame]
    exact Goes.refl _

theorem exprRuns_intrinsic {callee : Intrinsic} {calleeSpan : Span} {args : List Expr} {words : List UInt32}
    (h : P.ArgsRun scopes args σ words σ₁) (hperform : perform P.dev σ₁ callee words = some (r, σ₂)) :
    P.ExprRuns scopes (.intrinsic id span callee calleeSpan args) σ r σ₂ := by
  refine ExprRuns.of_value rfl fun here b used frag hs hrec hlower => ?_
  obtain ⟨-, hrec, rfl, -⟩ := hrec
  obtain ⟨inner, hinner, hlines⟩ := lowerExpr_intrinsic hlower
  obtain ⟨-, goes⟩ := h here inner hs hrec hinner
  refine ⟨typed_of_perform hperform, fun k S => ?_⟩
  rw [hlines, List.append_assoc]
  exact (goes _ S).trans (goes_intrinsic hperform)

theorem exprRuns_call {callee : String} {calleeSpan : Span} {args : List Expr} {words : List UInt32}
    (hargs : P.ArgsRun scopes args σ words σ₁) (hcall : P.CallRuns callee words σ₁ r σ₂) :
    P.ExprRuns scopes (.call id span callee calleeSpan args) σ r σ₂ := by
  intro here used b frag hs hrec hlower _
  obtain ⟨sig, hsig, hrec, rfl, -⟩ := hrec
  obtain ⟨frame, inner, hframe, hinner, hlines⟩ := lowerExpr_call hlower
  obtain ⟨hparams, hvalues⟩ := recordedValues_of_args sig.params args hrec
  obtain ⟨hlength, goesArgs⟩ := hargs here inner hs hvalues hinner
  rw [here.frames_eq] at hframe
  rw [Env.signature?, here.functions_eq] at hsig
  obtain ⟨htyped, goesCall, goesResult⟩ := hcall frame sig hframe hsig (hlength.trans hparams.symm)
  refine ⟨htyped, fun k S => ?_⟩
  rw [hlines]
  simp only [List.append_assoc, List.singleton_append]
  refine (goesArgs _ S).trans ((goesCall _ S).trans ?_)
  cases used with
  | false => exact Goes.refl _
  | true => exact goesResult k S

theorem argsRun_nil : P.ArgsRun scopes [] σ [] σ := by
  intro here frag hs _ hlower
  refine ⟨rfl, fun k S => ?_⟩
  rw [lowerArgs_nil hlower]
  exact Goes.refl _

theorem argsRun_cons {arg : Expr} {args : List Expr} {words : List UInt32} (h : P.ExprRuns scopes arg σ (some x) σ₁)
    (hargs : P.ArgsRun scopes args σ₁ words σ₂) : P.ArgsRun scopes (arg :: args) σ (x.word :: words) σ₂ := by
  intro here frag hs hrec hlower
  obtain ⟨⟨f, hfirst⟩, hrest⟩ := hrec
  obtain ⟨first, rest, hf, hr, hlines⟩ := lowerArgs_cons hlower
  obtain ⟨-, goes⟩ := h.value here hs hfirst hf
  obtain ⟨hlength, goesRest⟩ := hargs here rest hs hrest hr
  refine ⟨by simp [hlength], fun k S => ?_⟩
  rw [hlines, List.append_assoc]
  have := (goes _ S).trans (goesRest k _)
  simpa using this

theorem testRuns_value {e : Expr} (h : P.ExprRuns scopes e σ (some x) σ₁) :
    P.TestRuns scopes σ (x.word != 0) σ₁ (some e) := by
  refine ⟨x.word, rfl, fun here frag hs hrec hlower => ?_⟩
  obtain ⟨f, hrec⟩ := hrec
  exact (h.value here hs hrec hlower).2

end Expr

end Linked

end C15

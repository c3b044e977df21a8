/-
The hardware stack in generated code.

An instruction puts one word on the stack, takes one off or leaves it alone; a call comes back with the stack as it was.
Adding up these effects along a walk from the entry or from a function gives the depth of the stack at each line,
relative to the start (`Line.Walk`).

The depth depends on the line alone. Added up over the lines from the top of the program, whichever way control went,
the effects of a statement's code cancel: an expression leaves its value and nothing else, and whoever uses the value
takes it off. So the sum is zero at every label, and at every line that control may leave to somewhere else than the
next (`Line.Levels`). Results:
- `lowerExpr_turns`: the code of an expression leaves one word, none for `void`;
- `lowerStmt_levels`: the code of a statement starts and ends with nothing on the stack, and so do its jumps;
- `Program.generate_keeps_depth`: at every line of a generated program the stack has one depth;
- `compile_keeps_depth`: so it has in the code of every source that compiles.
-/
import C15.Proofs.ControlFlow
import C15.Proofs.Capacity
import C15.Proofs.Spelling

namespace C15

/-! ## Effects -/

/-- words put on the stack less words taken off it -/
def Instruction.effect : Instruction → Int
  | .address .push _ | .storePush _ | .bare .savepush | .bare .movinpop => 1
  | .address .pop _ | .bare .getpopa | .bare .getpopb | .bare .getpopr | .bare .popnop | .bare .movoutpush => -1
  | _ => 0

namespace Line

def effect : Line → Int
  | .instr i => i.effect
  | _ => 0

/-- where control may come from elsewhere or go elsewhere: labels, jumps, `RTN` and `HALT` -/
def isPinned : Line → Bool
  | .label _ | .instr (.bare .rtn) | .instr (.bare .halt) => true
  | .instr (.jump op _) => !op.isCall
  | _ => false

theorem effect_of_isPinned {l : Line} (h : l.isPinned = true) : l.effect = 0 := by
  unfold isPinned at h
  split at h
  · rfl
  · rfl
  · rfl
  · rfl
  · cases h

/-- control that starts at a line gets to another, with this depth there -/
inductive Walk (lines : List Line) (start : Nat) : Nat → Int → Prop
  | here : Walk lines start start 0
  | step {i j : Nat} {d : Int} {l : Line} (h : Walk lines start i d) (hi : lines[i]? = some l)
      (hflow : Flow lines i j) : Walk lines start j (d + l.effect)

/-- lines one after the other lead from one depth to another, and the depth is zero at pinned lines -/
inductive Levels : List Line → Nat → Nat → Prop
  | nil {d : Nat} : Levels [] d d
  | cons {l : Line} {rest : List Line} {d m d' : Nat} (hpinned : l.isPinned = true → d = 0)
      (heffect : (m : Int) = d + l.effect) (hrest : Levels rest m d') : Levels (l :: rest) d d'

/-- the effects of the lines before a position -/
def depthAt (lines : List Line) (i : Nat) : Int := ((lines.take i).map effect).sum

theorem depthAt_succ {lines : List Line} {i : Nat} {l : Line} (hi : lines[i]? = some l) :
    depthAt lines (i + 1) = depthAt lines i + l.effect := by
  simp [depthAt, List.take_add_one, hi]

namespace Levels

variable {xs ys : List Line} {a b c : Nat}

theorem append (hx : Levels xs a b) (hy : Levels ys b c) : Levels (xs ++ ys) a c := by
  induction hx with
  | nil => exact hy
  | cons hpinned heffect _ ih => exact .cons hpinned heffect (ih hy)

theorem depthAt (h : Levels xs a b) {i : Nat} {l : Line} (hi : xs[i]? = some l) :
    ∃ m : Nat, (m : Int) = a + depthAt xs i ∧ (l.isPinned = true → m = 0) := by
  induction h generalizing i with
  | nil => cases hi
  | @cons first rest d m _ hpinned heffect _ ih =>
    rcases i with _ | i
    · obtain rfl := Option.some.inj hi
      exact ⟨d, by simp [Line.depthAt], hpinned⟩
    · obtain ⟨n, hn, hl⟩ := ih hi
      refine ⟨n, ?_, hl⟩
      rw [hn, heffect, Line.depthAt, Line.depthAt, List.take_succ_cons, List.map_cons, List.sum_cons, Int.add_assoc]

/-- **One depth.** The depth along a walk that starts with nothing on the stack is the sum over the lines before. -/
theorem walk (h : Levels xs 0 b) {start : Nat} (hstart : Line.depthAt xs start = 0) {i : Nat} {d : Int}
    (hwalk : Walk xs start i d) : d = Line.depthAt xs i := by
  have hzero {k : Nat} {l : Line} (hk : xs[k]? = some l) (hl : l.isPinned = true) : Line.depthAt xs k = 0 := by
    obtain ⟨m, hm, hpinned⟩ := h.depthAt hk
    have := hpinned hl
    omega
  induction hwalk with
  | here => exact hstart.symm
  | @step i j d l _ hi hflow ih =>
    cases hflow with
    | next => rw [ih, depthAt_succ hi]
    | @jump _ op t hjump hop hj =>
      -- from a jump to its label, both with nothing on the stack
      obtain rfl := Option.some.inj (hi.symm.trans hjump)
      have hpinned : (Line.instr (.jump op t)).isPinned = true := by simp [isPinned, hop]
      rw [ih, hzero hi hpinned, effect_of_isPinned hpinned, hzero hj rfl]
      rfl

/-- walks that start where nothing is on the stack find one depth at each line, and none at a pinned one -/
theorem exists_depth (h : Levels xs 0 b) : ∃ depth : Nat → Nat,
    ∀ start, (start = 0 ∨ ∃ l, xs[start]? = some l ∧ l.isPinned = true) → ∀ i d l, Walk xs start i d → xs[i]? = some l →
      d = depth i ∧ (l.isPinned = true → depth i = 0) := by
  refine ⟨fun i => (Line.depthAt xs i).toNat, fun start hstart i d l hwalk hi => ?_⟩
  have hzero : Line.depthAt xs start = 0 := by
    rcases hstart with rfl | ⟨first, hfirst, hpinned⟩
    · rfl
    · obtain ⟨m, hm, hnone⟩ := h.depthAt hfirst
      have := hnone hpinned
      omega
  obtain ⟨m, hm, hnone⟩ := h.depthAt hi
  have hdepth : Line.depthAt xs i = m := by omega
  simp only [h.walk hzero hwalk, hdepth, Int.toNat_natCast]
  exact ⟨trivial, hnone⟩

end Levels

/-! ## Code that takes words off the stack and leaves others -/

/-- code without pinned lines that needs some words on the stack and leaves others in their place -/
def Turns (k m : Nat) (lines : List Line) : Prop := ∀ d, Levels lines (k + d) (m + d)

namespace Turns

variable {k m n : Nat} {l : Line} {xs ys : List Line}

theorem nil : Turns k k [] := fun _ => .nil

theorem push (hl : l.effect = 1) (h : Turns (k + 1) n xs) : Turns k n (l :: xs) := by
  intro d
  refine .cons (fun hpinned => ?_) ?_ (h d)
  · rw [effect_of_isPinned hpinned] at hl
    cases hl
  · rw [hl]
    omega

theorem pop (hl : l.effect = -1) (h : Turns k n xs) : Turns (k + 1) n (l :: xs) := by
  intro d
  refine .cons (fun hpinned => ?_) ?_ (h d)
  · rw [effect_of_isPinned hpinned] at hl
    cases hl
  · rw [hl]
    omega

theorem stay (hl : l.isPinned = false) (heffect : l.effect = 0) (h : Turns k n xs) : Turns k n (l :: xs) := by
  intro d
  refine .cons (fun hpinned => ?_) ?_ (h d)
  · rw [hl] at hpinned
    cases hpinned
  · rw [heffect, Int.add_zero]

theorem append (hx : Turns k m xs) (hy : Turns m n ys) : Turns k n (xs ++ ys) := fun d => (hx d).append (hy d)

/-- words below are left alone -/
theorem frame (h : Turns k m xs) (j : Nat) : Turns (k + j) (m + j) xs := by
  intro d
  rw [Nat.add_assoc, Nat.add_assoc]
  exact h (j + d)

theorem levels (h : Turns k m xs) : Levels xs k m := h 0

end Turns

end Line

/-! ## Expressions -/

/-- words that a value of a type takes on the stack -/
def Base.words : Base → Nat
  | .void => 0
  | _ => 1

theorem Base.words_of_ne_void {b : Base} (h : b ≠ .void) : b.words = 1 := by
  cases b with
  | void => exact absurd rfl h
  | int | uint | float => rfl

theorem Family.words_base (f : Family) : f.base.words = 1 := by cases f <;> rfl

/-- computing leaves the stack alone -/
def BareOp.IsPlain (op : BareOp) : Prop := (Line.instr (.bare op)).isPinned = false ∧ (Line.instr (.bare op)).effect = 0

theorem BinOp.isPlain_of_select {op : BinOp} {f : Family} {i : BareOp} (h : op.select f = some i) : i.IsPlain := by
  cases op <;> cases f <;> cases h <;> exact ⟨rfl, rfl⟩

theorem Family.isPlain_negation (f : Family) : f.negation.IsPlain := by cases f <;> exact ⟨rfl, rfl⟩

theorem Family.isPlain_of_conversion {f g : Family} {i : BareOp} (h : f.conversion g = some i) : i.IsPlain := by
  cases f <;> cases g <;> cases h <;> exact ⟨rfl, rfl⟩

theorem UpdateOp.isPlain_select (op : UpdateOp) (f : Family) : (op.select f).IsPlain := by
  cases op <;> cases f <;> exact ⟨rfl, rfl⟩

namespace Codegen

open Line (Turns Levels)

theorem turns_computeTwo {i : BareOp} (hi : i.IsPlain) : Turns 2 1 ((computeTwo i).map .instr) :=
  .pop rfl (.pop rfl (.stay hi.1 hi.2 (.push rfl .nil)))

theorem turns_computeOne {i : BareOp} (hi : i.IsPlain) : Turns 1 1 ((computeOne i).map .instr) :=
  .pop rfl (.stay hi.1 hi.2 (.push rfl .nil))

theorem turns_unaryCode (op : UnOp) (f : Family) : Turns 1 1 ((unaryCode op f).map .instr) := by
  cases op with
  | bitNot => exact .push rfl (turns_computeTwo ⟨rfl, rfl⟩)
  | not => exact turns_computeOne ⟨rfl, rfl⟩
  | neg => exact turns_computeOne f.isPlain_negation

theorem turns_updateCode (op : UpdateOp) (f : Family) (a : Address) (used : Bool) :
    Turns 0 (if used then 1 else 0) ((updateCode op f a used).map .instr) := by
  obtain ⟨hpinned, heffect⟩ := op.isPlain_select f
  have hstep : ∀ {k n : Nat} {rest : List Line}, Turns k n rest →
      Turns k n (.instr (loadA a) :: .instr (.bare (op.select f)) :: .instr (saveA a) :: rest) :=
    fun h => .stay rfl rfl (.stay hpinned heffect (.stay rfl rfl h))
  unfold updateCode
  cases used with
  | false => exact hstep .nil
  | true =>
    cases op.isPost with
    | true => exact .push rfl (hstep .nil)
    | false => exact hstep (.push rfl .nil)

theorem turns_intrinsicCode (callee : Intrinsic) :
    Turns callee.arity callee.result.words ((intrinsicCode callee).map .instr) := by
  cases callee with
  | setLed => exact .pop rfl (.stay rfl rfl .nil)
  | loadA | loadB | push => exact .pop rfl .nil
  | popInt | popUInt | popFloat => exact .push rfl .nil
  | tick | urand => exact .stay rfl rfl (.push rfl .nil)

theorem turns_pops (as : List Address) : Turns as.length 0 ((as.map popA).map .instr) := by
  induction as with
  | nil => exact .nil
  | cons a rest ih => exact .pop rfl ih

theorem turns_pushes (as : List Address) : Turns 0 as.length ((as.map pushA).map .instr) := by
  induction as with
  | nil => exact .nil
  | cons a rest ih => exact .push rfl (ih.frame 1)

/-- frames have as many addresses as the signatures say -/
def Sized (cx : Context) (env : Typing.Env) : Prop :=
  ∀ name sig frame, env.signature? name = some sig → cx.frames.lookup name = some frame →
    frame.params.length = sig.params.length ∧ frame.result.toList.length = sig.result.base.words

section Expr

variable {cx : Context} {env : Typing.Env} {slots : Slots}

mutual

/-- the code of an expression leaves its value, or nothing if that is not used or there is none -/
theorem lowerExpr_turns (e : Expr) {b : Base} (hrec : e.Recorded cx.info env b) (hsized : Sized cx env) {used : Bool}
    (hused : used = true ∨ e.isDroppable = true) {frag : Fragment} (h : lowerExpr cx slots used e = .ok frag) :
    Turns 0 (if used then b.words else 0) frag.lines := by
  cases e with
  | literal id span value =>
    obtain rfl := hused.resolve_right Bool.false_ne_true
    obtain ⟨rfl, -⟩ := hrec
    rw [lowerExpr_literal h, if_pos rfl, Base.words_of_ne_void (by cases value <;> exact nofun)]
    exact .push rfl .nil
  | ident id span name =>
    obtain rfl := hused.resolve_right Bool.false_ne_true
    obtain ⟨_, -, -, hvoid, rfl, -⟩ := hrec
    obtain ⟨_, _, -, -, hlines⟩ := lowerExpr_ident h
    rw [hlines, if_pos rfl, Base.words_of_ne_void hvoid]
    exact .push rfl .nil
  | binary id span op lhs rhs =>
    obtain rfl := hused.resolve_right Bool.false_ne_true
    obtain ⟨f, hlhs, hrhs, -, rfl, -⟩ := hrec
    obtain ⟨_, _, _, _, -, hi, hl, hr, hlines⟩ := lowerExpr_binary h
    have hleft := lowerExpr_turns lhs hlhs hsized (.inl rfl) hl
    have hright := lowerExpr_turns rhs hrhs hsized (.inl rfl) hr
    rw [if_pos rfl, f.words_base] at hleft hright
    have hwords : (if op.isComparison || op.isLogical then Base.int else f.base).words = 1 := by
      split
      · rfl
      · exact f.words_base
    rw [hlines, if_pos rfl, hwords]
    -- the right operand is computed above the left one, which stays untouched
    exact (hleft.append (hright.frame 1)).append (turns_computeTwo (BinOp.isPlain_of_select hi))
  | unary id span op operand =>
    obtain rfl := hused.resolve_right Bool.false_ne_true
    obtain ⟨f, hoperand, -, rfl, -⟩ := hrec
    obtain ⟨_, _, -, hi, hlines⟩ := lowerExpr_unary h
    have hinner := lowerExpr_turns operand hoperand hsized (.inl rfl) hi
    rw [if_pos rfl, f.words_base] at hinner
    have hwords : (if op = .not then Base.int else f.base).words = 1 := by
      split
      · rfl
      · exact f.words_base
    rw [hlines, if_pos rfl, hwords]
    exact hinner.append (turns_unaryCode op _)
  | update id span op targetId targetSpan target =>
    obtain ⟨_, -, -, -, hvoid, rfl, -⟩ := hrec
    obtain ⟨_, a, f, -, -, -, hlines⟩ := lowerExpr_update h
    rw [hlines, Base.words_of_ne_void hvoid]
    exact turns_updateCode op f a used
  | call id span callee calleeSpan args =>
    obtain ⟨sig, hsig, hargs, rfl, -⟩ := hrec
    obtain ⟨hcount, hvalues⟩ := recordedValues_of_args _ _ hargs
    obtain ⟨frame, inner, hframe, hi, hlines⟩ := lowerExpr_call h
    obtain ⟨hparams, hresult⟩ := hsized callee sig frame hsig hframe
    have hpops := turns_pops frame.params.reverse
    rw [List.length_reverse, hparams, hcount] at hpops
    have hpushes : Turns 0 (if used then sig.result.base.words else 0)
        ((if used then frame.result.toList.map pushA else []).map .instr) := by
      cases used with
      | false => exact .nil
      | true =>
        rw [if_pos rfl, if_pos rfl, ← hresult]
        exact turns_pushes frame.result.toList
    rw [hlines]
    exact (((lowerArgs_turns args hvalues hsized hi).append hpops).append (.stay rfl rfl .nil)).append hpushes
  | intrinsic id span callee calleeSpan args =>
    obtain rfl := hused.resolve_right Bool.false_ne_true
    obtain ⟨hcount, hvalues, rfl, -⟩ := hrec
    obtain ⟨_, hi, hlines⟩ := lowerExpr_intrinsic h
    have hargs := lowerArgs_turns args hvalues hsized hi
    rw [hcount] at hargs
    rw [hlines, if_pos rfl]
    exact hargs.append (turns_intrinsicCode callee)
  | assign id span op target targetSpan value =>
    obtain ⟨_, f, -, -, -, -, hvalue, -, rfl, -⟩ := hrec
    have hresult (a : Address) :
        Turns 0 (if used then f.base.words else 0) (if used then [.instr (pushA a)] else []) := by
      cases used with
      | false => exact .nil
      | true =>
        rw [if_pos rfl, if_pos rfl, f.words_base]
        exact .push rfl .nil
    cases op with
    | none =>
      obtain ⟨_, a, _, -, -, hi, hlines⟩ := lowerExpr_assign h
      have hinner := lowerExpr_turns value hvalue hsized (.inl rfl) hi
      rw [if_pos rfl, f.words_base] at hinner
      rw [hlines]
      exact (hinner.append (.pop rfl .nil)).append (hresult a)
    | some op =>
      obtain ⟨_, a, _, i, _, -, -, -, hsel, hi, hlines⟩ := lowerExpr_compound h
      have hinner := lowerExpr_turns value hvalue hsized (.inl rfl) hi
      rw [if_pos rfl, f.words_base] at hinner
      obtain ⟨hpinned, heffect⟩ := BinOp.isPlain_of_select hsel
      rw [hlines]
      refine Turns.append (Turns.push rfl ?_) (hresult a)
      exact (hinner.frame 1).append (.pop rfl (.pop rfl (.stay hpinned heffect (.stay rfl rfl .nil))))
  | cast id span base operand =>
    obtain rfl := hused.resolve_right Bool.false_ne_true
    obtain ⟨⟨f, hoperand⟩, hb, -⟩ := hrec
    obtain ⟨source, target, _, -, hbase, hi, hlines⟩ := lowerExpr_cast h
    have hinner := lowerExpr_turns operand hoperand hsized (.inl rfl) hi
    rw [if_pos rfl, f.words_base] at hinner
    have hvoid : base ≠ .void := by
      rintro rfl
      cases hbase
    rw [hlines, if_pos rfl, hb, Base.words_of_ne_void hvoid]
    refine hinner.append ?_
    cases hconv : source.conversion target with
    | none => exact .nil
    | some i => exact turns_computeOne (Family.isPlain_of_conversion hconv)

theorem lowerArgs_turns (args : List Expr) (hrec : Expr.RecordedValues cx.info env args) (hsized : Sized cx env)
    {frag : Fragment} (h : lowerArgs cx slots args = .ok frag) : Turns 0 args.length frag.lines := by
  cases args with
  | nil =>
    rw [lowerArgs_nil h]
    exact .nil
  | cons arg rest =>
    obtain ⟨⟨f, harg⟩, hrest⟩ := hrec
    obtain ⟨_, _, hf, hr, hlines⟩ := lowerArgs_cons h
    have hfirst := lowerExpr_turns arg harg hsized (.inl rfl) hf
    rw [if_pos rfl, f.words_base] at hfirst
    rw [hlines]
    exact hfirst.append ((lowerArgs_turns rest hrest hsized hr).frame 1)

end

/-- the code of a value leaves one word -/
theorem lowerExpr_turns_value {e : Expr} {f : Family} (hrec : e.Recorded cx.info env f.base) (hsized : Sized cx env)
    {frag : Fragment} (h : lowerExpr cx slots true e = .ok frag) : Turns 0 1 frag.lines := by
  have hturns := lowerExpr_turns e hrec hsized (.inl rfl) h
  rwa [if_pos rfl, f.words_base] at hturns

theorem lowerEffect_turns {e : Expr} {b : Base} (hrec : e.Recorded cx.info env b) (hsized : Sized cx env)
    {frag : Fragment} (h : lowerEffect cx slots e = .ok frag) : Turns 0 0 frag.lines := by
  rcases lowerEffect_eq_ok h with ⟨hdrop, h⟩ | ⟨inner, h, hlines⟩
  · exact lowerExpr_turns e hrec hsized (.inr hdrop) h
  · have hinner := lowerExpr_turns e hrec hsized (.inl rfl) h
    rw [if_pos rfl] at hinner
    have hfamily : cx.info.familyOf e.id = b.family := by
      rw [TypeInfo.familyOf, hrec.typeOf]
      rfl
    rw [hlines, hfamily]
    refine hinner.append ?_
    cases b with
    | void => exact .nil
    | int | uint | float => exact .pop rfl .nil

theorem lowerCondition_turns {e : Expr} (hrec : e.RecordedValue cx.info env) (hsized : Sized cx env) {frag : Fragment}
    (h : lowerCondition cx slots e = .ok frag) : Turns 0 0 frag.lines := by
  obtain ⟨f, hrec⟩ := hrec
  obtain ⟨_, h, hlines⟩ := lowerCondition_eq_ok h
  rw [hlines]
  exact (lowerExpr_turns_value hrec hsized h).append (.pop rfl .nil)

end Expr

/-! ## Statements -/

section Stmt

variable {cx : Context}

theorem levels_label (t : String) : Levels [.label t] 0 0 := .cons (fun _ => rfl) rfl .nil

theorem levels_jump (op : JumpOp) (t : String) : Levels [.instr (.jump op t)] 0 0 := .cons (fun _ => rfl) rfl .nil

theorem levels_rtn : Levels [.instr (.bare .rtn)] 0 0 := .cons (fun _ => rfl) rfl .nil

theorem TestCode.levels {env : Typing.Env} {slots : Slots} {exit : String} {lines : List Line} {cond : Option Expr}
    (hrec : ∀ e ∈ cond, e.RecordedValue cx.info env) (hsized : Sized cx env) (h : TestCode cx slots exit lines cond) :
    Levels lines 0 0 := by
  cases cond with
  | none =>
    obtain rfl := h
    exact .nil
  | some e =>
    obtain ⟨_, ht, rfl⟩ := h
    exact (lowerCondition_turns (hrec e rfl) hsized ht).levels.append (levels_jump _ _)

theorem lowerLocal_levels {env : Typing.Env} {d : VarDecl} (hrec : d.Recorded cx.info env) (hsized : Sized cx env)
    {st st' : Storage} {frag : Fragment} (h : (lowerLocal cx d).run st = .ok (frag, st')) : Levels frag.lines 0 0 := by
  cases hd : d.init with
  | none =>
    rw [(lowerLocal_declare hd h).2.2]
    exact .nil
  | some e =>
    obtain ⟨f, -, he⟩ := hrec.2 e hd
    obtain ⟨_, hi, -, -, hlines⟩ := lowerLocal_value hd h
    rw [hlines]
    exact ((lowerExpr_turns_value he hsized hi).append (.pop rfl .nil)).levels

theorem lowerForInit_levels {env : Typing.Env} {init : ForInit} (hrec : init.Recorded cx.info env)
    (hsized : Sized cx env) {loop : Option LoopLabels} {span : Span} {st st' : Storage} {frag : Fragment}
    (h : (lowerStmt cx loop (init.stmt span)).run st = .ok (frag, st')) : Levels frag.lines 0 0 := by
  cases init with
  | nothing =>
    rw [(lowerStmt_empty h).2]
    exact .nil
  | decl d =>
    simp only [ForInit.stmt, lowerStmt] at h
    exact lowerLocal_levels hrec hsized h
  | expr span e =>
    obtain ⟨b, he⟩ := hrec
    exact (lowerEffect_turns he hsized (lowerStmt_expr h).1).levels

theorem lowerStep_levels {env : Typing.Env} {step : Option Expr} (hrec : ∀ e ∈ step, ∃ b, e.Recorded cx.info env b)
    (hsized : Sized cx env) {loop : Option LoopLabels} {span : Span} {st st' : Storage} {frag : Fragment}
    (h : (lowerStmt cx loop (.ofStep span step)).run st = .ok (frag, st')) : Levels frag.lines 0 0 := by
  cases step with
  | none =>
    rw [(lowerStmt_empty h).2]
    exact .nil
  | some e =>
    obtain ⟨b, he⟩ := hrec e rfl
    exact (lowerEffect_turns he hsized (lowerStmt_expr h).1).levels

mutual

/-- the code of a statement has nothing on the stack where it starts, where it ends, and where control comes in or goes
out -/
theorem lowerStmt_levels (s : Stmt) {env : Typing.Env} (hrec : s.Recorded cx.info env) (hsized : Sized cx env)
    {loop : Option LoopLabels} {st st' : Storage} {frag : Fragment}
    (h : (lowerStmt cx loop s).run st = .ok (frag, st')) : Levels frag.lines 0 0 := by
  cases s with
  | decl d =>
    simp only [lowerStmt] at h
    exact lowerLocal_levels hrec hsized h
  | ifThen span cond yes =>
    obtain ⟨hcond, hyes⟩ := hrec
    obtain ⟨_, _, ht, hy, hlines⟩ := lowerStmt_ifThen h
    rw [hlines]
    refine ((ht.levels ?_ hsized).append (lowerStmt_levels yes hyes hsized hy)).append (levels_label _)
    rintro _ ⟨⟩
    exact hcond
  | ifElse span cond yes no =>
    obtain ⟨hcond, hyes, hno⟩ := hrec
    obtain ⟨_, _, _, _, ht, hy, hn, hlines⟩ := lowerStmt_ifElse h
    have hskip : Levels (if yes.diverges then [] else [.instr (.jump .jmp (label "if_end" st.nextLabel))]) 0 0 := by
      cases yes.diverges with
      | true => exact .nil
      | false => exact levels_jump _ _
    have htest : Levels _ 0 0 := ht.levels (by rintro _ ⟨⟩; exact hcond) hsized
    rw [hlines]
    exact (((htest.append (lowerStmt_levels yes hyes hsized hy)).append hskip).append
      ((levels_label _).append (lowerStmt_levels no hno hsized hn))).append (levels_label _)
  | while_ span cond body =>
    obtain ⟨hcond, hbody⟩ := hrec
    obtain ⟨_, _, ht, hb, hlines⟩ := lowerStmt_while h
    have htest : Levels _ 0 0 := ht.levels (by rintro _ ⟨⟩; exact hcond) hsized
    rw [hlines]
    exact (((levels_label _).append htest).append (lowerStmt_levels body hbody hsized hb)).append
      ((levels_jump _ _).append (levels_label _))
  | doWhile span body cond =>
    obtain ⟨hbody, hcond⟩ := hrec
    obtain ⟨_, _, hb, ht, hlines⟩ := lowerStmt_doWhile h
    rw [hlines]
    exact (((levels_label _).append (lowerStmt_levels body hbody hsized hb)).append
      ((levels_label _).append (lowerCondition_turns hcond hsized ht).levels)).append
        ((levels_jump _ _).append (levels_label _))
  | for_ span init cond step body =>
    obtain ⟨hinit, hcond, hstep, hbody⟩ := hrec
    obtain ⟨_, _, _, _, _, hi, ht, hb, hs, hlines⟩ := lowerStmt_for h
    rw [hlines]
    exact ((((lowerForInit_levels hinit hsized hi).append ((levels_label _).append (ht.levels hcond hsized))).append
      (lowerStmt_levels body hbody hsized hb)).append
        ((levels_label _).append (lowerStep_levels hstep hsized hs))).append ((levels_jump _ _).append (levels_label _))
  | break_ span =>
    obtain ⟨_, -, -, hlines⟩ := lowerStmt_break h
    rw [hlines]
    exact levels_jump _ _
  | continue_ span =>
    obtain ⟨_, -, -, hlines⟩ := lowerStmt_continue h
    rw [hlines]
    exact levels_jump _ _
  | return_ span value =>
    cases value with
    | none =>
      rw [(lowerStmt_return h).2]
      exact levels_rtn
    | some e =>
      obtain ⟨f, -, he⟩ := hrec
      obtain ⟨_, a, _, -, -, hi, -, hlines⟩ := lowerStmt_returnValue h
      have hstore : Levels [.instr (popA a)] 1 0 := (Turns.pop rfl .nil).levels
      rw [hlines]
      exact (lowerExpr_turns_value he hsized hi).levels.append (hstore.append levels_rtn)
  | expr span e =>
    obtain ⟨b, he⟩ := hrec
    exact (lowerEffect_turns he hsized (lowerStmt_expr h).1).levels
  | block span body =>
    simp only [lowerStmt] at h
    have hbody : Stmt.RecordedAll cx.info env.enter body := hrec
    exact lowerStmts_levels body hbody hsized h
  | empty span =>
    rw [(lowerStmt_empty h).2]
    exact .nil

theorem lowerStmts_levels (ss : List Stmt) {env : Typing.Env} (hrec : Stmt.RecordedAll cx.info env ss)
    (hsized : Sized cx env) {loop : Option LoopLabels} {st st' : Storage} {frag : Fragment}
    (h : (lowerStmts cx loop ss).run st = .ok (frag, st')) : Levels frag.lines 0 0 := by
  cases ss with
  | nil =>
    rw [(lowerStmts_nil h).2]
    exact .nil
  | cons s rest =>
    obtain ⟨hfirst, hrest⟩ := hrec
    cases hs : s.diverges with
    | true =>
      obtain ⟨_, hf, hlines⟩ := lowerStmts_cons_diverges hs h
      rw [hlines]
      exact lowerStmt_levels s hfirst hsized hf
    | false =>
      obtain ⟨_, _, _, hf, hm, hlines⟩ := lowerStmts_cons hs h
      rw [hlines]
      exact (lowerStmt_levels s hfirst hsized hf).append (lowerStmts_levels rest hrest hsized hm)

end

end Stmt

/-! ## Programs -/

section Program

variable {cx : Context} {st st' : Storage} {frag : Fragment}

theorem lowerGlobals_levels (gs : List (VarDecl × Address))
    (hrec : ∀ g ∈ gs, ∃ env, Sized cx env ∧ g.1.Recorded cx.info env)
    (h : (lowerGlobals cx gs).run st = .ok (frag, st')) : Levels frag.lines 0 0 := by
  induction gs generalizing frag with
  | nil =>
    rw [(lowerGlobals_nil h).2]
    exact .nil
  | cons g rest ih =>
    obtain ⟨d, a⟩ := g
    obtain ⟨env, hsized, hd⟩ := hrec _ List.mem_cons_self
    have hmore : ∀ g ∈ rest, ∃ env, Sized cx env ∧ g.1.Recorded cx.info env :=
      fun g hg => hrec g (List.mem_cons_of_mem _ hg)
    cases hinit : d.init with
    | none =>
      obtain ⟨_, hm, hlines⟩ := lowerGlobals_zero hinit h
      rw [hlines]
      exact .cons nofun rfl (ih hmore hm)
    | some e =>
      obtain ⟨f, -, he⟩ := hd.2 e hinit
      obtain ⟨_, _, hi, hm, hlines⟩ := lowerGlobals_value hinit h
      rw [hlines]
      exact (lowerExpr_turns_value he hsized hi).levels.append (.cons nofun rfl (ih hmore hm))

theorem lowerFunctions_levels (fs : List FunctionDecl)
    (hrec : ∀ f ∈ fs, ∃ env, Sized cx env ∧ Stmt.RecordedAll cx.info env f.body)
    (h : (lowerFunctions cx fs).run st = .ok (frag, st')) : Levels frag.lines 0 0 := by
  induction fs generalizing st frag with
  | nil =>
    rw [(lowerFunctions_nil h).2]
    exact .nil
  | cons f rest ih =>
    obtain ⟨env, hsized, hbody⟩ := hrec f List.mem_cons_self
    obtain ⟨_, _, _, hf, hm, hlines⟩ := lowerFunctions_cons h
    obtain ⟨_, hb, hfirst⟩ := lowerFunction_eq_ok hf
    have hlast : Levels (if Stmt.anyDiverges f.body then [] else [.instr (.bare .rtn)]) 0 0 := by
      cases Stmt.anyDiverges f.body with
      | true => exact .nil
      | false => exact levels_rtn
    rw [hlines, hfirst]
    have hcode := lowerStmts_levels f.body
      (show Stmt.RecordedAll ({ cx with function := f.name } : Context).info env f.body from hbody) hsized hb
    exact (((levels_label _).append hcode).append hlast).append (ih (fun g hg => hrec g (List.mem_cons_of_mem _ hg)) hm)

end Program

end Codegen

namespace Program.Parts

open Codegen

variable {p : Program} {info : TypeInfo} {out : Generated}

/-- frames are made for the signatures that checking recorded -/
theorem sized (parts : p.Parts info out) (hrec : p.Recorded info) {env : Typing.Env}
    (henv : env.functions = info.functions) (graph : CallGraph) (function : String) :
    Sized ⟨info, graph, parts.frames, function⟩ env := by
  intro name sig frame hsig hframe
  rw [Typing.Env.signature?, henv] at hsig
  obtain ⟨f, hf, rfl, rfl⟩ := hrec.exists_function hsig
  obtain ⟨frame', hframe', hplaced⟩ := parts.frame_placed hrec.names hf
  obtain rfl : frame' = frame := Option.some.inj (hframe'.symm.trans hframe)
  refine ⟨?_, ?_⟩
  · simpa [FunctionDecl.signature] using hplaced.params.length_eq
  · rw [hplaced.result.length_eq]
    change _ = f.result.base.words
    by_cases hvoid : f.result.base = .void
    · rw [if_pos (Typing.isVoid_iff.2 hvoid), hvoid]
      rfl
    · rw [if_neg (mt Typing.isVoid_iff.1 hvoid), Base.words_of_ne_void hvoid]
      rfl

/-- **The effects of all lines cancel**, and at no label, jump, `RTN` or `HALT` is anything on the stack. -/
theorem levels (parts : p.Parts info out) (hrec : p.Recorded info) : Line.Levels out.lines 0 0 := by
  have hreads : Line.Levels ((p.globals.zip parts.addresses).map fun x => .read x.2 x.1.name) 0 0 := by
    induction p.globals.zip parts.addresses with
    | nil => exact .nil
    | cons x rest ih => exact .cons nofun rfl ih
  have hentry : Line.Levels parts.entry.lines 0 0 := by
    refine lowerGlobals_levels _ ?_ parts.lowerGlobals
    intro g hg
    obtain ⟨env, hd, henv, -⟩ := hrec.exists_env (mem_globals.1 (List.of_mem_zip hg).1)
    exact ⟨env, parts.sized hrec henv _ _, hd⟩
  have hfunctions : Line.Levels parts.functions.lines 0 0 := by
    refine lowerFunctions_levels _ ?_ parts.lowerFunctions
    intro f hf
    obtain ⟨env, hbody, henv, -⟩ := hrec.exists_env (mem_functions.1 hf)
    exact ⟨env.ofFunction f, parts.sized hrec henv _ _, hbody.2⟩
  rw [parts.lines]
  refine ((hreads.append hentry).append ?_).append hfunctions
  exact (levels_jump _ _).append (.cons (fun _ => rfl) rfl .nil)

/-- one depth for each line, whether control starts at the entry or at a function -/
theorem exists_depth (parts : p.Parts info out) (hrec : p.Recorded info) : ∃ depth : Nat → Nat, ∀ start : Nat,
    (start = 0 ∨ ∃ f ∈ p.functions, out.lines[start]? = some (.label (functionLabel f.name))) →
      ∀ i d l, Line.Walk out.lines start i d → out.lines[i]? = some l →
        d = depth i ∧ ((∃ t, l = .label t) ∨ l = .instr (.bare .rtn) ∨ l = .instr (.bare .halt) → depth i = 0) := by
  obtain ⟨depth, hdepth⟩ := (parts.levels hrec).exists_depth
  refine ⟨depth, fun start hstart i d l hwalk hi => ?_⟩
  obtain ⟨hd, hzero⟩ := hdepth start (hstart.imp_right fun ⟨f, _, hlabel⟩ => ⟨_, hlabel, rfl⟩) i d l hwalk hi
  refine ⟨hd, fun hl => hzero ?_⟩
  rcases hl with ⟨t, rfl⟩ | rfl | rfl <;> rfl

end Program.Parts

/-- **Every line has one depth.** In generated code the stack has, relative to the entry or to the function where
control starts, the same depth at a line whichever way control gets there; it is never below zero, and it is zero at
every label, `RTN` and `HALT`. Identities are distinct, as parsing gives them out (`compile_keeps_depth`). -/
theorem Program.generate_keeps_depth {p : Program} {info : TypeInfo} {out : Generated} (hids : p.ids.Nodup)
    (hcheck : p.check = .ok info) (hgen : p.generate info = .ok out) :
    ∃ depth : Nat → Nat, ∀ start : Nat,
      (start = 0 ∨ ∃ f ∈ p.functions, out.lines[start]? = some (.label (Codegen.functionLabel f.name))) →
        ∀ i d l, Line.Walk out.lines start i d → out.lines[i]? = some l →
          d = depth i ∧ ((∃ t, l = .label t) ∨ l = .instr (.bare .rtn) ∨ l = .instr (.bare .halt) → depth i = 0) := by
  obtain ⟨parts⟩ := Program.nonempty_parts hgen
  exact parts.exists_depth (recorded_of_check hcheck hids)

/-- every round of the loop in `pick` starts with nothing on the stack, and its condition is taken off when it alone is
there -/
theorem picking_depths : ∃ info out, picking.ids.Nodup ∧ picking.check = .ok info ∧ picking.generate info = .ok out ∧
    out.lines[3]? = some (.label "while_head_0") ∧ (∀ d, Line.Walk out.lines 2 3 d → d = 0) ∧
      out.lines[5]? = some (.instr (.bare .getpopr)) ∧ ∀ d, Line.Walk out.lines 2 5 d → d = 1 := by
  have hids : picking.ids.Nodup := by decide
  obtain ⟨info, out, hcheck, hgen, hpick, hhead, hvalue, htake⟩ : ∃ info out, picking.check = .ok info ∧
      picking.generate info = .ok out ∧ out.lines[2]? = some (.label (Codegen.functionLabel "pick")) ∧
        out.lines[3]? = some (.label "while_head_0") ∧ out.lines[4]? = some (.instr (.address .push ⟨1⟩)) ∧
          out.lines[5]? = some (.instr (.bare .getpopr)) := ⟨_, _, rfl, rfl, rfl, rfl, rfl, rfl⟩
  obtain ⟨depth, hdepth⟩ := Program.generate_keeps_depth hids hcheck hgen
  have hdepth := hdepth 2 (.inr ⟨_, List.mem_cons_self, hpick⟩)
  refine ⟨info, out, hids, hcheck, hgen, hhead, fun d hwalk => ?_, htake, fun d hwalk => ?_⟩
  · obtain ⟨hd, hzero⟩ := hdepth 3 d _ hwalk hhead
    rw [hd, hzero (.inl ⟨_, rfl⟩)]
    rfl
  · have hone : Line.Walk out.lines 2 5 1 :=
      .step (.step (.step .here hpick (.next hpick rfl)) hhead (.next hhead rfl)) hvalue (.next hvalue rfl)
    rw [(hdepth 5 d _ hwalk htake).1, ← (hdepth 5 1 _ hone htake).1]

/-- **Compiled code keeps its depth.** The program read from a source that compiles has distinct identities, so that
every line of its code has one depth. -/
theorem compile_keeps_depth {source : String} {out : Generated} (h : compile source = .ok out) :
    ∃ tokens p, Lexer.tokenize source = .ok tokens ∧ Program.parse tokens = .ok p ∧ ∃ depth : Nat → Nat, ∀ start : Nat,
      (start = 0 ∨ ∃ f ∈ p.functions, out.lines[start]? = some (.label (Codegen.functionLabel f.name))) →
        ∀ i d l, Line.Walk out.lines start i d → out.lines[i]? = some l →
          d = depth i ∧ ((∃ t, l = .label t) ∨ l = .instr (.bare .rtn) ∨ l = .instr (.bare .halt) → depth i = 0) := by
  obtain ⟨tokens, p, info, htokens, hparse, hcheck, hgen⟩ := compile_eq_ok h
  have hids : p.ids.Nodup := (wellFormed_of_source htokens hparse).distinct
  obtain ⟨parts⟩ := Program.nonempty_parts hgen
  exact ⟨tokens, p, htokens, hparse, parts.exists_depth (recorded_of_check hcheck hids)⟩

end C15

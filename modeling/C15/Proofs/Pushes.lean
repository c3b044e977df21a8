/-
Variables that are never read, and the lines that push them.

The checker marks the variables that are read (`Program.reads`), and the generator warns about a local without a mark.
Lines that push a variable are generated where it is read, but also where a plain assignment is itself a value, as in
`y = x = 1`: the target is pushed again behind the line that stores into it. `Program.pushes` says for each push what it
is for. Results:
- `Codegen.lowerExpr_yields`, `Codegen.lowerStmt_yields`: code pushes what its pushes are for, one for one, and warns
  about the locals without a mark;
- `Program.pushes_readsAt`: a variable that is pushed to be read is read in the text;
- `Program.unread_pushes_iff`: the warnings are those of the reached locals that no read resolves to, and such a local
  is pushed once for each plain assignment to it whose value is used.
-/
import C15.Proofs.Constants
import C15.Proofs.Reads

namespace C15

/-! ## Pushes -/

/-- what a line that pushes an address is for -/
inductive Push where
  /-- to read the variable that an occurrence means -/
  | read (id : NodeId)
  /-- to give on the value that a plain assignment has stored -/
  | keep (id : NodeId)
  /-- to give on the result of a call -/
  | result (callee : String)
deriving DecidableEq, Repr

namespace Push

/-- the declaration of the variable that is pushed, if it is one -/
def decl? (info : TypeInfo) : Push → Option NodeId
  | .read id | .keep id => info.facts.resolved.lookup id
  | .result _ => none

/-- the plain assignment that a push is for, if it is for one -/
def kept? : Push → Option NodeId
  | .keep id => some id
  | .read _ | .result _ => none

end Push

section Pushes

variable (fs : List FunctionDecl)

/-- the push behind a call: the result, if there is one and it is used -/
def callPushes (used : Bool) (callee : String) : List Push :=
  (calledFunction fs callee).elim [] fun f => if used && !f.result.isVoid then [.result callee] else []

mutual

/-- what the pushes in the code of an expression are for -/
def Expr.pushes (used : Bool) : Expr → List Push
  | .literal .. => []
  | .ident id _ _ => [.read id]
  | .binary _ _ _ lhs rhs => lhs.pushes true ++ rhs.pushes true
  | .unary _ _ _ operand | .cast _ _ _ operand => operand.pushes true
  | .update id .. => if used then [.read id] else []
  | .assign id _ none _ _ value => value.pushes true ++ if used then [.keep id] else []
  | .assign id _ (some _) _ _ value => .read id :: value.pushes true ++ if used then [.read id] else []
  | .call _ _ callee _ args => Expr.pushesOf args ++ callPushes fs used callee
  | .intrinsic _ _ _ _ args => Expr.pushesOf args

def Expr.pushesOf : List Expr → List Push
  | [] => []
  | e :: es => e.pushes true ++ Expr.pushesOf es

end

/-- the pushes of an expression of which only the effects count -/
def Expr.effectPushes (e : Expr) : List Push := e.pushes fs (!e.isDroppable)

def Expr.optionalPushes (e : Option Expr) : List Push := e.elim [] (·.pushes fs true)

def VarDecl.pushes (d : VarDecl) : List Push := Expr.optionalPushes fs d.init

def ForInit.pushes : ForInit → List Push
  | .nothing => []
  | .decl d => d.pushes fs
  | .expr _ e => e.effectPushes fs

mutual

/-- what the pushes in the code of a statement are for, in the order of the code: nothing behind a statement that
diverges has any -/
def Stmt.pushes : Stmt → List Push
  | .decl d => d.pushes fs
  | .ifThen _ cond yes => cond.pushes fs true ++ yes.pushes
  | .ifElse _ cond yes no => cond.pushes fs true ++ yes.pushes ++ no.pushes
  | .while_ _ cond body => cond.pushes fs true ++ body.pushes
  | .doWhile _ body cond => body.pushes ++ cond.pushes fs true
  | .for_ _ init cond step body =>
    init.pushes fs ++ Expr.optionalPushes fs cond ++ body.pushes ++ step.elim [] (·.effectPushes fs)
  | .return_ _ value => Expr.optionalPushes fs value
  | .expr _ e => e.effectPushes fs
  | .block _ body => Stmt.pushesOf body
  | .break_ _ | .continue_ _ | .empty _ => []

def Stmt.pushesOf : List Stmt → List Push
  | [] => []
  | s :: rest => s.pushes ++ if s.diverges then [] else Stmt.pushesOf rest

end

end Pushes

namespace Program

/-- what the lines of a program that push an address are for -/
def pushes (p : Program) : List Push :=
  p.globals.flatMap (·.pushes p.functions) ++ p.functions.flatMap fun f => Stmt.pushesOf p.functions f.body

/-- the plain assignments whose value is used -/
def keeps (p : Program) : List NodeId := p.pushes.filterMap Push.kept?

/-- the locals that code is generated for -/
def locals (p : Program) : List VarDecl := p.functions.flatMap fun f => Stmt.localsOf f.body

end Program

/-! ## Warnings -/

/-- the warning that a local is never read -/
def VarDecl.unreadWarning (d : VarDecl) : Diagnostic :=
  .warningAt .source d.nameSpan s!"Variable '{d.name}' is never read"

/-- a warning that a local is never read, by its first words -/
def Diagnostic.isUnread (d : Diagnostic) : Bool := "Variable '".toList.isPrefixOf d.message.toList

theorem isUnread_unreadWarning (d : VarDecl) : d.unreadWarning.isUnread = true := by
  have hmessage : s!"Variable '{d.name}' is never read" = "Variable '" ++ (d.name ++ "' is never read") :=
    String.append_assoc
  rw [Diagnostic.isUnread, List.isPrefixOf_iff_prefix, VarDecl.unreadWarning, Diagnostic.warningAt, hmessage,
    String.toList_append]
  exact List.prefix_append _ _

theorem isUnread_recursion (span : Span) (callee : String) :
    (Diagnostic.warningAt .source span (Codegen.recursionWarning callee)).isUnread = false := by
  have hmessage : Codegen.recursionWarning callee =
      "Recursive call to '" ++ (callee ++ "': parameters and locals are statically allocated") := String.append_assoc
  have hwords : "Recursive call to '".toList = 'R' :: "ecursive call to '".toList := by decide
  rw [Diagnostic.isUnread, Diagnostic.warningAt, hmessage, String.toList_append, hwords]
  rfl

theorem isUnread_unreachable (span : Span) :
    (Diagnostic.warningAt .source span "Unreachable statement").isUnread = false := by
  have hwords : "Variable '".toList.isPrefixOf "Unreachable statement".toList = false := by decide
  exact hwords

/-- the warnings about those of some locals that are not marked as used -/
def TypeInfo.unread (info : TypeInfo) (ds : List VarDecl) : List Diagnostic :=
  (ds.filter fun d => !info.isUsed d.id).map VarDecl.unreadWarning

theorem TypeInfo.unread_append (info : TypeInfo) (ds es : List VarDecl) :
    info.unread (ds ++ es) = info.unread ds ++ info.unread es := by
  rw [unread, List.filter_append, List.map_append]
  rfl

/-! ## Lines that push -/

namespace Line

/-- the address that a line pushes -/
def pushed? : Line → Option Address
  | .instr (.address .push a) => some a
  | _ => none

/-- the addresses that lines push -/
def pushed (lines : List Line) : List Address := lines.filterMap pushed?

theorem pushed_append (xs ys : List Line) : pushed (xs ++ ys) = pushed xs ++ pushed ys := List.filterMap_append

theorem pushed?_eq_some {l : Line} {a : Address} : l.pushed? = some a ↔ l = .instr (Codegen.pushA a) := by
  constructor
  · intro h
    unfold pushed? at h
    split at h
    · rw [Option.some.inj h]
      rfl
    · cases h
  · rintro rfl
    rfl

theorem count_pushed (lines : List Line) (a : Address) :
    (pushed lines).count a = lines.count (.instr (Codegen.pushA a)) := by
  rw [pushed, List.count_filterMap, List.count_eq_countP]
  congr 1
  funext l
  rw [Bool.eq_iff_iff, beq_iff_eq, beq_iff_eq, pushed?_eq_some]

theorem pushed_pops (as : List Address) : pushed ((as.map Codegen.popA).map .instr) = [] := by
  induction as with
  | nil => rfl
  | cons a as ih => exact ih

end Line

/-- an address that is pushed for something: it belongs to that variable or result -/
def Push.At (cells : List Cell) (info : TypeInfo) (a : Address) : Push → Prop
  | .read id | .keep id => ∃ v, info.variableOf id = some v ∧ cells[a.index]? = some (.variable v.decl)
  | .result callee => cells[a.index]? = some (.result callee)

namespace Codegen

/-! ## Expressions -/

/-- code that pushes for these purposes, one for one, and has these warnings about locals -/
structure Fragment.Yields (cells : List Cell) (info : TypeInfo) (qs : List Push) (unread : List Diagnostic)
    (frag : Fragment) : Prop where
  pushes : List.Forall₂ (Push.At cells info) (Line.pushed frag.lines) qs
  unread : frag.warnings.filter Diagnostic.isUnread = unread

namespace Fragment.Yields

variable {cells : List Cell} {info : TypeInfo} {qs rs : List Push} {us vs : List Diagnostic} {a b : Fragment}

theorem append (ha : a.Yields cells info qs us) (hb : b.Yields cells info rs vs) :
    (a ++ b).Yields cells info (qs ++ rs) (us ++ vs) := by
  constructor
  · rw [lines_append, Line.pushed_append]
    exact List.rel_append ha.pushes hb.pushes
  · rw [warnings_append, List.filter_append, ha.unread, hb.unread]

/-- nothing is pushed or warned about -/
theorem none (hlines : Line.pushed a.lines = []) (hwarnings : a.warnings.filter Diagnostic.isUnread = []) :
    a.Yields cells info [] [] := by
  refine ⟨?_, hwarnings⟩
  rw [hlines]
  exact .nil

theorem snoc (ha : a.Yields cells info qs us) (hb : b.Yields cells info [] []) : (a ++ b).Yields cells info qs us := by
  have h := ha.append hb
  rwa [List.append_nil, List.append_nil] at h

theorem cons (hb : b.Yields cells info [] []) (ha : a.Yields cells info qs us) : (b ++ a).Yields cells info qs us :=
  hb.append ha

/-- code without warnings in front of others -/
theorem code_append (ha : a.Yields cells info qs []) (hb : b.Yields cells info rs us) :
    (a ++ b).Yields cells info (qs ++ rs) us :=
  ha.append hb

/-- code without warnings behind others -/
theorem append_code (ha : a.Yields cells info qs us) (hb : b.Yields cells info rs []) :
    (a ++ b).Yields cells info (qs ++ rs) us := by
  have h := ha.append hb
  rwa [List.append_nil] at h

theorem symbol (span : Span) (c : SymbolClass) : (Fragment.symbol span c).Yields cells info [] [] := .none rfl rfl

theorem place (label : String) : (Fragment.place label).Yields cells info [] [] := .none rfl rfl

/-- instructions that push no address -/
theorem emit {is : List Instruction} (his : Line.pushed (is.map .instr) = []) :
    (Fragment.emit is).Yields cells info [] [] := .none his rfl

/-- instructions that push one address -/
theorem push {is : List Instruction} {x : Address} {q : Push} (his : Line.pushed (is.map .instr) = [x])
    (hq : q.At cells info x) : (Fragment.emit is).Yields cells info [q] [] := by
  refine ⟨?_, rfl⟩
  rw [Fragment.emit, his]
  exact .cons hq .nil

end Fragment.Yields

section Expressions

variable {cx : Context} {slots : Slots} {cells : List Cell} {fs : List FunctionDecl}

theorem slotOf_yields (hslots : slots.Sound cells) (id : NodeId) (span : Span) :
    EndsAt (fun _ => True) (fun r => ∃ v, cx.info.variableOf id = some v ∧ cells[r.1.index]? = some (.variable v.decl))
      (cx.slotOf slots id span) := by
  unfold Context.slotOf
  split
  · trivial
  · rename_i v hv
    split
    · trivial
    · rename_i a ha
      exact ⟨v, hv, hslots _ _ ha⟩

/-- the code of a call behind its arguments -/
theorem emit_call_yields (hframes : Framing cx.frames fs cells) {callee : String} {frame : Frame}
    (hframe : cx.frames.lookup callee = some frame) (used : Bool) :
    (Fragment.emit (frame.params.reverse.map popA ++ .jump .call (functionLabel callee) ::
      (if used then frame.result.toList.map pushA else []))).Yields cells cx.info (callPushes fs used callee) [] := by
  obtain ⟨f, hf, hplaced⟩ := hframes.sound callee frame hframe
  have hname := (calledFunction_spec hf).2
  refine ⟨?_, rfl⟩
  rw [callPushes, hf, Fragment.emit, List.map_append, Line.pushed_append, Line.pushed_pops, List.nil_append]
  cases used with
  | false => exact .nil
  | true =>
    rcases hplaced.result_cases with ⟨hr, hvoid⟩ | ⟨a, hr, hvoid, ha⟩
    · rw [hr, Option.elim_some, hvoid]
      exact .nil
    · rw [hr, Option.elim_some, hvoid]
      have hresult : Push.At cells cx.info a (.result callee) := hname ▸ ha
      exact .cons hresult .nil

mutual

/-- the code of an expression pushes what its pushes are for, and warns about no local -/
theorem lowerExpr_yields (hslots : slots.Sound cells) (hframes : Framing cx.frames fs cells) (used : Bool) (e : Expr) :
    EndsAt (fun _ => True) (Fragment.Yields cells cx.info (e.pushes fs used) []) (lowerExpr cx slots used e) := by
  match e with
  | .literal .. => exact endsAt_pure (.none rfl rfl)
  | .ident id span _ =>
    simp only [lowerExpr, Expr.pushes]
    refine (slotOf_yields hslots id span).bind fun slot hslot => endsAt_pure ?_
    exact .cons (.symbol _ _) (.push rfl hslot)
  | .binary _ _ _ lhs rhs =>
    simp only [lowerExpr, Expr.pushes]
    refine (endsAt_any _).bind fun f _ => (endsAt_any _).bind fun i _ => ?_
    refine (lowerExpr_yields hslots hframes true lhs).bind fun left hleft => ?_
    refine (lowerExpr_yields hslots hframes true rhs).bind fun right hright => endsAt_pure ?_
    exact (hleft.code_append hright).snoc (.emit rfl)
  | .unary _ _ op operand =>
    simp only [lowerExpr, Expr.pushes]
    refine (endsAt_any _).bind fun f _ => (lowerExpr_yields hslots hframes true operand).bind fun inner hinner => ?_
    cases op <;> exact endsAt_pure (hinner.snoc (.emit rfl))
  | .update id span op _ _ _ =>
    simp only [lowerExpr, Expr.pushes]
    refine (slotOf_yields hslots id span).bind fun slot hslot => (endsAt_any _).bind fun f _ => endsAt_pure ?_
    refine .cons (.symbol _ _) ?_
    cases used with
    | false => exact .emit (by cases op <;> rfl)
    | true => exact .push (by cases op <;> rfl) hslot
  | .assign id span op _ targetSpan value =>
    simp only [lowerExpr]
    refine (slotOf_yields hslots id span).bind fun slot hslot => ?_
    have htarget : (Fragment.symbol targetSpan slot.2).Yields cells cx.info [] [] := .symbol _ _
    have hresult (q : Push) (hq : q.At cells cx.info slot.1) :
        (Fragment.emit (if used then [pushA slot.1] else [])).Yields cells cx.info (if used then [q] else []) [] := by
      cases used with
      | false => exact .emit rfl
      | true => exact .push rfl hq
    cases op with
    | none =>
      refine (lowerExpr_yields hslots hframes true value).bind fun inner hinner => endsAt_pure ?_
      exact ((htarget.cons hinner).snoc (.emit rfl)).code_append (hresult (.keep id) hslot)
    | some op =>
      refine (endsAt_any _).bind fun f _ => (endsAt_any _).bind fun i _ => ?_
      refine (lowerExpr_yields hslots hframes true value).bind fun inner hinner => endsAt_pure ?_
      have hread : Fragment.Yields cells cx.info [.read id] [] (.emit [pushA slot.1]) := .push rfl hslot
      exact (((htarget.cons hread).code_append hinner).snoc (.emit rfl)).code_append (hresult (.read id) hslot)
  | .call _ span callee calleeSpan args =>
    simp only [lowerExpr, Expr.pushes]
    refine (lowerArgs_yields hslots hframes args).bind fun inner hinner => ?_
    have hwarning : Fragment.Yields cells cx.info [] []
        (if cx.graph.reaches callee cx.function then .warn span (recursionWarning callee) else {}) := by
      split
      · exact .none rfl (List.filter_cons_of_neg (by simp [isUnread_recursion]))
      · exact .none rfl rfl
    cases hframe : cx.frames.lookup callee with
    | none => exact endsAt_throw trivial
    | some frame =>
      have hargs := ((Fragment.Yields.symbol calleeSpan .function).cons hwarning).cons hinner
      exact endsAt_pure (hargs.code_append (emit_call_yields hframes hframe used))
  | .intrinsic _ _ callee calleeSpan args =>
    simp only [lowerExpr, Expr.pushes]
    refine (lowerArgs_yields hslots hframes args).bind fun inner hinner => endsAt_pure ?_
    exact ((Fragment.Yields.symbol calleeSpan .intrinsic).cons hinner).snoc (.emit (by cases callee <;> rfl))
  | .cast _ _ base operand =>
    simp only [lowerExpr, Expr.pushes]
    refine (endsAt_any _).bind fun source _ => ?_
    cases base.family with
    | none => exact endsAt_throw trivial
    | some target =>
      refine (lowerExpr_yields hslots hframes true operand).bind fun inner hinner => ?_
      cases source.conversion target with
      | none => exact endsAt_pure hinner
      | some i => exact endsAt_pure (hinner.snoc (.emit rfl))

theorem lowerArgs_yields (hslots : slots.Sound cells) (hframes : Framing cx.frames fs cells) (args : List Expr) :
    EndsAt (fun _ => True) (Fragment.Yields cells cx.info (Expr.pushesOf fs args) []) (lowerArgs cx slots args) := by
  match args with
  | [] => exact endsAt_pure (.none rfl rfl)
  | arg :: args =>
    simp only [lowerArgs, Expr.pushesOf]
    refine (lowerExpr_yields hslots hframes true arg).bind fun first hfirst => ?_
    exact (lowerArgs_yields hslots hframes args).bind fun rest hrest => endsAt_pure (hfirst.code_append hrest)

end

theorem lowerEffect_yields (hslots : slots.Sound cells) (hframes : Framing cx.frames fs cells) (e : Expr) :
    EndsAt (fun _ => True) (Fragment.Yields cells cx.info (e.effectPushes fs) []) (lowerEffect cx slots e) := by
  unfold Expr.effectPushes
  cases hdrop : e.isDroppable with
  | true =>
    have hdropped := lowerExpr_yields hslots hframes false e
    cases e with
    | assign | call | update => exact hdropped
    | literal | ident | binary | unary | intrinsic | cast => cases hdrop
  | false =>
    rw [lowerEffect_of_not_droppable cx slots hdrop]
    refine (lowerExpr_yields hslots hframes true e).bind fun inner hinner => endsAt_pure ?_
    cases cx.info.familyOf e.id with
    | none => exact hinner
    | some f => exact hinner.snoc (.emit rfl)

theorem lowerCondition_yields (hslots : slots.Sound cells) (hframes : Framing cx.frames fs cells) (e : Expr) :
    EndsAt (fun _ => True) (Fragment.Yields cells cx.info (e.pushes fs true) []) (lowerCondition cx slots e) :=
  (lowerExpr_yields hslots hframes true e).bind fun _ hinner => endsAt_pure (hinner.snoc (.emit rfl))

end Expressions

/-! ## Statements -/

/-- a step that gives these declarations the cells next to those that storage tracks, with a result that satisfies
`Q` -/
def Binds {α : Type} (all : List Cell) (ds : List VarDecl) (Q : α → Prop) (x : Gen α) : Prop :=
  ∀ (st : Storage) (cells : List Cell), st.Tracks cells → cells ++ ds.map VarDecl.cell <+: all →
    EndsAt (fun _ => True) (fun r => Q r.1 ∧ r.2.Tracks (cells ++ ds.map VarDecl.cell)) (x.run st)

section Steps

variable {α β : Type} {all : List Cell} {ds es : List VarDecl} {Q : α → Prop} {R : β → Prop} {x : Gen α} {f : α → Gen β}

theorem Binds.bind (hx : Binds all ds Q x) (hf : ∀ a, Q a → Binds all es R (f a)) :
    Binds all (ds ++ es) R (x >>= f) := by
  intro st cells ht hall
  rw [List.map_append, ← List.append_assoc] at hall ⊢
  rw [StateT.run_bind]
  exact (hx st cells ht ((List.prefix_append _ _).trans hall)).bind fun r hr => hf r.1 hr.1 r.2 _ hr.2 hall

/-- a step without declarations in front -/
theorem Binds.andThen (hx : Binds all [] Q x) (hf : ∀ a, Q a → Binds all es R (f a)) : Binds all es R (x >>= f) :=
  hx.bind hf

/-- a step without declarations behind -/
theorem Binds.andLast (hx : Binds all ds Q x) (hf : ∀ a, Q a → Binds all [] R (f a)) : Binds all ds R (x >>= f) := by
  rw [← List.append_nil ds]
  exact hx.bind hf

theorem binds_pure {a : α} (h : Q a) : Binds all [] Q (pure a) := by
  intro st cells ht _
  exact ⟨h, ht.past_nil⟩

theorem binds_throw (e : CodegenError) : Binds all ds Q (throw e : Gen α) := fun _ _ _ _ => trivial

theorem binds_freshLabel : Binds all [] (fun _ => True) freshLabel := by
  intro st cells ht _
  exact ⟨trivial, ht.numbered.past_nil⟩

theorem binds_bindSlot (d : VarDecl) : Binds all [d] (fun _ => True) (bindSlot d.id d.name d.ty d.nameSpan) := by
  intro st cells ht _
  rw [run_bindSlot]
  split
  · exact ⟨trivial, ht.growFor d.id d.name d.ty d.nameSpan⟩
  · trivial

theorem binds_withSlots {Q : Fragment → Prop} {f : Slots → Except CodegenError Fragment}
    (h : ∀ slots : Slots, slots.Sound all → EndsAt (fun _ => True) Q (f slots)) : Binds all [] Q (withSlots f) := by
  intro st cells ht hall
  rw [run_withSlots]
  exact (h st.slots (ht.slots_sound ((List.prefix_append _ _).trans hall))).map fun _ hcode => ⟨hcode, ht.past_nil⟩

end Steps

section Statements

variable {cx : Context} {all : List Cell} {fs : List FunctionDecl}

theorem lowerLocal_yields (hframes : Framing cx.frames fs all) (d : VarDecl) :
    Binds all [d] (Fragment.Yields all cx.info (d.pushes fs) (cx.info.unread [d])) (lowerLocal cx d) := by
  have hhead : Fragment.Yields all cx.info [] (cx.info.unread [d]) (.symbol d.nameSpan (declClass d.ty) ++
      if cx.info.isUsed d.id then {} else .warn d.nameSpan s!"Variable '{d.name}' is never read") := by
    refine .cons (.symbol _ _) ⟨?_, ?_⟩
    · split <;> exact .nil
    · rw [TypeInfo.unread]
      cases hused : cx.info.isUsed d.id with
      | true => simp [hused]
      | false =>
        rw [List.filter_cons_of_pos (by simp [hused]), if_neg Bool.false_ne_true]
        exact List.filter_cons_of_pos (isUnread_unreadWarning d)
  unfold lowerLocal VarDecl.pushes
  generalize d.init = init
  cases init with
  | none => exact (binds_bindSlot d).andLast fun _ _ => binds_pure hhead
  | some e =>
    refine (binds_withSlots fun slots hslots => lowerExpr_yields hslots hframes true e).andThen fun inner hinner => ?_
    exact (binds_bindSlot d).andLast fun _ _ => binds_pure ((hhead.append_code hinner).snoc (.emit rfl))

theorem lowerForInit_yields (hframes : Framing cx.frames fs all) (init : ForInit) :
    Binds all init.declared (Fragment.Yields all cx.info (init.pushes fs) (cx.info.unread init.declared))
      (lowerForInit cx init) := by
  cases init with
  | nothing => exact binds_pure (.none rfl rfl)
  | decl d => exact lowerLocal_yields hframes d
  | expr _ e => exact binds_withSlots fun slots hslots => lowerEffect_yields hslots hframes e

theorem lowerForCondition_yields (hframes : Framing cx.frames fs all) (exit : String) (e : Option Expr) :
    Binds all [] (Fragment.Yields all cx.info (Expr.optionalPushes fs e) []) (lowerForCondition cx exit e) := by
  cases e with
  | none => exact binds_pure (.none rfl rfl)
  | some e =>
    refine (binds_withSlots fun slots hslots => lowerCondition_yields hslots hframes e).andThen fun _ htest => ?_
    exact binds_pure (htest.snoc (.emit rfl))

theorem lowerStep_yields (hframes : Framing cx.frames fs all) (e : Option Expr) :
    Binds all [] (Fragment.Yields all cx.info (e.elim [] (·.effectPushes fs)) []) (lowerStep cx e) := by
  cases e with
  | none => exact binds_pure (.none rfl rfl)
  | some e => exact binds_withSlots fun slots hslots => lowerEffect_yields hslots hframes e

theorem lowerReturn_yields (hframes : Framing cx.frames fs all) (e : Option Expr) :
    Binds all [] (Fragment.Yields all cx.info (Expr.optionalPushes fs e) []) (lowerReturn cx e) := by
  cases e with
  | none => exact binds_pure (.emit rfl)
  | some e =>
    refine (binds_withSlots fun slots hslots => lowerExpr_yields hslots hframes true e).andThen fun inner hinner => ?_
    cases (cx.frames.lookup cx.function).bind (·.result) with
    | none => exact binds_throw _
    | some a => exact binds_pure (hinner.snoc (.emit rfl))

theorem unreachableWarning_yields (ss : List Stmt) : (unreachableWarning ss).Yields all cx.info [] [] := by
  unfold unreachableWarning
  split
  · exact .none rfl rfl
  · exact .none rfl (List.filter_cons_of_neg (by simp [isUnread_unreachable]))

mutual

/-- the code of a statement pushes what its pushes are for, and warns about the locals it reaches that are not marked as
used -/
theorem lowerStmt_yields (hframes : Framing cx.frames fs all) (loop : Option LoopLabels) (s : Stmt) :
    Binds all s.locals (Fragment.Yields all cx.info (s.pushes fs) (cx.info.unread s.locals)) (lowerStmt cx loop s) := by
  have htest (e : Expr) := binds_withSlots (f := fun slots => lowerCondition cx slots e) fun slots hslots =>
    lowerCondition_yields hslots hframes e
  match s with
  | .decl d => exact lowerLocal_yields hframes d
  | .ifThen _ cond yes =>
    simp only [lowerStmt, Stmt.pushes, Stmt.locals]
    refine binds_freshLabel.andThen fun n _ => (htest cond).andThen fun _ hcond => ?_
    refine (lowerStmt_yields hframes loop yes).andLast fun _ hyes => binds_pure ?_
    exact ((hcond.snoc (.emit rfl)).code_append hyes).snoc (.place _)
  | .ifElse _ cond yes no =>
    simp only [lowerStmt, Stmt.pushes, Stmt.locals, TypeInfo.unread_append]
    refine binds_freshLabel.andThen fun n _ => (htest cond).andThen fun _ hcond => ?_
    refine (lowerStmt_yields hframes loop yes).bind fun _ hyes => ?_
    refine (lowerStmt_yields hframes loop no).andLast fun _ hno => binds_pure ?_
    have hskip : Fragment.Yields all cx.info [] []
        (.emit (if yes.diverges then [] else [.jump .jmp (label "if_end" n)])) :=
      .emit (by split <;> rfl)
    exact (((((hcond.snoc (.emit rfl)).code_append hyes).snoc hskip).snoc (.place _)).append hno).snoc (.place _)
  | .while_ _ cond body =>
    simp only [lowerStmt, Stmt.pushes, Stmt.locals]
    refine binds_freshLabel.andThen fun n _ => (htest cond).andThen fun _ hcond => ?_
    refine (lowerStmt_yields hframes _ body).andLast fun _ hbody => binds_pure ?_
    have hhead := (Fragment.Yields.place (label "while_head" n)).cons hcond
    exact (((hhead.snoc (.emit rfl)).code_append hbody).snoc (.emit rfl)).snoc (.place _)
  | .doWhile _ body cond =>
    simp only [lowerStmt, Stmt.pushes, Stmt.locals]
    refine binds_freshLabel.andThen fun n _ => (lowerStmt_yields hframes _ body).andLast fun _ hbody => ?_
    refine (htest cond).andThen fun _ hcond => binds_pure ?_
    have hfirst := (Fragment.Yields.place (label "do_body" n)).cons hbody
    exact (((hfirst.snoc (.place _)).append_code hcond).snoc (.emit rfl)).snoc (.place _)
  | .for_ _ init cond step body =>
    simp only [lowerStmt, Stmt.pushes, Stmt.locals, TypeInfo.unread_append]
    refine binds_freshLabel.andThen fun n _ => (lowerForInit_yields hframes init).bind fun _ hinit => ?_
    refine (lowerForCondition_yields hframes _ cond).andThen fun _ hcond => ?_
    refine (lowerStmt_yields hframes _ body).andLast fun _ hbody => ?_
    refine (lowerStep_yields hframes step).andThen fun _ hstep => binds_pure ?_
    have hhead := ((hinit.snoc (.place (label "for_head" n))).append_code hcond).append hbody
    exact (((hhead.snoc (.place _)).append_code hstep).snoc (.emit rfl)).snoc (.place _)
  | .break_ _ | .continue_ _ =>
    cases loop with
    | none => exact binds_throw _
    | some l => exact binds_pure (.emit rfl)
  | .return_ _ value => exact lowerReturn_yields hframes value
  | .expr _ e => exact binds_withSlots fun slots hslots => lowerEffect_yields hslots hframes e
  | .block _ body => exact lowerStmts_yields hframes loop body
  | .empty _ => exact binds_pure (.none rfl rfl)

theorem lowerStmts_yields (hframes : Framing cx.frames fs all) (loop : Option LoopLabels) (ss : List Stmt) :
    Binds all (Stmt.localsOf ss) (Fragment.Yields all cx.info (Stmt.pushesOf fs ss) (cx.info.unread (Stmt.localsOf ss)))
      (lowerStmts cx loop ss) := by
  match ss with
  | [] => exact binds_pure (.none rfl rfl)
  | s :: ss =>
    simp only [lowerStmts, Stmt.pushesOf, Stmt.localsOf, TypeInfo.unread_append]
    refine (lowerStmt_yields hframes loop s).bind fun _ hfirst => ?_
    cases s.diverges with
    | true => exact binds_pure (hfirst.append (unreachableWarning_yields ss))
    | false => exact (lowerStmts_yields hframes loop ss).andLast fun _ hmore => binds_pure (hfirst.append hmore)

end

end Statements

/-! ## Programs -/

section Programs

variable (cx : Context) {all : List Cell} {fs : List FunctionDecl}

theorem lowerGlobals_yields (hframes : Framing cx.frames fs all) (gs : List (VarDecl × Address)) :
    Binds all [] (Fragment.Yields all cx.info ((gs.map (·.1)).flatMap (·.pushes fs)) []) (lowerGlobals cx gs) := by
  induction gs with
  | nil => exact binds_pure (.none rfl rfl)
  | cons g gs ih =>
    obtain ⟨d, a⟩ := g
    simp only [lowerGlobals, List.map_cons, List.flatMap_cons, VarDecl.pushes]
    generalize d.init = init
    cases init with
    | none =>
      have hzero : Fragment.Yields all cx.info [] [] (.emit [.store (.zero d.ty.family) a]) := .emit rfl
      exact (binds_pure hzero).andThen fun _ hfirst => ih.andThen fun _ hmore => binds_pure (hfirst.cons hmore)
    | some e =>
      refine (binds_withSlots fun slots hslots => lowerExpr_yields hslots hframes true e).andThen fun _ hinner => ?_
      exact ih.andThen fun _ hmore => binds_pure ((hinner.snoc (.emit rfl)).code_append hmore)

theorem paramSymbols_yields {info : TypeInfo} (ps : List Param) {a : Fragment} (ha : a.Yields all info [] []) :
    (ps.foldl (fun acc p => acc ++ .symbol p.span .parameter) a).Yields all info [] [] := by
  induction ps generalizing a with
  | nil => exact ha
  | cons q ps ih => exact ih (ha.snoc (.symbol _ _))

theorem lowerFunction_yields (hframes : Framing cx.frames fs all) (f : FunctionDecl) :
    Binds all (Stmt.localsOf f.body)
      (Fragment.Yields all cx.info (Stmt.pushesOf fs f.body) (cx.info.unread (Stmt.localsOf f.body)))
      (lowerFunction cx f) := by
  have hbody : Binds all (Stmt.localsOf f.body)
      (Fragment.Yields all cx.info (Stmt.pushesOf fs f.body) (cx.info.unread (Stmt.localsOf f.body)))
      (lowerStmts { cx with function := f.name } none f.body) := lowerStmts_yields (by exact hframes) none f.body
  refine hbody.andLast fun _ hbody => binds_pure ?_
  exact (((paramSymbols_yields f.params (.symbol f.nameSpan .function)).snoc (.place _)).cons hbody).snoc
    (.emit (by split <;> rfl))

theorem lowerFunctions_yields (hframes : Framing cx.frames fs all) (gs : List FunctionDecl) :
    Binds all (gs.flatMap fun f => Stmt.localsOf f.body)
      (Fragment.Yields all cx.info (gs.flatMap fun f => Stmt.pushesOf fs f.body)
        (cx.info.unread (gs.flatMap fun f => Stmt.localsOf f.body)))
      (lowerFunctions cx gs) := by
  induction gs with
  | nil => exact binds_pure (.none rfl rfl)
  | cons g gs ih =>
    simp only [lowerFunctions, List.flatMap_cons, TypeInfo.unread_append]
    exact (lowerFunction_yields cx hframes g).bind fun _ hfirst => ih.andLast fun _ hmore =>
      binds_pure (hfirst.append hmore)

end Programs

end Codegen

namespace Program

variable {p : Program} {info : TypeInfo} {out : Generated}

/-- **Pushes of a program** are one for one those that `Program.pushes` lists, and its warnings about locals those of
the locals without a mark. -/
theorem generate_yields (h : p.generate info = .ok out) :
    List.Forall₂ (Push.At p.cells info) (Line.pushed out.lines) p.pushes ∧
      out.warnings.filter Diagnostic.isUnread = info.unread p.locals := by
  obtain ⟨parts, hwarnings⟩ := exists_parts h
  obtain ⟨hframed, hframes⟩ := parts.framing
  have hentered := hframed
  rw [← parts.entered_eq] at hentered
  have hlength : parts.addresses.length = p.globals.length := by
    rw [parts.addresses_eq, Codegen.addressesFrom, List.length_map, List.length_range']
  have hprefix :
      p.globals.map VarDecl.cell ++ p.functions.flatMap FunctionDecl.frameCells ++ [].map VarDecl.cell <+: p.cells := by
    rw [List.map_nil, List.append_nil]
    exact List.prefix_append _ _
  have hentry := Codegen.lowerGlobals_yields ⟨info, .ofFunctions p.functions, parts.frames, ""⟩ hframes
    (p.globals.zip parts.addresses) parts.framed _ hframed hprefix
  rw [parts.lowerGlobals, List.map_fst_zip hlength.ge] at hentry
  have hall : p.globals.map VarDecl.cell ++ p.functions.flatMap FunctionDecl.frameCells ++ p.locals.map
      VarDecl.cell = p.cells := by
    rw [locals, List.map_flatMap]
    rfl
  have hfunctions :=
    Codegen.lowerFunctions_yields ⟨info, .ofFunctions p.functions, parts.frames, ""⟩ hframes p.functions
    parts.entered _ hentered (hall ▸ List.prefix_refl _)
  rw [parts.lowerFunctions] at hfunctions
  have hread : Line.pushed ((p.globals.zip parts.addresses).map fun x => .read x.2 x.1.name) = [] := by
    rw [Line.pushed, List.filterMap_map]
    exact List.filterMap_eq_nil_iff.2 fun _ _ => rfl
  obtain ⟨⟨hentryPushes, hentryUnread⟩, -⟩ := hentry
  obtain ⟨⟨hbodyPushes, hbodyUnread⟩, -⟩ := hfunctions
  constructor
  · have hcall : Line.pushed [.instr (.jump .call (Codegen.functionLabel "main")), .instr (.bare .halt)] = [] := rfl
    rw [parts.lines, Line.pushed_append, Line.pushed_append, Line.pushed_append, hread, hcall, List.nil_append,
      List.append_nil]
    exact List.rel_append hentryPushes hbodyPushes
  · rw [hwarnings, List.filter_append, hentryUnread, hbodyUnread]
    rfl

end Program

/-! ## Pushes that are reads -/

/-- what is pushed to be read is read at one of these occurrences -/
def ReadsAt (ids : List NodeId) (qs : List Push) : Prop := ∀ id, .read id ∈ qs → id ∈ ids

namespace ReadsAt

variable {xs ys : List NodeId} {qs rs : List Push}

theorem append (hq : ReadsAt xs qs) (hr : ReadsAt xs rs) : ReadsAt xs (qs ++ rs) :=
  fun id hid => (List.mem_append.1 hid).elim (hq id) (hr id)

theorem left (h : ReadsAt xs qs) (ys : List NodeId) : ReadsAt (xs ++ ys) qs :=
  fun id hid => List.mem_append_left _ (h id hid)

theorem right (h : ReadsAt ys qs) (xs : List NodeId) : ReadsAt (xs ++ ys) qs :=
  fun id hid => List.mem_append_right _ (h id hid)

theorem nil (xs : List NodeId) : ReadsAt xs [] := fun _ hid => absurd hid List.not_mem_nil

theorem read {id : NodeId} (h : id ∈ xs) : ReadsAt xs [.read id] := by
  intro id' hid
  rw [Push.read.inj (List.mem_singleton.1 hid)]
  exact h

/-- a push for something else -/
theorem other {q : Push} (h : ∀ id, q ≠ .read id) : ReadsAt xs [q] :=
  fun id hid => absurd (List.mem_singleton.1 hid).symm (h id)

/-- a push that is made if a value is used -/
theorem optional {q : Push} (h : ReadsAt xs [q]) (b : Bool) : ReadsAt xs (if b then [q] else []) := by
  cases b with
  | false => exact nil xs
  | true => exact h

end ReadsAt

section ReadsAt

variable {fs : List FunctionDecl}

theorem callPushes_readsAt (xs : List NodeId) (used : Bool) (callee : String) :
    ReadsAt xs (callPushes fs used callee) := by
  unfold callPushes
  cases calledFunction fs callee with
  | none => exact .nil xs
  | some f => exact .optional (.other fun _ h => by cases h) _

mutual

theorem Expr.pushes_readsAt (used : Bool) (e : Expr) : ReadsAt (e.reads used) (e.pushes fs used) := by
  cases e with
  | literal => exact .nil _
  | ident id => exact .read (List.mem_singleton_self _)
  | binary _ _ _ lhs rhs => exact ((lhs.pushes_readsAt true).left _).append ((rhs.pushes_readsAt true).right _)
  | unary _ _ _ operand => exact operand.pushes_readsAt true
  | cast _ _ _ operand => exact operand.pushes_readsAt true
  | update id =>
    cases used with
    | false => exact .nil _
    | true => exact .read (List.mem_singleton_self _)
  | assign id _ op _ _ value =>
    have hvalue := value.pushes_readsAt true
    cases op with
    | none => exact hvalue.append (.optional (.other fun _ h => by cases h) used)
    | some op =>
      have hread : ReadsAt (value.reads true ++ [id]) [.read id] :=
        .read (List.mem_append_right _ (List.mem_singleton_self _))
      exact (hread.append (hvalue.left _)).append (hread.optional used)
  | call _ _ callee _ args => exact (Expr.pushesOf_readsAt args).append (callPushes_readsAt _ used callee)
  | intrinsic _ _ _ _ args => exact Expr.pushesOf_readsAt args

theorem Expr.pushesOf_readsAt (es : List Expr) : ReadsAt (Expr.readsOf es) (Expr.pushesOf fs es) := by
  cases es with
  | nil => exact .nil _
  | cons e es => exact ((e.pushes_readsAt true).left _).append ((Expr.pushesOf_readsAt es).right _)

end

theorem Expr.optionalPushes_readsAt (e : Option Expr) : ReadsAt (Expr.optionalReads e) (Expr.optionalPushes fs e) := by
  cases e with
  | none => exact .nil _
  | some e => exact e.pushes_readsAt true

theorem ForInit.pushes_readsAt (init : ForInit) : ReadsAt init.reads (init.pushes fs) := by
  cases init with
  | nothing => exact .nil _
  | decl d => exact Expr.optionalPushes_readsAt d.init
  | expr _ e => exact e.pushes_readsAt _

mutual

theorem Stmt.pushes_readsAt (s : Stmt) : ReadsAt s.reads (s.pushes fs) := by
  cases s with
  | decl d => exact Expr.optionalPushes_readsAt d.init
  | ifThen _ cond yes => exact ((cond.pushes_readsAt true).left _).append (yes.pushes_readsAt.right _)
  | ifElse _ cond yes no =>
    have hyes : ReadsAt (cond.reads true ++ yes.reads) (cond.pushes fs true ++ yes.pushes fs) :=
      ((cond.pushes_readsAt true).left _).append (yes.pushes_readsAt.right _)
    exact (hyes.left _).append (no.pushes_readsAt.right _)
  | while_ _ cond body => exact ((cond.pushes_readsAt true).left _).append (body.pushes_readsAt.right _)
  | doWhile _ body cond => exact (body.pushes_readsAt.left _).append ((cond.pushes_readsAt true).right _)
  | for_ _ init cond step body =>
    have hhead : ReadsAt (init.reads ++ Expr.optionalReads cond) (init.pushes fs ++ Expr.optionalPushes fs cond) :=
      (init.pushes_readsAt.left _).append ((Expr.optionalPushes_readsAt cond).right _)
    have hstep : ReadsAt (step.elim [] Expr.effectReads) (step.elim [] (·.effectPushes fs)) := by
      cases step with
      | none => exact .nil _
      | some e => exact e.pushes_readsAt _
    -- the step is checked before the body and its code comes behind it
    exact (((hhead.left _).left _).append (body.pushes_readsAt.right _)).append ((hstep.right _).left _)
  | return_ _ value => exact Expr.optionalPushes_readsAt value
  | expr _ e => exact e.pushes_readsAt _
  | block _ body => exact Stmt.pushesOf_readsAt body
  | break_ | continue_ | empty => exact .nil _

theorem Stmt.pushesOf_readsAt (ss : List Stmt) : ReadsAt (Stmt.readsOf ss) (Stmt.pushesOf fs ss) := by
  cases ss with
  | nil => exact .nil _
  | cons s rest =>
    refine (s.pushes_readsAt.left _).append (ReadsAt.right ?_ _)
    cases s.diverges with
    | true => exact .nil _
    | false => exact Stmt.pushesOf_readsAt rest

end

end ReadsAt

namespace Program

variable {p : Program} {info : TypeInfo} {out : Generated}

/-- what a program pushes to read it, it reads in its text -/
theorem pushes_readsAt (p : Program) : ReadsAt p.reads p.pushes := by
  have hitem {item : Item} (hi : item ∈ p.items) {qs : List Push} (h : ReadsAt item.reads qs) : ReadsAt p.reads qs :=
    fun id hid => List.mem_flatMap.2 ⟨item, hi, h id hid⟩
  refine .append ?_ ?_
  · intro id hid
    obtain ⟨d, hd, hid⟩ := List.mem_flatMap.1 hid
    exact hitem (mem_globals.1 hd) (Expr.optionalPushes_readsAt d.init) id hid
  · intro id hid
    obtain ⟨f, hf, hid⟩ := List.mem_flatMap.1 hid
    exact hitem (mem_functions.1 hf) (Stmt.pushesOf_readsAt f.body) id hid

/-! ## Locals that are never read -/

/-- no read resolves to a declaration -/
def NeverReads (p : Program) (info : TypeInfo) (d : VarDecl) : Prop :=
  ∀ id ∈ p.reads, info.facts.resolved.lookup id ≠ some d.id

instance (p : Program) (info : TypeInfo) (d : VarDecl) : Decidable (p.NeverReads info d) :=
  inferInstanceAs (Decidable (∀ id ∈ p.reads, info.facts.resolved.lookup id ≠ some d.id))

theorem neverReads_iff (hids : p.ids.Nodup) (hcheck : p.check = .ok info) {d : VarDecl} :
    p.NeverReads info d ↔ info.isUsed d.id = false := by
  rw [← Bool.not_eq_true, isUsed_iff hids hcheck]
  simp only [NeverReads, not_exists, not_and, ne_eq]

theorem mem_locals {d : VarDecl} (hd : d ∈ p.locals) : .variable d ∈ p.owners := by
  obtain ⟨f, hf, hd⟩ := List.mem_flatMap.1 hd
  exact mem_owners_variable.2 (Or.inr ⟨f, hf, hd⟩)

/-- an owner has its address for itself, and is listed there -/
theorem owns_of_owner (hids : p.ids.Nodup) (hcheck : p.check = .ok info) (hgen : p.generate info = .ok out) {i : Nat}
    {d : VarDecl} (ho : p.owners[i]? = some (.variable d)) : p.Owns out d.id ⟨i⟩ := by
  obtain ⟨parts⟩ := nonempty_parts hgen
  refine ⟨⟨.variable d, rfl, ho, ?_⟩, ?_⟩
  · rw [parts.destinations, parts.final_holds.destinations, destinationsOf, List.getElem?_mapIdx, ho]
    rfl
  · intro j o hj hcell
    exact cell_unique hids hcheck (cell_of_owner hj) (hcell ▸ cell_of_owner ho)

end Program

/-- an address is pushed for a variable exactly if it belongs to the variable -/
theorem Push.At.decl?_eq_some_iff {cells : List Cell} {info : TypeInfo} {a : Address} {q : Push} (h : q.At cells info a)
    {decl : NodeId} : q.decl? info = some decl ↔ cells[a.index]? = some (.variable decl) := by
  cases q with
  | read id | keep id =>
    obtain ⟨v, hv, hcell⟩ := h
    rw [decl?, info.resolved_of_variableOf hv, hcell, Option.some.injEq, Option.some.injEq, Cell.variable.injEq]
  | result callee =>
    have hcell : cells[a.index]? = some (.result callee) := h
    rw [decl?, hcell, Option.some.injEq]
    constructor <;> intro heq <;> cases heq

namespace Program

variable {p : Program} {info : TypeInfo} {out : Generated}

/-- a variable is pushed once for each push that is for it -/
theorem count_push (hids : p.ids.Nodup) (hcheck : p.check = .ok info) (hgen : p.generate info = .ok out) {i : Nat}
    {d : VarDecl} (ho : p.owners[i]? = some (.variable d)) :
    out.lines.count (.instr (Codegen.pushA ⟨i⟩)) = p.pushes.countP fun q => q.decl? info == some d.id := by
  have hcell : p.cells[i]? = some (.variable d.id) := cell_of_owner ho
  rw [← Line.count_pushed, List.count_eq_countP]
  refine countP_eq_of_forall₂ (generate_yields hgen).1 fun a q _ hq => ?_
  rw [Bool.eq_iff_iff, beq_iff_eq, beq_iff_eq, hq.decl?_eq_some_iff]
  constructor
  · rintro rfl
    exact hcell
  · intro ha
    exact congrArg Address.mk (cell_unique hids hcheck ha hcell)

/-- the pushes that are for a variable which is never read are for plain assignments to it -/
theorem countP_pushes {d : VarDecl} (hnever : p.NeverReads info d) :
    (p.pushes.countP fun q => q.decl? info == some d.id) = p.keeps.countP fun id =>
      info.facts.resolved.lookup id == some d.id := by
  rw [keeps, List.countP_filterMap]
  refine List.countP_congr fun q hq => ?_
  cases q with
  | read id =>
    have hne := hnever id (p.pushes_readsAt id hq)
    simpa [Push.decl?, Push.kept?] using hne
  | keep id => exact Iff.rfl
  | result callee => exact Iff.rfl

/-- **Warnings that a local is never read.** In a checked program with distinct identities they are those of the locals
with code that no read resolves to, in order. The address of such a local is pushed once for each plain assignment to it
whose value is used, so it is not pushed exactly if there is no such assignment. -/
theorem unread_pushes_iff (hids : p.ids.Nodup) (hcheck : p.check = .ok info) (hgen : p.generate info = .ok out) :
    out.warnings.filter Diagnostic.isUnread = (p.locals.filter fun d => p.NeverReads info d).map VarDecl.unreadWarning ∧
    ∀ d ∈ p.locals, p.NeverReads info d → ∃ a, p.Owns out d.id a ∧
      out.lines.count (.instr (Codegen.pushA a)) =
        (p.keeps.countP fun id => info.facts.resolved.lookup id == some d.id) ∧
      (.instr (Codegen.pushA a) ∉ out.lines ↔ ∀ id ∈ p.keeps, info.facts.resolved.lookup id ≠ some d.id) := by
  constructor
  · rw [(generate_yields hgen).2, TypeInfo.unread]
    congr 1
    refine List.filter_congr fun d _ => ?_
    rw [Bool.eq_iff_iff, Bool.not_eq_true', decide_eq_true_eq, neverReads_iff hids hcheck]
  · intro d hd hnever
    obtain ⟨i, ho⟩ := List.mem_iff_getElem?.1 (mem_locals hd)
    have hcount : out.lines.count (.instr (Codegen.pushA ⟨i⟩)) = _ :=
      (count_push hids hcheck hgen ho).trans (countP_pushes hnever)
    refine ⟨⟨i⟩, owns_of_owner hids hcheck hgen ho, hcount, ?_⟩
    rw [← List.count_eq_zero, hcount, List.countP_eq_zero]
    simp only [beq_iff_eq, ne_eq]

end Program

/-- `void main() { int x; int z; x++; int y = z = 1; _setled(y); }` -/
def echoing : Program :=
  { span := ⟨0, 0⟩
    items :=
      [.function ⟨⟨0, 0⟩, "main", ⟨0, 0⟩, .plain .void, [], ⟨0, 0⟩,
        [.decl ⟨0, ⟨0, 0⟩, "x", ⟨0, 0⟩, .plain .int, none⟩,
         .decl ⟨1, ⟨0, 0⟩, "z", ⟨0, 0⟩, .plain .int, none⟩,
         .expr ⟨0, 0⟩ (.update 3 ⟨0, 0⟩ .postInc 2 ⟨0, 0⟩ "x"),
         .decl ⟨6, ⟨0, 0⟩, "y", ⟨0, 0⟩, .plain .int,
           some (.assign 5 ⟨0, 0⟩ none "z" ⟨0, 0⟩ (.literal 4 ⟨0, 0⟩ (.int 1)))⟩,
         .expr ⟨0, 0⟩ (.intrinsic 8 ⟨0, 0⟩ .setLed ⟨0, 0⟩ [.ident 7 ⟨0, 0⟩ "y"])]⟩] }

/-- of the two locals that are warned about, the one that is only updated is not pushed, and the one whose assignment is
a value is pushed once -/
theorem echoing_unread : echoing.ids.Nodup ∧ ∃ info out, echoing.check = .ok info ∧ echoing.generate info = .ok out ∧
    (out.warnings.filter Diagnostic.isUnread).map (·.message) =
      ["Variable 'x' is never read", "Variable 'z' is never read"] ∧
    (∃ a, echoing.Owns out 0 a ∧ .instr (Codegen.pushA a) ∉ out.lines) ∧
    ∃ a, echoing.Owns out 1 a ∧ out.lines.count (.instr (Codegen.pushA a)) = 1 := by
  have hids : echoing.ids.Nodup := by decide
  obtain ⟨info, out, hcheck, hgen, hresolved⟩ : ∃ info out, echoing.check = .ok info ∧ echoing.generate info = .ok out ∧
      info.facts.resolved = [(2, 0), (3, 0), (5, 1), (7, 6)] := ⟨_, _, rfl, rfl, rfl⟩
  obtain ⟨hwarnings, hpushes⟩ := Program.unread_pushes_iff hids hcheck hgen
  have hnever (d : VarDecl) : echoing.NeverReads info d ↔ d.id ≠ 6 := by
    have hreads : echoing.reads = [7] := by decide
    rw [Program.NeverReads, hreads, hresolved, List.forall_mem_singleton, ne_comm]
    exact not_congr Option.some_inj
  have hkeeps : echoing.keeps = [5] := by decide
  refine ⟨hids, info, out, hcheck, hgen, ?_, ?_, ?_⟩
  · rw [hwarnings]
    simp only [hnever]
    decide
  · obtain ⟨a, howns, -, hpushed⟩ :=
      hpushes ⟨0, ⟨0, 0⟩, "x", ⟨0, 0⟩, .plain .int, none⟩ List.mem_cons_self ((hnever _).2 (by decide))
    refine ⟨a, howns, hpushed.2 ?_⟩
    rw [hkeeps, hresolved]
    decide
  · have hz : ⟨1, ⟨0, 0⟩, "z", ⟨0, 0⟩, .plain .int, none⟩ ∈ echoing.locals := List.mem_cons_of_mem _ List.mem_cons_self
    obtain ⟨a, howns, hcount, -⟩ := hpushes _ hz ((hnever _).2 (by decide))
    rw [hkeeps, hresolved] at hcount
    exact ⟨a, howns, hcount⟩

/-- a local whose assignment is a value: `y` gets what is stored into `x` -/
def relay : String := "void main() { int x; int y = x = 1; _setled(y); }"

/-- its address is pushed although it is said that it is never read -/
theorem relay_pushed : ∃ out x, compile relay = .ok out ∧ out.destinations.head? = some x ∧ x.name = "x" ∧
    .warningAt .source x.span "Variable 'x' is never read" ∈ out.warnings ∧
      .instr (Codegen.pushA x.address) ∈ out.lines := by
  have h : ((compile relay).toOption.bind fun out => out.destinations.head?.map fun x =>
      (x.name, decide (.warningAt .source x.span "Variable 'x' is never read" ∈ out.warnings ∧
        .instr (Codegen.pushA x.address) ∈ out.lines))) = some ("x", true) := by
    decide +kernel
  cases hcompile : compile relay with
  | error e =>
    rw [hcompile] at h
    cases h
  | ok out =>
    rw [hcompile] at h
    obtain ⟨x, hx, hfound⟩ := Option.map_eq_some_iff.1 (show out.destinations.head?.map _ = _ from h)
    obtain ⟨hname, hboth⟩ := Prod.mk.inj hfound
    exact ⟨out, x, rfl, hx, hname, of_decide_eq_true hboth⟩

end C15

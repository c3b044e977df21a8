/-
Layout does not matter.

Two sources with the same kinds of tokens are read as programs that are alike, for which the checker finds the same
tables or the same fault. The generator looks places up nowhere either: it gives the same lines, with symbols, warnings
and destinations that differ in places only, or fails for the same cause. `SameGen` relates two of its steps, from
storage that is alike to storage that is alike; `compile_ignores_layout` puts the stages in a row.
-/
import C15.Compilation
import C15.Proofs.AlikeChecking
import C15.Proofs.Lowering

namespace C15

/-! ## Calls, and the ends of statements -/

mutual

theorem Expr.Alike.callees {e e' : Expr} (h : e.Alike e') : e.callees = e'.callees := by
  cases h with
  | literal | ident | update => rfl
  | binary hl hr => simp only [Expr.callees, hl.callees, hr.callees]
  | unary he | assign he | cast he => simp only [Expr.callees, he.callees]
  | call ha | intrinsic ha => simp only [Expr.callees, ha.callees]

theorem Expr.AllAlike.callees {es es' : List Expr} (h : Expr.AllAlike es es') :
    Expr.calleesOf es = Expr.calleesOf es' := by
  cases h with
  | nil => rfl
  | cons he hs => simp only [Expr.calleesOf, he.callees, hs.callees]

end

theorem optional_callees {e e' : Option Expr} (h : Option.Rel Expr.Alike e e') :
    e.elim [] Expr.callees = e'.elim [] Expr.callees := by
  cases h with
  | none => rfl
  | some he => exact he.callees

theorem ForInit.Alike.callees {i i' : ForInit} (h : i.Alike i') : i.callees = i'.callees := by
  cases h with
  | nothing => rfl
  | decl hd => exact optional_callees hd.init
  | expr he => exact he.callees

mutual

theorem Stmt.Alike.callees {s s' : Stmt} (h : s.Alike s') : s.callees = s'.callees := by
  cases h with
  | decl hd => exact optional_callees hd.init
  | ifThen hc hy => simp only [Stmt.callees, hc.callees, hy.callees]
  | ifElse hc hy hn => simp only [Stmt.callees, hc.callees, hy.callees, hn.callees]
  | for_ hi hc hs hb => simp only [Stmt.callees, hi.callees, optional_callees hc, optional_callees hs, hb.callees]
  | while_ hc hb | doWhile hb hc => simp only [Stmt.callees, hc.callees, hb.callees]
  | return_ hv => exact optional_callees hv
  | expr he => exact he.callees
  | block hb => exact hb.callees
  | break_ | continue_ | empty => rfl

theorem Stmt.AllAlike.callees {ss ss' : List Stmt} (h : Stmt.AllAlike ss ss') :
    Stmt.calleesOf ss = Stmt.calleesOf ss' := by
  cases h with
  | nil => rfl
  | cons hs hss => simp only [Stmt.calleesOf, hs.callees, hss.callees]

end

mutual

theorem Stmt.Alike.diverges {s s' : Stmt} (h : s.Alike s') : s.diverges = s'.diverges := by
  cases h with
  | ifElse _ hy hn => simp only [Stmt.diverges, hy.diverges, hn.diverges]
  | block hb => simp only [Stmt.diverges, hb.diverges]
  | _ => rfl

theorem Stmt.AllAlike.diverges {ss ss' : List Stmt} (h : Stmt.AllAlike ss ss') :
    Stmt.anyDiverges ss = Stmt.anyDiverges ss' := by
  cases h with
  | nil => rfl
  | cons hs hss => simp only [Stmt.anyDiverges, hs.diverges, hss.diverges]

end

theorem ofFunctions_alike {fs fs' : List FunctionDecl} (h : List.Forall₂ FunctionDecl.Alike fs fs') :
    CallGraph.ofFunctions fs = CallGraph.ofFunctions fs' := by
  have hmap : (fs.map fun f => (f.name, (Stmt.calleesOf f.body).eraseDups)) =
      fs'.map fun f => (f.name, (Stmt.calleesOf f.body).eraseDups) := by
    induction h with
    | nil => rfl
    | cons hf _ ih => rw [List.map_cons, List.map_cons, ih, hf.name, hf.body.callees]
  rw [CallGraph.ofFunctions, CallGraph.ofFunctions, hmap]

namespace Codegen

/-! ## Generating -/

/-- the same lines; symbols and warnings that differ in places only -/
structure Fragment.Alike (a b : Fragment) : Prop where
  lines : a.lines = b.lines
  symbols : a.symbols.map (·.value) = b.symbols.map (·.value)
  warnings : a.warnings.map (·.message) = b.warnings.map (·.message)

namespace Fragment.Alike

theorem refl (a : Fragment) : a.Alike a := ⟨rfl, rfl, rfl⟩

theorem append {a a' b b' : Fragment} (ha : a.Alike a') (hb : b.Alike b') : (a ++ b).Alike (a' ++ b') := by
  refine ⟨?_, ?_, ?_⟩
  · rw [lines_append, lines_append, ha.lines, hb.lines]
  · rw [symbols_append, symbols_append, List.map_append, List.map_append, ha.symbols, hb.symbols]
  · rw [warnings_append, warnings_append, List.map_append, List.map_append, ha.warnings, hb.warnings]

/-- the same lines behind both -/
theorem snoc {a a' : Fragment} (ha : a.Alike a') (b : Fragment) : (a ++ b).Alike (a' ++ b) := ha.append (refl b)

theorem symbol (span span' : Span) (c : SymbolClass) : (Fragment.symbol span c).Alike (.symbol span' c) :=
  ⟨rfl, rfl, rfl⟩

theorem warn (span span' : Span) (message : String) : (Fragment.warn span message).Alike (.warn span' message) :=
  ⟨rfl, rfl, rfl⟩

end Fragment.Alike

/-- the generator looks up the same, or fails for the same cause -/
abbrev AgreeFound {α : Type} : Except CodegenError α → Except CodegenError α → Prop := Agree Located.SameValue Eq

/-- the generator gives code that is alike, or fails for the same cause -/
abbrev AgreeCode : Except CodegenError Fragment → Except CodegenError Fragment → Prop :=
  Agree Located.SameValue Fragment.Alike

section Expressions

variable (cx : Context) (slots : Slots)

theorem slotOf_agrees (id : NodeId) (span span' : Span) :
    AgreeFound (cx.slotOf slots id span) (cx.slotOf slots id span') := by
  unfold Context.slotOf
  split
  · rfl
  · split <;> rfl

theorem family_agrees (id : NodeId) (span span' : Span) : AgreeFound (cx.family id span) (cx.family id span') := by
  unfold Context.family
  split <;> rfl

theorem select_agrees (op : BinOp) (f : Family) (symbol : String) (span span' : Span) :
    AgreeFound (select op f symbol span) (select op f symbol span') := by
  unfold select
  split <;> rfl

mutual

theorem lowerExpr_agrees (used : Bool) {e e' : Expr} (h : e.Alike e') :
    AgreeCode (lowerExpr cx slots used e) (lowerExpr cx slots used e') := by
  cases h with
  | literal => exact agree_pure (.refl _)
  | ident =>
    simp only [lowerExpr]
    exact (slotOf_agrees cx slots _ _ _).andThen fun _ => agree_pure ((Fragment.Alike.symbol _ _ _).snoc _)
  | binary hl hr =>
    simp only [lowerExpr, hl.id]
    refine (family_agrees cx _ _ _).andThen fun f => (select_agrees _ f _ _ _).andThen fun i => ?_
    refine (lowerExpr_agrees true hl).bind fun left left' hleft =>
      (lowerExpr_agrees true hr).bind fun right right' hright => ?_
    exact agree_pure ((hleft.append hright).snoc _)
  | @unary _ _ _ op _ _ he =>
    simp only [lowerExpr, he.id]
    refine (family_agrees cx _ _ _).andThen fun f => (lowerExpr_agrees true he).bind fun inner inner' hinner => ?_
    cases op <;> exact agree_pure (hinner.snoc _)
  | update =>
    simp only [lowerExpr]
    refine (slotOf_agrees cx slots _ _ _).andThen fun _ => (family_agrees cx _ _ _).andThen fun f => ?_
    exact agree_pure ((Fragment.Alike.symbol _ _ _).snoc _)
  | @assign _ _ _ op _ targetSpan targetSpan' _ _ he =>
    simp only [lowerExpr]
    refine (slotOf_agrees cx slots _ _ _).andThen fun slot => ?_
    have htarget := Fragment.Alike.symbol targetSpan targetSpan' slot.2
    cases op with
    | none =>
      refine (lowerExpr_agrees true he).bind fun inner inner' hinner => ?_
      exact agree_pure (((htarget.append hinner).snoc _).snoc _)
    | some op =>
      simp only [he.id]
      refine (family_agrees cx _ _ _).andThen fun f => (select_agrees _ f _ _ _).andThen fun i => ?_
      refine (lowerExpr_agrees true he).bind fun inner inner' hinner => ?_
      exact agree_pure ((((htarget.snoc _).append hinner).snoc _).snoc _)
  | @call _ span span' callee calleeSpan calleeSpan' _ _ ha =>
    simp only [lowerExpr]
    refine (lowerArgs_agrees ha).bind fun inner inner' hinner => ?_
    have hwarning :
        Fragment.Alike (if cx.graph.reaches callee cx.function then .warn span (recursionWarning callee) else {})
        (if cx.graph.reaches callee cx.function then .warn span' (recursionWarning callee) else {}) := by
      split
      · exact .warn _ _ _
      · exact .refl _
    cases cx.frames.lookup callee with
    | none => exact agree_throw rfl
    | some frame =>
      exact agree_pure
        ((((Fragment.Alike.symbol calleeSpan calleeSpan' .function).append hwarning).append hinner).snoc _)
  | intrinsic ha =>
    simp only [lowerExpr]
    refine (lowerArgs_agrees ha).bind fun inner inner' hinner => ?_
    exact agree_pure (((Fragment.Alike.symbol _ _ _).append hinner).snoc _)
  | @cast _ _ _ base _ _ he =>
    simp only [lowerExpr, he.id]
    refine (family_agrees cx _ _ _).andThen fun source => ?_
    cases base.family with
    | none => exact agree_throw rfl
    | some target =>
      refine (lowerExpr_agrees true he).bind fun inner inner' hinner => ?_
      cases source.conversion target with
      | none => exact agree_pure hinner
      | some i => exact agree_pure (hinner.snoc _)

theorem lowerArgs_agrees {args args' : List Expr} (h : Expr.AllAlike args args') :
    AgreeCode (lowerArgs cx slots args) (lowerArgs cx slots args') := by
  cases h with
  | nil => exact agree_pure (.refl _)
  | cons he hs =>
    simp only [lowerArgs]
    refine (lowerExpr_agrees true he).bind fun first first' hfirst =>
      (lowerArgs_agrees hs).bind fun rest rest' hrest => ?_
    exact agree_pure (hfirst.append hrest)

end

theorem lowerEffect_agrees {e e' : Expr} (h : e.Alike e') :
    AgreeCode (lowerEffect cx slots e) (lowerEffect cx slots e') := by
  have hdropped := lowerExpr_agrees cx slots false h
  have hvalue := lowerExpr_agrees cx slots true h
  cases h with
  | assign | call | update => exact hdropped
  | _ =>
    refine hvalue.bind fun inner inner' hinner => ?_
    dsimp only [Expr.id]
    split
    · exact agree_pure hinner
    · exact agree_pure hinner
    · exact agree_pure (hinner.snoc _)

theorem lowerCondition_agrees {e e' : Expr} (h : e.Alike e') :
    AgreeCode (lowerCondition cx slots e) (lowerCondition cx slots e') :=
  (lowerExpr_agrees cx slots true h).bind fun _ _ hinner => agree_pure (hinner.snoc _)

end Expressions

/-! ## Storage -/

/-- a destination without its place -/
def bare (d : Destination) : Address × String × Ty := (d.address, d.name, d.ty)

/-- the same addresses and labels given out -/
structure Storage.Alike (s t : Storage) : Prop where
  destinations : s.destinations.toList.map bare = t.destinations.toList.map bare
  slots : s.slots = t.slots
  nextLabel : s.nextLabel = t.nextLabel

/-- from storage that is alike, both steps fail for the same cause, or give related results and storage that is alike -/
def SameGen {α β : Type} (R : α → β → Prop) (x : Gen α) (y : Gen β) : Prop :=
  ∀ s t : Storage, s.Alike t → Agree Located.SameValue (fun a b => R a.1 b.1 ∧ a.2.Alike b.2) (x.run s) (y.run t)

/-- both steps give code that is alike -/
abbrev SameCode : Gen Fragment → Gen Fragment → Prop := SameGen Fragment.Alike

section Steps

variable {α β γ κ : Type} {R : α → β → Prop} {S : γ → κ → Prop}

theorem SameGen.bind {x : Gen α} {y : Gen β} {f : α → Gen γ} {g : β → Gen κ} (hx : SameGen R x y)
    (hf : ∀ a b, R a b → SameGen S (f a) (g b)) : SameGen S (x >>= f) (y >>= g) := by
  intro s t hst
  rw [StateT.run_bind, StateT.run_bind]
  exact (hx s t hst).bind fun a b hab => hf a.1 b.1 hab.1 a.2 b.2 hab.2

theorem SameGen.andThen {x y : Gen α} {f : α → Gen γ} {g : α → Gen κ} (hx : SameGen Eq x y)
    (hf : ∀ a, SameGen S (f a) (g a)) : SameGen S (x >>= f) (y >>= g) := hx.bind fun a _ hab => hab ▸ hf a

theorem same_pure {a : α} {b : β} (h : R a b) : SameGen R (pure a) (pure b) := fun _ _ hst => ⟨h, hst⟩

theorem same_throw {e e' : CodegenError} (h : e.SameValue e') : SameGen R (throw e : Gen α) (throw e' : Gen β) :=
  fun _ _ _ => h

variable {s t : Storage}

theorem Storage.Alike.size (h : s.Alike t) : s.destinations.size = t.destinations.size := by
  simpa using congrArg List.length h.destinations

theorem Storage.Alike.grow (h : s.Alike t) (name : String) (ty : Ty) (span span' : Span) :
    (s.grow name ty span).Alike (t.grow name ty span') := by
  refine ⟨?_, h.slots, h.nextLabel⟩
  simp [Storage.grow, bare, h.destinations, h.size]

theorem same_allocate (name : String) (ty : Ty) (span span' : Span) :
    SameGen Eq (allocate name ty span) (allocate name ty span') := by
  intro s t hst
  rw [run_allocate, run_allocate, hst.size]
  by_cases hle : t.destinations.size ≤ maxAddress
  · rw [if_pos hle, if_pos hle]
    exact ⟨rfl, hst.grow name ty span span'⟩
  · rw [if_neg hle, if_neg hle]
    rfl

theorem same_bindSlot (decl : NodeId) (name : String) (ty : Ty) (span span' : Span) :
    SameGen Eq (bindSlot decl name ty span) (bindSlot decl name ty span') := by
  refine (same_allocate name ty span span').andThen fun a => ?_
  intro s t hst
  exact ⟨rfl, hst.destinations, congrArg ((decl, a) :: ·) hst.slots, hst.nextLabel⟩

theorem same_freshLabel : SameGen Eq freshLabel freshLabel := fun _ _ hst =>
  ⟨hst.nextLabel, hst.destinations, hst.slots, congrArg (· + 1) hst.nextLabel⟩

theorem same_withSlots {f g : Slots → Except CodegenError Fragment} (h : ∀ slots, AgreeCode (f slots) (g slots)) :
    SameCode (withSlots f) (withSlots g) := by
  intro s t hst
  rw [run_withSlots, run_withSlots, hst.slots]
  exact (h t.slots).map fun _ _ hcode => ⟨hcode, hst⟩

end Steps

/-! ## Statements -/

section Statements

variable (cx : Context)

theorem lowerLocal_same {d d' : VarDecl} (h : d.Alike d') : SameCode (lowerLocal cx d) (lowerLocal cx d') := by
  have hhead : ∀ message, Fragment.Alike
      (.symbol d.nameSpan (declClass d'.ty) ++ if cx.info.isUsed d'.id then {} else .warn d.nameSpan message)
      (.symbol d'.nameSpan (declClass d'.ty) ++ if cx.info.isUsed d'.id then {} else .warn d'.nameSpan message) := by
    intro message
    refine (Fragment.Alike.symbol _ _ _).append ?_
    split
    · exact .refl _
    · exact .warn _ _ _
  -- identity, name and type are the same on both sides; what is left of the declarations is their initializers
  have hinit := h.init
  unfold lowerLocal
  rw [h.id, h.name, h.ty]
  generalize d.init = init at hinit ⊢
  generalize d'.init = init' at hinit ⊢
  cases hinit with
  | none => exact (same_bindSlot _ _ _ _ _).andThen fun _ => same_pure (hhead _)
  | some he =>
    refine (same_withSlots fun slots => lowerExpr_agrees cx slots true he).bind fun inner inner' hinner => ?_
    exact (same_bindSlot _ _ _ _ _).andThen fun a => same_pure (((hhead _).append hinner).snoc _)

theorem lowerForInit_same {i i' : ForInit} (h : i.Alike i') : SameCode (lowerForInit cx i) (lowerForInit cx i') := by
  cases h with
  | nothing => exact same_pure (.refl _)
  | decl hd => exact lowerLocal_same cx hd
  | expr he => exact same_withSlots fun slots => lowerEffect_agrees cx slots he

theorem lowerForCondition_same (exit : String) {e e' : Option Expr} (h : Option.Rel Expr.Alike e e') :
    SameCode (lowerForCondition cx exit e) (lowerForCondition cx exit e') := by
  cases h with
  | none => exact same_pure (.refl _)
  | some he =>
    exact (same_withSlots fun slots => lowerCondition_agrees cx slots he).bind fun _ _ htest =>
      same_pure (htest.snoc _)

theorem lowerStep_same {e e' : Option Expr} (h : Option.Rel Expr.Alike e e') :
    SameCode (lowerStep cx e) (lowerStep cx e') := by
  cases h with
  | none => exact same_pure (.refl _)
  | some he => exact same_withSlots fun slots => lowerEffect_agrees cx slots he

theorem lowerReturn_same {e e' : Option Expr} (h : Option.Rel Expr.Alike e e') :
    SameCode (lowerReturn cx e) (lowerReturn cx e') := by
  cases h with
  | none => exact same_pure (.refl _)
  | some he =>
    refine (same_withSlots fun slots => lowerExpr_agrees cx slots true he).bind fun inner inner' hinner => ?_
    cases (cx.frames.lookup cx.function).bind (·.result) with
    | none => exact same_throw rfl
    | some a => exact same_pure (hinner.snoc _)

theorem unreachableWarning_alike {ss ss' : List Stmt} (h : Stmt.AllAlike ss ss') :
    (unreachableWarning ss).Alike (unreachableWarning ss') := by
  cases h with
  | nil => exact .refl _
  | cons hs hss =>
    have hrest := unreachableWarning_alike hss
    unfold unreachableWarning at hrest ⊢
    cases hs with
    | empty => exact hrest
    | _ => exact .warn _ _ _

mutual

theorem lowerStmt_same (loop : Option LoopLabels) {st st' : Stmt} (h : st.Alike st') :
    SameCode (lowerStmt cx loop st) (lowerStmt cx loop st') := by
  cases h with
  | decl hd => exact lowerLocal_same cx hd
  | ifThen hc hy =>
    simp only [lowerStmt]
    refine same_freshLabel.andThen fun n =>
      (same_withSlots fun slots => lowerCondition_agrees cx slots hc).bind fun _ _ htest => ?_
    exact (lowerStmt_same loop hy).bind fun _ _ hyes => same_pure (((htest.snoc _).append hyes).snoc _)
  | ifElse hc hy hn =>
    simp only [lowerStmt, hy.diverges]
    refine same_freshLabel.andThen fun n =>
      (same_withSlots fun slots => lowerCondition_agrees cx slots hc).bind fun _ _ htest => ?_
    refine (lowerStmt_same loop hy).bind fun _ _ hyes => (lowerStmt_same loop hn).bind fun _ _ hno => ?_
    exact same_pure ((((((htest.snoc _).append hyes).snoc _).snoc _).append hno).snoc _)
  | while_ hc hb =>
    simp only [lowerStmt]
    refine same_freshLabel.andThen fun n =>
      (same_withSlots fun slots => lowerCondition_agrees cx slots hc).bind fun _ _ htest => ?_
    refine (lowerStmt_same _ hb).bind fun _ _ hbody => ?_
    exact same_pure ((((((Fragment.Alike.refl _).append htest).snoc _).append hbody).snoc _).snoc _)
  | doWhile hb hc =>
    simp only [lowerStmt]
    refine same_freshLabel.andThen fun n => (lowerStmt_same _ hb).bind fun _ _ hbody => ?_
    refine (same_withSlots fun slots => lowerCondition_agrees cx slots hc).bind fun _ _ htest => ?_
    exact same_pure ((((((Fragment.Alike.refl _).append hbody).snoc _).append htest).snoc _).snoc _)
  | for_ hi hc hs hb =>
    simp only [lowerStmt]
    refine same_freshLabel.andThen fun n => (lowerForInit_same cx hi).bind fun _ _ hinit => ?_
    refine (lowerForCondition_same cx _ hc).bind fun _ _ htest => (lowerStmt_same _ hb).bind fun _ _ hbody => ?_
    refine (lowerStep_same cx hs).bind fun _ _ hstep => ?_
    exact same_pure (((((((hinit.snoc _).append htest).append hbody).snoc _).append hstep).snoc _).snoc _)
  | break_ =>
    cases loop with
    | none => exact same_throw rfl
    | some l => exact same_pure (.refl _)
  | continue_ =>
    cases loop with
    | none => exact same_throw rfl
    | some l => exact same_pure (.refl _)
  | return_ hv => exact lowerReturn_same cx hv
  | expr he => exact same_withSlots fun slots => lowerEffect_agrees cx slots he
  | block hb => exact lowerStmts_same loop hb
  | empty => exact same_pure (.refl _)

theorem lowerStmts_same (loop : Option LoopLabels) {ss ss' : List Stmt} (h : Stmt.AllAlike ss ss') :
    SameCode (lowerStmts cx loop ss) (lowerStmts cx loop ss') := by
  cases h with
  | nil => exact same_pure (.refl _)
  | cons hs hss =>
    simp only [lowerStmts, hs.diverges]
    refine (lowerStmt_same loop hs).bind fun _ _ hfirst => ?_
    split
    · exact same_pure (hfirst.append (unreachableWarning_alike hss))
    · exact (lowerStmts_same loop hss).bind fun _ _ hmore => same_pure (hfirst.append hmore)

end

end Statements

/-! ## Programs -/

theorem bindGlobals_same {ds ds' : List VarDecl} (h : List.Forall₂ VarDecl.Alike ds ds') :
    SameGen Eq (bindGlobals ds) (bindGlobals ds') := by
  induction h with
  | nil => exact same_pure rfl
  | cons hd _ ih =>
    simp only [bindGlobals, hd.id, hd.name, hd.ty]
    exact (same_bindSlot _ _ _ _ _).andThen fun a => ih.andThen fun more => same_pure rfl

theorem bindParams_same {ps ps' : List Param} (h : List.Forall₂ Param.Alike ps ps') :
    SameGen Eq (bindParams ps) (bindParams ps') := by
  induction h with
  | nil => exact same_pure rfl
  | cons hp _ ih =>
    simp only [bindParams, hp.id, hp.name, hp.ty]
    exact (same_bindSlot _ _ _ _ _).andThen fun a => ih.andThen fun more => same_pure rfl

theorem bindFrame_same {f f' : FunctionDecl} (h : f.Alike f') : SameGen Eq (bindFrame f) (bindFrame f') := by
  have hparams := bindParams_same h.params
  simp only [bindFrame, h.name, h.result, map_eq_pure_bind]
  split
  · exact (same_pure rfl).andThen fun result => hparams.andThen fun params => same_pure rfl
  · refine SameGen.andThen ?_ fun result => hparams.andThen fun params => same_pure rfl
    exact (same_allocate _ _ _ _).andThen fun a => same_pure rfl

theorem bindFrames_same (seen : List (String × Frame)) {fs fs' : List FunctionDecl}
    (h : List.Forall₂ FunctionDecl.Alike fs fs') : SameGen Eq (bindFrames seen fs) (bindFrames seen fs') := by
  induction h generalizing seen with
  | nil => exact same_pure rfl
  | cons hf _ ih =>
    simp only [bindFrames, hf.name]
    exact (bindFrame_same hf).andThen fun frame => ih _

/-- globals that are alike, with the same addresses -/
theorem zip_alike {ds ds' : List VarDecl} (h : List.Forall₂ VarDecl.Alike ds ds') (as : List Address) :
    List.Forall₂ (fun x y : VarDecl × Address => x.1.Alike y.1 ∧ x.2 = y.2) (ds.zip as) (ds'.zip as) := by
  induction h generalizing as with
  | nil => exact .nil
  | cons hd _ ih =>
    cases as with
    | nil => exact .nil
    | cons a as => exact .cons ⟨hd, rfl⟩ (ih as)

theorem lowerGlobals_same (cx : Context) {gs gs' : List (VarDecl × Address)}
    (h : List.Forall₂ (fun x y : VarDecl × Address => x.1.Alike y.1 ∧ x.2 = y.2) gs gs') :
    SameCode (lowerGlobals cx gs) (lowerGlobals cx gs') := by
  induction h with
  | nil => exact same_pure (.refl _)
  | @cons g g' _ _ hg _ ih =>
    obtain ⟨d, a⟩ := g
    obtain ⟨d', a'⟩ := g'
    obtain ⟨hd, rfl⟩ := hg
    have hinit : Option.Rel Expr.Alike d.init d'.init := hd.init
    have hty : d.ty = d'.ty := hd.ty
    simp only [lowerGlobals, hty]
    generalize d.init = init at hinit ⊢
    generalize d'.init = init' at hinit ⊢
    cases hinit with
    | none => exact ih.bind fun _ _ hmore => same_pure ((Fragment.Alike.refl _).append hmore)
    | some he =>
      refine (same_withSlots fun slots => lowerExpr_agrees cx slots true he).bind fun _ _ hinner => ?_
      exact ih.bind fun _ _ hmore => same_pure ((hinner.snoc _).append hmore)

theorem paramSymbols_alike {ps ps' : List Param} (h : List.Forall₂ Param.Alike ps ps') {a a' : Fragment}
    (ha : a.Alike a') :
    (ps.foldl (fun acc p => acc ++ .symbol p.span .parameter) a).Alike
    (ps'.foldl (fun acc p => acc ++ .symbol p.span .parameter) a') := by
  induction h generalizing a a' with
  | nil => exact ha
  | cons _ _ ih => exact ih (ha.append (.symbol _ _ _))

theorem lowerFunction_same (cx : Context) {f f' : FunctionDecl} (h : f.Alike f') :
    SameCode (lowerFunction cx f) (lowerFunction cx f') := by
  simp only [lowerFunction, h.name, h.body.diverges]
  refine (lowerStmts_same _ none h.body).bind fun _ _ hbody => ?_
  exact same_pure ((((paramSymbols_alike h.params (.symbol _ _ _)).snoc _).append hbody).snoc _)

theorem lowerFunctions_same (cx : Context) {fs fs' : List FunctionDecl} (h : List.Forall₂ FunctionDecl.Alike fs fs') :
    SameCode (lowerFunctions cx fs) (lowerFunctions cx fs') := by
  induction h with
  | nil => exact same_pure (.refl _)
  | cons hf _ ih =>
    simp only [lowerFunctions]
    exact (lowerFunction_same cx hf).bind fun _ _ hfirst => ih.bind fun _ _ hmore => same_pure (hfirst.append hmore)

theorem readLines_alike {gs gs' : List (VarDecl × Address)}
    (h : List.Forall₂ (fun x y : VarDecl × Address => x.1.Alike y.1 ∧ x.2 = y.2) gs gs') :
    (readLines gs).Alike (readLines gs') := by
  refine ⟨?_, rfl, rfl⟩
  simp only [readLines]
  induction h with
  | nil => rfl
  | cons hg _ ih => rw [List.map_cons, List.map_cons, ih, hg.1.name, hg.2]

theorem globalSymbols_alike {ds ds' : List VarDecl} (h : List.Forall₂ VarDecl.Alike ds ds') :
    (globalSymbols ds).Alike (globalSymbols ds') := by
  refine ⟨rfl, ?_, rfl⟩
  simp only [globalSymbols]
  induction h with
  | nil => rfl
  | cons hd _ ih => rw [List.map_cons, List.map_cons, List.map_cons, List.map_cons, ih, hd.ty]

theorem lowerProgram_same (info : TypeInfo) {p p' : Program} (h : p.Alike p') :
    SameCode (lowerProgram info p) (lowerProgram info p') := by
  have hglobals := Program.globals_alike h
  have hfunctions := Program.functions_alike h
  simp only [lowerProgram, ofFunctions_alike hfunctions]
  refine (bindGlobals_same hglobals).andThen fun as => (bindFrames_same [] hfunctions).andThen fun frames => ?_
  have hzip := zip_alike hglobals as
  refine (lowerGlobals_same _ hzip).bind fun _ _ hentry => (lowerFunctions_same _ hfunctions).bind fun _ _ hcode => ?_
  exact same_pure (((((globalSymbols_alike hglobals).append (readLines_alike hzip)).append hentry).snoc _).append hcode)

end Codegen

/-- the same lines; destinations, symbols and warnings that differ in places only -/
structure Generated.Alike (g g' : Generated) : Prop where
  lines : g.lines = g'.lines
  destinations : g.destinations.map Codegen.bare = g'.destinations.map Codegen.bare
  symbols : g.symbols.map (·.value) = g'.symbols.map (·.value)
  warnings : g.warnings.map (·.message) = g'.warnings.map (·.message)

theorem Program.generate_agrees (info : TypeInfo) {p p' : Program} (h : p.Alike p') :
    Agree Located.SameValue Generated.Alike (p.generate info) (p'.generate info) := by
  have hempty : Codegen.Storage.Alike ⟨#[], [], 0⟩ ⟨#[], [], 0⟩ := ⟨rfl, rfl, rfl⟩
  refine (Codegen.lowerProgram_same info h _ _ hempty).bind fun a b hab => ?_
  exact agree_pure ⟨hab.1.lines, hab.2.destinations, hab.1.symbols, hab.1.warnings⟩

/-! ## Compiling -/

/-- failures of one stage; only the parser's messages quote the text -/
structure CompileError.SameKind (e e' : CompileError) : Prop where
  stage : e.stage = e'.stage
  message : e.stage ≠ "syntax" → e.message = e'.message

theorem compile_agrees {source source' : String} {ts us : List Token} (hs : Lexer.tokenize source = .ok ts)
    (ht : Lexer.tokenize source' = .ok us) (hkinds : ts.map (·.kind) = us.map (·.kind)) :
    Agree CompileError.SameKind Generated.Alike (compile source) (compile source') := by
  have hparse : Agree CompileError.SameKind Program.Alike (Compile.parse ts) (Compile.parse us) :=
    (Program.parse_alike hkinds).mapError fun _ _ _ => ⟨rfl, fun h => absurd rfl h⟩
  simp only [compile, Compile.tokens, hs, ht]
  refine hparse.bind fun p p' hp => ?_
  have hcheck : Agree CompileError.SameKind Eq (Compile.check p) (Compile.check p') :=
    (Program.check_agrees hp).mapError fun _ _ he => ⟨rfl, fun _ => congrArg TypeCause.message he⟩
  refine hcheck.andThen fun info => ?_
  exact (Program.generate_agrees info hp).mapError fun _ _ he => ⟨rfl, fun _ => congrArg CodegenCause.message he⟩

/-- **Layout independence.** Of two sources with the same kinds of tokens either both compile, to the same assembly with
the same destinations, symbols and warnings but for their places, or neither does, and both fail in the same stage -/
theorem compile_ignores_layout {source source' : String} {ts us : List Token} (hs : Lexer.tokenize source = .ok ts)
    (ht : Lexer.tokenize source' = .ok us) (hkinds : ts.map (·.kind) = us.map (·.kind)) :
    ((∃ g, compile source = .ok g) ↔ ∃ g, compile source' = .ok g) ∧
    (∀ g g', compile source = .ok g → compile source' = .ok g' →
      g.assembly = g'.assembly ∧
      g.destinations.map (fun d => (d.address, d.name, d.ty)) =
        g'.destinations.map (fun d => (d.address, d.name, d.ty)) ∧
      g.symbols.map (·.value) = g'.symbols.map (·.value) ∧
      g.warnings.map (·.message) = g'.warnings.map (·.message)) ∧
    (∀ e e', compile source = .error e → compile source' = .error e' →
      e.stage = e'.stage ∧ (e.stage ≠ "syntax" → e.message = e'.message)) := by
  have hagree := compile_agrees hs ht hkinds
  refine ⟨hagree.isOk, ?_, ?_⟩
  · intro g g' hg hg'
    rw [hg, hg'] at hagree
    exact ⟨congrArg Line.print hagree.lines, hagree.destinations, hagree.symbols, hagree.warnings⟩
  · intro e e' he he'
    rw [he, he'] at hagree
    exact ⟨hagree.stage, hagree.message⟩

/-- a variable that is never read, on a line of its own with a comment:
```
void main() {
  float half = 0.50; // one half
}
``` -/
def roomy : String := "void main() \x7b\n  float half = 0.50; // one half\n\x7d\n"

/-- the same on one line, with another spelling of the number -/
def tight : String := "void main(){float half=5e-1;}"

theorem roomy_compiles_as_tight : ∃ g g', compile roomy = .ok g ∧ compile tight = .ok g' ∧ g.assembly = g'.assembly ∧
    g.warnings.map (·.message) = g'.warnings.map (·.message) ∧ g.warnings ≠ g'.warnings := by
  have hkinds : (Lexer.tokenize roomy).toOption.map (·.map (·.kind)) =
      (Lexer.tokenize tight).toOption.map (·.map (·.kind)) := by
    decide +kernel
  have hread : (Lexer.tokenize roomy).toOption.isSome := by decide +kernel
  have hwarned : (compile roomy).toOption.map (·.warnings) ≠ (compile tight).toOption.map (·.warnings) := by
    decide +kernel
  have hcompiled : (compile roomy).toOption.isSome := by decide +kernel
  cases hs : Lexer.tokenize roomy with
  | error e => simp [hs, Except.toOption] at hread
  | ok ts =>
    cases ht : Lexer.tokenize tight with
    | error e => simp [hs, ht, Except.toOption] at hkinds
    | ok us =>
      have hsame : ts.map (·.kind) = us.map (·.kind) := by simpa [hs, ht, Except.toOption] using hkinds
      have hlayout := compile_ignores_layout hs ht hsame
      cases hg : compile roomy with
      | error e => simp [hg, Except.toOption] at hcompiled
      | ok g =>
        obtain ⟨g', hg'⟩ := hlayout.1.1 ⟨g, hg⟩
        obtain ⟨hassembly, -, -, hmessages⟩ := hlayout.2.1 g g' hg hg'
        rw [hg, hg'] at hwarned
        exact ⟨g, g', rfl, hg', hassembly, hmessages, fun hsame => hwarned (congrArg some hsame)⟩

end C15

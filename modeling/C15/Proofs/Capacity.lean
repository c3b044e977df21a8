/-
Code generation fails for one reason only: a program that was read and checked may need more addresses than there are.

Generation looks up what checking has recorded: types, variables, functions, the loop around a `break`. `lowerExpr_ok`
says that in a `Ready` context every recorded expression finds all it needs. Statements also give out addresses;
`Reserves` says of a step how many, and that it fails exactly when they are not left. It is closed under sequencing, so
it is proved form by form. Results:
- `lowerStmt_reserves`: a statement takes one address for each declaration it reaches;
- `lowerProgram_reserves`: a program takes one for each of its cells;
- `Program.generate_fails_iff`: generation fails exactly if the cells are more than 4096, and then reports lack of
  memory.
-/
import C15.Proofs.Storage

namespace C15

open Typing

namespace Codegen

/-! ## Expressions -/

/-- every variable in scope has an address, and every function in scope a frame -/
structure Ready (cx : Context) (env : Env) (slots : Slots) : Prop where
  slots : ∀ name v, env.find? name = some v → ∃ a, slots.lookup v.decl = some a
  frames : ∀ name sig, env.signature? name = some sig → ∃ frame, cx.frames.lookup name = some frame

section Expr

variable {lx : Lexicon} {cx : Context} {env : Env} {slots : Slots}

theorem Ready.slotOf_ok (h : Ready cx env slots) {id : NodeId} {name : String} {v : Variable}
    (hv : env.find? name = some v) (hid : cx.info.variableOf id = some v) (span : Span) :
    ∃ x, cx.slotOf slots id span = .ok x := by
  obtain ⟨a, ha⟩ := h.slots name v hv
  unfold Context.slotOf
  simp only [hid, ha]
  exact ⟨_, rfl⟩

theorem family_ok {e : Expr} {f : Family} (h : e.Recorded cx.info env f.base) (span : Span) :
    cx.family e.id span = .ok f := by
  unfold Context.family
  rw [h.familyOf]

theorem select_ok {op : BinOp} {f : Family} (h : op.isIntegerOnly = true → f ≠ .float) (symbol : String) (span : Span) :
    ∃ i, select op f symbol span = .ok i := by
  unfold select
  cases hi : op.select f with
  | some i => exact ⟨i, rfl⟩
  | none =>
    obtain ⟨hop, hf⟩ := (BinOp.select_eq_none_iff op f).1 hi
    exact absurd hf (h hop)

theorem ok_bind {ε α β : Type} (a : α) (f : α → Except ε β) : (Except.ok a >>= f) = f a := rfl

mutual

/-- **Expressions.** Where all that is in scope is ready, a recorded expression has code. -/
theorem lowerExpr_ok (h : Ready cx env slots) (used : Bool) (e : Expr) {b : Base} (hrec : e.Recorded cx.info env b)
    (hspelled : e.Spelled lx) : ∃ frag, lowerExpr cx slots used e = .ok frag := by
  cases e with
  | literal id span value => exact ⟨_, rfl⟩
  | ident id span name =>
    obtain ⟨v, hv, hid, -⟩ := hrec
    obtain ⟨x, hx⟩ := h.slotOf_ok hv hid span
    simp only [lowerExpr, hx, ok_bind]
    exact ⟨_, rfl⟩
  | binary id span op lhs rhs =>
    obtain ⟨f, hl, hr, hop, -⟩ := hrec
    obtain ⟨i, hi⟩ := select_ok hop op.symbol span
    obtain ⟨left, hleft⟩ := lowerExpr_ok h true lhs hl hspelled.1
    obtain ⟨right, hright⟩ := lowerExpr_ok h true rhs hr hspelled.2
    simp only [lowerExpr, family_ok hl, hi, hleft, hright, ok_bind]
    exact ⟨_, rfl⟩
  | unary id span op operand =>
    obtain ⟨f, ho, -⟩ := hrec
    obtain ⟨inner, hinner⟩ := lowerExpr_ok h true operand ho hspelled
    simp only [lowerExpr, family_ok ho, hinner, ok_bind]
    cases op <;> exact ⟨_, rfl⟩
  | update id span op targetId targetSpan target =>
    obtain ⟨v, hv, hid, -, hvalue, rfl, ht⟩ := hrec
    obtain ⟨x, hx⟩ := h.slotOf_ok hv hid span
    obtain ⟨f, hf⟩ := Base.exists_family hvalue
    have hfamily : cx.family id span = .ok f := by
      simp [Context.family, TypeInfo.familyOf, ht, hf]
    simp only [lowerExpr, hx, hfamily, ok_bind]
    exact ⟨_, rfl⟩
  | assign id span op target targetSpan value =>
    obtain ⟨v, f, hv, hid, -, -, hrec, hop, -⟩ := hrec
    obtain ⟨x, hx⟩ := h.slotOf_ok hv hid span
    obtain ⟨inner, hinner⟩ := lowerExpr_ok h true value hrec hspelled
    cases op with
    | none =>
      simp only [lowerExpr, hx, hinner, ok_bind]
      exact ⟨_, rfl⟩
    | some op =>
      obtain ⟨i, hi⟩ := select_ok (hop op rfl) (op.symbol ++ "=") targetSpan
      simp only [lowerExpr, hx, family_ok hrec, hi, hinner, ok_bind]
      exact ⟨_, rfl⟩
  | call id span callee calleeSpan args =>
    obtain ⟨sig, hsig, hargs, -⟩ := hrec
    obtain ⟨frame, hframe⟩ := h.frames callee sig hsig
    obtain ⟨inner, hinner⟩ := lowerArgs_ok h args (recordedValues_of_args _ _ hargs).2 hspelled
    simp only [lowerExpr, hinner, hframe, ok_bind]
    exact ⟨_, rfl⟩
  | intrinsic id span callee calleeSpan args =>
    obtain ⟨-, hargs, -⟩ := hrec
    obtain ⟨inner, hinner⟩ := lowerArgs_ok h args hargs hspelled
    simp only [lowerExpr, hinner, ok_bind]
    exact ⟨_, rfl⟩
  | cast id span base operand =>
    obtain ⟨⟨f, ho⟩, -⟩ := hrec
    obtain ⟨inner, hinner⟩ := lowerExpr_ok h true operand ho hspelled.2
    obtain ⟨target, rfl⟩ := Base.exists_family hspelled.1
    simp only [lowerExpr, family_ok ho, Family.family_base, hinner, ok_bind]
    cases f.conversion target <;> exact ⟨_, rfl⟩

theorem lowerArgs_ok (h : Ready cx env slots) (args : List Expr) (hrec : Expr.RecordedValues cx.info env args)
    (hspelled : Expr.AllSpelled lx args) : ∃ frag, lowerArgs cx slots args = .ok frag := by
  cases args with
  | nil => exact ⟨_, rfl⟩
  | cons arg args =>
    obtain ⟨f, harg⟩ := hrec.1
    obtain ⟨first, hfirst⟩ := lowerExpr_ok h true arg harg hspelled.1
    obtain ⟨rest, hrest⟩ := lowerArgs_ok h args hrec.2 hspelled.2
    simp only [lowerArgs, hfirst, hrest, ok_bind]
    exact ⟨_, rfl⟩

end

theorem lowerEffect_ok (h : Ready cx env slots) (e : Expr) {b : Base} (hrec : e.Recorded cx.info env b)
    (hspelled : e.Spelled lx) : ∃ frag, lowerEffect cx slots e = .ok frag := by
  unfold lowerEffect
  split
  · exact lowerExpr_ok h false _ hrec hspelled
  · exact lowerExpr_ok h false _ hrec hspelled
  · exact lowerExpr_ok h false _ hrec hspelled
  · obtain ⟨inner, hinner⟩ := lowerExpr_ok h true e hrec hspelled
    simp only [hinner, ok_bind]
    split <;> exact ⟨_, rfl⟩

theorem lowerCondition_ok (h : Ready cx env slots) (e : Expr) (hrec : e.RecordedValue cx.info env)
    (hspelled : e.Spelled lx) :
    ∃ frag, lowerCondition cx slots e = .ok frag := by
  obtain ⟨f, hrec⟩ := hrec
  obtain ⟨inner, hinner⟩ := lowerExpr_ok h true e hrec hspelled
  simp only [lowerCondition, hinner, ok_bind]
  exact ⟨_, rfl⟩

end Expr

/-! ## Addresses -/

section Reserves

variable {α β : Type} {st : Storage} {m n : Nat}

/-- a step gives out `n` addresses if so many are left, and otherwise stops for lack of memory -/
def Reserves (x : Gen α) (st : Storage) (n : Nat) : Prop :=
  (st.destinations.size + n ≤ maxAddress + 1 ∧
      ∃ a st', x.run st = .ok (a, st') ∧ st'.destinations.size = st.destinations.size + n) ∨
    (maxAddress + 1 < st.destinations.size + n ∧ ∃ span, x.run st = .error ⟨.outOfMemory, span⟩)

theorem Reserves.bind {x : Gen α} {f : α → Gen β} (hx : Reserves x st m)
    (hf : ∀ a st', x.run st = .ok (a, st') → st'.destinations.size ≤ maxAddress + 1 → Reserves (f a) st' n) :
    Reserves (x >>= f) st (m + n) := by
  rcases hx with ⟨hle, a, st', hrun, hsize⟩ | ⟨hlt, span, hrun⟩
  · have hbind : (x >>= f).run st = (f a).run st' := by rw [StateT.run_bind, hrun]; rfl
    rcases hf a st' hrun (by omega) with ⟨hle', b, st'', hrun', hsize'⟩ | ⟨hlt', span, hrun'⟩
    · exact Or.inl ⟨by omega, b, st'', hbind.trans hrun', by omega⟩
    · exact Or.inr ⟨by omega, span, hbind.trans hrun'⟩
  · refine Or.inr ⟨by omega, span, ?_⟩
    rw [StateT.run_bind, hrun]
    rfl

theorem reserves_pure (a : α) (hst : st.destinations.size ≤ maxAddress + 1) : Reserves (pure a : Gen α) st 0 :=
  Or.inl ⟨hst, a, st, rfl, rfl⟩

/-- what is done with the result of a step takes no address -/
theorem Reserves.map {x : Gen α} (hx : Reserves x st n) (g : α → β) : Reserves (x >>= fun a => pure (g a)) st n :=
  hx.bind fun _ _ _ hroom => reserves_pure _ hroom

theorem Reserves.fresh {f : Nat → Gen β} (hst : st.destinations.size ≤ maxAddress + 1)
    (hf : Reserves (f st.nextLabel) st.numbered n) : Reserves (freshLabel >>= f) st n := by
  have hfresh : Reserves freshLabel st 0 := Or.inl ⟨hst, _, _, run_freshLabel, rfl⟩
  have hbind := hfresh.bind (f := f) (n := n) fun a st' hrun _ => by
    obtain ⟨rfl, rfl⟩ := Prod.mk.inj (Except.ok.inj (run_freshLabel.symm.trans hrun))
    exact hf
  rwa [Nat.zero_add] at hbind

theorem Reserves.slots {f : Slots → Except CodegenError Fragment} {g : Fragment → Gen β}
    (hst : st.destinations.size ≤ maxAddress + 1) (hf : ∃ frag, f st.slots = .ok frag)
    (hg : ∀ frag, Reserves (g frag) st n) : Reserves (withSlots f >>= g) st n := by
  obtain ⟨frag, hf⟩ := hf
  have hslots : Reserves (withSlots f) st 0 := Or.inl ⟨hst, frag, st, run_withSlots_eq_ok.2 ⟨hf, rfl⟩, rfl⟩
  have hbind := hslots.bind (f := g) (n := n) fun a st' hrun _ => by
    obtain ⟨-, rfl⟩ := run_withSlots_eq_ok.1 hrun
    exact hg a
  rwa [Nat.zero_add] at hbind

theorem reserves_withSlots {f : Slots → Except CodegenError Fragment} (hst : st.destinations.size ≤ maxAddress + 1)
    (hf : ∃ frag, f st.slots = .ok frag) : Reserves (withSlots f) st 0 := by
  have hpure := Reserves.slots hst hf fun frag => reserves_pure frag hst
  rwa [bind_pure] at hpure

theorem reserves_allocate (name : String) (ty : Ty) (span : Span) (hst : st.destinations.size ≤ maxAddress + 1) :
    Reserves (allocate name ty span) st 1 := by
  unfold Reserves
  rw [run_allocate]
  split
  · exact Or.inl ⟨by omega, _, _, rfl, by simp [Storage.grow]⟩
  · exact Or.inr ⟨by omega, span, rfl⟩

theorem reserves_bindSlot (decl : NodeId) (name : String) (ty : Ty) (span : Span)
    (hst : st.destinations.size ≤ maxAddress + 1) : Reserves (bindSlot decl name ty span) st 1 := by
  unfold Reserves
  rw [run_bindSlot]
  split
  · exact Or.inl ⟨by omega, _, _, rfl, by simp [Storage.growFor, Storage.grow]⟩
  · exact Or.inr ⟨by omega, span, rfl⟩

end Reserves

/-! ## Statements -/

/-- scopes stay covered when declarations with cells are added -/
theorem covers_declare {cells : List Cell} {name : String} (ds : List VarDecl) (hds : ∀ d ∈ ds, d.cell ∈ cells)
    (scopes : Scopes) (h : ∀ v, scopes.find? name = some v → .variable v.decl ∈ cells) :
    ∀ v, (scopes.declare ds).find? name = some v → .variable v.decl ∈ cells := by
  induction ds generalizing scopes with
  | nil => exact h
  | cons d rest ih =>
    refine ih (fun d hd => hds d (List.mem_cons_of_mem _ hd)) (scopes.bind (d.variable .localVar)) fun v hv => ?_
    rw [Scopes.find?_bind] at hv
    split at hv
    · obtain rfl := Option.some.inj hv
      exact hds d List.mem_cons_self
    · exact h v hv

/-- a statement about to be lowered: its storage tracks cells, those of all variables in scope among them, and there are
frames for the functions in scope, an address for the result and labels for the loop, if there is one -/
structure Setting (cx : Context) (loop : Option LoopLabels) (env : Env) (st : Storage) (cells : List Cell) : Prop where
  room : st.destinations.size ≤ maxAddress + 1
  tracks : st.Tracks cells
  covers : ∀ name v, env.find? name = some v → .variable v.decl ∈ cells
  frames : ∀ name sig, env.signature? name = some sig → ∃ frame, cx.frames.lookup name = some frame
  result : env.result.base ≠ .void → ∃ frame a, cx.frames.lookup cx.function = some frame ∧ frame.result = some a
  loop : env.inLoop = true → ∃ l, loop = some l

section Stmt

variable {lx : Lexicon} {cx : Context} {loop : Option LoopLabels} {env : Env} {st st' : Storage}
  {cells more : List Cell}

namespace Setting

theorem ready (h : Setting cx loop env st cells) : Ready cx env st.slots :=
  ⟨fun name v hv => h.tracks.complete _ (h.covers name v hv), h.frames⟩

theorem numbered (h : Setting cx loop env st cells) : Setting cx loop env st.numbered cells :=
  { h with tracks := h.tracks.numbered }

/-- the same place with more storage -/
theorem grown (h : Setting cx loop env st cells) (hroom : st'.destinations.size ≤ maxAddress + 1)
    (ht : st'.Tracks (cells ++ more)) : Setting cx loop env st' (cells ++ more) :=
  { h with room := hroom, tracks := ht, covers := fun name v hv => List.mem_append_left _ (h.covers name v hv) }

theorem enter (h : Setting cx loop env st cells) : Setting cx loop env.enter st cells :=
  { h with covers := fun name v hv => h.covers name v (by simpa [Env.find?_eq, Env.enter] using hv) }

theorem inLoop (h : Setting cx loop env st cells) (l : LoopLabels) :
    Setting cx (some l) { env with inLoop := true } st cells :=
  { h with loop := fun _ => ⟨l, rfl⟩ }

/-- declarations whose cells are there may come into scope -/
theorem declareAll (h : Setting cx loop env st cells) {ds : List VarDecl} (hds : ∀ d ∈ ds, d.cell ∈ cells) :
    Setting cx loop (env.declareAll ds) st cells :=
  { h with covers := fun name => covers_declare ds hds env.scopes (h.covers name) }

end Setting

theorem lowerLocal_reserves (h : Setting cx loop env st cells) {d : VarDecl} (hrec : d.Recorded cx.info env)
    (hspelled : d.Spelled lx) : Reserves (lowerLocal cx d) st 1 := by
  unfold lowerLocal
  cases hd : d.init with
  | none => exact (reserves_bindSlot _ _ _ _ h.room).map _
  | some e =>
    obtain ⟨f, -, hrec⟩ := hrec.2 e hd
    exact Reserves.slots h.room (lowerExpr_ok h.ready true e hrec (hspelled.2 e hd)) fun _ =>
      (reserves_bindSlot _ _ _ _ h.room).map _

theorem lowerForInit_reserves (h : Setting cx loop env st cells) {init : ForInit} (hrec : init.Recorded cx.info env)
    (hspelled : init.Spelled lx) : Reserves (lowerForInit cx init) st init.declared.length := by
  cases init with
  | nothing => exact reserves_pure _ h.room
  | decl d => exact lowerLocal_reserves h hrec hspelled
  | expr span e =>
    obtain ⟨b, hrec⟩ := hrec
    change Reserves (withSlots fun slots => lowerEffect cx slots e) st 0
    exact reserves_withSlots h.room (lowerEffect_ok h.ready e hrec hspelled)

theorem lowerForCondition_reserves (h : Setting cx loop env st cells) (exit : String) {cond : Option Expr}
    (hrec : ∀ e ∈ cond, e.RecordedValue cx.info env) (hspelled : ∀ e ∈ cond, e.Spelled lx) :
    Reserves (lowerForCondition cx exit cond) st 0 := by
  cases cond with
  | none => exact reserves_pure _ h.room
  | some e =>
    exact Reserves.slots h.room (lowerCondition_ok h.ready e (hrec e rfl) (hspelled e rfl)) fun _ =>
      reserves_pure _ h.room

theorem lowerStep_reserves (h : Setting cx loop env st cells) {step : Option Expr}
    (hrec : ∀ e ∈ step, ∃ b, e.Recorded cx.info env b) (hspelled : ∀ e ∈ step, e.Spelled lx) :
    Reserves (lowerStep cx step) st 0 := by
  cases step with
  | none => exact reserves_pure _ h.room
  | some e =>
    obtain ⟨b, hrec⟩ := hrec e rfl
    change Reserves (withSlots fun slots => lowerEffect cx slots e) st 0
    exact reserves_withSlots h.room (lowerEffect_ok h.ready e hrec (hspelled e rfl))

theorem lowerReturn_reserves (h : Setting cx loop env st cells) {span : Span} {value : Option Expr}
    (hrec : Stmt.Recorded cx.info env (.return_ span value)) (hspelled : ∀ e ∈ value, e.Spelled lx) :
    Reserves (lowerReturn cx value) st 0 := by
  cases value with
  | none => exact reserves_pure _ h.room
  | some e =>
    obtain ⟨f, hf, hrec⟩ := hrec
    obtain ⟨frame, a, hframe, ha⟩ := h.result (hf ▸ f.base_ne_void)
    refine Reserves.slots h.room (lowerExpr_ok h.ready true e hrec (hspelled e rfl)) fun inner => ?_
    simp only [hframe, Option.bind_some, ha]
    exact reserves_pure _ h.room

/-- what a statement adds to its scope is among the declarations that are reached -/
theorem declared_subset (s : Stmt) : ∀ d ∈ s.declared, d ∈ s.locals := by
  cases s with
  | decl d => exact fun _ h => h
  | while_ span cond body => exact declared_subset body
  | doWhile span body cond => exact declared_subset body
  | _ => exact fun _ h => nomatch h

/-- the place after a statement -/
theorem Setting.after (h : Setting cx loop env st cells) (s : Stmt) {frag : Fragment} {loop' : Option LoopLabels}
    {st₀ : Storage} (ht : st₀.Tracks cells) (hrun : (lowerStmt cx loop' s).run st₀ = .ok (frag, st'))
    (hroom : st'.destinations.size ≤ maxAddress + 1) :
    Setting cx loop (env.after s) st' (cells ++ s.locals.map VarDecl.cell) :=
  (h.grown hroom (lowerStmt_tracks s hrun ht)).declareAll fun d hd =>
    List.mem_append_right _ (List.mem_map_of_mem (declared_subset s d hd))

mutual

/-- **Statements.** A recorded statement takes an address for each declaration it reaches and cannot fail but for lack
of them. -/
theorem lowerStmt_reserves (s : Stmt) {loop : Option LoopLabels} {env : Env} {st : Storage} {cells : List Cell}
    (h : Setting cx loop env st cells) (hrec : s.Recorded cx.info env) (hspelled : s.Spelled lx) :
    Reserves (lowerStmt cx loop s) st s.locals.length := by
  cases s with
  | decl d => exact lowerLocal_reserves h hrec hspelled
  | ifThen span cond yes =>
    refine Reserves.fresh h.room (Reserves.slots h.room ?test fun _ => (Reserves.map ?yes _))
    case test => exact lowerCondition_ok h.ready cond hrec.1 hspelled.1
    case yes => exact lowerStmt_reserves yes h.numbered.enter hrec.2 hspelled.2
  | ifElse span cond yes no =>
    simp only [Stmt.locals, List.length_append]
    refine Reserves.fresh h.room (Reserves.slots h.room ?test fun _ => Reserves.bind ?yes fun _ st₁ hrun hroom =>
      Reserves.map ?no _)
    case test => exact lowerCondition_ok h.ready cond hrec.1 hspelled.1
    case yes => exact lowerStmt_reserves yes h.numbered.enter hrec.2.1 hspelled.2.1
    case no =>
      have htracks := lowerStmt_tracks yes hrun h.tracks.numbered
      exact lowerStmt_reserves no (h.enter.grown hroom htracks) hrec.2.2 hspelled.2.2
  | while_ span cond body =>
    refine Reserves.fresh h.room (Reserves.slots h.room ?test fun _ => Reserves.map ?body _)
    case test => exact lowerCondition_ok h.ready cond hrec.1 hspelled.1
    case body => exact lowerStmt_reserves body (h.numbered.inLoop _) hrec.2 hspelled.2
  | doWhile span body cond =>
    refine Reserves.fresh h.room (Reserves.bind ?body fun _ st₁ hrun hroom => Reserves.slots hroom ?test fun _ =>
      reserves_pure _ hroom)
    case body => exact lowerStmt_reserves body (h.numbered.inLoop _) hrec.1 hspelled.2
    case test =>
      exact lowerCondition_ok (h.after body h.tracks.numbered hrun hroom).ready cond hrec.2 hspelled.1
  | for_ span init cond step body =>
    obtain ⟨hinit, hcond, hstep, hbody⟩ := hrec
    obtain ⟨sinit, scond, sstep, sbody⟩ := hspelled
    simp only [Stmt.locals, List.length_append]
    refine Reserves.fresh h.room
      (Reserves.bind (lowerForInit_reserves h.numbered.enter hinit sinit) fun _ st₁ hrun₁ hroom₁ => ?_)
    rw [lowerForInit_eq loop span] at hrun₁
    have hhere := h.enter.after (init.stmt span) h.tracks.numbered hrun₁ hroom₁
    rw [Env.after, ForInit.declared_stmt] at hhere
    rw [← Nat.zero_add body.locals.length]
    refine Reserves.bind (lowerForCondition_reserves hhere _ hcond scond) fun _ st₂ hrun₂ hroom₂ => ?_
    obtain ⟨-, rfl⟩ := lowerForCondition_eq_ok hrun₂
    refine Reserves.bind (n := 0) (lowerStmt_reserves body (hhere.inLoop _) hbody sbody) fun _ st₃ hrun₃ hroom₃ => ?_
    -- the body has taken addresses, but the step is checked where the body began
    have hafter := hhere.grown hroom₃ (lowerStmt_tracks body hrun₃ hhere.tracks)
    exact (lowerStep_reserves hafter hstep sstep).map _
  | break_ span =>
    obtain ⟨l, rfl⟩ := h.loop hrec
    exact reserves_pure _ h.room
  | continue_ span =>
    obtain ⟨l, rfl⟩ := h.loop hrec
    exact reserves_pure _ h.room
  | return_ span value => exact lowerReturn_reserves h hrec hspelled
  | expr span e =>
    obtain ⟨b, hrec⟩ := hrec
    change Reserves (withSlots fun slots => lowerEffect cx slots e) st 0
    exact reserves_withSlots h.room (lowerEffect_ok h.ready e hrec hspelled)
  | block span body => exact lowerStmts_reserves body h.enter hrec hspelled
  | empty span => exact reserves_pure _ h.room

theorem lowerStmts_reserves (ss : List Stmt) {loop : Option LoopLabels} {env : Env} {st : Storage} {cells : List Cell}
    (h : Setting cx loop env st cells) (hrec : Stmt.RecordedAll cx.info env ss) (hspelled : Stmt.AllSpelled lx ss) :
    Reserves (lowerStmts cx loop ss) st (Stmt.localsOf ss).length := by
  cases ss with
  | nil => exact reserves_pure _ h.room
  | cons s rest =>
    simp only [Stmt.localsOf, List.length_append, lowerStmts]
    refine Reserves.bind (lowerStmt_reserves s h hrec.1 hspelled.1) fun _ st₁ hrun hroom => ?_
    cases hs : s.diverges with
    | true => exact reserves_pure _ hroom
    | false => exact (lowerStmts_reserves rest (h.after s h.tracks hrun hroom) hrec.2 hspelled.2).map _

end

end Stmt

/-! ## Programs -/

section Program

variable {cx : Context} {st : Storage} {cells : List Cell}

theorem bindGlobals_reserves (ds : List VarDecl) (hst : st.destinations.size ≤ maxAddress + 1) :
    Reserves (bindGlobals ds) st ds.length := by
  induction ds generalizing st with
  | nil => exact reserves_pure _ hst
  | cons d rest ih =>
    rw [List.length_cons, Nat.add_comm]
    exact Reserves.bind (reserves_bindSlot _ _ _ _ hst) fun _ _ _ hroom => (ih hroom).map _

theorem bindParams_reserves (ps : List Param) (hst : st.destinations.size ≤ maxAddress + 1) :
    Reserves (bindParams ps) st ps.length := by
  induction ps generalizing st with
  | nil => exact reserves_pure _ hst
  | cons p rest ih =>
    rw [List.length_cons, Nat.add_comm]
    exact Reserves.bind (reserves_bindSlot _ _ _ _ hst) fun _ _ _ hroom => (ih hroom).map _

theorem bindFrame_reserves (f : FunctionDecl) (hst : st.destinations.size ≤ maxAddress + 1) :
    Reserves (bindFrame f) st f.frameCells.length := by
  simp only [bindFrame, FunctionDecl.frameCells, List.length_append, List.length_map]
  split
  · rw [pure_bind, List.length_nil, Nat.zero_add]
    exact (bindParams_reserves f.params hst).map _
  · rw [← bind_pure_comp, List.length_singleton]
    exact ((reserves_allocate _ _ _ hst).map _).bind fun _ _ _ hroom => (bindParams_reserves f.params hroom).map _

theorem bindFrames_reserves (fs : List FunctionDecl) (seen : List (String × Frame))
    (hst : st.destinations.size ≤ maxAddress + 1) :
    Reserves (bindFrames seen fs) st (fs.flatMap FunctionDecl.frameCells).length := by
  induction fs generalizing st seen with
  | nil => exact reserves_pure _ hst
  | cons f rest ih =>
    rw [List.flatMap_cons, List.length_append]
    exact Reserves.bind (bindFrame_reserves f hst) fun _ _ _ hroom => ih _ hroom

theorem lowerGlobals_reserves (gs : List (VarDecl × Address)) (hst : st.destinations.size ≤ maxAddress + 1)
    (hgs : ∀ g ∈ gs, ∀ e ∈ g.1.init, ∃ frag, lowerExpr cx st.slots true e = .ok frag) :
    Reserves (lowerGlobals cx gs) st 0 := by
  induction gs with
  | nil => exact reserves_pure _ hst
  | cons g rest ih =>
    obtain ⟨d, a⟩ := g
    have hrest := ih fun g hg => hgs g (List.mem_cons_of_mem _ hg)
    unfold lowerGlobals
    cases hd : d.init with
    | none =>
      simp only [pure_bind]
      exact hrest.map _
    | some e =>
      simp only [pure_bind]
      exact Reserves.slots hst (hgs (d, a) List.mem_cons_self e hd) fun _ => hrest.map _

theorem lowerFunctions_reserves (lx : Lexicon) (fs : List FunctionDecl) (hst : st.destinations.size ≤ maxAddress + 1)
    (hfs : ∀ f ∈ fs, ∃ env, Setting { cx with function := f.name } none env st cells ∧
      Stmt.RecordedAll cx.info env f.body ∧ Stmt.AllSpelled lx f.body) (ht : st.Tracks cells) :
    Reserves (lowerFunctions cx fs) st (fs.flatMap FunctionDecl.localCells).length := by
  induction fs generalizing st cells with
  | nil => exact reserves_pure _ hst
  | cons f rest ih =>
    rw [List.flatMap_cons, List.length_append]
    obtain ⟨env, hset, hrec, hspelled⟩ := hfs f List.mem_cons_self
    refine Reserves.bind ?first fun _ st' hrun hroom => (Reserves.map ?more _)
    case first =>
      rw [FunctionDecl.localCells, List.length_map]
      exact (lowerStmts_reserves f.body hset hrec hspelled).map _
    case more =>
      obtain ⟨body, hbody, -⟩ := lowerFunction_eq_ok hrun
      have htracks := lowerStmts_tracks f.body hbody ht
      refine ih hroom (fun g hg => ?_) htracks
      obtain ⟨env, hset, hrec, hspelled⟩ := hfs g (List.mem_cons_of_mem _ hg)
      exact ⟨env, hset.grown hroom htracks, hrec, hspelled⟩

end Program

end Codegen

/-! ## What generation finds in a checked program -/

def Item.Recorded (info : TypeInfo) (env : Env) : Item → Prop
  | .global d => d.Recorded info env
  | .function f => f.Recorded info env

/-- an item is recorded where the globals before it are in scope -/
theorem Item.RecordedAll.of_mem {info : TypeInfo} {cells : List Cell} {item : Item} (items : List Item) {env : Env}
    (h : Item.RecordedAll info env items) (hitem : item ∈ items) (hglobals : ∀ d, .global d ∈ items → d.cell ∈ cells)
    (hcovers : ∀ name v, env.find? name = some v → .variable v.decl ∈ cells) (hloop : env.inLoop = false) :
    ∃ env' : Env, item.Recorded info env' ∧ env'.functions = env.functions ∧ env'.inLoop = false ∧
      ∀ name v, env'.find? name = some v → .variable v.decl ∈ cells := by
  induction items generalizing env with
  | nil => cases hitem
  | cons first rest ih =>
    have hrest : ∀ d, .global d ∈ rest → d.cell ∈ cells := fun d hd => hglobals d (List.mem_cons_of_mem _ hd)
    rcases List.mem_cons.1 hitem with rfl | hlater
    · refine ⟨env, ?_, rfl, hloop, hcovers⟩
      cases item <;> exact h.1
    · cases first with
      | function f => exact ih h.2 hlater hrest hcovers hloop
      | global d =>
        have hmore : Item.RecordedAll info (env.bind (d.variable .global)) rest := h.2
        have hcovers' : ∀ name v, (env.bind (d.variable .global)).find? name = some v → .variable v.decl ∈ cells := by
          intro name v hv
          rw [Env.find?_eq, Typing.Env.bind, Scopes.find?_bind] at hv
          split at hv
          · obtain rfl := Option.some.inj hv
            exact hglobals d List.mem_cons_self
          · exact hcovers name v hv
        obtain ⟨env', hrec, hfunctions, hin, hcov⟩ := ih hmore hlater hrest hcovers' hloop
        exact ⟨env', hrec, hfunctions, hin, hcov⟩

/-- a variable in scope in a function body is a parameter or in scope before the function -/
theorem Typing.Env.find?_ofFunction {env : Env} {f : FunctionDecl} {name : String} {v : Variable}
    (h : (env.ofFunction f).find? name = some v) : (∃ p ∈ f.params, v = p.variable) ∨ env.find? name = some v := by
  simp only [Env.find?_eq, Env.ofFunction, Scopes.find?, List.findSome?_cons] at h
  split at h
  · rename_i w hw
    obtain rfl := Option.some.inj h
    obtain ⟨p, hp, rfl⟩ := List.mem_map.1 (List.mem_reverse.1 (List.mem_of_find?_eq_some hw))
    exact Or.inl ⟨p, hp, rfl⟩
  · exact Or.inr h

/-- the place where an item is recorded, in the outermost scope -/
theorem Program.Recorded.exists_env {p : Program} {info : TypeInfo} (hrec : p.Recorded info) {item : Item}
    (hitem : item ∈ p.items) :
    ∃ env : Env, item.Recorded info env ∧ env.functions = info.functions ∧ env.inLoop = false ∧
      ∀ name v, env.find? name = some v →
        .variable v.decl ∈ p.globals.map VarDecl.cell ++ p.functions.flatMap FunctionDecl.frameCells := by
  refine hrec.items.of_mem p.items hitem (fun d hd => ?_) (fun name v hv => ?_) rfl
  · exact List.mem_append_left _ (List.mem_map_of_mem (mem_globals.2 hd))
  · cases hv

namespace Codegen

variable {lx : Lexicon} {p : Program} {info : TypeInfo} {framed : Storage} {frames : List (String × Frame)}

/-- the storage for globals and frames, and what is found in it -/
structure Framed (p : Program) (frames : List (String × Frame)) (framed : Storage) : Prop where
  room : framed.destinations.size ≤ maxAddress + 1
  tracks : framed.Tracks (p.globals.map VarDecl.cell ++ p.functions.flatMap FunctionDecl.frameCells)
  placed : ∀ f ∈ p.functions, ∃ frame, frames.lookup f.name = some frame ∧
    frame.Placed (p.globals.map VarDecl.cell ++ p.functions.flatMap FunctionDecl.frameCells) f

theorem Framed.frame_of_signature (h : Framed p frames framed) (hrec : p.Recorded info) {name : String}
    {sig : Signature} (hsig : info.functions.lookup name = some sig) : ∃ frame, frames.lookup name = some frame := by
  obtain ⟨f, hf, rfl, -⟩ := hrec.exists_function hsig
  obtain ⟨frame, hframe, -⟩ := h.placed f hf
  exact ⟨frame, hframe⟩

/-- an initializer of a global has code -/
theorem Framed.global_ok (h : Framed p frames framed) (hrec : p.Recorded info)
    (hspelled : ∀ item ∈ p.items, item.Spelled lx) {d : VarDecl} (hd : d ∈ p.globals) {e : Expr} (he : e ∈ d.init)
    (graph : CallGraph) (function : String) :
    ∃ frag, lowerExpr ⟨info, graph, frames, function⟩ framed.slots true e = .ok frag := by
  obtain ⟨env, hd', hfunctions, -, hcovers⟩ := hrec.exists_env (mem_globals.1 hd)
  obtain ⟨f, -, hrecorded⟩ := hd'.2 e he
  have hready : Ready ⟨info, graph, frames, function⟩ env framed.slots := by
    refine ⟨fun name v hv => h.tracks.complete _ (hcovers name v hv), fun name sig hsig => ?_⟩
    rw [Env.signature?, hfunctions] at hsig
    exact h.frame_of_signature hrec hsig
  exact lowerExpr_ok hready true e hrecorded ((hspelled _ (mem_globals.1 hd)).2 e he)

/-- a function is about to be lowered -/
theorem Framed.setting (h : Framed p frames framed) (hrec : p.Recorded info) {f : FunctionDecl} (hf : f ∈ p.functions)
    (graph : CallGraph) : ∃ env, Setting ⟨info, graph, frames, f.name⟩ none env framed
      (p.globals.map VarDecl.cell ++ p.functions.flatMap FunctionDecl.frameCells) ∧
        Stmt.RecordedAll info env f.body := by
  obtain ⟨env, hrecorded, hfunctions, hloop, hcovers⟩ := hrec.exists_env (mem_functions.1 hf)
  refine ⟨env.ofFunction f, ⟨h.room, h.tracks, ?covers, ?frames, ?result, ?loop⟩, hrecorded.2⟩
  case covers =>
    intro name v hv
    rcases Env.find?_ofFunction hv with ⟨q, hq, rfl⟩ | hv
    · refine List.mem_append_right _ (List.mem_flatMap.2 ⟨f, hf, ?_⟩)
      exact List.mem_append_right _ (List.mem_map.2 ⟨q, hq, rfl⟩)
    · exact hcovers name v hv
  case frames =>
    intro name sig hsig
    change env.functions.lookup name = some sig at hsig
    rw [hfunctions] at hsig
    exact h.frame_of_signature hrec hsig
  case result =>
    intro hvoid
    obtain ⟨frame, hframe, hplaced⟩ := h.placed f hf
    have hresult := hplaced.result
    have hvalue : ¬ f.result.isVoid = true := fun hv => hvoid (isVoid_iff.1 hv)
    rw [if_neg hvalue] at hresult
    cases ha : frame.result with
    | none =>
      rw [ha] at hresult
      cases hresult
    | some a => exact ⟨frame, a, hframe, ha⟩
  case loop =>
    intro hin
    rw [show (env.ofFunction f).inLoop = env.inLoop from rfl, hloop] at hin
    cases hin

theorem framed_of_run {bound : Storage} {addresses : List Address} (hnames : (p.functions.map (·.name)).Nodup)
    (hglobals : (bindGlobals p.globals).run ⟨#[], [], 0⟩ = .ok (addresses, bound))
    (hframes : (bindFrames [] p.functions).run bound = .ok (frames, framed))
    (hroom : framed.destinations.size ≤ maxAddress + 1) : Framed p frames framed := by
  have hbound := (bindGlobals_tracks p.globals hglobals .empty).2
  obtain ⟨htracks, hplaced, -⟩ := bindFrames_tracks p.functions hframes hbound hnames
  exact ⟨hroom, htracks, hplaced⟩

/-- **Programs.** A checked program takes one address for each of its cells and cannot fail but for lack of them. -/
theorem lowerProgram_reserves (hrec : p.Recorded info) (hspelled : ∀ item ∈ p.items, item.Spelled lx) :
    Reserves (lowerProgram info p) ⟨#[], [], 0⟩ p.cells.length := by
  simp only [Program.cells, List.length_append, List.length_map, Nat.add_assoc]
  refine Reserves.bind (bindGlobals_reserves p.globals (Nat.zero_le _)) fun addresses bound hglobals hroom => ?_
  refine Reserves.bind (bindFrames_reserves p.functions [] hroom) fun frames framed hframes hroom' => ?_
  have hframed := framed_of_run hrec.names hglobals hframes hroom'
  rw [← Nat.zero_add (List.length _)]
  refine Reserves.bind (lowerGlobals_reserves _ hroom' fun g hg e he => ?_) fun entry entered hentry hroom'' => ?_
  · exact hframed.global_ok hrec hspelled (List.of_mem_zip hg).1 he _ _
  · rw [lowerGlobals_storage _ hentry]
    refine (lowerFunctions_reserves lx p.functions hroom' (fun f hf => ?_) hframed.tracks).map _
    obtain ⟨env, hsetting, hbody⟩ := hframed.setting hrec hf _
    exact ⟨env, hsetting, hbody, (hspelled _ (mem_functions.1 hf)).2⟩

end Codegen

theorem CodegenCause.message_outOfMemory :
    CodegenCause.outOfMemory.message = "Out of data memory: at most 4096 variables" := by decide

/-- **Generation fails for lack of memory only.** For a program that was read and checked it fails exactly if the
globals, the parameters, the results and the locals that are reached are more than the addresses, and always with the
same message. -/
theorem Program.generate_fails_iff {tokens : List Token} {p : Program} {info : TypeInfo}
    (hparse : Program.parse tokens = .ok p) (hcheck : p.check = .ok info) :
    ((∃ e, p.generate info = .error e) ↔ 4096 < p.cells.length) ∧
      ∀ e, p.generate info = .error e →
        e.value = .outOfMemory ∧ e.value.message = "Out of data memory: at most 4096 variables" := by
  have hwf : p.WellFormed .all := wellFormed_of_parse (fun t _ => t.kind.in_all) hparse
  have hreserves := Codegen.lowerProgram_reserves (recorded_of_check hcheck hwf.distinct) hwf.spelled
  unfold Program.generate
  rcases hreserves with ⟨hle, out, st, hrun, -⟩ | ⟨hlt, span, hrun⟩
  · rw [hrun]
    have hle : p.cells.length ≤ 4096 := by simpa [maxAddress] using hle
    refine ⟨⟨?_, fun hlt => by omega⟩, fun e he => nomatch he⟩
    rintro ⟨e, he⟩
    cases he
  · rw [hrun]
    have hlt : 4096 < p.cells.length := by simpa [maxAddress] using hlt
    refine ⟨⟨fun _ => hlt, fun _ => ⟨_, rfl⟩⟩, fun e he => ?_⟩
    obtain rfl := Except.error.inj he
    exact ⟨rfl, CodegenCause.message_outOfMemory⟩

/-- `int f(int n) { return n; int k; } void main() { int i = f(6); }` -/
def fewCells : List Token :=
  [⟨.keyword .int, "int", ⟨0, 3⟩⟩, ⟨.ident "f", "f", ⟨4, 5⟩⟩, ⟨.punct .lparen, "(", ⟨5, 6⟩⟩,
   ⟨.keyword .int, "int", ⟨6, 9⟩⟩, ⟨.ident "n", "n", ⟨10, 11⟩⟩, ⟨.punct .rparen, ")", ⟨11, 12⟩⟩,
   ⟨.punct .lbrace, "\x7b", ⟨13, 14⟩⟩, ⟨.keyword .return_, "return", ⟨15, 21⟩⟩, ⟨.ident "n", "n", ⟨22, 23⟩⟩,
   ⟨.punct .semicolon, ";", ⟨23, 24⟩⟩, ⟨.keyword .int, "int", ⟨25, 28⟩⟩, ⟨.ident "k", "k", ⟨29, 30⟩⟩,
   ⟨.punct .semicolon, ";", ⟨30, 31⟩⟩, ⟨.punct .rbrace, "\x7d", ⟨32, 33⟩⟩, ⟨.keyword .void, "void", ⟨34, 38⟩⟩,
   ⟨.ident "main", "main", ⟨39, 43⟩⟩, ⟨.punct .lparen, "(", ⟨43, 44⟩⟩, ⟨.punct .rparen, ")", ⟨44, 45⟩⟩,
   ⟨.punct .lbrace, "\x7b", ⟨46, 47⟩⟩, ⟨.keyword .int, "int", ⟨48, 51⟩⟩, ⟨.ident "i", "i", ⟨52, 53⟩⟩,
   ⟨.punct .assign, "=", ⟨54, 55⟩⟩, ⟨.ident "f", "f", ⟨56, 57⟩⟩, ⟨.punct .lparen, "(", ⟨57, 58⟩⟩,
   ⟨.literal (.int 6), "6", ⟨58, 59⟩⟩, ⟨.punct .rparen, ")", ⟨59, 60⟩⟩, ⟨.punct .semicolon, ";", ⟨60, 61⟩⟩,
   ⟨.punct .rbrace, "\x7d", ⟨62, 63⟩⟩, ⟨.eof, "", ⟨63, 63⟩⟩]

/-- three cells are not too many; `k` comes after a `return` and is not one of them -/
theorem fewCells_generated : ∃ p info, Program.parse fewCells = .ok p ∧ p.check = .ok info ∧ p.cells.length = 3 ∧
    ¬ ∃ e, p.generate info = .error e := by
  obtain ⟨p, info, hparse, hcheck, hcells⟩ :
      ∃ p info, Program.parse fewCells = .ok p ∧ p.check = .ok info ∧ p.cells.length = 3 := ⟨_, _, rfl, rfl, rfl⟩
  refine ⟨p, info, hparse, hcheck, hcells, fun herror => ?_⟩
  have hlt := (Program.generate_fails_iff hparse hcheck).1.1 herror
  omega

end C15

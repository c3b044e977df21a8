/-
Which lines write an address.

A line that writes an address has one of five purposes (`Line.Serves.writes`): an assignment or update of the variable,
its first value (the initializer's, or zero), an argument, or a returned value. Results:
- `Program.filterMap_first`: the lines that give first values, one for each global and for each local with an
  initializer;
- `Program.generate_initializes`: the value of an initializer is taken right behind the code for it;
- `Program.purposes_grouped`: arguments are taken in blocks, each in front of the call it is for.
-/
import C15.Proofs.Ownership

namespace C15

/-! ## Writes -/

/-- a line that may change what is at an address: it names the address and does more than to read it -/
def Line.writes (a : Address) : Line → Bool
  | .instr (.address .push _) | .instr (.address .geta _) | .read _ _ => false
  | l => l.addresses.contains a.index

/-- a line with this purpose writes a cell -/
def Purpose.Writes (info : TypeInfo) (c : Cell) : Purpose → Prop
  | .store id => ∃ v, info.variableOf id = some v ∧ c = .variable v.decl
  | .init decl | .reset decl | .pass _ decl => c = .variable decl
  | .leave function => c = .result function
  | .work | .expose _ | .load _ | .call _ | .fetch _ => False

namespace Line

variable {cells : List Cell} {info : TypeInfo} {l : Line} {q : Purpose} {a : Address}

theorem writes_of_addresses {b : Address} (hb : l.addresses = [b.index]) (hw : l.writes a = true) : b = a := by
  have hmem : l.addresses.contains a.index = true := by
    unfold writes at hw
    split at hw
    · cases hw
    · cases hw
    · cases hw
    · exact hw
  rw [hb, List.contains_iff_mem, List.mem_singleton] at hmem
  exact congrArg Address.mk hmem.symm

theorem not_writes_of_addresses (h : l.addresses = []) : l.writes a = false := by
  unfold writes
  split
  · rfl
  · rfl
  · rfl
  · rw [h]
    rfl

@[simp] theorem writes_popA (b : Address) : (Line.instr (Codegen.popA b)).writes a = (a.index == b.index) := by
  simp [writes, Codegen.popA, addresses, Instruction.addresses, Instruction.args, Operand.address?, beq_eq_decide]

/-- a line that writes an address is there to write the cell of the address -/
theorem Serves.writes (h : l.Serves cells info q) (hw : l.writes a = true) :
    ∃ c, cells[a.index]? = some c ∧ q.Writes info c := by
  cases q with
  | work =>
    rw [not_writes_of_addresses h] at hw
    cases hw
  | expose decl =>
    obtain ⟨b, name, rfl, -⟩ := h
    cases hw
  | load id =>
    obtain ⟨b, v, rfl | rfl, -, -⟩ := h
    · cases hw
    · cases hw
  | store id =>
    obtain ⟨b, v, hl, hv, hc⟩ := h
    have hb : b = a := by
      rcases hl with rfl | rfl
      · exact writes_of_addresses rfl hw
      · exact writes_of_addresses rfl hw
    exact ⟨_, hb ▸ hc, v, hv, rfl⟩
  | init decl | pass callee decl | leave function =>
    obtain ⟨b, rfl, hc⟩ := h
    obtain rfl := writes_of_addresses rfl hw
    exact ⟨_, hc, rfl⟩
  | reset decl =>
    obtain ⟨b, value, rfl, hc⟩ := h
    obtain rfl := writes_of_addresses rfl hw
    exact ⟨_, hc, rfl⟩
  | call callee =>
    rw [show l = .instr (.jump .call (Codegen.functionLabel callee)) from h] at hw
    cases hw
  | fetch callee =>
    obtain ⟨b, rfl, -⟩ := h
    cases hw

end Line

/-! ## First values -/

/-- the declaration that a line gives its first value, and whether it is that of an initializer -/
def Purpose.first? : Purpose → Option (NodeId × Bool)
  | .init decl => some (decl, true)
  | .reset decl => some (decl, false)
  | _ => none

/-- locals that are given a first value: those with an initializer -/
def VarDecl.firsts (ds : List VarDecl) : List (NodeId × Bool) := (ds.filter (·.init.isSome)).map fun d => (d.id, true)

/-- the first values of a program, in order -/
def Program.firsts (p : Program) : List (NodeId × Bool) :=
  p.globals.map (fun d => (d.id, d.init.isSome)) ++ p.functions.flatMap fun f => VarDecl.firsts (Stmt.localsOf f.body)

section Firsts

variable {fs : List FunctionDecl} {info : TypeInfo}

@[simp] theorem VarDecl.firsts_append (xs ys : List VarDecl) :
    VarDecl.firsts (xs ++ ys) = VarDecl.firsts xs ++ VarDecl.firsts ys := by
  simp [VarDecl.firsts]

@[simp] theorem VarDecl.firsts_nil : VarDecl.firsts [] = [] := rfl

@[simp] theorem filterMap_first_work (qs : List Purpose) :
    (Purpose.work :: qs).filterMap Purpose.first? = qs.filterMap Purpose.first? := rfl

/-- expressions give no first values -/
@[simp] theorem Expr.filterMap_first (e : Expr) (used : Bool) :
    (e.purposes fs info used).filterMap Purpose.first? = [] := by
  rw [List.filterMap_eq_nil_iff]
  intro q hq
  have hwithin := e.purposes_within used q hq
  cases q with
  | init | reset => cases hwithin
  | work | expose | load | store | pass | call | fetch | leave => rfl

@[simp] theorem Expr.filterMap_first_effect (e : Expr) : (e.effectPurposes fs info).filterMap Purpose.first? = [] := by
  unfold effectPurposes
  split
  · simp
  · cases info.familyOf e.id <;> simp [Purpose.first?]

@[simp] theorem Expr.filterMap_first_test (e : Option Expr) :
    (Expr.testPurposes fs info e).filterMap Purpose.first? = [] := by
  cases e <;> simp [Expr.testPurposes, Purpose.first?]

theorem VarDecl.filterMap_first (d : VarDecl) : (d.purposes fs info).filterMap Purpose.first? = VarDecl.firsts [d] := by
  unfold VarDecl.purposes VarDecl.firsts
  cases hd : d.init with
  | none => simp [hd]
  | some e => simp [hd, Purpose.first?]

theorem ForInit.filterMap_first (init : ForInit) :
    (init.purposes fs info).filterMap Purpose.first? = VarDecl.firsts init.declared := by
  cases init with
  | nothing => rfl
  | decl d => exact d.filterMap_first
  | expr _ e => exact e.filterMap_first_effect

mutual

theorem Stmt.filterMap_first (s : Stmt) (function : String) :
    (s.purposes fs info function).filterMap Purpose.first? = VarDecl.firsts s.locals := by
  cases s with
  | decl d => exact d.filterMap_first
  | ifThen _ cond yes => simp [Stmt.purposes, Stmt.locals, Purpose.first?, yes.filterMap_first]
  | ifElse _ cond yes no =>
    cases hd : yes.diverges <;>
      simp [Stmt.purposes, Stmt.locals, Purpose.first?, yes.filterMap_first, no.filterMap_first, hd]
  | while_ _ cond body => simp [Stmt.purposes, Stmt.locals, Purpose.first?, body.filterMap_first]
  | doWhile _ body cond => simp [Stmt.purposes, Stmt.locals, Purpose.first?, body.filterMap_first]
  | for_ _ init cond step body =>
    cases step <;> simp [Stmt.purposes, Stmt.locals, Purpose.first?, init.filterMap_first, body.filterMap_first]
  | return_ _ value => cases value <;> simp [Stmt.purposes, Stmt.locals, Purpose.first?]
  | expr _ e => exact e.filterMap_first_effect
  | block _ body => exact Stmt.filterMap_firstOf body function
  | break_ | continue_ | empty => rfl

theorem Stmt.filterMap_firstOf (ss : List Stmt) (function : String) :
    (Stmt.purposesOf fs info function ss).filterMap Purpose.first? = VarDecl.firsts (Stmt.localsOf ss) := by
  cases ss with
  | nil => rfl
  | cons s rest =>
    cases hd : s.diverges <;>
      simp [Stmt.purposesOf, Stmt.localsOf, s.filterMap_first, Stmt.filterMap_firstOf rest function, hd]

end

/-- the lines that give first values, in order -/
theorem Program.filterMap_first (p : Program) (info : TypeInfo) :
    (p.purposes info).filterMap Purpose.first? = p.firsts := by
  have hexpose : (p.globals.map fun d => Purpose.expose d.id).filterMap Purpose.first? = [] := by
    rw [List.filterMap_eq_nil_iff, List.forall_mem_map]
    intro d _
    rfl
  have hglobal (d : VarDecl) :
      (d.globalPurposes p.functions info).filterMap Purpose.first? = [(d.id, d.init.isSome)] := by
    unfold VarDecl.globalPurposes
    cases hd : d.init with
    | none => rfl
    | some e => simpa [VarDecl.firsts, hd] using d.filterMap_first
  have hfunction (f : FunctionDecl) :
      (f.purposes p.functions info).filterMap Purpose.first? = VarDecl.firsts (Stmt.localsOf f.body) := by
    unfold FunctionDecl.purposes
    cases Stmt.anyDiverges f.body <;> simp [Purpose.first?, Stmt.filterMap_firstOf]
  have hmain : [Purpose.call "main", Purpose.work].filterMap Purpose.first? = [] := rfl
  simp only [purposes, List.filterMap_append, hexpose, hmain, List.filterMap_flatMap, hglobal, hfunction,
    List.append_nil, List.nil_append]
  rw [firsts, List.map_eq_flatMap]

end Firsts

/-! ## Initializers -/

namespace Codegen

/-- among lines stands the code of the initializer of a declaration, if it has one, and behind it the line that takes
its value -/
def Initialized (info : TypeInfo) (cells : List Cell) (d : VarDecl) (lines : List Line) : Prop :=
  ∀ e, d.init = some e → ∃ cx slots frag a, cx.info = info ∧ lowerExpr cx slots true e = .ok frag ∧
    cells[a.index]? = some d.cell ∧ frag.lines ++ [.instr (popA a)] <:+: lines

namespace Initialized

variable {info : TypeInfo} {cells : List Cell} {d : VarDecl} {xs ys : List Line}

theorem of_infix (h : Initialized info cells d xs) (hys : xs <:+: ys) : Initialized info cells d ys := by
  intro e he
  obtain ⟨cx, slots, frag, a, hinfo, hlower, hcell, hinfix⟩ := h e he
  exact ⟨cx, slots, frag, a, hinfo, hlower, hcell, hinfix.trans hys⟩

theorem left (h : Initialized info cells d xs) (ys : List Line) : Initialized info cells d (xs ++ ys) :=
  h.of_infix (List.prefix_append xs ys).isInfix

theorem right (h : Initialized info cells d ys) (xs : List Line) : Initialized info cells d (xs ++ ys) :=
  h.of_infix (List.suffix_append xs ys).isInfix

theorem cons (h : Initialized info cells d ys) (l : Line) : Initialized info cells d (l :: ys) := h.right [l]

end Initialized

section Stmt

variable {cx : Context} {all : List Cell}

theorem lowerLocal_initializes {d : VarDecl} {st st' : Storage} {frag : Fragment} {cells : List Cell}
    (h : (lowerLocal cx d).run st = .ok (frag, st')) (ht : st.Tracks cells) (hall : cells ++ [d.cell] <+: all) :
    Initialized cx.info all d frag.lines := by
  intro e hd
  obtain ⟨inner, hi, -, -, hlines⟩ := lowerLocal_value hd h
  have hcell : all[st.destinations.size]? = some d.cell := by
    obtain ⟨more, rfl⟩ := hall
    simp [ht.size]
  exact ⟨cx, st.slots, inner, ⟨st.destinations.size⟩, rfl, hi, hcell, hlines ▸ List.infix_refl _⟩

theorem lowerForInit_initializes {init : ForInit} {loop : Option LoopLabels} {span : Span} {st st' : Storage}
    {frag : Fragment} {cells : List Cell} (h : (lowerStmt cx loop (init.stmt span)).run st = .ok (frag, st'))
    (ht : st.Tracks cells) (hall : cells ++ init.declared.map VarDecl.cell <+: all) {d : VarDecl}
    (hd : d ∈ init.declared) : Initialized cx.info all d frag.lines := by
  cases init with
  | decl d' =>
    simp only [ForInit.stmt, lowerStmt] at h
    obtain rfl := List.mem_singleton.1 hd
    exact lowerLocal_initializes h ht hall
  | nothing | expr => cases hd

mutual

/-- every declaration that a statement reaches takes the value of its initializer right behind the code for it -/
theorem lowerStmt_initializes (s : Stmt) {loop : Option LoopLabels} {st st' : Storage} {frag : Fragment}
    {cells : List Cell} (h : (lowerStmt cx loop s).run st = .ok (frag, st')) (ht : st.Tracks cells)
    (hall : cells ++ s.locals.map VarDecl.cell <+: all) {d : VarDecl} (hd : d ∈ s.locals) :
    Initialized cx.info all d frag.lines := by
  cases s with
  | decl d' =>
    simp only [lowerStmt] at h
    obtain rfl := List.mem_singleton.1 hd
    exact lowerLocal_initializes h ht hall
  | ifThen span cond yes =>
    obtain ⟨test, yesCode, -, hy, hlines⟩ := lowerStmt_ifThen h
    have hyes := lowerStmt_initializes yes hy ht.numbered hall hd
    rw [hlines]
    exact (hyes.right _).left _
  | ifElse span cond yes no =>
    obtain ⟨test, yesCode, st₁, noCode, -, hy, hn, hlines⟩ := lowerStmt_ifElse h
    rw [Stmt.locals, List.map_append, ← List.append_assoc] at hall
    rw [hlines]
    rcases List.mem_append.1 hd with hd | hd
    · have hyes := lowerStmt_initializes yes hy ht.numbered ((List.prefix_append _ _).trans hall) hd
      exact (((hyes.right _).left _).left _).left _
    · have hno := lowerStmt_initializes no hn (lowerStmt_tracks yes hy ht.numbered) hall hd
      exact ((hno.cons _).right _).left _
  | while_ span cond body =>
    obtain ⟨test, bodyCode, -, hb, hlines⟩ := lowerStmt_while h
    have hbody := lowerStmt_initializes body hb ht.numbered hall hd
    rw [hlines]
    exact (hbody.right _).left _
  | doWhile span body cond =>
    obtain ⟨bodyCode, test, hb, -, hlines⟩ := lowerStmt_doWhile h
    have hbody := lowerStmt_initializes body hb ht.numbered hall hd
    rw [hlines]
    exact ((hbody.cons _).left _).left _
  | for_ span init cond step body =>
    obtain ⟨initCode, st₁, test, bodyCode, stepCode, hi, -, hb, -, hlines⟩ := lowerStmt_for h
    rw [Stmt.locals, List.map_append, ← List.append_assoc] at hall
    rw [hlines]
    rcases List.mem_append.1 hd with hd | hd
    · have hinit := lowerForInit_initializes hi ht.numbered ((List.prefix_append _ _).trans hall) hd
      exact (((hinit.left _).left _).left _).left _
    · have hbody := lowerStmt_initializes body hb (lowerForInit_tracks hi ht.numbered) hall hd
      exact ((hbody.right _).left _).left _
  | block span body =>
    simp only [lowerStmt] at h
    exact lowerStmts_initializes body h ht hall hd
  | break_ | continue_ | return_ | expr | empty => cases hd

theorem lowerStmts_initializes (ss : List Stmt) {loop : Option LoopLabels} {st st' : Storage} {frag : Fragment}
    {cells : List Cell} (h : (lowerStmts cx loop ss).run st = .ok (frag, st')) (ht : st.Tracks cells)
    (hall : cells ++ (Stmt.localsOf ss).map VarDecl.cell <+: all) {d : VarDecl} (hd : d ∈ Stmt.localsOf ss) :
    Initialized cx.info all d frag.lines := by
  cases ss with
  | nil => cases hd
  | cons s rest =>
    rw [Stmt.localsOf, List.map_append, ← List.append_assoc] at hall
    rw [Stmt.localsOf, List.mem_append] at hd
    have hprefix := (List.prefix_append _ _).trans hall
    cases hs : s.diverges with
    | true =>
      obtain ⟨first, hf, hlines⟩ := lowerStmts_cons_diverges hs h
      rw [hs, if_pos rfl, or_iff_left List.not_mem_nil] at hd
      rw [hlines]
      exact lowerStmt_initializes s hf ht hprefix hd
    | false =>
      obtain ⟨first, st₁, more, hf, hm, hlines⟩ := lowerStmts_cons hs h
      rw [hs, if_neg Bool.false_ne_true] at hd hall
      rw [hlines]
      rcases hd with hd | hd
      · exact (lowerStmt_initializes s hf ht hprefix hd).left _
      · exact (lowerStmts_initializes rest hm (lowerStmt_tracks s hf ht) hall hd).right _

end

end Stmt

section Program

variable {cx : Context} {all : List Cell} {frag : Fragment} {st st' : Storage}

theorem lowerGlobals_initializes {ds : List VarDecl} {as : List Address} (hplaced : Places all as (ds.map VarDecl.cell))
    (h : (lowerGlobals cx (ds.zip as)).run st = .ok (frag, st')) {d : VarDecl} (hd : d ∈ ds) :
    Initialized cx.info all d frag.lines := by
  induction ds generalizing as frag with
  | nil => cases hd
  | cons g ds ih =>
    cases hplaced with
    | @cons a _ as _ ha hrest =>
      rw [List.zip_cons_cons] at h
      cases hg : g.init with
      | none =>
        obtain ⟨more, hm, hlines⟩ := lowerGlobals_zero hg h
        rw [hlines]
        rcases List.mem_cons.1 hd with rfl | hd
        · intro e he
          rw [hg] at he
          cases he
        · exact (ih hrest hm hd).cons _
      | some e =>
        obtain ⟨inner, more, hi, hm, hlines⟩ := lowerGlobals_value hg h
        have hshape : frag.lines = inner.lines ++ [.instr (popA a)] ++ more.lines := by simp [hlines]
        rw [hshape]
        rcases List.mem_cons.1 hd with rfl | hd
        · intro e' he
          obtain rfl : e = e' := Option.some.inj (hg.symm.trans he)
          exact ⟨cx, st.slots, inner, a, rfl, hi, ha, (List.prefix_append _ _).isInfix⟩
        · exact (ih hrest hm hd).right _

theorem lowerFunctions_initializes (fs : List FunctionDecl) {cells : List Cell}
    (h : (lowerFunctions cx fs).run st = .ok (frag, st')) (ht : st.Tracks cells)
    (hall : cells ++ fs.flatMap FunctionDecl.localCells <+: all) {f : FunctionDecl} (hf : f ∈ fs) {d : VarDecl}
    (hd : d ∈ Stmt.localsOf f.body) : Initialized cx.info all d frag.lines := by
  induction fs generalizing st cells frag with
  | nil => cases hf
  | cons g fs ih =>
    obtain ⟨first, st₁, more, hg, hm, hlines⟩ := lowerFunctions_cons h
    obtain ⟨body, hb, hbody⟩ := lowerFunction_eq_ok hg
    rw [List.flatMap_cons, ← List.append_assoc] at hall
    rw [hlines]
    rcases List.mem_cons.1 hf with rfl | hf
    · have hlocal := lowerStmts_initializes f.body hb ht ((List.prefix_append _ _).trans hall) hd
      rw [hbody]
      exact ((hlocal.cons _).left _).left _
    · exact (ih hm (lowerStmts_tracks g.body hb ht) hall hf).right _

end Program

end Codegen

/-- the variables among the owners are the globals and the locals reached -/
theorem Program.mem_owners_variable {p : Program} {d : VarDecl} :
    .variable d ∈ p.owners ↔ d ∈ p.globals ∨ ∃ f ∈ p.functions, d ∈ Stmt.localsOf f.body := by
  have hframe (f : FunctionDecl) : Owner.variable d ∉ f.frameOwners := by
    unfold FunctionDecl.frameOwners
    cases f.result.isVoid <;> simp
  simp [owners, hframe, FunctionDecl.localOwners]

theorem Program.mem_owners_param {p : Program} {q : Param} : .param q ∈ p.owners ↔ ∃ f ∈ p.functions, q ∈ f.params := by
  have hframe (f : FunctionDecl) : Owner.param q ∈ f.frameOwners ↔ q ∈ f.params := by
    unfold FunctionDecl.frameOwners
    cases f.result.isVoid <;> simp
  simp [owners, hframe, FunctionDecl.localOwners]

/-- **Initializers.** In a generated program every global and every local reached takes the value of its initializer, if
it has one, right behind the code for it. -/
theorem Program.generate_initializes {p : Program} {info : TypeInfo} {out : Generated} (h : p.generate info = .ok out)
    {d : VarDecl} (hd : .variable d ∈ p.owners) : Codegen.Initialized info p.cells d out.lines := by
  obtain ⟨parts⟩ := nonempty_parts h
  have hentered := parts.framing.1
  rw [← parts.entered_eq] at hentered
  rw [parts.lines]
  rcases mem_owners_variable.1 hd with hd | ⟨f, hf, hd⟩
  · exact (((Codegen.lowerGlobals_initializes parts.globals_placed parts.lowerGlobals hd).right _).left _).left _
  · exact (Codegen.lowerFunctions_initializes p.functions parts.lowerFunctions hentered (List.prefix_refl _)
      hf hd).right _

/-! ## Arguments -/

/-- an argument is taken in a block of all arguments of a call, the last first, with the call behind it -/
def Grouped (fs : List FunctionDecl) (qs : List Purpose) : Prop :=
  ∀ (j : Nat) (callee : String) (param : NodeId), qs[j]? = some (.pass callee param) →
    ∃ before f after, calledFunction fs callee = some f ∧
      qs = before ++ (f.params.reverse.map (fun q => .pass callee q.id) ++ [.call callee]) ++ after ∧
      before.length ≤ j ∧ j < before.length + f.params.length

section Grouped

variable {fs : List FunctionDecl} {info : TypeInfo}

theorem grouped_of_not_pass {qs : List Purpose} (h : ∀ callee param, .pass callee param ∉ qs) : Grouped fs qs := by
  intro j callee param hj
  exact absurd (List.mem_of_getElem? hj) (h callee param)

theorem Grouped.append {xs ys : List Purpose} (hxs : Grouped fs xs) (hys : Grouped fs ys) : Grouped fs (xs ++ ys) := by
  intro j callee param hj
  by_cases hlt : j < xs.length
  · rw [List.getElem?_append_left hlt] at hj
    obtain ⟨before, f, after, hf, rfl, hle, hj'⟩ := hxs j callee param hj
    exact ⟨before, f, after ++ ys, hf, by simp, hle, hj'⟩
  · have hle := Nat.le_of_not_lt hlt
    rw [List.getElem?_append_right hle] at hj
    obtain ⟨before, f, after, hf, rfl, hle', hj'⟩ := hys (j - xs.length) callee param hj
    refine ⟨xs ++ before, f, after, hf, by simp, ?_, ?_⟩
    · rw [List.length_append]
      omega
    · rw [List.length_append]
      omega

theorem grouped_closed (fs : List FunctionDecl) : Purpose.Closed (Grouped fs) where
  plain qs hqs := by
    apply grouped_of_not_pass
    intro callee param hmem
    cases hqs _ hmem
  append := Grouped.append

theorem grouped_work (n : Nat) : Grouped fs (List.replicate n .work) := by
  apply grouped_of_not_pass
  intro callee param hmem
  cases List.eq_of_mem_replicate hmem

theorem grouped_load (id : NodeId) (b : Bool) : Grouped fs (if b then [.load id] else []) := by
  apply grouped_of_not_pass
  intro callee param hmem
  cases b <;> simp at hmem

theorem grouped_callPurposes (used : Bool) (callee : String) : Grouped fs (callPurposes fs used callee) := by
  unfold callPurposes
  cases hf : calledFunction fs callee with
  | none => exact (grouped_closed fs).plain [] (List.forall_mem_nil _)
  | some f =>
    have hfetch : Grouped fs (if used && !f.result.isVoid then [.fetch callee] else []) := by
      apply grouped_of_not_pass
      intro callee param hmem
      split at hmem <;> simp at hmem
    refine Grouped.append ?_ hfetch
    intro j callee' param hj
    have hlt : j < (f.params.reverse.map fun q => Purpose.pass callee q.id).length := by
      by_contra hge
      rw [List.getElem?_append_right (Nat.le_of_not_lt hge), List.getElem?_singleton] at hj
      split at hj <;> cases hj
    rw [List.getElem?_append_left hlt, List.getElem?_map, Option.map_eq_some_iff] at hj
    obtain ⟨q, -, hq⟩ := hj
    obtain ⟨rfl, -⟩ := Purpose.pass.inj hq
    exact ⟨[], f, [], hf, by simp, Nat.zero_le _, by simpa using hlt⟩

mutual

theorem Expr.purposes_grouped (e : Expr) (used : Bool) : Grouped fs (e.purposes fs info used) := by
  cases e with
  | literal => exact grouped_work 1
  | ident id => exact grouped_load id true
  | binary _ _ _ lhs rhs =>
    exact ((lhs.purposes_grouped true).append (rhs.purposes_grouped true)).append (grouped_work 4)
  | unary _ _ op e => exact (e.purposes_grouped true).append (grouped_work _)
  | update id _ op =>
    have hstep : Grouped fs [.load id, .work, .store id] := grouped_of_not_pass fun _ _ => by simp
    exact ((grouped_load id _).append hstep).append (grouped_load id _)
  | assign id _ op _ _ value =>
    have hstore : Grouped fs [.store id] := grouped_of_not_pass fun _ _ => by simp
    cases op with
    | none => exact ((value.purposes_grouped true).append hstore).append (grouped_load id used)
    | some op =>
      exact (((grouped_load id true).append (value.purposes_grouped true)).append
        ((grouped_work 3).append hstore)).append (grouped_load id used)
  | call _ _ callee _ args => exact (Expr.purposesOf_grouped args).append (grouped_callPurposes used callee)
  | intrinsic _ _ callee _ args => exact (Expr.purposesOf_grouped args).append (grouped_work _)
  | cast _ _ base e =>
    refine (e.purposes_grouped true).append ?_
    cases (info.familyOf e.id).bind fun source => base.family.bind source.conversion with
    | none => exact grouped_work 0
    | some i => exact grouped_work 3

theorem Expr.purposesOf_grouped (es : List Expr) : Grouped fs (Expr.purposesOf fs info es) := by
  cases es with
  | nil => exact grouped_work 0
  | cons e es => exact (e.purposes_grouped true).append (Expr.purposesOf_grouped es)

end

/-- the arguments of a program are taken in blocks -/
theorem Program.purposes_grouped (p : Program) (info : TypeInfo) : Grouped p.functions (p.purposes info) :=
  Program.purposes_closed (grouped_closed p.functions) fun x _ used => x.2.purposes_grouped used

end Grouped

end C15

/-
Code of statements and functions does what they do.

Code of a statement has several ways out: to the code after it, to where `break` and `continue` of the loop around it
go, and back from the function. `Ways` holds them, and `StmtRuns` says that the code takes the way that the completion
of the statement says. As for expressions there is one lemma for each rule. Results, by recursion on derivations:
- `eval_runs`, `call_runs`: every evaluation and every call is one of the code;
- `exec_runs`, `execAll_runs`, `loop_runs`: so is every execution;
- `exec_diverges`: control does not pass a statement that diverges, so what is not lowered is not missed.
-/
import C15.Proofs.Simulation

namespace C15

open Semantics Machine Codegen Typing Loaded

/-! ## Ways out of a statement -/

/-- where code goes on: after the statement, after `break`, after `continue`, and after the function, with the stack
there -/
structure Ways where
  next : List Line
  onBreak : List Line
  onContinue : List Line
  back : List Line
  stack : List StackEntry

namespace Ways

/-- the start of a piece of code inside a function -/
def start (w : Ways) (code : List Line) (σ : World) : Config := ⟨code, .back w.back :: w.stack, σ⟩

/-- the end of a statement that completes so -/
def finish (w : Ways) (σ : World) : Completion → Config
  | .normal => w.start w.next σ
  | .broke => w.start w.onBreak σ
  | .continued => w.start w.onContinue σ
  | .returned => ⟨w.back, w.stack, σ⟩

/-- the ways out of a part that other code of the same construct follows -/
def before (w : Ways) (code : List Line) : Ways := { w with next := code }

/-- the ways out of the body of a loop -/
def loop (w : Ways) (next onBreak onContinue : List Line) : Ways := ⟨next, onBreak, onContinue, w.back, w.stack⟩

end Ways

namespace Linked

variable (P : Linked)

/-- a loop's labels lead to the ways out of its body -/
def Leads (loop : Option LoopLabels) (w : Ways) : Prop :=
  ∀ l ∈ loop, target? l.breakTo P.lines = some w.onBreak ∧ target? l.continueTo P.lines = some w.onContinue

/-- what a statement is lowered with -/
structure Site where
  cx : Context
  env : Env
  st : Storage
  cells : List Cell
  info_eq : cx.info = P.info
  frames_eq : cx.frames = P.frames
  functions_eq : env.functions = P.info.functions
  tracks : st.Tracks cells

/-- the code of a statement takes the way out that its completion says -/
def StmtRuns (fn : String) (scopes : Scopes) (s : Stmt) (σ : World) (c : Completion) (σ' : World) : Prop :=
  ∀ (here : P.Site) (loop : Option LoopLabels) (frag : Fragment) (st' : Storage) (w : Ways), here.cx.function = fn →
    here.env.scopes = scopes → s.Recorded P.info here.env → (lowerStmt here.cx loop s).run here.st = .ok (frag, st') →
    here.cells ++ s.locals.map VarDecl.cell <+: P.cells → frag.lines ++ w.next <:+ P.lines → P.Leads loop w →
    P.Goes ⟨frag.lines ++ w.next, .back w.back :: w.stack, σ⟩ (w.finish σ' c)

/-- the code of statements takes the way out that their completion says -/
def StmtsRun (fn : String) (scopes : Scopes) (ss : List Stmt) (σ : World) (c : Completion) (σ' : World) : Prop :=
  ∀ (here : P.Site) (loop : Option LoopLabels) (frag : Fragment) (st' : Storage) (w : Ways), here.cx.function = fn →
    here.env.scopes = scopes → Stmt.RecordedAll P.info here.env ss →
    (lowerStmts here.cx loop ss).run here.st = .ok (frag, st') →
    here.cells ++ (Stmt.localsOf ss).map VarDecl.cell <+: P.cells → frag.lines ++ w.next <:+ P.lines → P.Leads loop w →
    P.Goes ⟨frag.lines ++ w.next, .back w.back :: w.stack, σ⟩ (w.finish σ' c)

/-- the code of a `for` from its head on: test, body, step, jump to the head -/
def LoopRuns (fn : String) (scopes : Scopes) (cond : Option Expr) (step body : Stmt) (σ : World) (c : Completion)
    (σ' : World) : Prop :=
  ∀ (here : P.Site) (loop : Option LoopLabels) (head again exit : String) (test code : List Line) (bodyCode
    stepCode : Fragment) (st' : Storage) (w : Ways), here.cx.function = fn → here.env.scopes = scopes →
    (∀ e ∈ cond, e.RecordedValue P.info here.env) → step.Recorded P.info here.env →
    body.Recorded P.info { here.env with inLoop := true } → TestCode here.cx here.st.slots exit test cond →
    (lowerStmt here.cx (some ⟨exit, again⟩) body).run here.st = .ok (bodyCode, st') →
    (lowerStmt here.cx loop step).run st' = .ok (stepCode, st') → step.locals = [] →
    here.cells ++ body.locals.map VarDecl.cell <+: P.cells →
    code = .label head :: (test ++ (bodyCode.lines ++ .label again :: (stepCode.lines ++
      .instr (.jump .jmp head) :: .label exit :: w.next))) → code <:+ P.lines → P.Leads loop w →
    P.Goes ⟨code, .back w.back :: w.stack, σ⟩ (w.finish σ' c)

variable {P}

theorem Leads.before {loop : Option LoopLabels} {w : Ways} (h : P.Leads loop w) {code : List Line} :
    P.Leads loop (w.before code) := h

theorem leads_loop {w : Ways} {exit again : String} {next onBreak onContinue : List Line}
    (hexit : target? exit P.lines = some onBreak) (hagain : target? again P.lines = some onContinue) :
    P.Leads (some ⟨exit, again⟩) (w.loop next onBreak onContinue) := by
  rintro l ⟨⟩
  exact ⟨hexit, hagain⟩

/-- the addresses known at a site -/
def Site.scene (here : P.Site) (h : here.cells <+: P.cells) : P.Scene :=
  ⟨here.cx, here.env, here.st.slots, here.info_eq, here.frames_eq, here.functions_eq, here.tracks.toSound h⟩

/-- the site of a part, in another environment of the same function and with more storage -/
def Site.move (here : P.Site) (env : Env) (st : Storage) (cells : List Cell) (henv : env.functions = here.env.functions)
    (ht : st.Tracks cells) : P.Site :=
  ⟨here.cx, env, st, cells, here.info_eq, here.frames_eq, henv.trans here.functions_eq, ht⟩

theorem target_of_suffix {l : String} {k : List Line} (h : (.label l :: k) <:+ P.lines) :
    target? l P.lines = some (.label l :: k) :=
  target?_of_suffix P.labels_nodup h

/-- a test goes on if it holds and to its exit if not -/
theorem TestRuns.goes {scopes : Scopes} {σ σ₁ : World} {holds : Bool} {cond : Option Expr}
    (h : P.TestRuns scopes σ holds σ₁ cond) (here : P.Scene) {exit : String} {test k k' : List Line}
    (hs : here.env.scopes = scopes) (hrec : ∀ e ∈ cond, e.RecordedValue P.info here.env)
    (htest : TestCode here.cx here.slots exit test cond) (hexit : target? exit P.lines = some k')
    (S : List StackEntry) : P.Goes ⟨test ++ k, S, σ⟩ ⟨if holds then k else k', S, σ₁⟩ := by
  cases cond with
  | none =>
    obtain ⟨rfl, rfl⟩ := h
    obtain rfl := htest
    exact Goes.refl _
  | some e =>
    obtain ⟨w, rfl, h⟩ := h
    obtain ⟨frag, hfrag, rfl⟩ := htest
    obtain ⟨inner, hinner, hlines⟩ := lowerCondition_eq_ok hfrag
    rw [hlines]
    simp only [List.append_assoc, List.singleton_append]
    refine (h here inner hs (hrec e rfl) hinner _ S).trans ?_
    by_cases hw : w = 0
    · subst hw
      exact goes_testFails hexit
    · simp only [bne_iff_ne, ne_eq, hw, not_false_eq_true, if_true]
      exact goes_testHolds hw

theorem TestRuns.jumps {scopes : Scopes} {σ σ₁ : World} {holds : Bool} {cond : Expr}
    (h : P.TestRuns scopes σ holds σ₁ (some cond)) (here : P.Scene) {exit : String} {test k k' : List Line}
    (hs : here.env.scopes = scopes) (hrec : cond.RecordedValue P.info here.env)
    (htest : TestCode here.cx here.slots exit test (some cond)) (hexit : target? exit P.lines = some k')
    (S : List StackEntry) : P.Goes ⟨test ++ k, S, σ⟩ ⟨if holds then k else k', S, σ₁⟩ :=
  h.goes here hs (fun _ he => Option.some.inj he ▸ hrec) htest hexit S

/-- a statement followed by other code inside the same construct -/
theorem goes_finish {w : Ways} {code : List Line} {σ : World} {c : Completion}
    (h : c = .normal → P.Goes (w.start code σ) (w.start w.next σ)) :
    P.Goes ((w.before code).finish σ c) (w.finish σ c) := by
  cases c with
  | normal => exact h rfl
  | broke | continued | returned => exact Goes.refl _

/-- a body that ends the loop -/
theorem goes_leave {w : Ways} {next onBreak onContinue : List Line} {σ : World} {b c : Completion}
    (hc : b.leaves = some c) (h : P.Goes (w.start onBreak σ) (w.start w.next σ)) :
    P.Goes ((w.loop next onBreak onContinue).finish σ b) (w.finish σ c) := by
  cases b with
  | normal | continued => cases hc
  | broke =>
    obtain rfl := Option.some.inj hc
    exact h
  | returned =>
    obtain rfl := Option.some.inj hc
    exact Goes.refl _

/-- a body after which the loop goes on -/
theorem goes_again {w : Ways} {next onBreak onContinue : List Line} {σ : World} {b : Completion} (hc : b.leaves = none)
    (h : P.Goes (w.start next σ) (w.start onContinue σ)) :
    P.Goes ((w.loop next onBreak onContinue).finish σ b) (w.start onContinue σ) := by
  cases b with
  | broke | returned => cases hc
  | normal => exact h
  | continued => exact Goes.refl _

theorem suffix_of_append {xs ys zs : List Line} (h : xs ++ ys <:+ zs) : ys <:+ zs := (List.suffix_append xs ys).trans h

theorem prefix_of_append {xs ys zs : List Cell} (h : xs ++ ys <+: zs) : xs <+: zs := (List.prefix_append xs ys).trans h

/-! ## Statements -/

section Stmt

variable {fn : String} {scopes : Scopes} {span : Span} {σ σ₁ σ₂ σ₃ σ₄ : World} {b c : Completion} {x : Value}
  {cond : Expr} {body : Stmt}

theorem stmtRuns_declare {d : VarDecl} (hd : d.init = none) : P.StmtRuns fn scopes (.decl d) σ .normal σ := by
  intro here loop frag st' w _ _ _ hlower _ _ _
  simp only [lowerStmt] at hlower
  obtain ⟨-, -, hlines⟩ := lowerLocal_declare hd hlower
  rw [hlines]
  exact Goes.refl _

theorem stmtRuns_define {d : VarDecl} {e : Expr} (hd : d.init = some e) (h : P.ExprRuns scopes e σ (some x) σ₁) :
    P.StmtRuns fn scopes (.decl d) σ .normal (σ₁.write d.cell x.word) := by
  intro here loop frag st' w _ hs hrec hlower hcells _ _
  obtain ⟨-, hinit⟩ := hrec
  obtain ⟨f, -, hrec⟩ := hinit e hd
  simp only [lowerStmt] at hlower
  obtain ⟨inner, hinner, -, -, hlines⟩ := lowerLocal_value hd hlower
  obtain ⟨-, goes⟩ := h.value (here.scene (prefix_of_append hcells)) hs hrec hinner
  -- a declaration takes the next free address, and its own cell is the next one behind those already taken
  have hcell : P.cells[here.st.destinations.size]? = some d.cell := by
    obtain ⟨more, hmore⟩ := hcells
    rw [← hmore]
    refine Storage.Tracks.get_append ?_ more
    simp [Stmt.locals, here.tracks.size]
  rw [hlines, List.append_assoc]
  exact (goes _ _).trans (goes_pop hcell)

theorem stmtRuns_thenTaken {yes : Stmt} (ht : P.TestRuns scopes σ true σ₁ (some cond))
    (hy : P.StmtRuns fn ([] :: scopes) yes σ₁ c σ₂) : P.StmtRuns fn scopes (.ifThen span cond yes) σ c σ₂ := by
  intro here loop frag st' w hfn hs hrec hlower hcells hcode hloop
  obtain ⟨hcond, hyes⟩ := hrec
  obtain ⟨test, yesCode, htest, hlower, hlines⟩ := lowerStmt_ifThen hlower
  simp only [hlines, List.append_assoc, List.singleton_append] at hcode ⊢
  have hrest := suffix_of_append hcode
  have hexit := target_of_suffix (suffix_of_append hrest)
  have goesYes := hy (here.move here.env.enter _ here.cells rfl here.tracks.numbered) loop yesCode st' (w.before _) hfn
    (congrArg ([] :: ·) hs) hyes hlower hcells hrest hloop.before
  calc
    P.Goes _ (w.start _ σ₁) := ht.jumps (here.scene (prefix_of_append hcells)) hs hcond htest hexit _
    P.Goes _ _ := goesYes
    P.Goes _ _ := goes_finish fun _ => goes_label

theorem stmtRuns_thenSkipped {yes : Stmt} (ht : P.TestRuns scopes σ false σ₁ (some cond)) :
    P.StmtRuns fn scopes (.ifThen span cond yes) σ .normal σ₁ := by
  intro here loop frag st' w _ hs hrec hlower hcells hcode _
  obtain ⟨test, yesCode, htest, -, hlines⟩ := lowerStmt_ifThen hlower
  simp only [hlines, List.append_assoc, List.singleton_append] at hcode ⊢
  have hexit := target_of_suffix (suffix_of_append (suffix_of_append hcode))
  calc
    P.Goes _ (w.start _ σ₁) :=
      ht.jumps (here.scene (prefix_of_append hcells)) hs hrec.1 htest hexit _
    P.Goes _ _ := goes_label

theorem stmtRuns_elseYes {yes no : Stmt} (ht : P.TestRuns scopes σ true σ₁ (some cond))
    (hy : P.StmtRuns fn ([] :: scopes) yes σ₁ c σ₂) (hdiverges : yes.diverges = true → c ≠ .normal) :
    P.StmtRuns fn scopes (.ifElse span cond yes no) σ c σ₂ := by
  intro here loop frag st' w hfn hs hrec hlower hcells hcode hloop
  obtain ⟨hcond, hyes, -⟩ := hrec
  obtain ⟨test, yesCode, st₁, noCode, htest, hlower, -, hlines⟩ := lowerStmt_ifElse hlower
  simp only [hlines, List.append_assoc, List.cons_append, List.nil_append] at hcode ⊢
  simp only [Stmt.locals, List.map_append, ← List.append_assoc] at hcells
  have hyesCode := suffix_of_append hcode
  have hno := suffix_of_append (suffix_of_append hyesCode)
  have helse := target_of_suffix hno
  have hend := target_of_suffix (suffix_of_append ((List.suffix_cons _ _).trans hno))
  have goesYes := hy (here.move here.env.enter _ here.cells rfl here.tracks.numbered) loop yesCode st₁ (w.before _) hfn
    (congrArg ([] :: ·) hs) hyes hlower (prefix_of_append hcells) hyesCode hloop.before
  calc
    P.Goes _ (w.start _ σ₁) := ht.jumps (here.scene (prefix_of_append (prefix_of_append hcells))) hs hcond htest helse _
    P.Goes _ _ := goesYes
    P.Goes _ (w.finish σ₂ c) := goes_finish fun hc => by
      -- the jump over the other branch is left out only where control does not get there
      have hfalls : yes.diverges = false := by simpa using fun h => hdiverges h hc
      simp only [hfalls, Bool.false_eq_true, if_false]
      exact (goes_jump hend).trans goes_label

theorem stmtRuns_elseNo {yes no : Stmt} (ht : P.TestRuns scopes σ false σ₁ (some cond))
    (hn : P.StmtRuns fn ([] :: scopes) no σ₁ c σ₂) : P.StmtRuns fn scopes (.ifElse span cond yes no) σ c σ₂ := by
  intro here loop frag st' w hfn hs hrec hlower hcells hcode hloop
  obtain ⟨hcond, -, hno⟩ := hrec
  obtain ⟨test, yesCode, st₁, noCode, htest, hyes, hlower, hlines⟩ := lowerStmt_ifElse hlower
  simp only [hlines, List.append_assoc, List.cons_append, List.nil_append] at hcode ⊢
  simp only [Stmt.locals, List.map_append, ← List.append_assoc] at hcells
  have hnoCode := suffix_of_append (suffix_of_append (suffix_of_append hcode))
  have helse := target_of_suffix hnoCode
  have htracks := lowerStmt_tracks yes hyes here.tracks.numbered
  have goesNo :=
    hn (here.move here.env.enter st₁ _ rfl htracks) loop noCode st' (w.before _) hfn (congrArg ([] :: ·) hs) hno hlower
    hcells ((List.suffix_cons _ _).trans hnoCode) hloop.before
  calc
    P.Goes _ (w.start _ σ₁) := ht.jumps (here.scene (prefix_of_append (prefix_of_append hcells))) hs hcond htest helse _
    P.Goes _ (w.start _ σ₁) := goes_label
    P.Goes _ _ := goesNo
    P.Goes _ (w.finish σ₂ c) := goes_finish fun _ => goes_label

/-! ## Loops -/

theorem stmtRuns_whileDone (ht : P.TestRuns scopes σ false σ₁ (some cond)) :
    P.StmtRuns fn scopes (.while_ span cond body) σ .normal σ₁ := by
  intro here loop frag st' w _ hs hrec hlower hcells hcode _
  obtain ⟨test, bodyCode, htest, -, hlines⟩ := lowerStmt_while hlower
  simp only [hlines, List.append_assoc, List.cons_append, List.nil_append] at hcode ⊢
  have hbody := suffix_of_append ((List.suffix_cons _ _).trans hcode)
  have hexit := target_of_suffix ((List.suffix_cons _ _).trans (suffix_of_append hbody))
  calc
    P.Goes _ (w.start _ σ) := goes_label
    P.Goes _ (w.start _ σ₁) := ht.jumps (here.scene (prefix_of_append hcells)) hs hrec.1 htest hexit _
    P.Goes _ _ := goes_label

/-- one turn of a `while`: after the body the code leaves the loop or is at its head again -/
theorem goes_whileTurn (ht : P.TestRuns scopes σ true σ₁ (some cond)) (hb : P.StmtRuns fn scopes body σ₁ b σ₂)
    (here : P.Site) {loop : Option LoopLabels} {frag : Fragment} {st' : Storage} (w : Ways)
    (hfn : here.cx.function = fn) (hs : here.env.scopes = scopes)
    (hrec : Stmt.Recorded P.info here.env (.while_ span cond body))
    (hlower : (lowerStmt here.cx loop (.while_ span cond body)).run here.st = .ok (frag, st'))
    (hcells : here.cells ++ body.locals.map VarDecl.cell <+: P.cells) (hcode : frag.lines ++ w.next <:+ P.lines) :
    P.Goes ⟨frag.lines ++ w.next, .back w.back :: w.stack, σ⟩
      ((w.loop (.instr (.jump .jmp (label "while_head" here.st.nextLabel)) ::
        .label (label "while_end" here.st.nextLabel) :: w.next)
        (.label (label "while_end" here.st.nextLabel) :: w.next) (frag.lines ++ w.next)).finish σ₂ b) ∧
      target? (label "while_head" here.st.nextLabel) P.lines = some (frag.lines ++ w.next) := by
  obtain ⟨hcond, hbody⟩ := hrec
  obtain ⟨test, bodyCode, htest, hlower, hlines⟩ := lowerStmt_while hlower
  simp only [hlines, List.append_assoc, List.cons_append, List.nil_append] at hcode ⊢
  have hbodyCode := suffix_of_append ((List.suffix_cons _ _).trans hcode)
  have hexit := target_of_suffix ((List.suffix_cons _ _).trans (suffix_of_append hbodyCode))
  have hhead := target_of_suffix hcode
  refine ⟨?_, hhead⟩
  have goesBody :=
    hb (here.move { here.env with inLoop := true } _ here.cells rfl here.tracks.numbered) _ bodyCode st' (w.loop _ _ _)
    hfn hs hbody hlower hcells hbodyCode (leads_loop hexit hhead)
  calc
    P.Goes _ (w.start _ σ) := goes_label
    P.Goes _ (w.start _ σ₁) := ht.jumps (here.scene (prefix_of_append hcells)) hs hcond htest hexit _
    P.Goes _ _ := goesBody

theorem stmtRuns_whileLeft (ht : P.TestRuns scopes σ true σ₁ (some cond)) (hb : P.StmtRuns fn scopes body σ₁ b σ₂)
    (hc : b.leaves = some c) : P.StmtRuns fn scopes (.while_ span cond body) σ c σ₂ := by
  intro here loop frag st' w hfn hs hrec hlower hcells hcode _
  obtain ⟨turn, -⟩ := goes_whileTurn ht hb here w hfn hs hrec hlower hcells hcode
  exact turn.trans (goes_leave hc goes_label)

theorem stmtRuns_whileAgain (ht : P.TestRuns scopes σ true σ₁ (some cond)) (hb : P.StmtRuns fn scopes body σ₁ b σ₂)
    (hc : b.leaves = none) (hw : P.StmtRuns fn scopes (.while_ span cond body) σ₂ c σ₃) :
    P.StmtRuns fn scopes (.while_ span cond body) σ c σ₃ := by
  intro here loop frag st' w hfn hs hrec hlower hcells hcode hloop
  obtain ⟨turn, hhead⟩ := goes_whileTurn ht hb here w hfn hs hrec hlower hcells hcode
  calc
    P.Goes _ _ := turn
    P.Goes _ (w.start _ σ₂) := goes_again hc (goes_jump hhead)
    P.Goes _ _ := hw here loop frag st' w hfn hs hrec hlower hcells hcode hloop

/-- one turn of a `do`: after the body the code leaves the loop or is at the condition, which leads back to the start -/
theorem goes_doTurn (hb : P.StmtRuns fn scopes body σ b σ₁) (here : P.Site) {loop : Option LoopLabels} {frag : Fragment}
    {st' : Storage} (w : Ways) (hfn : here.cx.function = fn) (hs : here.env.scopes = scopes)
    (hrec : Stmt.Recorded P.info here.env (.doWhile span body cond))
    (hlower : (lowerStmt here.cx loop (.doWhile span body cond)).run here.st = .ok (frag, st'))
    (hcells : here.cells ++ body.locals.map VarDecl.cell <+: P.cells) (hcode : frag.lines ++ w.next <:+ P.lines) :
    ∃ exit again, P.Goes ⟨frag.lines ++ w.next, .back w.back :: w.stack, σ⟩ ((w.loop again exit again).finish σ₁ b) ∧
      P.Goes (w.start exit σ₁) (w.start w.next σ₁) ∧
      ∀ holds σ₂, P.TestRuns (scopes.after body) σ₁ holds σ₂ (some cond) →
        P.Goes (w.start again σ₁) (w.start (if holds then frag.lines ++ w.next else w.next) σ₂) := by
  obtain ⟨hbody, hcond⟩ := hrec
  obtain ⟨bodyCode, test, hlower, htest, hlines⟩ := lowerStmt_doWhile hlower
  obtain ⟨inner, hinner, htestLines⟩ := lowerCondition_eq_ok htest
  simp only [hlines, htestLines, List.append_assoc, List.cons_append, List.nil_append] at hcode ⊢
  have hstart := target_of_suffix hcode
  have hbodyCode := (List.suffix_cons _ _).trans hcode
  have hagain := suffix_of_append hbodyCode
  have hexit := suffix_of_append ((List.suffix_cons _ _).trans hagain)
  have hexit := (List.suffix_cons _ _).trans ((List.suffix_cons _ _).trans hexit)
  have goesBody :=
    hb (here.move { here.env with inLoop := true } _ here.cells rfl here.tracks.numbered) _ bodyCode st' (w.loop _ _ _)
    hfn hs hbody hlower hcells hbodyCode (leads_loop (target_of_suffix hexit) (target_of_suffix hagain))
  refine ⟨_, _, Goes.trans goes_label goesBody, goes_label, ?_⟩
  rintro holds σ₂ ⟨v, rfl, hvalue⟩
  have htracks := lowerStmt_tracks body hlower here.tracks.numbered
  have goesTest := hvalue ((here.move (here.env.after body) st' _ rfl htracks).scene hcells) inner
    (congrArg (fun scopes => Scopes.declare scopes body.declared) hs) hcond hinner
  refine Goes.trans goes_label ((goesTest _ _).trans ?_)
  by_cases hv : v = 0
  · subst hv
    exact goes_againFails.trans goes_label
  · simp only [bne_iff_ne, ne_eq, hv, not_false_eq_true, if_true]
    exact goes_againHolds hv hstart

theorem stmtRuns_doLeft (hb : P.StmtRuns fn scopes body σ b σ₁) (hc : b.leaves = some c) :
    P.StmtRuns fn scopes (.doWhile span body cond) σ c σ₁ := by
  intro here loop frag st' w hfn hs hrec hlower hcells hcode _
  obtain ⟨exit, again, turn, leave, -⟩ := goes_doTurn hb here w hfn hs hrec hlower hcells hcode
  exact turn.trans (goes_leave hc leave)

theorem stmtRuns_doDone (hb : P.StmtRuns fn scopes body σ b σ₁) (hc : b.leaves = none)
    (ht : P.TestRuns (scopes.after body) σ₁ false σ₂ (some cond)) :
    P.StmtRuns fn scopes (.doWhile span body cond) σ .normal σ₂ := by
  intro here loop frag st' w hfn hs hrec hlower hcells hcode _
  obtain ⟨exit, again, turn, -, test⟩ := goes_doTurn hb here w hfn hs hrec hlower hcells hcode
  exact turn.trans ((goes_again hc (Goes.refl _)).trans (test false σ₂ ht))

theorem stmtRuns_doAgain (hb : P.StmtRuns fn scopes body σ b σ₁) (hc : b.leaves = none)
    (ht : P.TestRuns (scopes.after body) σ₁ true σ₂ (some cond))
    (hd : P.StmtRuns fn scopes (.doWhile span body cond) σ₂ c σ₃) :
    P.StmtRuns fn scopes (.doWhile span body cond) σ c σ₃ := by
  intro here loop frag st' w hfn hs hrec hlower hcells hcode hloop
  obtain ⟨exit, again, turn, -, test⟩ := goes_doTurn hb here w hfn hs hrec hlower hcells hcode
  calc
    P.Goes _ _ := turn
    P.Goes _ (w.start again σ₁) := goes_again hc (Goes.refl _)
    P.Goes _ (w.start _ σ₂) := test true σ₂ ht
    P.Goes _ _ := hd here loop frag st' w hfn hs hrec hlower hcells hcode hloop

theorem recorded_initStmt {info : TypeInfo} {env : Env} {init : ForInit} (h : init.Recorded info env) :
    (init.stmt span).Recorded info env := by
  cases init with
  | nothing => trivial
  | decl d => exact h
  | expr span e => exact h

theorem recorded_ofStep {info : TypeInfo} {env : Env} {step : Option Expr}
    (h : ∀ e ∈ step, ∃ b, e.Recorded info env b) : (Stmt.ofStep span step).Recorded info env := by
  cases step with
  | none => trivial
  | some e => exact h e rfl

theorem stmtRuns_for {init : ForInit} {cond step : Option Expr}
    (hi : P.StmtRuns fn ([] :: scopes) (init.stmt span) σ .normal σ₁)
    (hl : P.LoopRuns fn (Scopes.declare ([] :: scopes) init.declared) cond (.ofStep span step) body σ₁ c σ₂) :
    P.StmtRuns fn scopes (.for_ span init cond step body) σ c σ₂ := by
  intro here loop frag st' w hfn hs hrec hlower hcells hcode hloop
  obtain ⟨hinit, hcond, hstep, hbody⟩ := hrec
  obtain ⟨initCode, st₁, test, bodyCode, stepCode, hlowerInit, htest, hlowerBody, hlowerStep, hlines⟩ :=
    lowerStmt_for hlower
  simp only [hlines, List.append_assoc, List.cons_append, List.nil_append] at hcode ⊢
  simp only [Stmt.locals, List.map_append, ← List.append_assoc] at hcells
  have hscopes : here.env.enter.scopes = [] :: scopes := congrArg ([] :: ·) hs
  have htracks := lowerForInit_tracks hlowerInit here.tracks.numbered
  have hlocals : (init.stmt span).locals = init.declared := by cases init <;> rfl
  have goesInit :=
    hi (here.move here.env.enter _ here.cells rfl here.tracks.numbered) loop initCode st₁ (w.before _) hfn hscopes
    (recorded_initStmt hinit) hlowerInit (by rw [hlocals]; exact prefix_of_append hcells) hcode hloop.before
  have goesLoop :=
    hl (here.move (here.env.enter.declareAll init.declared) st₁ _ rfl htracks) loop _ _ _ test _ bodyCode stepCode st' w
    hfn (congrArg (fun scopes => Scopes.declare scopes init.declared) hscopes) hcond (recorded_ofStep hstep) hbody
    htest hlowerBody hlowerStep (by cases step <;> rfl) hcells rfl (suffix_of_append hcode) hloop
  exact goesInit.trans goesLoop

theorem loopRuns_done {cond : Option Expr} {step : Stmt} (ht : P.TestRuns scopes σ false σ₁ cond) :
    P.LoopRuns fn scopes cond step body σ .normal σ₁ := by
  intro here loop head again exit test code bodyCode stepCode st' w _ hs hcond _ _ htest _ _ _ hcells hlines hcode _
  subst hlines
  have hstep := (List.suffix_cons _ _).trans (suffix_of_append (suffix_of_append ((List.suffix_cons _ _).trans hcode)))
  have hexit := target_of_suffix ((List.suffix_cons _ _).trans (suffix_of_append hstep))
  calc
    P.Goes _ (w.start _ σ) := goes_label
    P.Goes _ (w.start _ σ₁) := ht.goes (here.scene (prefix_of_append hcells)) hs hcond htest hexit _
    P.Goes _ _ := goes_label

theorem loopRuns_left {cond : Option Expr} {step : Stmt} (ht : P.TestRuns scopes σ true σ₁ cond)
    (hb : P.StmtRuns fn scopes body σ₁ b σ₂) (hc : b.leaves = some c) : P.LoopRuns fn scopes cond step body σ c σ₂ := by
  intro here loop head again exit test code bodyCode stepCode st' w hfn hs hcond _ hbody htest hlower _ _ hcells
    hlines hcode _
  subst hlines
  have hbodyCode := suffix_of_append ((List.suffix_cons _ _).trans hcode)
  have hagain := suffix_of_append hbodyCode
  have hexit := (List.suffix_cons _ _).trans (suffix_of_append ((List.suffix_cons _ _).trans hagain))
  have goesBody :=
    hb (here.move { here.env with inLoop := true } _ here.cells rfl here.tracks) _ bodyCode st' (w.loop _ _ _) hfn hs
    hbody hlower hcells hbodyCode (leads_loop (target_of_suffix hexit) (target_of_suffix hagain))
  calc
    P.Goes _ (w.start _ σ) := goes_label
    P.Goes _ (w.start _ σ₁) :=
      ht.goes (here.scene (prefix_of_append hcells)) hs hcond htest (target_of_suffix hexit) _
    P.Goes _ _ := goesBody
    P.Goes _ _ := goes_leave hc goes_label

theorem loopRuns_again {cond : Option Expr} {step : Stmt} (ht : P.TestRuns scopes σ true σ₁ cond)
    (hb : P.StmtRuns fn scopes body σ₁ b σ₂) (hc : b.leaves = none) (hs : P.StmtRuns fn scopes step σ₂ .normal σ₃)
    (hl : P.LoopRuns fn scopes cond step body σ₃ c σ₄) : P.LoopRuns fn scopes cond step body σ c σ₄ := by
  intro here loop head again exit test code bodyCode stepCode st' w hfn henv hcond hrecStep hbody htest hlower
    hlowerStep hlocals hcells hlines hcode hloop
  have hwhole :=
    hl here loop head again exit test code bodyCode stepCode st' w hfn henv hcond hrecStep hbody htest hlower hlowerStep
    hlocals hcells hlines hcode hloop
  subst hlines
  have hbodyCode := suffix_of_append ((List.suffix_cons _ _).trans hcode)
  have hagain := suffix_of_append hbodyCode
  have hstepCode := (List.suffix_cons _ _).trans hagain
  have hexit := (List.suffix_cons _ _).trans (suffix_of_append hstepCode)
  have htracks := lowerStmt_tracks body hlower here.tracks
  have goesBody :=
    hb (here.move { here.env with inLoop := true } _ here.cells rfl here.tracks) _ bodyCode st' (w.loop _ _ _) hfn henv
    hbody hlower hcells hbodyCode (leads_loop (target_of_suffix hexit) (target_of_suffix hagain))
  have goesStep := hs (here.move here.env st' _ rfl htracks) loop stepCode st' (w.before _) hfn henv hrecStep hlowerStep
    (by rw [hlocals, List.map_nil, List.append_nil]; exact hcells) hstepCode hloop.before
  calc
    P.Goes _ (w.start _ σ) := goes_label
    P.Goes _ (w.start _ σ₁) :=
      ht.goes (here.scene (prefix_of_append hcells)) henv hcond htest (target_of_suffix hexit) _
    P.Goes _ _ := goesBody
    P.Goes _ (w.start _ σ₂) := goes_again hc (Goes.refl _)
    P.Goes _ (w.start _ σ₂) := goes_label
    P.Goes _ (w.start _ σ₃) := goesStep
    P.Goes _ (w.start _ σ₃) := goes_jump (target_of_suffix hcode)
    P.Goes _ _ := hwhole

/-! ## Jumps, returns and sequences -/

theorem stmtRuns_break : P.StmtRuns fn scopes (.break_ span) σ .broke σ := by
  intro here loop frag st' w _ _ _ hlower _ _ hloop
  obtain ⟨l, hl, -, hlines⟩ := lowerStmt_break hlower
  rw [hlines]
  exact goes_jump (hloop l hl).1

theorem stmtRuns_continue : P.StmtRuns fn scopes (.continue_ span) σ .continued σ := by
  intro here loop frag st' w _ _ _ hlower _ _ hloop
  obtain ⟨l, hl, -, hlines⟩ := lowerStmt_continue hlower
  rw [hlines]
  exact goes_jump (hloop l hl).2

theorem stmtRuns_return : P.StmtRuns fn scopes (.return_ span none) σ .returned σ := by
  intro here loop frag st' w _ _ _ hlower _ _ _
  obtain ⟨-, hlines⟩ := lowerStmt_return hlower
  rw [hlines]
  exact goes_return

theorem stmtRuns_returnValue {e : Expr} (h : P.ExprRuns scopes e σ (some x) σ₁) :
    P.StmtRuns fn scopes (.return_ span (some e)) σ .returned (σ₁.write (.result fn) x.word) := by
  intro here loop frag st' w hfn hs hrec hlower hcells _ _
  obtain ⟨f, -, hrec⟩ := hrec
  obtain ⟨frame, a, inner, hframe, hresult, hinner, -, hlines⟩ := lowerStmt_returnValue hlower
  obtain ⟨-, goes⟩ := h.value (here.scene (prefix_of_append hcells)) hs hrec hinner
  rw [here.frames_eq, hfn] at hframe
  rw [hlines, List.append_assoc]
  calc
    P.Goes _ ⟨_, _, σ₁⟩ := goes _ _
    P.Goes _ (w.start _ _) := goes_pop (P.framed fn frame a hframe hresult)
    P.Goes _ _ := goes_return

theorem stmtRuns_expr {e : Expr} {r : Option Value} (h : P.ExprRuns scopes e σ r σ₁) :
    P.StmtRuns fn scopes (.expr span e) σ .normal σ₁ := by
  intro here loop frag st' w _ hs hrec hlower hcells _ _
  obtain ⟨b, hrec⟩ := hrec
  obtain ⟨hlower, -⟩ := lowerStmt_expr hlower
  rcases lowerEffect_eq_ok hlower with ⟨hdrop, hlower⟩ | ⟨inner, hlower, hlines⟩
  · exact (h (here.scene (prefix_of_append hcells)) false b frag hs hrec hlower (Or.inr hdrop)).2 _ _
  · obtain ⟨htyped, goes⟩ := h (here.scene (prefix_of_append hcells)) true b inner hs hrec hlower (Or.inl rfl)
    rw [hlines, List.append_assoc]
    refine (goes _ _).trans ?_
    rw [here.info_eq, TypeInfo.familyOf, hrec.typeOf, Option.bind_some]
    cases r with
    | none =>
      obtain rfl : b = .void := htyped
      exact Goes.refl _
    | some v =>
      obtain rfl : b = v.family.base := htyped
      rw [Family.family_base]
      exact goes_popnop

theorem stmtRuns_block {ss : List Stmt} (h : P.StmtsRun fn ([] :: scopes) ss σ c σ₁) :
    P.StmtRuns fn scopes (.block span ss) σ c σ₁ := by
  intro here loop frag st' w hfn hs hrec hlower hcells hcode hloop
  simp only [lowerStmt] at hlower
  exact h (here.move here.env.enter here.st here.cells rfl here.tracks) loop frag st' w hfn (congrArg ([] :: ·) hs)
    hrec hlower hcells hcode hloop

theorem stmtRuns_empty : P.StmtRuns fn scopes (.empty span) σ .normal σ := by
  intro here loop frag st' w _ _ _ hlower _ _ _
  obtain ⟨-, hlines⟩ := lowerStmt_empty hlower
  rw [hlines]
  exact Goes.refl _

theorem stmtsRun_nil : P.StmtsRun fn scopes [] σ .normal σ := by
  intro here loop frag st' w _ _ _ hlower _ _ _
  obtain ⟨-, hlines⟩ := lowerStmts_nil hlower
  rw [hlines]
  exact Goes.refl _

theorem stmtsRun_cons {s : Stmt} {rest : List Stmt} (hs : P.StmtRuns fn scopes s σ .normal σ₁)
    (hfalls : s.diverges = false) (hr : P.StmtsRun fn (scopes.after s) rest σ₁ c σ₂) :
    P.StmtsRun fn scopes (s :: rest) σ c σ₂ := by
  intro here loop frag st' w hfn henv hrec hlower hcells hcode hloop
  obtain ⟨first, st₁, more, hfirst, hmore, hlines⟩ := lowerStmts_cons hfalls hlower
  rw [hlines, List.append_assoc] at hcode ⊢
  simp only [Stmt.localsOf, hfalls, Bool.false_eq_true, if_false, List.map_append, ← List.append_assoc] at hcells
  have htracks := lowerStmt_tracks s hfirst here.tracks
  have goesFirst :=
    hs here loop first st₁ (w.before _) hfn henv hrec.1 hfirst (prefix_of_append hcells) hcode hloop.before
  have goesMore := hr (here.move (here.env.after s) st₁ _ rfl htracks) loop more st' w hfn
    (congrArg (fun scopes => Scopes.declare scopes s.declared) henv) hrec.2 hmore hcells (suffix_of_append hcode) hloop
  exact goesFirst.trans goesMore

/-- what follows a statement that does not complete normally is not run, whether it is lowered or not -/
theorem stmtsRun_stop {s : Stmt} {rest : List Stmt} (hs : P.StmtRuns fn scopes s σ c σ₁) (hc : c ≠ .normal) :
    P.StmtsRun fn scopes (s :: rest) σ c σ₁ := by
  intro here loop frag st' w hfn henv hrec hlower hcells hcode hloop
  cases hdiverges : s.diverges with
  | true =>
    obtain ⟨first, hfirst, hlines⟩ := lowerStmts_cons_diverges hdiverges hlower
    rw [hlines] at hcode ⊢
    simp only [Stmt.localsOf, hdiverges, if_true, List.append_nil] at hcells
    exact hs here loop first st' w hfn henv hrec.1 hfirst hcells hcode hloop
  | false =>
    obtain ⟨first, st₁, more, hfirst, -, hlines⟩ := lowerStmts_cons hdiverges hlower
    rw [hlines, List.append_assoc] at hcode ⊢
    simp only [Stmt.localsOf, List.map_append, ← List.append_assoc] at hcells
    have goesFirst :=
      hs here loop first st₁ (w.before _) hfn henv hrec.1 hfirst (prefix_of_append hcells) hcode hloop.before
    exact goesFirst.trans (goes_finish fun h => absurd h hc)

end Stmt

/-! ## Calls -/

theorem writeAll_write {σ : World} {c : Cell} {w : UInt32} (cs : List Cell) (ws : List UInt32) (hc : c ∉ cs) :
    (σ.writeAll cs ws).write c w = (σ.write c w).writeAll cs ws := by
  induction cs generalizing σ ws with
  | nil => simp [World.writeAll]
  | cons d rest ih =>
    cases ws with
    | nil => simp [World.writeAll]
    | cons v ws =>
      rw [List.mem_cons, not_or] at hc
      have hcomm : (σ.write d v).write c w = (σ.write c w).write d v := by
        simp [World.write, Function.update_comm (Ne.symm hc.1)]
      rw [World.writeAll, World.writeAll, ih ws hc.2, hcomm]

/-- words popped from the last to the first go to the cells from the first to the last -/
theorem goes_pops {addresses : List Address} {cells : List Cell} {words : List UInt32} {σ : World} (k : List Line)
    (S : List StackEntry) (hplaces : Places P.cells addresses cells) (hcells : cells.Nodup)
    (hlength : words.length = cells.length) :
    P.Goes ⟨(addresses.reverse.map popA).map .instr ++ k, words.reverse.map .word ++ S, σ⟩
      ⟨k, S, σ.writeAll cells words⟩ := by
  induction hplaces generalizing words k S with
  | nil =>
    obtain rfl : words = [] := by simpa using hlength
    exact Goes.refl _
  | @cons a c addresses cells hc _ ih =>
    cases words with
    | nil => cases hlength
    | cons w words =>
      rw [List.nodup_cons] at hcells
      have hrest := ih (.instr (popA a) :: k) (.word w :: S) hcells.2 (by simpa using hlength)
      have hlast : P.Goes ⟨.instr (popA a) :: k, .word w :: S, σ.writeAll cells words⟩
          ⟨k, S, (σ.writeAll cells words).write c w⟩ := goes_pop hc
      rw [writeAll_write cells words hcells.1] at hlast
      simpa [World.writeAll] using hrest.trans hlast

/-- the caller finds the value of a function that has one in the result's address -/
theorem goes_result {frame : Frame} {f : FunctionDecl} {σ : World} (k : List Line) (S : List StackEntry)
    (h : frame.Placed P.cells f) :
    P.Goes ⟨(frame.result.toList.map pushA).map .instr ++ k, S, σ⟩
      ⟨k, pushed (f.result.family.map fun family => ⟨family, σ.store (.result f.name)⟩) ++ S, σ⟩ := by
  have hresult := h.result
  cases hvoid : f.result.isVoid with
  | true =>
    rw [hvoid, if_pos rfl, Places, List.forall₂_nil_right_iff] at hresult
    have hfamily : f.result.family = none := by rw [Ty.family, isVoid_iff.1 hvoid]; rfl
    rw [hresult, hfamily]
    exact Goes.refl _
  | false =>
    rw [hvoid, if_neg Bool.false_ne_true] at hresult
    have hbase : f.result.base ≠ .void := by
      intro h
      rw [isVoid_iff.2 h] at hvoid
      cases hvoid
    obtain ⟨family, hfamily⟩ := Base.exists_family hbase
    cases hframe : frame.result with
    | none =>
      rw [hframe] at hresult
      cases hresult
    | some a =>
      rw [hframe] at hresult
      obtain ⟨hcell, -⟩ := List.forall₂_cons.1 hresult
      rw [Ty.family, Base.family_eq_some.2 hfamily]
      exact goes_push hcell

theorem callRuns_mk {name : String} {globals : List Variable} {f : FunctionDecl} {words : List UInt32} {c : Completion}
    {σ σ' : World} (hdef : definition? name [] P.program.items = some (globals, f))
    (hbody : P.StmtsRun f.name (Scopes.ofFunction globals f) f.body (σ.writeAll (f.params.map Param.cell) words) c σ')
    (hc : c = .normal ∨ c = .returned) (hdiverges : Stmt.anyDiverges f.body = true → c ≠ .normal) :
    P.CallRuns name words σ (f.result.family.map fun family => ⟨family, σ'.store (.result f.name)⟩) σ' := by
  intro frame sig hframe hsig hlength
  obtain ⟨_, _, hdef', rfl⟩ := P.declared name sig hsig
  rw [hdef] at hdef'
  obtain ⟨rfl, rfl⟩ := Prod.mk.inj (Option.some.inj hdef')
  obtain ⟨hname, hnodup, ⟨frame', hframe', hplaced⟩, env, hscopes, hfunctions, hrec, st, st', before, body, rest,
    htracks, hcells, hlower, hcode⟩ := P.defined name globals f hdef
  rw [hframe] at hframe'
  obtain rfl := Option.some.inj hframe'
  subst hname
  refine ⟨?_, fun k S => ?_, fun k S => ?_⟩
  · unfold Ty.family FunctionDecl.signature
    cases hbase : f.result.base <;> simp [Base.family, Typed, Family.base]
  · have hlast : (if Stmt.anyDiverges f.body then [] else [Line.instr (.bare .rtn)]) ++ rest <:+ P.lines := by
      rw [List.append_assoc] at hcode
      exact suffix_of_append hcode
    have goesBody :=
      hbody ⟨⟨P.info, P.graph, P.frames, f.name⟩, env, st, before, rfl, rfl, hfunctions, htracks⟩ none body st'
      ⟨(if Stmt.anyDiverges f.body then [] else [.instr (.bare .rtn)]) ++ rest, [], [], k, S⟩ rfl hscopes
      hrec hlower hcells (by rw [← List.append_assoc]; exact (List.suffix_cons _ _).trans hcode) (by rintro l ⟨⟩)
    have hwords : words.length = (f.params.map Param.cell).length := by simpa [FunctionDecl.signature] using hlength
    simp only [List.cons_append, List.append_assoc] at hcode
    calc
      P.Goes _ _ := goes_pops _ S hplaced.params hnodup hwords
      P.Goes _ _ := goes_call (target_of_suffix hcode)
      P.Goes _ _ := goes_label
      P.Goes _ _ := goesBody
      P.Goes _ _ := by
        rcases hc with rfl | rfl
        · have hfalls : Stmt.anyDiverges f.body = false := by simpa using fun h => hdiverges h rfl
          simp only [hfalls, Bool.false_eq_true, if_false]
          exact goes_return
        · exact Goes.refl _
  · exact goes_result k S hplaced

/-! ## Every derivation is a run of the code -/

section Runs

variable {ops : Operators} {dev : Device} {p : Program}

mutual

/-- control does not pass a statement that diverges -/
theorem exec_diverges (s : Stmt) (hs : s.diverges = true) {fn : String} {scopes : Scopes} {σ σ' : World}
    {c : Completion} (h : Exec ops dev p fn scopes s σ c σ') : c ≠ .normal := by
  cases s with
  | return_ | break_ | continue_ =>
    cases h <;> exact Completion.noConfusion
  | block span body =>
    cases h with
    | block h => exact execAll_diverges body hs h
  | ifElse span cond yes no =>
    simp only [Stmt.diverges, Bool.and_eq_true] at hs
    cases h with
    | elseYes _ h => exact exec_diverges yes hs.1 h
    | elseNo _ h => exact exec_diverges no hs.2 h
  | decl | ifThen | for_ | while_ | doWhile | expr | empty => cases hs

theorem execAll_diverges (ss : List Stmt) (hs : Stmt.anyDiverges ss = true) {fn : String} {scopes : Scopes}
    {σ σ' : World} {c : Completion} (h : ExecAll ops dev p fn scopes ss σ c σ') : c ≠ .normal := by
  cases ss with
  | nil => cases hs
  | cons s rest =>
    simp only [Stmt.anyDiverges, Bool.or_eq_true] at hs
    cases h with
    | stop _ hc => exact hc
    | cons hfirst hrest =>
      rcases hs with hs | hs
      · exact absurd rfl (exec_diverges s hs hfirst)
      · exact execAll_diverges rest hs hrest

end

end Runs

mutual

/-- **Expressions.** The code of an expression does what its evaluation does. -/
theorem eval_runs : ∀ {scopes e σ r σ'}, Eval P.ops P.dev P.program scopes e σ r σ' → P.ExprRuns scopes e σ r σ'
  | _, _, _, _, _, .literal => exprRuns_literal
  | _, _, _, _, _, .ident hv hf => exprRuns_ident hv hf
  | _, _, _, _, _, .binary hl hr => exprRuns_binary (eval_runs hl) (eval_runs hr)
  | _, _, _, _, _, .unary h => exprRuns_unary (eval_runs h)
  | _, _, _, _, _, .update hv hf hold hnew => exprRuns_update hv hf hold hnew
  | _, _, _, _, _, .assign hv hf h => exprRuns_assign hv hf (eval_runs h)
  | _, _, _, _, _, .compound hv hf h hw => exprRuns_compound hv hf (eval_runs h) hw
  | _, _, _, _, _, .call hargs hcall => exprRuns_call (evalAll_runs hargs) (call_runs hcall)
  | _, _, _, _, _, .intrinsic hargs hperform => exprRuns_intrinsic (evalAll_runs hargs) hperform
  | _, _, _, _, _, .cast h hf => exprRuns_cast (eval_runs h) hf

theorem evalAll_runs : ∀ {scopes args σ words σ'}, EvalAll P.ops P.dev P.program scopes args σ words σ' →
    P.ArgsRun scopes args σ words σ'
  | _, _, _, _, _, .nil => argsRun_nil
  | _, _, _, _, _, .cons h hs => argsRun_cons (eval_runs h) (evalAll_runs hs)

theorem call_runs : ∀ {name words σ r σ'}, Call P.ops P.dev P.program name words σ r σ' → P.CallRuns name words σ r σ'
  | _, _, _, _, _, .mk hdef hbody hc rfl => callRuns_mk hdef (execAll_runs hbody) hc fun hs =>
    execAll_diverges _ hs hbody

theorem test_runs :
    ∀ {scopes cond σ holds σ'}, Test P.ops P.dev P.program scopes cond σ holds σ' → P.TestRuns scopes σ holds σ' cond
  | _, _, _, _, _, .always => ⟨rfl, rfl⟩
  | _, _, _, _, _, .value h rfl => testRuns_value (eval_runs h)

/-- **Statements.** The code of a statement takes the way out that its completion says. -/
theorem exec_runs :
    ∀ {fn scopes s σ c σ'}, Exec P.ops P.dev P.program fn scopes s σ c σ' → P.StmtRuns fn scopes s σ c σ'
  | _, _, _, _, _, _, .declare hd => stmtRuns_declare hd
  | _, _, _, _, _, _, .define hd h => stmtRuns_define hd (eval_runs h)
  | _, _, _, _, _, _, .thenTaken ht h => stmtRuns_thenTaken (test_runs ht) (exec_runs h)
  | _, _, _, _, _, _, .thenSkipped ht => stmtRuns_thenSkipped (test_runs ht)
  | _, _, _, _, _, _, .elseYes ht h => stmtRuns_elseYes (test_runs ht) (exec_runs h) fun hs => exec_diverges _ hs h
  | _, _, _, _, _, _, .elseNo ht h => stmtRuns_elseNo (test_runs ht) (exec_runs h)
  | _, _, _, _, _, _, .whileDone ht => stmtRuns_whileDone (test_runs ht)
  | _, _, _, _, _, _, .whileLeft ht hb hc => stmtRuns_whileLeft (test_runs ht) (exec_runs hb) hc
  | _, _, _, _, _, _, .whileAgain ht hb hc h => stmtRuns_whileAgain (test_runs ht) (exec_runs hb) hc (exec_runs h)
  | _, _, _, _, _, _, .doLeft hb hc => stmtRuns_doLeft (exec_runs hb) hc
  | _, _, _, _, _, _, .doDone hb hc ht => stmtRuns_doDone (exec_runs hb) hc (test_runs ht)
  | _, _, _, _, _, _, .doAgain hb hc ht h => stmtRuns_doAgain (exec_runs hb) hc (test_runs ht) (exec_runs h)
  | _, _, _, _, _, _, .for_ hi hl => stmtRuns_for (exec_runs hi) (loop_runs hl)
  | _, _, _, _, _, _, .break_ => stmtRuns_break
  | _, _, _, _, _, _, .continue_ => stmtRuns_continue
  | _, _, _, _, _, _, .return_ => stmtRuns_return
  | _, _, _, _, _, _, .returnValue h => stmtRuns_returnValue (eval_runs h)
  | _, _, _, _, _, _, .expr h => stmtRuns_expr (eval_runs h)
  | _, _, _, _, _, _, .block h => stmtRuns_block (execAll_runs h)
  | _, _, _, _, _, _, .empty => stmtRuns_empty

theorem execAll_runs :
    ∀ {fn scopes ss σ c σ'}, ExecAll P.ops P.dev P.program fn scopes ss σ c σ' → P.StmtsRun fn scopes ss σ c σ'
  | _, _, _, _, _, _, .nil => stmtsRun_nil
  | _, _, _, _, _, _, .cons h hr =>
    stmtsRun_cons (exec_runs h) (Bool.eq_false_iff.2 fun hs => exec_diverges _ hs h rfl) (execAll_runs hr)
  | _, _, _, _, _, _, .stop h hc => stmtsRun_stop (exec_runs h) hc

theorem loop_runs : ∀ {fn scopes cond step body σ c σ'}, Loop P.ops P.dev P.program fn scopes cond step body σ c σ' →
    P.LoopRuns fn scopes cond step body σ c σ'
  | _, _, _, _, _, _, _, _, .done ht => loopRuns_done (test_runs ht)
  | _, _, _, _, _, _, _, _, .left ht hb hc => loopRuns_left (test_runs ht) (exec_runs hb) hc
  | _, _, _, _, _, _, _, _, .again ht hb hc hs hl =>
    loopRuns_again (test_runs ht) (exec_runs hb) hc (exec_runs hs) (loop_runs hl)

end

end Linked

end C15

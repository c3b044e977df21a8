/-
The static storage of a program and the addresses it gets.

Every global, parameter, local and result of a function that is not `void` is one cell for the whole run.
`Program.cells` lists the cells in the order of their addresses, read off the program alone: the globals, then for each
function its result and parameters, then the locals of each function in the order of their declarations, those after a
diverging statement left out. `Tracks` says that storage has given out one address to each cell of a list, in order.
Results:
- `lowerStmt_keeps`: lowering a statement gives addresses to the declarations it reaches, in order; what storage keeps
  of that is kept;
- `lowerStmt_tracks`, `lowerFunctions_tracks`: lowering adds the cells of what it lowers, in order;
- `bindFrames_framing`, `bindFrames_tracks`: every function finds its parameters and its result in its frame;
- `Program.Parts.final_tracks`: the storage of a generated program tracks the cells of the program;
- `Program.cells_nodup`: the cells of a checked program are distinct.
-/
import C15.Proofs.Lowering

namespace C15

/-! ## Cells -/

/-- static storage of a variable, or of the result of a function -/
inductive Cell where
  | variable (decl : NodeId)
  | result (function : String)
deriving DecidableEq, Repr

mutual

/-- declarations that code is generated for: nothing after a statement that diverges -/
def Stmt.locals : Stmt → List VarDecl
  | .decl d => [d]
  | .ifThen _ _ yes => yes.locals
  | .ifElse _ _ yes no => yes.locals ++ no.locals
  | .while_ _ _ body | .doWhile _ body _ => body.locals
  | .for_ _ init _ _ body => init.declared ++ body.locals
  | .block _ body => Stmt.localsOf body
  | .break_ _ | .continue_ _ | .return_ _ _ | .expr _ _ | .empty _ => []

def Stmt.localsOf : List Stmt → List VarDecl
  | [] => []
  | s :: rest => s.locals ++ if s.diverges then [] else Stmt.localsOf rest

end

def VarDecl.cell (d : VarDecl) : Cell := .variable d.id

def Param.cell (p : Param) : Cell := .variable p.id

namespace FunctionDecl

/-- the cells that calls of a function use: its result, if it has one, and its parameters -/
def frameCells (f : FunctionDecl) : List Cell :=
  (if f.result.isVoid then [] else [.result f.name]) ++ f.params.map Param.cell

def localCells (f : FunctionDecl) : List Cell := (Stmt.localsOf f.body).map VarDecl.cell

end FunctionDecl

/-- the function that a name in front of arguments means: of two with one name the last -/
def calledFunction (fs : List FunctionDecl) (name : String) : Option FunctionDecl := fs.reverse.find? (·.name == name)

theorem calledFunction_spec {fs : List FunctionDecl} {name : String} {f : FunctionDecl}
    (h : calledFunction fs name = some f) : f ∈ fs ∧ f.name = name :=
  ⟨List.mem_reverse.1 (List.mem_of_find?_eq_some h), by simpa using List.find?_some h⟩

theorem calledFunction_of_mem {fs : List FunctionDecl} (hnames : (fs.map (·.name)).Nodup) {f : FunctionDecl}
    (hf : f ∈ fs) : calledFunction fs f.name = some f := by
  cases hcalled : calledFunction fs f.name with
  | none => exact absurd (List.find?_eq_none.1 hcalled f (List.mem_reverse.2 hf)) (by simp)
  | some g =>
    obtain ⟨hg, hname⟩ := calledFunction_spec hcalled
    rw [List.inj_on_of_nodup_map hnames hg hf hname]

/-- all cells of a program, by address -/
def Program.cells (p : Program) : List Cell :=
  p.globals.map VarDecl.cell ++ p.functions.flatMap FunctionDecl.frameCells ++ p.functions.flatMap
    FunctionDecl.localCells

namespace Codegen

/-! ## Storage that tracks cells -/

/-- the storage has one address for each cell, in order, and knows which declaration has which -/
structure Storage.Tracks (st : Storage) (cells : List Cell) : Prop where
  size : st.destinations.size = cells.length
  sound : ∀ decl a, st.slots.lookup decl = some a → cells[a.index]? = some (.variable decl)
  complete : ∀ decl, .variable decl ∈ cells → ∃ a, st.slots.lookup decl = some a

namespace Storage.Tracks

theorem empty : Storage.Tracks ⟨#[], [], 0⟩ [] := ⟨rfl, by simp, by simp⟩

theorem numbered {st : Storage} {cells : List Cell} (h : st.Tracks cells) : st.numbered.Tracks cells :=
  ⟨h.size, h.sound, h.complete⟩

/-- an address stays the address of its cell when cells are added -/
theorem get_append {cells : List Cell} {i : Nat} {c : Cell} (h : cells[i]? = some c) (more : List Cell) :
    (cells ++ more)[i]? = some c := by
  obtain ⟨hi, -⟩ := List.getElem?_eq_some_iff.1 h
  rw [List.getElem?_append_left hi]
  exact h

theorem grow {st : Storage} {cells : List Cell} (h : st.Tracks cells) (function name : String) (ty : Ty) (span : Span) :
    (st.grow name ty span).Tracks (cells ++ [.result function]) where
  size := by simp [Storage.grow, h.size]
  sound decl a ha := get_append (h.sound decl a ha) _
  complete decl hmem := by
    rcases List.mem_append.1 hmem with hmem | hmem
    · exact h.complete decl hmem
    · simp at hmem

theorem growFor {st : Storage} {cells : List Cell} (h : st.Tracks cells) (decl : NodeId) (name : String) (ty : Ty)
    (span : Span) : (st.growFor decl name ty span).Tracks (cells ++ [.variable decl]) where
  size := by simp [Storage.growFor, Storage.grow, h.size]
  sound decl' a ha := by
    simp only [Storage.growFor, List.lookup_cons] at ha
    split at ha
    · rename_i heq
      obtain rfl := Option.some.inj ha
      simp [h.size, eq_of_beq heq]
    · exact get_append (h.sound decl' a ha) _
  complete decl' hmem := by
    simp only [Storage.growFor, List.lookup_cons]
    split
    · exact ⟨_, rfl⟩
    · rename_i hne
      rcases List.mem_append.1 hmem with hmem | hmem
      · exact h.complete decl' hmem
      · simp only [List.mem_singleton, Cell.variable.injEq] at hmem
        simp [hmem] at hne

end Storage.Tracks

/-! ## Statements -/

/-- what storage keeps, together with the declarations it has given addresses to, when a label is numbered or an address
given out -/
structure Storage.Kept (I : Storage → List VarDecl → Prop) : Prop where
  numbered : ∀ {st : Storage} {ds : List VarDecl}, I st ds → I st.numbered ds
  growFor : ∀ {st : Storage} {ds : List VarDecl} (d : VarDecl), I st ds → st.destinations.size ≤ maxAddress →
    I (st.growFor d.id d.name d.ty d.nameSpan) (ds ++ [d])

section Stmt

variable {cx : Context} {loop : Option LoopLabels} {frag : Fragment} {st st' : Storage} {cells : List Cell}
  {ds : List VarDecl} {I : Storage → List VarDecl → Prop}

theorem lowerLocal_keeps (hI : Storage.Kept I) {d : VarDecl} (h : (lowerLocal cx d).run st = .ok (frag, st'))
    (hst : I st ds) : I st' (ds ++ [d]) := by
  cases hd : d.init with
  | none =>
    obtain ⟨hroom, rfl, -⟩ := lowerLocal_declare hd h
    exact hI.growFor d hst hroom
  | some e =>
    obtain ⟨_, -, hroom, rfl, -⟩ := lowerLocal_value hd h
    exact hI.growFor d hst hroom

theorem lowerForInit_keeps (hI : Storage.Kept I) {init : ForInit} {span : Span}
    (h : (lowerStmt cx loop (init.stmt span)).run st = .ok (frag, st')) (hst : I st ds) :
    I st' (ds ++ init.declared) := by
  cases init with
  | nothing =>
    obtain ⟨rfl, -⟩ := lowerStmt_empty h
    simpa [ForInit.declared] using hst
  | decl d =>
    simp only [ForInit.stmt, lowerStmt] at h
    exact lowerLocal_keeps hI h hst
  | expr span e =>
    obtain ⟨-, rfl⟩ := lowerStmt_expr h
    simpa [ForInit.declared] using hst

mutual

/-- lowering a statement gives an address to each of its declarations that it reaches, in order -/
theorem lowerStmt_keeps (hI : Storage.Kept I) (s : Stmt) {loop : Option LoopLabels} {st st' : Storage} {frag : Fragment}
    {ds : List VarDecl} (h : (lowerStmt cx loop s).run st = .ok (frag, st')) (hst : I st ds) :
    I st' (ds ++ s.locals) := by
  cases s with
  | decl d =>
    simp only [lowerStmt] at h
    exact lowerLocal_keeps hI h hst
  | ifThen span cond yes =>
    obtain ⟨_, _, -, hy, -⟩ := lowerStmt_ifThen h
    exact lowerStmt_keeps hI yes hy (hI.numbered hst)
  | ifElse span cond yes no =>
    obtain ⟨_, _, _, _, -, hy, hn, -⟩ := lowerStmt_ifElse h
    simpa [Stmt.locals] using lowerStmt_keeps hI no hn (lowerStmt_keeps hI yes hy (hI.numbered hst))
  | while_ span cond body =>
    obtain ⟨_, _, -, hb, -⟩ := lowerStmt_while h
    exact lowerStmt_keeps hI body hb (hI.numbered hst)
  | doWhile span body cond =>
    obtain ⟨_, _, hb, -⟩ := lowerStmt_doWhile h
    exact lowerStmt_keeps hI body hb (hI.numbered hst)
  | for_ span init cond step body =>
    obtain ⟨_, _, _, _, _, hi, -, hb, -⟩ := lowerStmt_for h
    simpa [Stmt.locals] using lowerStmt_keeps hI body hb (lowerForInit_keeps hI hi (hI.numbered hst))
  | break_ span =>
    obtain ⟨_, -, rfl, -⟩ := lowerStmt_break h
    simpa [Stmt.locals] using hst
  | continue_ span =>
    obtain ⟨_, -, rfl, -⟩ := lowerStmt_continue h
    simpa [Stmt.locals] using hst
  | return_ span value =>
    cases value with
    | none =>
      obtain ⟨rfl, -⟩ := lowerStmt_return h
      simpa [Stmt.locals] using hst
    | some e =>
      obtain ⟨_, _, _, -, -, -, rfl, -⟩ := lowerStmt_returnValue h
      simpa [Stmt.locals] using hst
  | expr span e =>
    obtain ⟨-, rfl⟩ := lowerStmt_expr h
    simpa [Stmt.locals] using hst
  | block span body =>
    simp only [lowerStmt] at h
    exact lowerStmts_keeps hI body h hst
  | empty span =>
    obtain ⟨rfl, -⟩ := lowerStmt_empty h
    simpa [Stmt.locals] using hst

theorem lowerStmts_keeps (hI : Storage.Kept I) (ss : List Stmt) {loop : Option LoopLabels} {st st' : Storage}
    {frag : Fragment} {ds : List VarDecl} (h : (lowerStmts cx loop ss).run st = .ok (frag, st')) (hst : I st ds) :
    I st' (ds ++ Stmt.localsOf ss) := by
  cases ss with
  | nil =>
    obtain ⟨rfl, -⟩ := lowerStmts_nil h
    simpa [Stmt.localsOf] using hst
  | cons s rest =>
    cases hs : s.diverges with
    | true =>
      obtain ⟨_, hf, -⟩ := lowerStmts_cons_diverges hs h
      simpa [Stmt.localsOf, hs] using lowerStmt_keeps hI s hf hst
    | false =>
      obtain ⟨_, _, _, hf, hm, -⟩ := lowerStmts_cons hs h
      simpa [Stmt.localsOf, hs] using lowerStmts_keeps hI rest hm (lowerStmt_keeps hI s hf hst)

end

theorem Storage.kept_tracks (cells : List Cell) :
    Storage.Kept fun st ds => st.Tracks (cells ++ ds.map VarDecl.cell) where
  numbered h := h.numbered
  growFor d h _ := by simpa [VarDecl.cell] using h.growFor d.id d.name d.ty d.nameSpan

theorem Storage.Tracks.past_nil (h : st.Tracks cells) : st.Tracks (cells ++ [].map VarDecl.cell) := by simpa using h

theorem lowerForInit_tracks {init : ForInit} {span : Span}
    (h : (lowerStmt cx loop (init.stmt span)).run st = .ok (frag, st')) (ht : st.Tracks cells) :
    st'.Tracks (cells ++ init.declared.map VarDecl.cell) :=
  lowerForInit_keeps (Storage.kept_tracks cells) h ht.past_nil

theorem lowerStmt_tracks (s : Stmt) (h : (lowerStmt cx loop s).run st = .ok (frag, st')) (ht : st.Tracks cells) :
    st'.Tracks (cells ++ s.locals.map VarDecl.cell) :=
  lowerStmt_keeps (Storage.kept_tracks cells) s h ht.past_nil

theorem lowerStmts_tracks (ss : List Stmt) (h : (lowerStmts cx loop ss).run st = .ok (frag, st'))
    (ht : st.Tracks cells) : st'.Tracks (cells ++ (Stmt.localsOf ss).map VarDecl.cell) :=
  lowerStmts_keeps (Storage.kept_tracks cells) ss h ht.past_nil

end Stmt

/-! ## Globals and frames -/

/-- addresses of cells, one for one -/
def Places (cells : List Cell) (addresses : List Address) (placed : List Cell) : Prop :=
  List.Forall₂ (fun a c => cells[a.index]? = some c) addresses placed

theorem Places.append {cells : List Cell} {as : List Address} {cs : List Cell} (h : Places cells as cs)
    (more : List Cell) : Places (cells ++ more) as cs :=
  h.imp fun _ _ hc => Storage.Tracks.get_append hc more

/-- addresses given out one after the other -/
def addressesFrom (start count : Nat) : List Address := (List.range' start count).map Address.mk

theorem places_addressesFrom (cells placed : List Cell) :
    Places (cells ++ placed) (addressesFrom cells.length placed.length) placed := by
  induction placed generalizing cells with
  | nil => exact .nil
  | cons c rest ih =>
    have := ih (cells ++ [c])
    rw [List.append_assoc, List.length_append] at this
    exact .cons (by simp) this

section Program

variable {cx : Context} {frag : Fragment} {st st' : Storage} {cells : List Cell}

theorem bindGlobals_tracks (ds : List VarDecl) {as : List Address} (h : (bindGlobals ds).run st = .ok (as, st'))
    (ht : st.Tracks cells) : as = addressesFrom cells.length ds.length ∧ st'.Tracks (cells ++ ds.map VarDecl.cell) := by
  induction ds generalizing st cells as with
  | nil =>
    simp only [bindGlobals, run_pure_eq_ok] at h
    obtain ⟨rfl, rfl⟩ := h
    exact ⟨rfl, by simpa using ht⟩
  | cons d rest ih =>
    simp only [bindGlobals, run_bind_eq_ok, run_bindSlot_eq_ok, run_pure_eq_ok] at h
    obtain ⟨_, _, ⟨-, rfl, rfl⟩, more, _, hm, rfl, rfl⟩ := h
    obtain ⟨rfl, htrack⟩ := ih hm (ht.growFor d.id d.name d.ty d.nameSpan)
    refine ⟨?_, by simpa [VarDecl.cell] using htrack⟩
    simp [addressesFrom, List.range'_succ, ht.size]

theorem bindParams_tracks (ps : List Param) {as : List Address} (h : (bindParams ps).run st = .ok (as, st'))
    (ht : st.Tracks cells) : as = addressesFrom cells.length ps.length ∧ st'.Tracks (cells ++ ps.map Param.cell) := by
  induction ps generalizing st cells as with
  | nil =>
    simp only [bindParams, run_pure_eq_ok] at h
    obtain ⟨rfl, rfl⟩ := h
    exact ⟨rfl, by simpa using ht⟩
  | cons p rest ih =>
    simp only [bindParams, run_bind_eq_ok, run_bindSlot_eq_ok, run_pure_eq_ok] at h
    obtain ⟨_, _, ⟨-, rfl, rfl⟩, more, _, hm, rfl, rfl⟩ := h
    obtain ⟨rfl, htrack⟩ := ih hm (ht.growFor p.id p.name p.ty p.span)
    refine ⟨?_, by simpa [Param.cell] using htrack⟩
    simp [addressesFrom, List.range'_succ, ht.size]

/-- a frame holds the addresses of a function's parameters and of its result, if it has one -/
structure Frame.Placed (frame : Frame) (cells : List Cell) (f : FunctionDecl) : Prop where
  params : Places cells frame.params (f.params.map Param.cell)
  result : Places cells frame.result.toList (if f.result.isVoid then [] else [.result f.name])

theorem Frame.Placed.append {frame : Frame} {f : FunctionDecl} (h : frame.Placed cells f) (more : List Cell) :
    frame.Placed (cells ++ more) f := ⟨h.params.append more, h.result.append more⟩

theorem bindFrame_tracks {f : FunctionDecl} {frame : Frame} (h : (bindFrame f).run st = .ok (frame, st'))
    (ht : st.Tracks cells) : frame.Placed (cells ++ f.frameCells) f ∧ st'.Tracks (cells ++ f.frameCells) := by
  unfold FunctionDecl.frameCells
  cases hvoid : f.result.isVoid with
  | true =>
    simp only [bindFrame, hvoid, if_true, run_bind_eq_ok, run_pure_eq_ok] at h
    obtain ⟨_, _, ⟨rfl, rfl⟩, params, _, hp, rfl, rfl⟩ := h
    obtain ⟨rfl, htrack⟩ := bindParams_tracks f.params hp ht
    have hplaces := places_addressesFrom cells (f.params.map Param.cell)
    rw [List.length_map] at hplaces
    refine ⟨⟨by simpa using hplaces, ?_⟩, by simpa using htrack⟩
    rw [hvoid]
    exact .nil
  | false =>
    simp only [bindFrame, hvoid, Bool.false_eq_true, if_false, run_bind_eq_ok, run_pure_eq_ok, run_map_eq_ok,
      run_allocate_eq_ok] at h
    obtain ⟨_, _, ⟨_, ⟨-, rfl, rfl⟩, rfl⟩, params, _, hp, rfl, rfl⟩ := h
    have hgrow := ht.grow f.name (f.name ++ ".return") f.result f.nameSpan
    obtain ⟨rfl, htrack⟩ := bindParams_tracks f.params hp hgrow
    have hplaces := places_addressesFrom (cells ++ [.result f.name]) (f.params.map Param.cell)
    rw [List.length_map] at hplaces
    refine ⟨⟨by simpa using hplaces, ?_⟩, by simpa using htrack⟩
    rw [hvoid]
    exact .cons (by simp [ht.size]) .nil

/-- the frame found under a name is that of the function called by it, and there is one if there is such a function -/
structure Framing (frames : List (String × Frame)) (fs : List FunctionDecl) (cells : List Cell) : Prop where
  sound : ∀ name frame, frames.lookup name = some frame → ∃ f, calledFunction fs name = some f ∧ frame.Placed cells f
  complete : ∀ name f, calledFunction fs name = some f → ∃ frame, frames.lookup name = some frame

namespace Framing

variable {frames : List (String × Frame)} {fs : List FunctionDecl}

theorem empty (cells : List Cell) : Framing [] [] cells where
  sound _ _ h := by cases h
  complete _ _ h := by cases h

theorem append (h : Framing frames fs cells) (more : List Cell) : Framing frames fs (cells ++ more) where
  sound name frame hframe := by
    obtain ⟨f, hf, hplaced⟩ := h.sound name frame hframe
    exact ⟨f, hf, hplaced.append more⟩
  complete := h.complete

/-- one more function hides those of its name -/
theorem snoc (h : Framing frames fs cells) {f : FunctionDecl} {frame : Frame} (hplaced : frame.Placed cells f) :
    Framing ((f.name, frame) :: frames) (fs ++ [f]) cells := by
  -- a later function hides an earlier one of its name, among the functions and among the frames
  have hcalled (name : String) :
      calledFunction (fs ++ [f]) name = if f.name == name then some f else calledFunction fs name := by
    unfold calledFunction
    rw [List.reverse_append, List.reverse_singleton, List.singleton_append, List.find?_cons]
    cases f.name == name <;> rfl
  have hlookup (name : String) :
      List.lookup name ((f.name, frame) :: frames) = if f.name == name then some frame else frames.lookup name := by
    rw [List.lookup_cons, Bool.beq_comm]
    cases f.name == name <;> rfl
  constructor
  · intro name frame' hframe
    rw [hlookup] at hframe
    rw [hcalled]
    cases hname : f.name == name with
    | true =>
      rw [hname] at hframe
      cases hframe
      exact ⟨f, rfl, hplaced⟩
    | false =>
      rw [hname] at hframe
      exact h.sound name frame' hframe
  · intro name g hg
    rw [hcalled] at hg
    rw [hlookup]
    cases hname : f.name == name with
    | true => exact ⟨frame, rfl⟩
    | false =>
      rw [hname] at hg
      exact h.complete name g hg

end Framing

/-- the frames bound, the last function first, are those of the functions that calls mean -/
theorem bindFrames_framing (rest : List FunctionDecl) {bound : List FunctionDecl} {seen frames : List (String × Frame)}
    (h : (bindFrames seen rest).run st = .ok (frames, st')) (ht : st.Tracks cells) (hseen : Framing seen bound cells) :
    st'.Tracks (cells ++ rest.flatMap FunctionDecl.frameCells) ∧
      Framing frames (bound ++ rest) (cells ++ rest.flatMap FunctionDecl.frameCells) := by
  induction rest generalizing st cells seen bound with
  | nil =>
    simp only [bindFrames, run_pure_eq_ok] at h
    obtain ⟨rfl, rfl⟩ := h
    simpa using ⟨ht, hseen⟩
  | cons f rest ih =>
    simp only [bindFrames, run_bind_eq_ok] at h
    obtain ⟨frame, _, hf, hr⟩ := h
    obtain ⟨hplaced, htrack⟩ := bindFrame_tracks hf ht
    simpa using ih hr htrack ((hseen.append f.frameCells).snoc hplaced)

/-- every function bound finds its parameters and its result, if their names are distinct -/
theorem bindFrames_tracks (fs : List FunctionDecl) {frames : List (String × Frame)}
    (h : (bindFrames [] fs).run st = .ok (frames, st')) (ht : st.Tracks cells) (hnames : (fs.map (·.name)).Nodup) :
    st'.Tracks (cells ++ fs.flatMap FunctionDecl.frameCells) ∧
      (∀ f ∈ fs, ∃ frame, frames.lookup f.name = some frame ∧
        frame.Placed (cells ++ fs.flatMap FunctionDecl.frameCells) f) ∧
      ∀ name, name ∉ fs.map (·.name) → frames.lookup name = none := by
  obtain ⟨htrack, hframing⟩ := bindFrames_framing fs h ht (.empty cells)
  rw [List.nil_append] at hframing
  refine ⟨htrack, ?_, ?_⟩
  · intro f hf
    obtain ⟨frame, hframe⟩ := hframing.complete f.name f (calledFunction_of_mem hnames hf)
    obtain ⟨g, hg, hplaced⟩ := hframing.sound f.name frame hframe
    obtain rfl : f = g := Option.some.inj ((calledFunction_of_mem hnames hf).symm.trans hg)
    exact ⟨frame, hframe, hplaced⟩
  · intro name hname
    cases hframe : frames.lookup name with
    | none => rfl
    | some frame =>
      obtain ⟨f, hf, -⟩ := hframing.sound name frame hframe
      obtain ⟨hmem, rfl⟩ := calledFunction_spec hf
      exact absurd (List.mem_map_of_mem hmem) hname

/-- the initial values of the globals take no storage -/
theorem lowerGlobals_storage (gs : List (VarDecl × Address)) (h : (lowerGlobals cx gs).run st = .ok (frag, st')) :
    st' = st := by
  induction gs generalizing frag with
  | nil => exact (lowerGlobals_nil h).1
  | cons g rest ih =>
    obtain ⟨d, a⟩ := g
    cases hd : d.init with
    | none =>
      obtain ⟨_, hm, -⟩ := lowerGlobals_zero hd h
      exact ih hm
    | some e =>
      obtain ⟨_, _, -, hm, -⟩ := lowerGlobals_value hd h
      exact ih hm

theorem lowerFunctions_tracks (fs : List FunctionDecl) (h : (lowerFunctions cx fs).run st = .ok (frag, st'))
    (ht : st.Tracks cells) : st'.Tracks (cells ++ fs.flatMap FunctionDecl.localCells) := by
  induction fs generalizing st cells frag with
  | nil =>
    obtain ⟨rfl, -⟩ := lowerFunctions_nil h
    simpa using ht
  | cons f rest ih =>
    obtain ⟨_, _, _, hf, hm, -⟩ := lowerFunctions_cons h
    obtain ⟨_, hb, -⟩ := lowerFunction_eq_ok hf
    have := ih hm (lowerStmts_tracks f.body hb ht)
    simpa [FunctionDecl.localCells] using this

end Program

end Codegen

/-! ## Cells of a program are distinct -/

theorem ForInit.declared_sublist (init : ForInit) : (init.declared.map (·.id)).Sublist init.ids := by
  cases init with
  | nothing | expr => exact List.nil_sublist _
  | decl d => exact List.sublist_append_right _ _

mutual

/-- the declarations reached are among the nodes, in order -/
theorem Stmt.locals_sublist (s : Stmt) : (s.locals.map (·.id)).Sublist s.ids := by
  cases s with
  | decl d => exact List.sublist_append_right _ _
  | ifThen span cond yes => exact (Stmt.locals_sublist yes).trans (List.sublist_append_right _ _)
  | ifElse span cond yes no =>
    simp only [Stmt.locals, List.map_append, Stmt.ids, List.append_assoc]
    exact ((Stmt.locals_sublist yes).append (Stmt.locals_sublist no)).trans (List.sublist_append_right _ _)
  | while_ span cond body => exact (Stmt.locals_sublist body).trans (List.sublist_append_right _ _)
  | doWhile span body cond => exact (Stmt.locals_sublist body).trans (List.sublist_append_left _ _)
  | for_ span init cond step body =>
    simp only [Stmt.locals, List.map_append, Stmt.ids, List.append_assoc]
    refine init.declared_sublist.append ((Stmt.locals_sublist body).trans ?_)
    exact (List.sublist_append_right _ _).trans (List.sublist_append_right _ _)
  | block span body => exact Stmt.localsOf_sublist body
  | break_ | continue_ | return_ | expr | empty => exact List.nil_sublist _

theorem Stmt.localsOf_sublist (ss : List Stmt) : ((Stmt.localsOf ss).map (·.id)).Sublist (Stmt.idsOf ss) := by
  cases ss with
  | nil => exact List.nil_sublist _
  | cons s rest =>
    simp only [Stmt.localsOf, List.map_append, Stmt.idsOf]
    refine (Stmt.locals_sublist s).append ?_
    cases s.diverges with
    | true => exact List.nil_sublist _
    | false => exact Stmt.localsOf_sublist rest

end

/-- the cells of an item -/
def Item.cells : Item → List Cell
  | .global d => [d.cell]
  | .function f => f.frameCells ++ f.localCells

/-- the names of the functions among items -/
def Item.functionName : Item → List String
  | .global _ => []
  | .function f => [f.name]

theorem Program.cells_perm (p : Program) : p.cells.Perm (p.items.flatMap Item.cells) := by
  have hglobals : p.globals.map VarDecl.cell = p.items.flatMap fun | .global d => [d.cell] | .function _ => [] := by
    unfold Program.globals
    induction p.items with
    | nil => rfl
    | cons item rest ih => cases item <;> simp [ih]
  have hfunctions (g : FunctionDecl → List Cell) :
      p.functions.flatMap g = p.items.flatMap fun | .global _ => [] | .function f => g f := by
    unfold Program.functions
    induction p.items with
    | nil => rfl
    | cons item rest ih => cases item <;> simp [ih]
  unfold Program.cells
  rw [hglobals, hfunctions, hfunctions]
  refine ((List.flatMap_append_perm _ _ _).append_right _).trans ((List.flatMap_append_perm _ _ _).trans ?_)
  refine List.Perm.of_eq (congrArg (fun g => p.items.flatMap g) (funext fun item => ?_))
  cases item <;> simp [Item.cells]

theorem Item.cells_subperm (item : Item) :
    item.cells.Subperm (item.ids.map Cell.variable ++ item.functionName.map Cell.result) := by
  cases item with
  | global d =>
    simp only [Item.cells, Item.ids, Item.functionName, List.map_nil, List.append_nil]
    have : [d.id].Sublist d.ids := List.sublist_append_right _ _
    simpa [VarDecl.cell] using (this.map Cell.variable).subperm
  | function f =>
    have hvars : ((f.params.map Param.cell) ++ f.localCells).Sublist (f.ids.map Cell.variable) := by
      have hparams : f.params.map Param.cell = (f.params.map (·.id)).map Cell.variable := by rw [List.map_map]; rfl
      have hlocals : f.localCells = ((Stmt.localsOf f.body).map (·.id)).map Cell.variable := by rw [List.map_map]; rfl
      rw [hparams, hlocals, ← List.map_append]
      exact ((List.Sublist.refl _).append (Stmt.localsOf_sublist f.body)).map Cell.variable
    have hresult : (if f.result.isVoid then [] else [Cell.result f.name]).Sublist [Cell.result f.name] := by
      cases f.result.isVoid with
      | true => exact List.nil_sublist _
      | false => exact List.Sublist.refl _
    simp only [Item.cells, FunctionDecl.frameCells, Item.ids, Item.functionName, List.map_cons, List.map_nil,
      List.append_assoc]
    exact (List.perm_append_comm.subperm).trans (hvars.append hresult).subperm

/-- **Distinct cells.** The identities of a program and the names of its functions are distinct, so are its cells. -/
theorem Program.cells_nodup {p : Program} (hids : p.ids.Nodup) (hnames : (p.functions.map (·.name)).Nodup) :
    p.cells.Nodup := by
  have hnames' : p.functions.map (·.name) = p.items.flatMap Item.functionName := by
    unfold Program.functions
    induction p.items with
    | nil => rfl
    | cons item rest ih => cases item <;> simp [Item.functionName, ih]
  have hsub : (p.items.flatMap Item.cells).Subperm
      (p.ids.map Cell.variable ++ (p.items.flatMap Item.functionName).map Cell.result) := by
    unfold Program.ids
    induction p.items with
    | nil => exact List.Subperm.refl _
    | cons item rest ih =>
      simp only [List.flatMap_cons, List.map_append]
      refine (item.cells_subperm.append ih).trans (List.Perm.subperm ?_)
      simp only [List.append_assoc]
      refine List.Perm.append_left _ ?_
      rw [← List.append_assoc, ← List.append_assoc]
      exact List.perm_append_comm.append_right _
  refine p.cells_perm.nodup_iff.2 (nodup_of_subperm hsub (List.nodup_append.2 ⟨?_, ?_, ?_⟩))
  · exact hids.map fun _ _ h => Cell.variable.inj h
  · exact (hnames' ▸ hnames).map fun _ _ h => Cell.result.inj h
  · intro a ha b hb heq
    obtain ⟨_, -, rfl⟩ := List.mem_map.1 ha
    obtain ⟨_, -, rfl⟩ := List.mem_map.1 hb
    cases heq

/-! ## Storage of a generated program -/

namespace Program.Parts

variable {p : Program} {info : TypeInfo} {out : Generated}

theorem addresses_eq (parts : p.Parts info out) : parts.addresses = Codegen.addressesFrom 0 p.globals.length :=
  (Codegen.bindGlobals_tracks p.globals parts.bindGlobals .empty).1

theorem entered_eq (parts : p.Parts info out) : parts.entered = parts.framed :=
  Codegen.lowerGlobals_storage _ parts.lowerGlobals

/-- before the bodies are lowered, globals and frames have their addresses -/
theorem framed_tracks (parts : p.Parts info out) (hnames : (p.functions.map (·.name)).Nodup) :
    parts.framed.Tracks (p.globals.map VarDecl.cell ++ p.functions.flatMap FunctionDecl.frameCells) := by
  have hbound := (Codegen.bindGlobals_tracks p.globals parts.bindGlobals .empty).2
  exact (Codegen.bindFrames_tracks p.functions parts.bindFrames hbound hnames).1

/-- **The storage of a generated program tracks its cells.** -/
theorem final_tracks (parts : p.Parts info out) (hnames : (p.functions.map (·.name)).Nodup) :
    parts.final.Tracks p.cells := by
  have hframed := parts.framed_tracks hnames
  rw [← parts.entered_eq] at hframed
  exact Codegen.lowerFunctions_tracks p.functions parts.lowerFunctions hframed

theorem frame_placed (parts : p.Parts info out) (hnames : (p.functions.map (·.name)).Nodup) {f : FunctionDecl}
    (hf : f ∈ p.functions) : ∃ frame, parts.frames.lookup f.name = some frame ∧ frame.Placed p.cells f := by
  have hbound := (Codegen.bindGlobals_tracks p.globals parts.bindGlobals .empty).2
  obtain ⟨frame, hlookup, hplaced⟩ := (Codegen.bindFrames_tracks p.functions parts.bindFrames hbound hnames).2.1 f hf
  exact ⟨frame, hlookup, hplaced.append _⟩

/-- a frame belongs to a function of the program -/
theorem exists_function (parts : p.Parts info out) (hnames : (p.functions.map (·.name)).Nodup) {name : String}
    {frame : Codegen.Frame} (h : parts.frames.lookup name = some frame) :
    ∃ f ∈ p.functions, f.name = name ∧ frame.Placed p.cells f := by
  have hbound := (Codegen.bindGlobals_tracks p.globals parts.bindGlobals .empty).2
  by_cases hname : name ∈ p.functions.map (·.name)
  · obtain ⟨f, hf, rfl⟩ := List.mem_map.1 hname
    obtain ⟨frame', hframe', hplaced⟩ := parts.frame_placed hnames hf
    obtain rfl : frame' = frame := Option.some.inj (hframe'.symm.trans h)
    exact ⟨f, hf, rfl, hplaced⟩
  · rw [(Codegen.bindFrames_tracks p.functions parts.bindFrames hbound hnames).2.2 name hname] at h
    cases h

/-- the globals have the first addresses -/
theorem globals_placed (parts : p.Parts info out) :
    Codegen.Places p.cells parts.addresses (p.globals.map VarDecl.cell) := by
  have hplaces := Codegen.places_addressesFrom [] (p.globals.map VarDecl.cell)
  rw [List.length_map, List.length_nil, ← parts.addresses_eq] at hplaces
  have hall :=
    hplaces.append (p.functions.flatMap FunctionDecl.frameCells ++ p.functions.flatMap FunctionDecl.localCells)
  rwa [List.nil_append, ← List.append_assoc] at hall

end Program.Parts

end C15

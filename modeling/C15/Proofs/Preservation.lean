/-
A generated program does what the program does.

The parts of a generated program are put in place: names find their functions, functions their frames and their code,
and globals their addresses. Then the run of the code is the run of the program.

The operators may mean anything that satisfies the equations of `Operators`. These are assumed, since the machine has
one instruction where the language has several families:
- `binary_bits`: the bit operators and shifts mean the same for signed and unsigned words;
- `binary_logical`, `unary_not`: `&&`, `||` and `!` mean the same for all families;
- `unary_bitNot`: `~x` is `x ^ 0xFFFFFFFF`;
- `convert_self`, `convert_sign`: a cast within a family or between the integers leaves the word alone;
- `convert_toFloat`, `convert_ofFloat`: casts from and to floats are the same for signed and unsigned words.

Results:
- `Program.Parts.linked`: a generated program is linked;
- `initialize_runs`: the entry code gives the globals their initial values;
- `Program.generate_preserves`: from its first line the code reaches `HALT` with the memory and the events of the run;
- `compile_preserves`: so does the code of every source that compiles.
-/
import C15.Proofs.Execution
import C15.Proofs.Spelling

namespace C15

open Semantics Machine Codegen Typing Loaded

/-! ## Definitions -/

/-- functions among items -/
theorem Program.functions_cons_function (f : FunctionDecl) (rest : List Item) (span : Span) :
    Program.functions ⟨.function f :: rest, span⟩ = f :: Program.functions ⟨rest, span⟩ := rfl

/-- what a name finds is a function of that name, recorded with the globals before it -/
theorem definition?_recorded {info : TypeInfo} {name : String} (items : List Item) {before globals : List Variable}
    {f : FunctionDecl} {env : Env} (h : definition? name before items = some (globals, f))
    (hrec : Item.RecordedAll info env items) (hscopes : env.scopes = [before]) :
    f.name = name ∧ .function f ∈ items ∧
      ∃ env' : Env, env'.scopes = [globals] ∧ env'.functions = env.functions ∧ f.Recorded info env' := by
  induction items generalizing before env with
  | nil => cases h
  | cons item rest ih =>
    cases item with
    | global d =>
      obtain ⟨hname, hmem, hfound⟩ := ih h hrec.2 (by simp [Env.bind, Scopes.bind, hscopes])
      exact ⟨hname, List.mem_cons_of_mem _ hmem, hfound⟩
    | function g =>
      simp only [definition?] at h
      split at h
      · rename_i hname
        obtain ⟨rfl, rfl⟩ := Prod.mk.inj (Option.some.inj h)
        exact ⟨hname, List.mem_cons_self, env, hscopes, rfl, hrec.1⟩
      · obtain ⟨hname, hmem, hfound⟩ := ih h hrec.2 hscopes
        exact ⟨hname, List.mem_cons_of_mem _ hmem, hfound⟩

/-- where names are distinct, the name of a function finds it -/
theorem definition?_of_mem (items : List Item) (span : Span) {f : FunctionDecl} (hf : .function f ∈ items)
    (hnames : ((Program.functions ⟨items, span⟩).map (·.name)).Nodup) (before : List Variable) :
    ∃ globals, definition? f.name before items = some (globals, f) := by
  induction items generalizing before with
  | nil => cases hf
  | cons item rest ih =>
    cases item with
    | global d =>
      rcases List.mem_cons.1 hf with hf | hf
      · cases hf
      · exact ih hf hnames _
    | function g =>
      rw [Program.functions_cons_function, List.map_cons, List.nodup_cons] at hnames
      rcases List.mem_cons.1 hf with hf | hf
      · cases hf
        exact ⟨before, by simp [definition?]⟩
      · have hne : g.name ≠ f.name := by
          intro heq
          exact hnames.1 (heq ▸ List.mem_map_of_mem (mem_functions.2 hf))
        simpa [definition?, hne] using ih hf hnames.2 before

/-! ## Linking -/

/-- the code of a function among the code of all functions -/
theorem lowerFunctions_mem {cx : Context} (fs : List FunctionDecl) {st st' : Storage} {frag : Fragment}
    {cells : List Cell} (h : (lowerFunctions cx fs).run st = .ok (frag, st')) (ht : st.Tracks cells) {f : FunctionDecl}
    (hf : f ∈ fs) :
    ∃ st₁ st₂ before body rest, st₁.Tracks before ∧
      before ++ f.localCells <+: cells ++ fs.flatMap FunctionDecl.localCells ∧
      (lowerStmts { cx with function := f.name } none f.body).run st₁ = .ok (body, st₂) ∧
      (.label (functionLabel f.name) :: body.lines ++ (if Stmt.anyDiverges f.body then [] else [.instr (.bare .rtn)]) ++
        rest) <:+ frag.lines := by
  induction fs generalizing st frag cells with
  | nil => cases hf
  | cons g rest ih =>
    obtain ⟨first, st₁, more, hfirst, hmore, hlines⟩ := lowerFunctions_cons h
    obtain ⟨body, hbody, hfirstLines⟩ := lowerFunction_eq_ok hfirst
    rw [List.flatMap_cons, ← List.append_assoc]
    rcases List.mem_cons.1 hf with rfl | hf
    · refine ⟨st, st₁, cells, body, more.lines, ht, List.prefix_append _ _, hbody, ?_⟩
      rw [hlines, hfirstLines]
    · obtain ⟨st₂, st₃, before, body', rest', htracks, hprefix, hlower, hsuffix⟩ :=
        ih hmore (lowerStmts_tracks g.body hbody ht) hf
      refine ⟨st₂, st₃, before, body', rest', htracks, hprefix, hlower, ?_⟩
      rw [hlines]
      exact hsuffix.trans (List.suffix_append _ _)

section Linking

variable {p : Program} {info : TypeInfo} {out : Generated}

theorem Program.frameCells_nodup (hcells : p.cells.Nodup) {f : FunctionDecl} (hf : f ∈ p.functions) :
    (f.params.map Param.cell).Nodup := by
  unfold Program.cells at hcells
  have hframes : (p.functions.flatMap FunctionDecl.frameCells).Nodup :=
    (List.nodup_append.1 (List.nodup_append.1 hcells).1).2.1
  have hframe : f.frameCells.Nodup := (List.nodup_flatMap.1 hframes).1 f hf
  exact (List.nodup_append.1 hframe).2.1

namespace Program.Parts

/-- the code of a function in a generated program -/
theorem function_placed (parts : p.Parts info out) (hnames : (p.functions.map (·.name)).Nodup) {f : FunctionDecl}
    (hf : f ∈ p.functions) :
    ∃ st st' before body rest, st.Tracks before ∧ before ++ f.localCells <+: p.cells ∧
      (lowerStmts ⟨info, .ofFunctions p.functions, parts.frames, f.name⟩ none f.body).run st = .ok (body, st') ∧
      (.label (functionLabel f.name) :: body.lines ++ (if Stmt.anyDiverges f.body then [] else [.instr (.bare .rtn)]) ++
        rest) <:+ out.lines := by
  have hframed := parts.framed_tracks hnames
  rw [← parts.entered_eq] at hframed
  obtain ⟨st, st', before, body, rest, htracks, hprefix, hlower, hsuffix⟩ :=
    lowerFunctions_mem p.functions parts.lowerFunctions hframed hf
  refine ⟨st, st', before, body, rest, htracks, hprefix, hlower, hsuffix.trans ?_⟩
  rw [parts.lines]
  exact List.suffix_append _ _

/-- a frame belongs to a function, so its result is where the function's result is -/
theorem result_placed (parts : p.Parts info out) (hnames : (p.functions.map (·.name)).Nodup) {name : String}
    {frame : Frame} {a : Address} (hframe : parts.frames.lookup name = some frame) (ha : frame.result = some a) :
    p.cells[a.index]? = some (.result name) := by
  obtain ⟨f, hf, rfl, hplaced⟩ := parts.exists_function hnames hframe
  have hresult := hplaced.result
  rw [ha] at hresult
  split at hresult
  · cases hresult
  · obtain ⟨hcell, -⟩ := List.forall₂_cons.1 hresult
    exact hcell

/-- **Linking.** A generated program is loaded with the frames and the code of its functions in place. -/
def linked (parts : p.Parts info out) (hrec : p.Recorded info) (hids : p.ids.Nodup) (ops : Operators) (dev : Device) :
    Linked where
  ops := ops
  dev := dev
  lines := out.lines
  cells := p.cells
  labels_nodup := parts.labels_nodup hrec.names
  cells_nodup := p.cells_nodup hids hrec.names
  program := p
  info := info
  graph := .ofFunctions p.functions
  frames := parts.frames
  framed _ _ _ := parts.result_placed hrec.names
  declared name sig h := by
    obtain ⟨f, hf, rfl, rfl⟩ := hrec.exists_function h
    obtain ⟨globals, hdef⟩ := definition?_of_mem p.items p.span (mem_functions.1 hf) hrec.names []
    exact ⟨globals, f, hdef, rfl⟩
  defined name globals f h := by
    obtain ⟨rfl, hitem, env, hscopes, hfunctions, -, hbody⟩ := definition?_recorded p.items h hrec.items rfl
    have hf := mem_functions.2 hitem
    refine ⟨rfl, Program.frameCells_nodup (p.cells_nodup hids hrec.names) hf, parts.frame_placed hrec.names hf,
      env.ofFunction f, ?_, hfunctions, hbody, parts.function_placed hrec.names hf⟩
    rw [Env.ofFunction, Scopes.ofFunction, hscopes]

end Program.Parts

end Linking

/-! ## The entry code -/

theorem Literal.bits_zero (f : Option Family) : (Literal.zero f).bits = 0 := by
  rcases f with _ | _ | _ | _ <;> rfl

namespace Linked

variable {P : Linked}

/-- names for the host are passed over -/
theorem goes_reads (gs : List (VarDecl × Address)) {k : List Line} {S : List StackEntry} {σ : World} :
    P.Goes ⟨gs.map (fun x => Line.read x.2 x.1.name) ++ k, S, σ⟩ ⟨k, S, σ⟩ := by
  induction gs with
  | nil => exact Goes.refl _
  | cons g rest ih =>
    calc P.Goes ⟨.read g.2 g.1.name :: (rest.map (fun x => Line.read x.2 x.1.name) ++ k), S, σ⟩
          ⟨rest.map (fun x => Line.read x.2 x.1.name) ++ k, S, σ⟩ := goes_read
      P.Goes _ ⟨k, S, σ⟩ := ih

/-- **Globals.** The entry code gives each global its initial value, in the order of the declarations. -/
theorem initialize_runs {globals : List Variable} {items : List Item} {σ σ' : World}
    (h : Initialize P.ops P.dev P.program globals items σ σ') :
    ∀ (here : P.Scene) (span : Span) (addresses : List Address) (st st' : Storage) (frag : Fragment),
      here.env.scopes = [globals] → Item.RecordedAll P.info here.env items →
      Places P.cells addresses ((Program.globals ⟨items, span⟩).map VarDecl.cell) → st.slots = here.slots →
      (lowerGlobals here.cx ((Program.globals ⟨items, span⟩).zip addresses)).run st = .ok (frag, st') →
      ∀ k S, P.Goes ⟨frag.lines ++ k, S, σ⟩ ⟨k, S, σ'⟩ := by
  induction h with
  | done =>
    intro here span addresses st st' frag hscopes hrec hplaces hslots hlower k S
    obtain ⟨-, hlines⟩ := lowerGlobals_nil hlower
    rw [hlines]
    exact Goes.refl _
  | function _ ih =>
    intro here span addresses st st' frag hscopes hrec hplaces hslots hlower k S
    exact ih here span addresses st st' frag hscopes hrec.2 hplaces hslots hlower k S
  | @zero globals d rest σ σ' hd _ ih =>
    intro here span addresses st st' frag hscopes hrec hplaces hslots hlower k S
    obtain ⟨a, addresses', ha, hplaces', rfl⟩ := List.forall₂_cons_right_iff.1 hplaces
    obtain ⟨more, hmore, hlines⟩ := lowerGlobals_zero hd hlower
    have goesRest := ih { here with env := here.env.bind (d.variable .global) } span addresses' st st' more
      (by simp [Env.bind, Scopes.bind, hscopes]) hrec.2 hplaces' hslots hmore k S
    rw [hlines]
    calc P.Goes ⟨.instr (.store (.zero d.ty.family) a) :: (more.lines ++ k), S, σ⟩
          ⟨more.lines ++ k, S, σ.write d.cell (Literal.zero d.ty.family).bits⟩ := goes_store ha
      P.Goes _ ⟨k, S, σ'⟩ := by rwa [Literal.bits_zero]
  | @value globals d e x rest σ σ₁ σ' hd he _ ih =>
    intro here span addresses st st' frag hscopes hrec hplaces hslots hlower k S
    obtain ⟨a, addresses', ha, hplaces', rfl⟩ := List.forall₂_cons_right_iff.1 hplaces
    obtain ⟨inner, more, hinner, hmore, hlines⟩ := lowerGlobals_value hd hlower
    have goesRest := ih { here with env := here.env.bind (d.variable .global) } span addresses' st st' more
      (by simp [Env.bind, Scopes.bind, hscopes]) hrec.2 hplaces' hslots hmore k S
    obtain ⟨f, -, hrecorded⟩ := hrec.1.2 e hd
    obtain ⟨-, goesValue⟩ := (eval_runs he).value here hscopes hrecorded (hslots ▸ hinner)
    rw [hlines, List.append_assoc]
    calc P.Goes ⟨inner.lines ++ (.instr (popA a) :: more.lines ++ k), S, σ⟩
          ⟨.instr (popA a) :: (more.lines ++ k), .word x.word :: S, σ₁⟩ := goesValue _ _
      P.Goes _ ⟨more.lines ++ k, S, σ₁.write d.cell x.word⟩ := goes_pop ha
      P.Goes _ ⟨k, S, σ'⟩ := goesRest

end Linked

/-! ## Whole runs -/

namespace Program.Parts

variable {p : Program} {info : TypeInfo} {out : Generated} {ops : Operators} {dev : Device} {σ σ' : World}

/-- a call of `main` from the entry code -/
theorem main_runs (parts : p.Parts info out) (hrec : p.Recorded info) (hids : p.ids.Nodup) {r : Option Value}
    (h : Call ops dev p "main" [] σ r σ') (k : List Line) (S : List StackEntry) :
    (parts.linked hrec hids ops dev).Goes ⟨.instr (.jump .call (functionLabel "main")) :: k, S, σ⟩ ⟨k, S, σ'⟩ := by
  obtain ⟨f, hfind, hparams⟩ := hrec.main
  have hf : f ∈ p.functions := List.mem_of_find?_eq_some hfind
  have hname : f.name = "main" := by simpa using List.find?_some hfind
  obtain ⟨frame, hframe, hplaced⟩ := parts.frame_placed hrec.names hf
  have hsig := hrec.lookup_function hf
  have hnone : frame.params = [] := by
    have := hplaced.params
    rw [hparams] at this
    exact List.forall₂_nil_right_iff.1 this
  rw [hname] at hframe hsig
  obtain ⟨-, hgoes, -⟩ := Linked.call_runs (P := parts.linked hrec hids ops dev) h frame f.signature hframe hsig
    (by simp [FunctionDecl.signature, hparams])
  simpa [hnone] using hgoes k S

/-- **A run of the program is a run of the code**, from the first line to `HALT` -/
theorem goes_halt (parts : p.Parts info out) (hrec : p.Recorded info) (hids : p.ids.Nodup) (h : p.Runs ops dev σ σ')
    (S : List StackEntry) :
    (parts.linked hrec hids ops dev).Goes ⟨out.lines, S, σ⟩ ⟨.instr (.bare .halt) :: parts.functions.lines, S, σ'⟩ := by
  obtain ⟨started, r, hinit, hmain⟩ := h
  have hframed := parts.framed_tracks hrec.names
  let here : (parts.linked hrec hids ops dev).Scene :=
    { cx := ⟨info, .ofFunctions p.functions, parts.frames, ""⟩
      env := info.outermost
      slots := parts.framed.slots
      info_eq := rfl
      frames_eq := rfl
      functions_eq := rfl
      sound := hframed.toSound (List.prefix_append _ _) }
  have goesGlobals :=
    Linked.initialize_runs (P := parts.linked hrec hids ops dev) hinit here p.span parts.addresses parts.framed
    parts.entered parts.entry rfl hrec.items parts.globals_placed rfl parts.lowerGlobals
  rw [parts.lines, List.append_assoc, List.append_assoc]
  calc (parts.linked hrec hids ops dev).Goes _ _ := Linked.goes_reads _
    (parts.linked hrec hids ops dev).Goes _ _ := goesGlobals _ S
    (parts.linked hrec hids ops dev).Goes _ _ := parts.main_runs hrec hids hmain _ S

end Program.Parts

/-- the memory holds each cell of the program at its address, and the events agree -/
structure Machine.State.Mirrors (s : State) (p : Program) (σ : World) : Prop where
  memory : ∀ i c, p.cells[i]? = some c → s.memory ⟨i⟩ = σ.store c
  trace : Agrees σ.trace s.trace

namespace Program.Parts

variable {p : Program} {info : TypeInfo} {out : Generated}

/-- every cell has a destination, and there are no others -/
theorem length_destinations (parts : p.Parts info out) (hnames : (p.functions.map (·.name)).Nodup) :
    out.destinations.length = p.cells.length := by
  rw [parts.destinations, Array.length_toList]
  exact (parts.final_tracks hnames).size

/-- a machine that mirrors the world before a run mirrors the world after it when it gets to `HALT` -/
theorem reaches_halt (parts : p.Parts info out) (hrec : p.Recorded info) (hids : p.ids.Nodup) {ops : Operators}
    {dev : Device} {σ σ' : World} (hruns : p.Runs ops dev σ σ') {s : State} (hcode : s.code = out.lines)
    (hmirrors : s.Mirrors p σ) :
    ∃ s', Reaches ops dev out.lines s s' ∧ s'.Halted ∧ s'.stack = s.stack ∧ s'.Mirrors p σ' := by
  obtain ⟨s', hreach, hs'⟩ :=
    parts.goes_halt hrec hids hruns s.stack s ⟨hcode, rfl, hmirrors.memory, hmirrors.trace⟩
  exact ⟨s', hreach, ⟨_, hs'.code⟩, hs'.stack, hs'.memory, hs'.trace⟩

end Program.Parts

/-- **Semantic preservation.** The cells of a generated program have one address each, in order, and a run of the
program that ends is a run of the code: from a machine that mirrors the world before it, the first line leads to `HALT`
with the stack as it was and the world after it mirrored. Identities are distinct, as parsing gives them out
(`compile_preserves`). -/
theorem Program.generate_preserves {p : Program} {info : TypeInfo} {out : Generated} (hids : p.ids.Nodup)
    (hcheck : p.check = .ok info) (hgen : p.generate info = .ok out) :
    p.cells.Nodup ∧ out.destinations.length = p.cells.length ∧
      ∀ (ops : Operators) (dev : Device) (σ σ' : World) (s : State), p.Runs ops dev σ σ' → s.code = out.lines →
        s.Mirrors p σ → ∃ s', Reaches ops dev out.lines s s' ∧ s'.Halted ∧ s'.stack = s.stack ∧ s'.Mirrors p σ' := by
  have hrec := recorded_of_check hcheck hids
  obtain ⟨parts⟩ := Program.nonempty_parts hgen
  refine ⟨p.cells_nodup hids hrec.names, parts.length_destinations hrec.names, ?_⟩
  intro ops dev σ σ' s hruns hcode hmirrors
  exact parts.reaches_halt hrec hids hruns hcode hmirrors

/-- every family read as words -/
def wordOperators : Operators where
  binary op _ a b :=
    match op with
    | .add => a + b
    | .sub => a - b
    | .mul => a * b
    | .div => a / b
    | .rem => a % b
    | .bitAnd => a &&& b
    | .bitOr => a ||| b
    | .bitXor => a ^^^ b
    | .shl => a <<< b
    | .shr => a >>> b
    | .lt => (decide (a < b)).toUInt32
    | .gt => (decide (b < a)).toUInt32
    | .le => (decide (a ≤ b)).toUInt32
    | .ge => (decide (b ≤ a)).toUInt32
    | .eq => (a == b).toUInt32
    | .ne => (a != b).toUInt32
    | .and => (a != 0 && b != 0).toUInt32
    | .or => (a != 0 || b != 0).toUInt32
  unary op _ a :=
    match op with
    | .neg => 0 - a
    | .not => (a == 0).toUInt32
    | .bitNot => a ^^^ 0xFFFFFFFF
  step up _ a := if up then a + 1 else a - 1
  convert _ _ a := a
  binary_bits _ _ := rfl
  binary_logical _ _ _ := rfl
  unary_not _ := rfl
  unary_bitNot _ _ _ := rfl
  convert_self _ _ := rfl
  convert_sign _ := ⟨rfl, rfl⟩
  convert_toFloat := rfl
  convert_ofFloat := rfl

/-- a device that always answers zero -/
def quiet : Device := ⟨fun _ => 0, fun _ => 0, fun _ => 0⟩

/-- `int total; int twice(int n) { return n + n; } void main() { int i = 2; while (i) { total += twice(i); i--; } }` -/
def doubling : Program :=
  { span := ⟨0, 0⟩
    items :=
      [.global ⟨0, ⟨0, 0⟩, "total", ⟨0, 0⟩, .plain .int, none⟩,
       .function ⟨⟨0, 0⟩, "twice", ⟨0, 0⟩, .plain .int, [⟨1, ⟨0, 0⟩, "n", .plain .int⟩], ⟨0, 0⟩,
        [.return_ ⟨0, 0⟩ (some (.binary 4 ⟨0, 0⟩ .add (.ident 2 ⟨0, 0⟩ "n") (.ident 3 ⟨0, 0⟩ "n")))]⟩,
       .function ⟨⟨0, 0⟩, "main", ⟨0, 0⟩, .plain .void, [], ⟨0, 0⟩,
        [.decl ⟨6, ⟨0, 0⟩, "i", ⟨0, 0⟩, .plain .int, some (.literal 5 ⟨0, 0⟩ (.int 2))⟩,
         .while_ ⟨0, 0⟩ (.ident 7 ⟨0, 0⟩ "i") (.block ⟨0, 0⟩
          [.expr ⟨0, 0⟩ (.assign 10 ⟨0, 0⟩ (some .add) "total" ⟨0, 0⟩
            (.call 9 ⟨0, 0⟩ "twice" ⟨0, 0⟩ [.ident 8 ⟨0, 0⟩ "i"])),
           .expr ⟨0, 0⟩ (.update 12 ⟨0, 0⟩ .postDec 11 ⟨0, 0⟩ "i")])]⟩] }

theorem doubling_runs : ∃ σ, doubling.Runs wordOperators quiet ⟨fun _ => 7, []⟩ σ ∧ σ.store (.variable 0) = 6 := by
  -- two passes, each with a call of `twice`, before `i` is zero
  refine ⟨_, ⟨_, _, .zero rfl (.function (.function .done)), .mk rfl (.cons (.define rfl .literal) (.cons
    (.whileAgain (.value (.ident rfl rfl) rfl)
      (.block (.cons (.expr (.compound rfl rfl (.call (.cons (.ident rfl rfl) .nil)
        (.mk rfl (.stop (.returnValue (.binary (.ident rfl rfl) (.ident rfl rfl))) (by decide)) (.inr rfl) rfl)) rfl))
        (.cons (.expr (.update rfl rfl rfl rfl)) .nil))) rfl
    (.whileAgain (.value (.ident rfl rfl) rfl)
      (.block (.cons (.expr (.compound rfl rfl (.call (.cons (.ident rfl rfl) .nil)
        (.mk rfl (.stop (.returnValue (.binary (.ident rfl rfl) (.ident rfl rfl))) (by decide)) (.inr rfl) rfl)) rfl))
        (.cons (.expr (.update rfl rfl rfl rfl)) .nil))) rfl
    (.whileDone (.value (.ident rfl rfl) rfl)))) .nil)) (.inl rfl) rfl⟩, ?_⟩
  rfl

/-- the code of the program above leaves six at the address of its global, whatever memory held before -/
theorem doubling_code_halts :
    ∃ info out, doubling.ids.Nodup ∧ doubling.check = .ok info ∧ doubling.generate info = .ok out ∧
    ∃ s', Reaches wordOperators quiet out.lines ⟨out.lines, [], 0, 0, 0, fun _ => 7, []⟩ s' ∧ s'.Halted ∧
      s'.memory ⟨0⟩ = 6 := by
  obtain ⟨σ, hruns, hsix⟩ := doubling_runs
  have hids : doubling.ids.Nodup := by decide
  obtain ⟨info, out, hcheck, hgen⟩ : ∃ info out, doubling.check = .ok info ∧ doubling.generate info = .ok out :=
    ⟨_, _, rfl, rfl⟩
  obtain ⟨s', hreach, hhalted, -, hmirrors⟩ := (Program.generate_preserves hids hcheck hgen).2.2 wordOperators quiet _ σ
    ⟨out.lines, [], 0, 0, 0, fun _ => 7, []⟩ hruns rfl ⟨fun _ _ _ => rfl, ⟨List.Sublist.refl _, rfl⟩⟩
  exact ⟨info, out, hids, hcheck, hgen, s', hreach, hhalted, (hmirrors.memory 0 _ rfl).trans hsix⟩

/-- **Compilation preserves runs.** The program read from a source that compiles has distinct identities, so that its
runs are runs of the code. -/
theorem compile_preserves {source : String} {out : Generated} (h : compile source = .ok out) :
    ∃ tokens p, Lexer.tokenize source = .ok tokens ∧ Program.parse tokens = .ok p ∧ p.cells.Nodup ∧
      out.destinations.length = p.cells.length ∧
      ∀ (ops : Operators) (dev : Device) (σ σ' : World) (s : State), p.Runs ops dev σ σ' → s.code = out.lines →
        s.Mirrors p σ → ∃ s', Reaches ops dev out.lines s s' ∧ s'.Halted ∧ s'.stack = s.stack ∧ s'.Mirrors p σ' := by
  obtain ⟨tokens, p, info, htokens, hparse, hcheck, hgen⟩ := compile_eq_ok h
  have hids : p.ids.Nodup := (wellFormed_of_source htokens hparse).distinct
  have hrec := recorded_of_check hcheck hids
  obtain ⟨parts⟩ := Program.nonempty_parts hgen
  refine ⟨tokens, p, htokens, hparse, p.cells_nodup hids hrec.names, parts.length_destinations hrec.names, ?_⟩
  intro ops dev σ σ' s hruns hcode hmirrors
  exact parts.reaches_halt hrec hids hruns hcode hmirrors

end C15

/-
The machine that runs generated code.

It has a hardware stack, the registers A, B and R, and one word for each data address. The code still to be run is a
suffix of the program, so a jump looks its label up in the program; a call leaves the code to return to on the stack. An
instruction on A and B leaves its result in R. Instructions that the generator does not use are left out: the machine is
stuck on them.

A configuration is what the code generator cares about: code, stack, and the world that memory and events stand for.
`Goes` says that the machine, started in any state that realizes one configuration, reaches a state that realizes the
other. It is reflexive and transitive, and has one rule for each sequence of instructions that generated code is made
of.
-/
import C15.Proofs.Labels
import C15.Proofs.Semantics

namespace C15

namespace Machine

open Semantics

/-! ## Instructions -/

/-- what is on the stack: a word, or the code to return to -/
inductive StackEntry where
  | word (w : UInt32)
  | back (code : List Line)
deriving DecidableEq, Repr

structure State where
  code : List Line
  stack : List StackEntry
  a : UInt32
  b : UInt32
  r : UInt32
  memory : Address → UInt32
  trace : List Event

/-- the code from a label on -/
def target? (l : String) : List Line → Option (List Line)
  | [] => none
  | line :: rest => if line = .label l then some (line :: rest) else target? l rest

/-- the value of R after an instruction on A and B -/
def compute (ops : Operators) (op : BareOp) (a b : UInt32) : Option UInt32 :=
  match op with
  | .add => some (ops.binary .add .unsigned a b)
  | .sadd => some (ops.binary .add .signed a b)
  | .fadd => some (ops.binary .add .float a b)
  | .sub => some (ops.binary .sub .unsigned a b)
  | .ssub => some (ops.binary .sub .signed a b)
  | .fsub => some (ops.binary .sub .float a b)
  | .mult => some (ops.binary .mul .unsigned a b)
  | .smult => some (ops.binary .mul .signed a b)
  | .fmult => some (ops.binary .mul .float a b)
  | .div => some (ops.binary .div .unsigned a b)
  | .sdiv => some (ops.binary .div .signed a b)
  | .fdiv => some (ops.binary .div .float a b)
  | .rem => some (ops.binary .rem .unsigned a b)
  | .srem => some (ops.binary .rem .signed a b)
  | .cmplt => some (ops.binary .lt .unsigned a b)
  | .scmplt => some (ops.binary .lt .signed a b)
  | .fcmplt => some (ops.binary .lt .float a b)
  | .cmpgt => some (ops.binary .gt .unsigned a b)
  | .scmpgt => some (ops.binary .gt .signed a b)
  | .fcmpgt => some (ops.binary .gt .float a b)
  | .cmplte => some (ops.binary .le .unsigned a b)
  | .scmplte => some (ops.binary .le .signed a b)
  | .fcmplte => some (ops.binary .le .float a b)
  | .cmpgte => some (ops.binary .ge .unsigned a b)
  | .scmpgte => some (ops.binary .ge .signed a b)
  | .fcmpgte => some (ops.binary .ge .float a b)
  | .cmpe => some (ops.binary .eq .unsigned a b)
  | .scmpe => some (ops.binary .eq .signed a b)
  | .fcmpe => some (ops.binary .eq .float a b)
  | .cmpne => some (ops.binary .ne .unsigned a b)
  | .scmpne => some (ops.binary .ne .signed a b)
  | .fcmpne => some (ops.binary .ne .float a b)
  | .and => some (ops.binary .bitAnd .unsigned a b)
  | .or => some (ops.binary .bitOr .unsigned a b)
  | .xor => some (ops.binary .bitXor .unsigned a b)
  | .shiftl => some (ops.binary .shl .unsigned a b)
  | .shiftr => some (ops.binary .shr .unsigned a b)
  | .land => some (ops.binary .and .unsigned a b)
  | .lor => some (ops.binary .or .unsigned a b)
  | .not => some (ops.unary .not .unsigned a)
  | .neg => some (ops.unary .neg .unsigned a)
  | .sneg => some (ops.unary .neg .signed a)
  | .fneg => some (ops.unary .neg .float a)
  | .inc => some (ops.step true .unsigned a)
  | .sinc => some (ops.step true .signed a)
  | .finc => some (ops.step true .float a)
  | .dec => some (ops.step false .unsigned a)
  | .sdec => some (ops.step false .signed a)
  | .fdec => some (ops.step false .float a)
  | .inttofl => some (ops.convert .unsigned .float a)
  | .fltoint => some (ops.convert .float .unsigned a)
  | _ => none

section Step

variable (ops : Operators) (dev : Device) (prog : List Line)

def State.seen (s : State) : List Event := s.trace.filter Event.isSeen

def State.emit (s : State) (e : Event) : State := { s with trace := s.trace ++ [e] }

def State.push (s : State) (w : UInt32) : State := { s with stack := .word w :: s.stack }

def State.write (s : State) (a : Address) (w : UInt32) : State := { s with memory := Function.update s.memory a w }

/-- take a word off the stack -/
def State.pop (s : State) (k : UInt32 → State → Option State) : Option State :=
  match s.stack with
  | .word w :: stack => k w { s with stack }
  | _ => none

def State.jump (s : State) (l : String) : Option State := (target? l prog).map fun code => { s with code }

/-- an instruction, the code already advanced past it -/
def execute (s : State) : Instruction → Option State
  | .storePush value => some (s.push value.bits)
  | .store value a => some (s.write a value.bits)
  | .address .push a => some (s.push (s.memory a))
  | .address .pop a => s.pop fun w s => some (s.write a w)
  | .address .save a => some (s.write a s.r)
  | .address .geta a => some { s with a := s.memory a }
  | .jump .jmp l => s.jump prog l
  | .jump .jz l => if s.r = 0 then s.jump prog l else some s
  | .jump .jnz l => if s.r = 0 then some s else s.jump prog l
  | .jump .call l => { s with stack := .back s.code :: s.stack }.jump prog l
  | .bare .rtn =>
    match s.stack with
    | .back code :: stack => some { s with code, stack }
    | _ => none
  | .bare .getpopa => s.pop fun w s => some ({ s with a := w }.emit (.loadedA w))
  | .bare .getpopb => s.pop fun w s => some ({ s with b := w }.emit (.loadedB w))
  | .bare .getpopr => s.pop fun w s => some { s with r := w }
  | .bare .popnop => s.pop fun _ s => some s
  | .bare .savepush => some (s.push s.r)
  | .bare .setled => some (s.emit (.led s.a))
  | .bare .movoutpush => s.pop fun w s => some (s.emit (.sent w))
  | .bare .movinpop => some ((s.push (dev.receive s.seen)).emit (.received (dev.receive s.seen)))
  | .bare .tick => some ({ s with r := dev.tick s.seen }.emit (.ticked (dev.tick s.seen)))
  | .bare .rand => some ({ s with r := dev.random s.seen }.emit (.drew (dev.random s.seen)))
  | .bare op => (compute ops op s.a s.b).map fun r => { s with r }
  | _ => none

/-- one line; a label, a name for the host and a comment are passed over, `HALT` and data are not -/
def step (s : State) : Option State :=
  match s.code with
  | .instr i :: code => execute ops dev prog { s with code } i
  | .label _ :: code | .read _ _ :: code | .comment _ :: code => some { s with code }
  | .data _ :: _ | [] => none

/-- any number of steps -/
def Reaches : State → State → Prop := Relation.ReflTransGen fun s t => step ops dev prog s = some t

/-- the next instruction is `HALT` -/
def State.Halted (s : State) : Prop := ∃ rest, s.code = .instr (.bare .halt) :: rest

end Step

theorem execute_compute {ops : Operators} {dev : Device} {prog : List Line} {s : State} {op : BareOp} {w : UInt32}
    (h : compute ops op s.a s.b = some w) : execute ops dev prog s (.bare op) = some { s with r := w } := by
  cases op <;> first | (simp only [execute, h]; rfl) | cases h

theorem State.jump_eq {prog code : List Line} {l : String} (h : target? l prog = some code) {s : State} :
    s.jump prog l = some { s with code } := by simp [State.jump, h]

/-! ## Labels -/

theorem target?_of_not_mem {l : String} {before : List Line} (h : l ∉ Line.labels before) (after : List Line) :
    target? l (before ++ .label l :: after) = some (.label l :: after) := by
  induction before with
  | nil => simp [target?]
  | cons line rest ih =>
    have hne : line ≠ .label l := by
      rintro rfl
      exact h List.mem_cons_self
    have hrest : l ∉ Line.labels rest := by
      intro hmem
      refine h ?_
      rw [← List.singleton_append, Line.labels_append]
      exact List.mem_append_right _ hmem
    rw [List.cons_append, target?, if_neg hne, ih hrest]

/-- where labels are distinct, a label is found wherever it stands -/
theorem target?_of_suffix {l : String} {prog after : List Line} (hprog : (Line.labels prog).Nodup)
    (h : (.label l :: after) <:+ prog) : target? l prog = some (.label l :: after) := by
  obtain ⟨before, rfl⟩ := h
  refine target?_of_not_mem (fun hmem => ?_) after
  rw [Line.labels_append, List.nodup_append] at hprog
  exact hprog.2.2 l hmem l (by simp) rfl

/-! ## Configurations -/

/-- the events of a run and those of the machine: it also loads registers on its own account -/
structure Agrees (told done : List Event) : Prop where
  sublist : told.Sublist done
  seen : done.filter Event.isSeen = told.filter Event.isSeen

namespace Agrees

theorem load {told done : List Event} (h : Agrees told done) {e : Event} (he : e.isSeen = false) :
    Agrees told (done ++ [e]) :=
  ⟨h.sublist.trans (List.sublist_append_left _ _), by simpa [he] using h.seen⟩

theorem emit {told done : List Event} (h : Agrees told done) (e : Event) : Agrees (told ++ [e]) (done ++ [e]) :=
  ⟨h.sublist.append (List.Sublist.refl _), by rw [List.filter_append, List.filter_append, h.seen]⟩

end Agrees

/-- code, stack, and what memory and events stand for -/
structure Config where
  code : List Line
  stack : List StackEntry
  world : World

/-- a program ready to run: its lines, the cells by address, and the meanings of operators and inputs -/
structure Loaded where
  ops : Operators
  dev : Device
  lines : List Line
  cells : List Cell
  labels_nodup : (Line.labels lines).Nodup
  cells_nodup : cells.Nodup

namespace Loaded

/-- the state has the code, the stack, at each address the word of its cell, and the events of a configuration -/
structure Realizes (L : Loaded) (s : State) (κ : Config) : Prop where
  code : s.code = κ.code
  stack : s.stack = κ.stack
  memory : ∀ i c, L.cells[i]? = some c → s.memory ⟨i⟩ = κ.world.store c
  trace : Agrees κ.world.trace s.trace

/-- from every state that realizes the first, the machine reaches one that realizes the second -/
def Goes (L : Loaded) (κ κ' : Config) : Prop :=
  ∀ s, L.Realizes s κ → ∃ s', Reaches L.ops L.dev L.lines s s' ∧ L.Realizes s' κ'

variable {L : Loaded}

theorem Goes.refl (κ : Config) : L.Goes κ κ := fun s h => ⟨s, .refl, h⟩

theorem Goes.trans {κ₁ κ₂ κ₃ : Config} (h : L.Goes κ₁ κ₂) (h' : L.Goes κ₂ κ₃) : L.Goes κ₁ κ₃ := by
  intro s hs
  obtain ⟨s₂, hreach, hs₂⟩ := h s hs
  obtain ⟨s₃, hreach', hs₃⟩ := h' s₂ hs₂
  exact ⟨s₃, Relation.ReflTransGen.trans hreach hreach', hs₃⟩

instance : Trans L.Goes L.Goes L.Goes := ⟨Goes.trans⟩

/-! ## Rules -/

variable {k k' : List Line} {S : List StackEntry} {σ : World} {a : Address} {c : Cell} {w x y : UInt32} {l : String}

/-- memory after a word is written to the address of a cell -/
theorem memory_write {memory : Address → UInt32} (hm : ∀ i c, L.cells[i]? = some c → memory ⟨i⟩ = σ.store c)
    (hc : L.cells[a.index]? = some c) (w : UInt32) :
    ∀ i d, L.cells[i]? = some d → Function.update memory a w ⟨i⟩ = (σ.write c w).store d := by
  intro i d hd
  by_cases hi : i = a.index
  · subst hi
    obtain rfl : c = d := Option.some.inj (hc.symm.trans hd)
    simp [World.write]
  · have hne : d ≠ c := by
      rintro rfl
      obtain ⟨hlt, -⟩ := List.getElem?_eq_some_iff.1 hd
      exact hi ((List.getElem?_inj hlt L.cells_nodup).1 (hd.trans hc.symm))
    have hai : (⟨i⟩ : Address) ≠ a := fun h => hi (by rw [← h])
    simp only [World.write, Function.update_of_ne hai, Function.update_of_ne hne]
    exact hm i d hd

/-- it is enough to start in states with this code and stack -/
theorem goes_of {κ : Config} (h : ∀ ra rb r memory trace, (∀ i c, L.cells[i]? = some c → memory ⟨i⟩ = σ.store c) →
      Agrees σ.trace trace → ∃ s', Reaches L.ops L.dev L.lines ⟨k, S, ra, rb, r, memory, trace⟩ s' ∧ L.Realizes s' κ) :
    L.Goes ⟨k, S, σ⟩ κ := by
  rintro ⟨code, stack, ra, rb, r, memory, trace⟩ ⟨hcode, hstack, hm, ht⟩
  subst hcode hstack
  exact h ra rb r memory trace hm ht

theorem goes_label : L.Goes ⟨.label l :: k, S, σ⟩ ⟨k, S, σ⟩ :=
  goes_of fun _ _ _ _ _ hm ht => ⟨_, .single rfl, rfl, rfl, hm, ht⟩

theorem goes_read {name : String} : L.Goes ⟨.read a name :: k, S, σ⟩ ⟨k, S, σ⟩ :=
  goes_of fun _ _ _ _ _ hm ht => ⟨_, .single rfl, rfl, rfl, hm, ht⟩

theorem goes_storePush {value : Literal} :
    L.Goes ⟨.instr (.storePush value) :: k, S, σ⟩ ⟨k, .word value.bits :: S, σ⟩ :=
  goes_of fun _ _ _ _ _ hm ht => ⟨_, .single rfl, rfl, rfl, hm, ht⟩

theorem goes_push (hc : L.cells[a.index]? = some c) :
    L.Goes ⟨.instr (Codegen.pushA a) :: k, S, σ⟩ ⟨k, .word (σ.store c) :: S, σ⟩ := by
  refine goes_of fun _ _ _ memory _ hm ht => ⟨_, .single rfl, rfl, ?_, hm, ht⟩
  have : memory a = σ.store c := hm a.index c hc
  simp [State.push, this]

/-- a cell just written -/
theorem goes_pushWritten (hc : L.cells[a.index]? = some c) :
    L.Goes ⟨.instr (Codegen.pushA a) :: k, S, σ.write c w⟩ ⟨k, .word w :: S, σ.write c w⟩ := by
  have hgoes : L.Goes ⟨.instr (Codegen.pushA a) :: k, S, σ.write c w⟩
      ⟨k, .word ((σ.write c w).store c) :: S, σ.write c w⟩ :=
    goes_push hc
  have hstore : (σ.write c w).store c = w := by simp [World.write]
  rwa [hstore] at hgoes

theorem goes_pop (hc : L.cells[a.index]? = some c) :
    L.Goes ⟨.instr (Codegen.popA a) :: k, .word w :: S, σ⟩ ⟨k, S, σ.write c w⟩ :=
  goes_of fun _ _ _ _ _ hm ht => ⟨_, .single rfl, rfl, rfl, memory_write hm hc w, ht⟩

theorem goes_store {value : Literal} (hc : L.cells[a.index]? = some c) :
    L.Goes ⟨.instr (.store value a) :: k, S, σ⟩ ⟨k, S, σ.write c value.bits⟩ :=
  goes_of fun _ _ _ _ _ hm ht => ⟨_, .single rfl, rfl, rfl, memory_write hm hc value.bits, ht⟩

theorem goes_popnop : L.Goes ⟨.instr (.bare .popnop) :: k, .word w :: S, σ⟩ ⟨k, S, σ⟩ :=
  goes_of fun _ _ _ _ _ hm ht => ⟨_, .single rfl, rfl, rfl, hm, ht⟩

/-- operands off the stack into A and B, the result back on it -/
theorem goes_computeTwo {op : BareOp} (hop : compute L.ops op x y = some w) :
    L.Goes ⟨(Codegen.computeTwo op).map .instr ++ k, .word y :: .word x :: S, σ⟩ ⟨k, .word w :: S, σ⟩ := by
  refine goes_of fun _ _ _ _ _ hm ht =>
    ⟨_, .head rfl (.head rfl (.head (execute_compute hop) (.single rfl))), rfl, rfl, hm, ?_⟩
  exact (ht.load rfl).load rfl

theorem goes_computeOne {op : BareOp} (hop : ∀ y, compute L.ops op x y = some w) :
    L.Goes ⟨(Codegen.computeOne op).map .instr ++ k, .word x :: S, σ⟩ ⟨k, .word w :: S, σ⟩ :=
  goes_of fun _ rb _ _ _ hm ht =>
    ⟨_, .head rfl (.head (execute_compute (hop rb)) (.single rfl)), rfl, rfl, hm, ht.load rfl⟩

/-- operands off the stack into A and B, the result to an address -/
theorem goes_computeSave {op : BareOp} (hop : compute L.ops op x y = some w) (hc : L.cells[a.index]? = some c) :
    L.Goes ⟨.instr (.bare .getpopb) :: .instr (.bare .getpopa) :: .instr (.bare op) :: .instr (Codegen.saveA a) :: k,
      .word y :: .word x :: S, σ⟩ ⟨k, S, σ.write c w⟩ := by
  refine goes_of fun _ _ _ _ _ hm ht =>
    ⟨_, .head rfl (.head rfl (.head (execute_compute hop) (.single rfl))), rfl, rfl, memory_write hm hc w, ?_⟩
  exact (ht.load rfl).load rfl

/-- an address into A, the result back to it -/
theorem goes_stepSave {op : BareOp} (hc : L.cells[a.index]? = some c)
    (hop : ∀ y, compute L.ops op (σ.store c) y = some w) :
    L.Goes ⟨.instr (Codegen.loadA a) :: .instr (.bare op) :: .instr (Codegen.saveA a) :: k, S, σ⟩
      ⟨k, S, σ.write c w⟩ := by
  refine goes_of fun _ rb _ memory _ hm ht => ⟨_, .head rfl (.head (execute_compute ?_) (.single rfl)), rfl, rfl,
    memory_write hm hc w, ht⟩
  have : memory a = σ.store c := hm a.index c hc
  simpa [this] using hop rb

theorem goes_jump (hl : target? l L.lines = some k') : L.Goes ⟨.instr (.jump .jmp l) :: k, S, σ⟩ ⟨k', S, σ⟩ :=
  goes_of fun _ _ _ _ _ hm ht => ⟨_, .single (State.jump_eq hl), rfl, rfl, hm, ht⟩

/-- a condition that holds: no jump out -/
theorem goes_testHolds (hw : w ≠ 0) :
    L.Goes ⟨.instr (.bare .getpopr) :: .instr (.jump .jz l) :: k, .word w :: S, σ⟩ ⟨k, S, σ⟩ :=
  goes_of fun _ _ _ _ _ hm ht => ⟨_, .head rfl (.single (by simp [step, execute, hw]; rfl)), rfl, rfl, hm, ht⟩

theorem goes_testFails (hl : target? l L.lines = some k') :
    L.Goes ⟨.instr (.bare .getpopr) :: .instr (.jump .jz l) :: k, .word 0 :: S, σ⟩ ⟨k', S, σ⟩ :=
  goes_of fun _ _ _ _ _ hm ht =>
    ⟨_, .head rfl (.single (by simp [step, execute, State.jump, hl]; rfl)), rfl, rfl, hm, ht⟩

/-- a condition that holds: jump back -/
theorem goes_againHolds (hw : w ≠ 0) (hl : target? l L.lines = some k') :
    L.Goes ⟨.instr (.bare .getpopr) :: .instr (.jump .jnz l) :: k, .word w :: S, σ⟩ ⟨k', S, σ⟩ :=
  goes_of fun _ _ _ _ _ hm ht =>
    ⟨_, .head rfl (.single (by simp [step, execute, State.jump, hw, hl]; rfl)), rfl, rfl, hm, ht⟩

theorem goes_againFails :
    L.Goes ⟨.instr (.bare .getpopr) :: .instr (.jump .jnz l) :: k, .word 0 :: S, σ⟩ ⟨k, S, σ⟩ :=
  goes_of fun _ _ _ _ _ hm ht => ⟨_, .head rfl (.single (by simp [step, execute]; rfl)), rfl, rfl, hm, ht⟩

theorem goes_call (hl : target? l L.lines = some k') :
    L.Goes ⟨.instr (.jump .call l) :: k, S, σ⟩ ⟨k', .back k :: S, σ⟩ :=
  goes_of fun _ _ _ _ _ hm ht => ⟨_, .single (State.jump_eq hl), rfl, rfl, hm, ht⟩

theorem goes_return : L.Goes ⟨.instr (.bare .rtn) :: k, .back k' :: S, σ⟩ ⟨k', S, σ⟩ :=
  goes_of fun _ _ _ _ _ hm ht => ⟨_, .single rfl, rfl, rfl, hm, ht⟩

theorem goes_setLed :
    L.Goes ⟨.instr (.bare .getpopa) :: .instr (.bare .setled) :: k, .word w :: S, σ⟩ ⟨k, S, σ.emit (.led w)⟩ :=
  goes_of fun _ _ _ _ _ hm ht => ⟨_, .head rfl (.single rfl), rfl, rfl, hm, (ht.load rfl).emit _⟩

theorem goes_loadA : L.Goes ⟨.instr (.bare .getpopa) :: k, .word w :: S, σ⟩ ⟨k, S, σ.emit (.loadedA w)⟩ :=
  goes_of fun _ _ _ _ _ hm ht => ⟨_, .single rfl, rfl, rfl, hm, ht.emit _⟩

theorem goes_loadB : L.Goes ⟨.instr (.bare .getpopb) :: k, .word w :: S, σ⟩ ⟨k, S, σ.emit (.loadedB w)⟩ :=
  goes_of fun _ _ _ _ _ hm ht => ⟨_, .single rfl, rfl, rfl, hm, ht.emit _⟩

theorem goes_send : L.Goes ⟨.instr (.bare .movoutpush) :: k, .word w :: S, σ⟩ ⟨k, S, σ.emit (.sent w)⟩ :=
  goes_of fun _ _ _ _ _ hm ht => ⟨_, .single rfl, rfl, rfl, hm, ht.emit _⟩

/-- the machine has told the outside the same events, so it gets the same answer -/
theorem goes_receive : L.Goes ⟨.instr (.bare .movinpop) :: k, S, σ⟩
    ⟨k, .word (L.dev.receive σ.seen) :: S, σ.emit (.received (L.dev.receive σ.seen))⟩ := by
  refine goes_of fun _ _ _ _ trace hm ht => ⟨_, .single rfl, rfl, ?_, hm, ?_⟩
  · simp only [State.emit, State.push, State.seen, ht.seen, World.seen]
  · simp only [State.emit, State.push, State.seen, ht.seen, World.seen, World.emit]
    exact ht.emit _

theorem goes_tick : L.Goes ⟨.instr (.bare .tick) :: .instr (.bare .savepush) :: k, S, σ⟩
    ⟨k, .word (L.dev.tick σ.seen) :: S, σ.emit (.ticked (L.dev.tick σ.seen))⟩ := by
  refine goes_of fun _ _ _ _ trace hm ht => ⟨_, .head rfl (.single rfl), rfl, ?_, hm, ?_⟩
  · simp only [State.emit, State.push, State.seen, ht.seen, World.seen]
  · simp only [State.emit, State.push, State.seen, ht.seen, World.seen, World.emit]
    exact ht.emit _

theorem goes_random : L.Goes ⟨.instr (.bare .rand) :: .instr (.bare .savepush) :: k, S, σ⟩
    ⟨k, .word (L.dev.random σ.seen) :: S, σ.emit (.drew (L.dev.random σ.seen))⟩ := by
  refine goes_of fun _ _ _ _ trace hm ht => ⟨_, .head rfl (.single rfl), rfl, ?_, hm, ?_⟩
  · simp only [State.emit, State.push, State.seen, ht.seen, World.seen]
  · simp only [State.emit, State.push, State.seen, ht.seen, World.seen, World.emit]
    exact ht.emit _

/-- **Built-in functions.** Their instructions do to the stack and the events what the function does. -/
theorem goes_intrinsic {callee : Intrinsic} {words : List UInt32} {r : Option Value} {σ' : World}
    (h : perform L.dev σ callee words = some (r, σ')) :
    L.Goes ⟨(Codegen.intrinsicCode callee).map .instr ++ k, words.reverse.map .word ++ S, σ⟩
      ⟨k, (r.toList.map fun v => .word v.word) ++ S, σ'⟩ := by
  cases callee with
  | setLed =>
    match words, h with
    | [w], rfl => exact goes_setLed
  | loadA =>
    match words, h with
    | [w], rfl => exact goes_loadA
  | loadB =>
    match words, h with
    | [w], rfl => exact goes_loadB
  | push =>
    match words, h with
    | [w], rfl => exact goes_send
  | tick =>
    match words, h with
    | [], rfl => exact goes_tick
  | urand =>
    match words, h with
    | [], rfl => exact goes_random
  | popInt | popUInt | popFloat =>
    match words, h with
    | [], rfl => exact goes_receive

end Loaded

end Machine

end C15

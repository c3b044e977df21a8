/-
The assembled program as the CPU loads it: words, the data addresses its instructions refer to, and the addresses the
host reads by name.

A word packs the second operand, the first and the opcode into fields of 12, 12 and 8 bits. Data addresses follow the
code, so an operand's address is its offset plus the number of words; a label's is the position it is bound to.
-/
import C15.Assembly.Session

namespace C15

/-- the two operand fields and the opcode of a word; what is too wide for its field runs into the next one -/
def encode (opcode arg0 arg1 : UInt32) : UInt32 := (arg1 <<< 20) ||| (arg0 <<< 8) ||| opcode

/-- a data address the host reads, with its name -/
structure ReadRegion where
  address : UInt32
  name : String
deriving DecidableEq, Repr

structure Image where
  stack : List UInt32
  /-- data addresses of the instructions, ascending, each once -/
  regions : List UInt32
  reads : List ReadRegion
deriving DecidableEq, Repr

namespace Image

/-- the value of an operand in a program of so many words -/
def operandValue (s : Session) : Operand → Except AssemblyCause Nat
  | .immediate value => .ok value
  | .label name =>
    match s.position? name with
    | some position => .ok position
    | none => .error (.labelNotFound name)
  | .data offset =>
    let address := s.stackSize + offset
    if address ≤ maxAddress then .ok address else .error .addressRange

/-- causes why the operands of a word are not resolved -/
def wordErrors (s : Session) : Word → List Diagnostic
  | .raw _ => []
  | .op span _ args =>
    args.filterMap fun x =>
      match operandValue s x with
      | .ok _ => none
      | .error e => some (.errorAt .assembly span e.message)

/-- the word of an operation or a literal; operands that are not resolved count as zero -/
def encodeWord (s : Session) : Word → UInt32
  | .raw value => value
  | .op _ opcode args =>
    let field (n : Nat) : UInt32 := ((args[n]?).bind fun x => (operandValue s x).toOption).elim 0 UInt32.ofNat
    encode (UInt32.ofNat opcode) (field 0) (field 1)

/-- data addresses of a word -/
def wordRegions (s : Session) : Word → List Nat
  | .raw _ => []
  | .op _ _ args =>
    args.filterMap fun
      | .data offset => some (s.stackSize + offset)
      | _ => none

/-- put a number into an ascending list, unless it is there -/
def insertRegion (n : Nat) : List Nat → List Nat
  | [] => [n]
  | m :: ms => if n < m then n :: m :: ms else if n = m then m :: ms else m :: insertRegion n ms

theorem mem_insertRegion {k n : Nat} {ms : List Nat} : k ∈ insertRegion n ms ↔ k = n ∨ k ∈ ms := by
  induction ms with
  | nil => simp [insertRegion]
  | cons m ms ih =>
    simp only [insertRegion]
    split
    · simp
    · split
      · rename_i h
        simp [h]
      · simp only [List.mem_cons, ih]
        exact or_left_comm

theorem pairwise_insertRegion {n : Nat} {ms : List Nat} (h : ms.Pairwise (· < ·)) :
    (insertRegion n ms).Pairwise (· < ·) := by
  induction ms with
  | nil => simp [insertRegion]
  | cons m ms ih =>
    obtain ⟨hm, hms⟩ := List.pairwise_cons.1 h
    simp only [insertRegion]
    split
    · rename_i hlt
      exact List.pairwise_cons.2 ⟨fun k hk => by
        rcases List.mem_cons.1 hk with rfl | hk
        · exact hlt
        · exact Nat.lt_trans hlt (hm k hk), h⟩
    · split
      · exact h
      · refine List.pairwise_cons.2 ⟨fun k hk => ?_, ih hms⟩
        rcases mem_insertRegion.1 hk with rfl | hk
        · omega
        · exact hm k hk

/-- resolve a session: its image, or an error for each operand that has no value -/
def resolve (s : Session) : Except (List Diagnostic) Image :=
  let words := s.words.toList
  let errors := words.flatMap (wordErrors s) ++ s.reads.toList.filterMap fun r =>
    match operandValue s r.target with
    | .ok _ => none
    | .error e => some (.errorAt .assembly r.span e.message)
  if errors.isEmpty then
    .ok {
      stack := words.map (encodeWord s)
      regions := ((words.flatMap (wordRegions s)).foldl (fun acc n => insertRegion n acc) []).map UInt32.ofNat
      reads := s.reads.toList.filterMap fun r =>
        (operandValue s r.target).toOption.map fun n => ⟨UInt32.ofNat n, r.name⟩ }
  else .error errors

end Image

/-- words of code and data that a program takes, and how many there are -/
structure Usage where
  stack : Nat
  memory : Nat
  limit : Nat
deriving DecidableEq, Repr

namespace Usage

def total (u : Usage) : Nat := u.stack + u.memory

def fits (u : Usage) : Bool := u.total ≤ u.limit

end Usage

structure Assembled where
  image : Image
  usage : Usage
  warnings : List Diagnostic
deriving DecidableEq, Repr

/-- words the CPU holds unless a manifest says otherwise -/
def defaultMemoryLimit : Nat := 500

/-- assemble a text. Any error leaves no image, only the diagnostics; a program that does not fit is refused before its
operands are resolved. -/
def assemble (text : String) (limit : Nat) : Except (List Diagnostic) Assembled :=
  let s := Session.scan text
  let found := s.diagnostics.toList
  let usage : Usage := ⟨s.stackSize, s.memorySize, limit⟩
  if usage.fits then
    match Image.resolve s with
    | .error errors => .error (found ++ errors)
    -- refused lines contribute no words, so the rest may resolve all the same
    | .ok image => if found.any Diagnostic.isError then .error found else .ok ⟨image, usage, found⟩
  else .error (found ++ [.errorOf (AssemblyCause.outOfSpace usage.memory usage.stack).message])

end C15

/-
What a line of assembly text says, by itself and independently of the lines around it.

A line is cut into words after a `#` is dropped. It says nothing, defines a label, contributes one or two words with
operands still symbolic, asks for a data address to be readable, or is refused with one or more causes. The data
addresses named by its well-formed operands count as touched even when another operand is refused.
-/
import C15.Assembly
import C15.Assembly.Number
import C15.Text.Lines
import C15.Token.Lexer

namespace C15

open C15.Text

/-- an operand before labels and data addresses are resolved -/
inductive Operand where
  /-- a data address, counted from the end of the code -/
  | data (offset : Nat)
  | label (name : String)
  /-- a number taken as it is -/
  | immediate (value : Nat)
deriving DecidableEq, Repr

/-- why assembly text is refused, or what it is warned about -/
inductive AssemblyCause where
  | oneArgument
  | singleArgument
  | twoArguments
  | unknownOpcode (name : String)
  | addressRange
  | expectedAddress
  | slotRange (text : String)
  | number (e : NumberError)
  | labelNotFound (name : String)
  | outOfSpace (memory stack : Nat)
  | textAfterLabel (name : String)
  | labelRedefined (name : String)
  | extraText (mnemonic : String)
deriving DecidableEq, Repr

def AssemblyCause.message : AssemblyCause → String
  | .oneArgument => "Expected one argument."
  | .singleArgument => "Expected a single argument."
  | .twoArguments => "Expected two arguments."
  | .unknownOpcode name => s!"Unknown opcode '{name}'."
  | .addressRange => "Addresses are limited to 12 bits"
  | .expectedAddress => "Expected address."
  | .slotRange text => s!"The value {text} must be within 0 and {maxAddress}."
  | .number e => e.message
  | .labelNotFound name => s!"The label '{name}' was not found."
  | .outOfSpace memory stack => s!"Not enough space, ({memory},{stack})."
  | .textAfterLabel name => s!"Text after label '{name}' is ignored."
  | .labelRedefined name => s!"Label '{name}' is defined more than once; the last definition is used."
  | .extraText mnemonic => s!"'{mnemonic}' takes no arguments; extra text ignored."

/-- what a line contributes -/
inductive Content where
  | nothing
  /-- a label, and whether more text follows it -/
  | label (name : String) (trailing : Bool)
  /-- an operation, the literal in the word after it, and the mnemonic if text after it is ignored -/
  | operation (opcode : Nat) (args : List Operand) (literal : Option UInt32) (ignored : Option String)
  | datum (value : UInt32)
  | read (target : Operand) (name : String)
  | refused (causes : List AssemblyCause)
deriving DecidableEq, Repr

/-- what a line says -/
structure Statement where
  content : Content
  /-- data addresses named by the operands that are well formed -/
  touched : List Nat := []
deriving DecidableEq, Repr

namespace Statement

/-! ## Operands -/

/-- a letter or underscore, then letters, digits and underscores -/
def isLabelName : List Char → Bool
  | [] => false
  | c :: cs => Lexer.isNameStart c && cs.all Lexer.isNameChar

/-- the digits of `a<digits>` -/
def addressDigits? : List Char → Option (List Char)
  | 'a' :: ds => if Number.decimal.accepts ds then some ds else none
  | _ => none

/-- a data address or a label -/
def target (cs : List Char) : Except AssemblyCause Operand :=
  match addressDigits? cs with
  | some ds =>
    let n := ofDigits ds
    if n ≤ maxAddress then .ok (.data n) else .error .addressRange
  | none => if isLabelName cs then .ok (.label (String.ofList cs)) else .error .expectedAddress

/-- a data address, a label or a number of 12 bits -/
def slot (cs : List Char) : Except AssemblyCause Operand :=
  if (addressDigits? cs).isSome || isLabelName cs then target cs
  else
    match Number.parse cs with
    | .error e => .error (.number e)
    | .ok w => if w.toNat ≤ maxAddress then .ok (.immediate w.toNat) else .error (.slotRange (String.ofList cs))

/-- data addresses among the operands that are well formed -/
def touchedBy (operands : List (Except AssemblyCause Operand)) : List Nat :=
  operands.filterMap fun
    | .ok (.data n) => some n
    | _ => none

/-- causes among the operands that are not -/
def causesOf (operands : List (Except AssemblyCause Operand)) : List AssemblyCause :=
  operands.filterMap fun
    | .error e => some e
    | .ok _ => none

/-- well-formed operands -/
def acceptedOf (operands : List (Except AssemblyCause Operand)) : List Operand :=
  operands.filterMap fun
    | .ok x => some x
    | .error _ => none

/-! ## Lines -/

def refuse (cause : AssemblyCause) : Statement := ⟨.refused [cause], []⟩

/-- a statement on operands, if all of them are well formed -/
def onOperands (operands : List (Except AssemblyCause Operand)) (content : List Operand → Content) : Statement :=
  match causesOf operands with
  | [] => ⟨content (acceptedOf operands), touchedBy operands⟩
  | causes => ⟨.refused causes, touchedBy operands⟩

/-- an operation with a mnemonic and the words after it -/
def operation (m : Mnemonic) (args : List (List Char)) : Statement :=
  match m.shape, args with
  | .bare, [] => ⟨.operation m.opcode [] none none, []⟩
  | .bare, _ => ⟨.operation m.opcode [] none (some m.text), []⟩
  | .target, [x] => onOperands [target x] fun xs => .operation m.opcode xs none none
  | .target, _ => refuse .singleArgument
  | .twoTargets, [x, y] => onOperands [target x, target y] fun xs => .operation m.opcode xs none none
  | .value, [v] =>
    match Number.parse v with
    | .ok w => ⟨.operation m.opcode [] (some w) none, []⟩
    | .error e => refuse (.number e)
  | .valueTarget, [v, x] =>
    -- a number that is refused is all that is reported, and the target is not touched
    match Number.parse v with
    | .ok w => onOperands [target x] fun xs => .operation m.opcode xs (some w) none
    | .error e => refuse (.number e)
  | .slot, [x] => onOperands [slot x] fun xs => .operation m.opcode xs none none
  | .twoSlots, [x, y] => onOperands [slot x, slot y] fun xs => .operation m.opcode xs none none
  | .value, _ | .slot, _ => refuse .oneArgument
  | .twoTargets, _ | .valueTarget, _ | .twoSlots, _ => refuse .twoArguments

/-- `.data` with the words after it -/
def datum : List (List Char) → Statement
  | [v] =>
    match Number.parse v with
    | .ok w => ⟨.datum w, []⟩
    | .error e => refuse (.number e)
  | _ => refuse .oneArgument

/-- `.read` with the words after it -/
def read : List (List Char) → Statement
  | [x, name] =>
    match slot x with
    | .ok operand => ⟨.read operand (String.ofList name), touchedBy [.ok operand]⟩
    | .error e => refuse e
  | _ => refuse .twoArguments

/-- the label that a word defines: a name before its first colon, and whether more stands after it -/
def labelOf? (word : List Char) : Option (List Char × Bool) :=
  let name := word.takeWhile (· != ':')
  match word.dropWhile (· != ':') with
  | _ :: rest => if isLabelName name then some (name, !rest.isEmpty) else none
  | [] => none

/-- what a line says -/
def ofLine (line : List Char) : Statement :=
  match words (line.takeWhile (· != '#')) with
  | [] => ⟨.nothing, []⟩
  | head :: args =>
    -- a name before a colon is a label, even that of a mnemonic
    match labelOf? head with
    | some (name, trailing) => ⟨.label (String.ofList name) (trailing || !args.isEmpty), []⟩
    | none =>
      let name := String.ofList head
      if name = ".data" then datum args
      else if name = ".read" then read args
      else
        match Mnemonic.ofText? name with
        | some m => operation m args
        | none => refuse (.unknownOpcode name)

end Statement

end C15

/-
The command line: the name of a command, then its options and operands in any order.

An option has its value in the same word, or is followed by it; a value that follows does not look like an option, and a
single dash does not. Two dashes end the options. An option is given once, `--debug` once before the name and once after
it. A path is not empty.
-/
import C15.Assembly.Number
import C15.Command

namespace C15.CommandLine

/-- the names of the commands -/
inductive Verb where
  | new
  | compile
  | assemble
  | build
  | check
deriving DecidableEq, Repr

def Verb.ofText? : String → Option Verb
  | "new" => some .new
  | "compile" => some .compile
  | "assemble" => some .assemble
  | "build" => some .build
  | "check" => some .check
  | _ => none

/-- options with a value -/
inductive Setting where
  | output
  | memoryLimit
deriving DecidableEq, Repr

/-- the options that a command has -/
def Verb.settings : Verb → List Setting
  | .compile => [.output]
  | .assemble => [.output, .memoryLimit]
  | _ => []

def Setting.ofName? (name : List Char) : Option Setting :=
  if name = "output".toList then some .output
  else if name = "memory-limit".toList then some .memoryLimit
  else none

/-- what a word of the command line is -/
inductive WordKind where
  /-- asks for a log, which changes nothing of what a command does -/
  | debug
  /-- an option, with its value if it is in the same word -/
  | setting (s : Setting) (value : Option String)
  | endOfOptions
  | operand
  | unknown
deriving DecidableEq, Repr

/-- an option that the command has -/
def Verb.setting (v : Verb) (s : Setting) (value : Option (List Char)) : WordKind :=
  if s ∈ v.settings then .setting s (value.map String.ofList) else .unknown

/-- a value after an equals sign, if there is one -/
def valueAfter : List Char → Option (List Char)
  | '=' :: value => some value
  | _ => none

/-- what a word is among those of a command -/
def WordKind.of (v : Verb) : List Char → WordKind
  | ['-', '-'] => .endOfOptions
  | '-' :: '-' :: text =>
    let name := text.takeWhile (· != '=')
    let value := valueAfter (text.dropWhile (· != '='))
    match Setting.ofName? name with
    | some s => v.setting s value
    | none => if text = "debug".toList then .debug else .unknown
  | ['-', 'o'] => v.setting .output none
  | '-' :: 'o' :: text => v.setting .output (some ((valueAfter text).getD text))
  | '-' :: _ :: _ => .unknown
  | _ => .operand

/-- what is given to a command -/
structure Arguments where
  debug : Bool
  output : Option String
  memoryLimit : Option String
  operands : List String
deriving DecidableEq, Repr

namespace Arguments

def none : Arguments := ⟨false, .none, .none, []⟩

/-- give an option that was not given before -/
def give? (a : Arguments) (value : String) : Setting → Option Arguments
  | .output => if a.output.isSome then .none else some { a with output := some value }
  | .memoryLimit => if a.memoryLimit.isSome then .none else some { a with memoryLimit := some value }

/-- a word that cannot be the value of the option before it -/
def looksLikeOption (word : String) : Bool := word.toList.head? == some '-' && word != "-"

/-- take the words after the name of a command -/
def take? (v : Verb) (a : Arguments) : List String → Option Arguments
  | [] => some a
  | word :: rest =>
    match WordKind.of v word.toList with
    | .debug => if a.debug then .none else take? v { a with debug := true } rest
    | .setting s (some value) => (a.give? value s).bind fun a => take? v a rest
    | .setting s .none =>
      match rest with
      | [] => .none
      | value :: rest =>
        if looksLikeOption value then .none else (a.give? value s).bind fun a => take? v a rest
    | .endOfOptions => some { a with operands := a.operands ++ rest }
    | .operand => take? v { a with operands := a.operands ++ [word] } rest
    | .unknown => .none

end Arguments

def path? (text : String) : Option Path := if text.isEmpty then none else some ⟨text⟩

/-- an optional path, refused if it is given and empty -/
def optionalPath? : Option String → Option (Option Path)
  | none => some none
  | some text => (path? text).map some

/-- a number of words: decimal digits after at most a sign -/
def memoryLimit? : Option String → Option UInt32
  | none => some (UInt32.ofNat defaultMemoryLimit)
  | some text =>
    match Number.integer text.toList with
    | .ok n => if 0 ≤ n ∧ n < 0x100000000 then some (UInt32.ofNat n.toNat) else none
    | .error _ => none

/-- the command of a name and what is given to it -/
def command? (v : Verb) (a : Arguments) : Option Command :=
  match v, a.operands with
  | .new, [name] => some (.new name)
  | .compile, [path] => do return .compile (← path? path) (← optionalPath? a.output)
  | .assemble, [path] => do
    return .assemble (← path? path) (← optionalPath? a.output) (← memoryLimit? a.memoryLimit)
  | .build, [] => some (.build ⟨"."⟩)
  | .build, [path] => do return .build (← path? path)
  | .check, [path] => do return .check (← path? path)
  | _, _ => none

/-- the command that a line asks for, given whether `--debug` was seen -/
def parseFrom (debug : Bool) : List String → Option Command
  | [] => none
  | word :: rest =>
    if word = "--debug" then if debug then none else parseFrom true rest
    else do
      let v ← Verb.ofText? word
      command? v (← Arguments.none.take? v rest)

/-- the command that a line asks for -/
def parse? (words : List String) : Option Command := parseFrom false words

def usage : String :=
  "usage: c15 [--debug] new NAME\n" ++
  "       c15 [--debug] compile PATH [-o FILE]\n" ++
  "       c15 [--debug] assemble PATH [-o FILE] [--memory-limit WORDS]\n" ++
  "       c15 [--debug] build [PATH]\n" ++
  "       c15 [--debug] check PATH\n"

/-- run a command line; one that asks for no command ends with 2 -/
def run {m : Type → Type} [Monad m] [FileSystem m] (words : List String) : m Command.Outcome :=
  match parse? words with
  | some c => c.run
  | none => return ⟨⟨"", usage⟩, 2⟩

end C15.CommandLine

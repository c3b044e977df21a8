/-
Reading a TOML document.

Arrays may spread over lines and end in a comma, inline tables may not. Both nest less than 80 deep together, and a
dotted key has less than 80 parts.
-/
import C15.Toml.Scalar
import C15.Toml.Table

namespace C15.Toml

/-- reads a part of a text and leaves the rest -/
abbrev Reader (α : Type) := StateT (List Char) Option α

/-- levels of nesting, and parts of a key, that are refused -/
def nestingLimit : Nat := 80

/-! ## Between values -/

def spaces : Reader Unit := modify (·.dropWhile isSpace)

/-- take a character if it comes next -/
def accept (c : Char) : Reader Bool := fun cs =>
  match cs with
  | d :: rest => if d = c then some (true, rest) else some (false, cs)
  | [] => some (false, [])

def expect (c : Char) : Reader Unit := do unless ← accept c do failure

/-- pass blanks, newlines and comments -/
def skipLines (inComment : Bool) : List Char → Option (List Char)
  | [] => some []
  | '\n' :: cs | '\r' :: '\n' :: cs => skipLines false cs
  | c :: cs =>
    if inComment then if isTextChar c then skipLines true cs else none
    else if isSpace c then skipLines false cs
    else if c = '#' then skipLines true cs
    else some (c :: cs)

def lines : Reader Unit := fun cs => (skipLines false cs).map ((), ·)

/-- blanks, an optional comment, and the end of the line or of the text -/
def endOfLine : Reader Unit := fun cs =>
  let rest := match cs.dropWhile isSpace with
    | '#' :: comment => comment.dropWhile isTextChar
    | other => other
  match rest with
  | [] => some ((), [])
  | '\n' :: after | '\r' :: '\n' :: after => some ((), after)
  | _ => none

/-! ## Keys -/

def isBareChar (c : Char) : Bool := c.isAlphanum || c == '_' || c == '-'

/-- one part of a key -/
def keyPart : Reader String := fun cs =>
  match cs with
  | '"' :: rest => (basicText rest).map fun (text, rest) => (String.ofList text, rest)
  | '\x27' :: rest => (literalText rest).map fun (text, rest) => (String.ofList text, rest)
  | _ =>
    let bare := cs.takeWhile isBareChar
    if bare.isEmpty then none else some (String.ofList bare, cs.dropWhile isBareChar)

/-- at most so many parts of a key, with points between them -/
def keyParts : Nat → Reader (List String)
  | 0 => failure
  | count + 1 => do
    spaces
    let part ← keyPart
    spaces
    if ← accept '.' then return part :: (← keyParts count) else return [part]

def key : Reader Key := do
  let parts ← keyParts (nestingLimit - 1)
  return ⟨parts.dropLast, parts.getLast?.getD ""⟩

/-! ## Values -/

mutual

/-- a value; the arguments bound the calls and the levels below -/
def value : Nat → Nat → Reader Toml
  | 0, _ => failure
  | fuel + 1, depth => do
    if ← accept '[' then
      if depth = 0 then failure
      lines
      return .array (← items fuel (depth - 1))
    else if ← accept '{' then
      if depth = 0 then failure
      spaces
      if ← accept '}' then return .table []
      StateT.lift (ofPairs? (← pairs fuel (depth - 1)))
    else scalar?

/-- the items of an array and its closing bracket -/
def items : Nat → Nat → Reader (List Toml)
  | 0, _ => failure
  | fuel + 1, depth => do
    if ← accept ']' then return []
    let x ← value fuel depth
    lines
    if ← accept ',' then
      lines
      return x :: (← items fuel depth)
    else
      expect ']'
      return [x]

/-- the pairs of an inline table, at least one, and its closing brace -/
def pairs : Nat → Nat → Reader (List (Key × Toml))
  | 0, _ => failure
  | fuel + 1, depth => do
    let k ← key
    expect '='
    spaces
    let x ← value fuel depth
    spaces
    if ← accept ',' then return (k, x) :: (← pairs fuel depth)
    else
      expect '}'
      return [(k, x)]

end

/-! ## Documents -/

/-- one statement and the end of its line; two calls read at least one character, which bounds them -/
def item : Reader Item := do
  let fuel := 2 * (← get).length + 2
  if ← accept '[' then
    if ← accept '[' then
      let k ← key
      expect ']'
      expect ']'
      endOfLine
      return .tables k
    else
      let k ← key
      expect ']'
      endOfLine
      return .table k
  else
    let k ← key
    expect '='
    spaces
    let x ← value fuel (nestingLimit - 1)
    endOfLine
    return .pair k x

/-- the statements of a text; the first argument bounds their number -/
def statements : Nat → Reader (List Item)
  | 0 => failure
  | count + 1 => do
    lines
    if (← get).isEmpty then return []
    let i ← item
    return i :: (← statements count)

/-- drop a byte-order mark -/
def dropMark : List Char → List Char
  | '\uFEFF' :: cs => cs
  | cs => cs

/-- the table that a text denotes -/
def parse? (text : String) : Option Toml := do
  let cs := dropMark text.toList
  let (found, _) ← (statements (cs.length + 1)).run cs
  ofItems? found

end C15.Toml

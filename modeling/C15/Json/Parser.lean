/-
Reading JSON.

Blanks are the space, the tab, the newline and the carriage return. Escapes in a string denote characters or, in pairs,
halves of one; a control character does not stand for itself.
-/
import C15.Json

namespace C15.Json

open C15.Text

def isSpace (c : Char) : Bool := c == ' ' || c == '\t' || c == '\n' || c == '\r'

def skip (cs : List Char) : List Char := cs.dropWhile isSpace

/-! ## Strings -/

/-- the character after a backslash -/
def escaped? : Char → Option Char
  | '"' => some '"'
  | '\\' => some '\\'
  | '/' => some '/'
  | 'b' => some '\x08'
  | 'f' => some '\x0c'
  | 'n' => some '\n'
  | 'r' => some '\r'
  | 't' => some '\t'
  | _ => none

/-- what a string consists of: a character, or a number written in hexadecimal -/
inductive StringUnit where
  | char (c : Char)
  | code (n : Nat)
deriving DecidableEq, Repr

/-- the units up to the closing quote, and what follows it -/
def units : List Char → Option (List StringUnit × List Char)
  | [] => none
  | '"' :: cs => some ([], cs)
  | '\\' :: 'u' :: a :: b :: c :: d :: cs =>
    if [a, b, c, d].all isHexDigit then (units cs).map fun (us, rest) => (.code (ofHexDigits [a, b, c, d]) :: us, rest)
    else none
  | '\\' :: e :: cs =>
    match escaped? e with
    | some c => (units cs).map fun (us, rest) => (.char c :: us, rest)
    | none => none
  | c :: cs => if c.toNat < 0x20 then none else (units cs).map fun (us, rest) => (.char c :: us, rest)

def isHighSurrogate (n : Nat) : Bool := 0xD800 ≤ n && n < 0xDC00

def isLowSurrogate (n : Nat) : Bool := 0xDC00 ≤ n && n < 0xE000

/-- the characters that units denote, if no surrogate is left alone -/
def charsOf : List StringUnit → Option (List Char)
  | [] => some []
  | .char c :: us => (charsOf us).map (c :: ·)
  | .code n :: .code m :: us =>
    if isHighSurrogate n && isLowSurrogate m then
      (charsOf us).map (Char.ofNat (0x10000 + 0x400 * (n - 0xD800) + (m - 0xDC00)) :: ·)
    else if isHighSurrogate n || isLowSurrogate n then none
    else (charsOf (.code m :: us)).map (Char.ofNat n :: ·)
  | .code n :: us =>
    if isHighSurrogate n || isLowSurrogate n then none else (charsOf us).map (Char.ofNat n :: ·)

/-- a string after its opening quote -/
def readString (cs : List Char) : Option (Option String × List Char) :=
  (units cs).map fun (us, rest) => ((charsOf us).map String.ofList, rest)

/-! ## Numbers -/

/-- a fraction, if there is one: whether, and what follows -/
def readFraction : List Char → Option (Bool × List Char)
  | '.' :: cs => if (cs.takeWhile Char.isDigit).isEmpty then none else some (true, cs.dropWhile Char.isDigit)
  | cs => some (false, cs)

/-- an exponent, if there is one: whether, and what follows -/
def readExponent : List Char → Option (Bool × List Char)
  | [] => some (false, [])
  | mark :: cs =>
    if mark = 'e' ∨ mark = 'E' then
      let digits := match cs with
        | '+' :: ds | '-' :: ds => ds
        | ds => ds
      if (digits.takeWhile Char.isDigit).isEmpty then none else some (true, digits.dropWhile Char.isDigit)
    else some (false, mark :: cs)

/-- a number; only one of plain digits has a value -/
def readNumber (cs : List Char) : Option (Option Nat × List Char) := do
  let (negative, unsigned) := match cs with
    | '-' :: ds => (true, ds)
    | ds => (false, ds)
  let digits := unsigned.takeWhile Char.isDigit
  if digits.isEmpty || (digits.head? == some '0' && 1 < digits.length) then none
  let (fraction, rest) ← readFraction (unsigned.dropWhile Char.isDigit)
  let (exponent, rest) ← readExponent rest
  return (if negative || fraction || exponent then none else some (ofDigits digits), rest)

/-! ## Values -/

mutual

/-- a value that starts with the first character; the first argument bounds the calls -/
def readValue : Nat → List Char → Option (Json × List Char)
  | 0, _ => none
  | fuel + 1, cs =>
    match cs with
    | 'n' :: 'u' :: 'l' :: 'l' :: rest => some (.null, rest)
    | 't' :: 'r' :: 'u' :: 'e' :: rest => some (.bool true, rest)
    | 'f' :: 'a' :: 'l' :: 's' :: 'e' :: rest => some (.bool false, rest)
    | '"' :: rest => (readString rest).map fun (s, rest) => (.string s, rest)
    | '[' :: rest =>
      match skip rest with
      | ']' :: rest => some (.array [], rest)
      | inner => (readItems fuel inner).map fun (xs, rest) => (.array xs, rest)
    | '{' :: rest =>
      match skip rest with
      | '}' :: rest => some (.object [], rest)
      | inner => (readMembers fuel inner).map fun (ms, rest) => (.object ms, rest)
    | _ => (readNumber cs).map fun (n, rest) => (.number n, rest)

/-- items up to the closing bracket, at least one -/
def readItems : Nat → List Char → Option (List Json × List Char)
  | 0, _ => none
  | fuel + 1, cs => do
    let (x, rest) ← readValue fuel cs
    match skip rest with
    | ']' :: rest => return ([x], rest)
    | ',' :: rest =>
      let (xs, rest) ← readItems fuel (skip rest)
      return (x :: xs, rest)
    | _ => none

/-- members up to the closing brace, at least one -/
def readMembers : Nat → List Char → Option (List (Option String × Json) × List Char)
  | 0, _ => none
  | fuel + 1, cs =>
    match cs with
    | '"' :: rest => do
      let (key, rest) ← readString rest
      match skip rest with
      | ':' :: rest =>
        let (x, rest) ← readValue fuel (skip rest)
        match skip rest with
        | '}' :: rest => return ([(key, x)], rest)
        | ',' :: rest =>
          let (ms, rest) ← readMembers fuel (skip rest)
          return ((key, x) :: ms, rest)
        | _ => none
      | _ => none
    | _ => none

end

/-- the document that a text spells. Two calls read at least one character, which bounds them. -/
def parse? (cs : List Char) : Option Json :=
  match readValue (2 * cs.length + 2) (skip cs) with
  | some (x, rest) => if (skip rest).isEmpty then some x else none
  | none => none

end C15.Json

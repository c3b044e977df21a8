/-
Strings, numbers, dates and truth values of TOML.

A reader takes a text that starts with what it reads, and gives the value and the text after it. What may follow a
scalar is for its surroundings to say: `010` reads as a zero, and the digits after it are refused there.
-/
import C15.Text.Digits
import C15.Toml

namespace C15.Toml

open C15.Text

def isSpace (c : Char) : Bool := c == ' ' || c == '\t'

/-- characters of comments and strings: no control characters but the tab -/
def isTextChar (c : Char) : Bool := c == '\t' || (0x20 ≤ c.toNat && c.toNat != 0x7F)

/-! ## Strings -/

/-- the character after a backslash -/
def escaped? : Char → Option Char
  | 'b' => some '\x08'
  | 't' => some '\t'
  | 'n' => some '\n'
  | 'f' => some '\x0c'
  | 'r' => some '\r'
  | '"' => some '"'
  | '\\' => some '\\'
  | _ => none

/-- the character with a code in hexadecimal -/
def coded? (digits : List Char) : Option Char :=
  if digits.all isHexDigit && (ofHexDigits digits).isValidChar then some (Char.ofNat (ofHexDigits digits)) else none

/-- put a character, if there is one, before the text that was read -/
def before? (c : Option Char) (read : Option (List Char × List Char)) : Option (List Char × List Char) := do
  let (cs, rest) ← read
  return ((← c) :: cs, rest)

/-- a string after its opening quote -/
def basicText : List Char → Option (List Char × List Char)
  | [] => none
  | '"' :: cs => some ([], cs)
  | '\\' :: 'u' :: a :: b :: c :: d :: cs => before? (coded? [a, b, c, d]) (basicText cs)
  | '\\' :: 'U' :: a :: b :: c :: d :: e :: f :: g :: h :: cs =>
    before? (coded? [a, b, c, d, e, f, g, h]) (basicText cs)
  | '\\' :: e :: cs => before? (escaped? e) (basicText cs)
  | c :: cs => if isTextChar c then before? (some c) (basicText cs) else none

/-- a string between apostrophes, after the first one -/
def literalText : List Char → Option (List Char × List Char)
  | [] => none
  | '\x27' :: cs => some ([], cs)
  | c :: cs => if isTextChar c then before? (some c) (literalText cs) else none

/-- a backslash before this text joins it to a later line -/
def endsLine (cs : List Char) : Bool :=
  match cs.dropWhile isSpace with
  | '\n' :: _ | '\r' :: '\n' :: _ => true
  | _ => false

/-- a string of several lines after its opening quotes; up to two quotes stand for themselves. With `trim`, blanks and
newlines are passed until something else comes. -/
def multilineText (trim : Bool) : List Char → Option (List Char × List Char)
  | [] => none
  | '"' :: '"' :: '"' :: '"' :: '"' :: cs => some (['"', '"'], cs)
  | '"' :: '"' :: '"' :: '"' :: cs => some (['"'], cs)
  | '"' :: '"' :: '"' :: cs => some ([], cs)
  | '\r' :: '\n' :: cs =>
    if trim then multilineText true cs else before? (some '\n') (multilineText false cs)
  | '\\' :: 'u' :: a :: b :: c :: d :: cs => before? (coded? [a, b, c, d]) (multilineText false cs)
  | '\\' :: 'U' :: a :: b :: c :: d :: e :: f :: g :: h :: cs =>
    before? (coded? [a, b, c, d, e, f, g, h]) (multilineText false cs)
  | '\\' :: cs =>
    if endsLine cs then multilineText true cs
    else
      match cs with
      | [] => none
      | e :: rest => before? (escaped? e) (multilineText false rest)
  | c :: cs =>
    if trim && (isSpace c || c == '\n') then multilineText true cs
    else if isTextChar c || c == '\n' then before? (some c) (multilineText false cs)
    else none

/-- a string of several lines between apostrophes, after the first three -/
def multilineLiteral : List Char → Option (List Char × List Char)
  | [] => none
  | '\x27' :: '\x27' :: '\x27' :: '\x27' :: '\x27' :: cs => some (['\x27', '\x27'], cs)
  | '\x27' :: '\x27' :: '\x27' :: '\x27' :: cs => some (['\x27'], cs)
  | '\x27' :: '\x27' :: '\x27' :: cs => some ([], cs)
  | '\r' :: '\n' :: cs => before? (some '\n') (multilineLiteral cs)
  | c :: cs => if isTextChar c || c == '\n' then before? (some c) (multilineLiteral cs) else none

/-- drop one newline, if the text starts with one -/
def dropNewline : List Char → List Char
  | '\n' :: cs | '\r' :: '\n' :: cs => cs
  | cs => cs

/-- the characters of a string of any kind -/
def readText : List Char → Option (List Char × List Char)
  | '"' :: '"' :: '"' :: cs => multilineText false (dropNewline cs)
  | '"' :: cs => basicText cs
  | '\x27' :: '\x27' :: '\x27' :: cs => multilineLiteral (dropNewline cs)
  | '\x27' :: cs => literalText cs
  | _ => none

/-! ## Numbers -/

/-- digits, among which single underscores may stand -/
def digitRun (isDigit : Char → Bool) : List Char → List Char × List Char
  | [] => ([], [])
  | c :: cs =>
    if isDigit c then
      let (ds, rest) := digitRun isDigit cs
      (c :: ds, rest)
    else
      match cs with
      | d :: _ => if c = '_' && isDigit d then digitRun isDigit cs else ([], c :: cs)
      | [] => ([], [c])

/-- one digit or more -/
def digits? (isDigit : Char → Bool) (cs : List Char) : Option (List Char × List Char) :=
  if (cs.head?.map isDigit).getD false then some (digitRun isDigit cs) else none

/-- the digits of a whole number: a zero stands alone -/
def wholeDigits? : List Char → Option (List Char × List Char)
  | '0' :: cs => some (['0'], cs)
  | cs => digits? Char.isDigit cs

/-- an optional sign: whether it is a minus, and the rest -/
def splitSign : List Char → Bool × List Char
  | '-' :: cs => (true, cs)
  | '+' :: cs => (false, cs)
  | cs => (false, cs)

/-- an exponent, if there is one -/
def exponent? : List Char → Option (Option Int × List Char)
  | [] => some (none, [])
  | mark :: cs =>
    if mark = 'e' ∨ mark = 'E' then do
      let (negative, body) := splitSign cs
      let (ds, rest) ← digits? Char.isDigit body
      return (some (if negative then -(ofDigits ds : Int) else ofDigits ds), rest)
    else some (none, mark :: cs)

/-- a fraction, if there is one -/
def fraction? : List Char → Option (Option (List Char) × List Char)
  | '.' :: cs => (digits? Char.isDigit cs).map fun (ds, rest) => (some ds, rest)
  | cs => some (none, cs)

/-- no finite number of double precision is nearest to `coefficient * 10 ^ exponent` -/
def isTooLarge (coefficient : Nat) (exponent : Int) : Bool :=
  let top := exponent + ((Nat.toDigits 10 coefficient).length : Int)
  if coefficient = 0 || top < 300 then false
  else if 320 < top then true
  else Nat.pow 2 1024 - Nat.pow 2 970 ≤ coefficient * Nat.pow 10 exponent.toNat / Nat.pow 10 (-exponent).toNat

/-- an integer of 64 bits -/
def integer? (negative : Bool) (n : Nat) : Option Toml :=
  if negative then if n ≤ 0x8000000000000000 then some (.integer (-(n : Int))) else none
  else if n < 0x8000000000000000 then some (.integer n) else none

/-- an integer in a base other than ten -/
def based? (base : Nat) (isDigit : Char → Bool) (cs : List Char) : Option (Toml × List Char) := do
  let (ds, rest) ← digits? isDigit cs
  return (← integer? false (ds.foldl (fun n c => base * n + hexValue c) 0), rest)

/-- a decimal number, whole or not. One that is too large is refused if it is positive. -/
def decimal? (negative : Bool) (cs : List Char) : Option (Toml × List Char) := do
  let (whole, rest) ← wholeDigits? cs
  let (fraction, rest) ← fraction? rest
  let (exponent, rest) ← exponent? rest
  if fraction.isNone && exponent.isNone then return (← integer? negative (ofDigits whole), rest)
  let places := fraction.getD []
  if !negative && isTooLarge (ofDigits (whole ++ places)) (exponent.getD 0 - places.length) then none
  return (.float, rest)

def number? (cs : List Char) : Option (Toml × List Char) :=
  match cs with
  | '0' :: 'x' :: rest => based? 16 isHexDigit rest
  | '0' :: 'o' :: rest => based? 8 (fun c => '0' ≤ c && c ≤ '7') rest
  | '0' :: 'b' :: rest => based? 2 (fun c => c == '0' || c == '1') rest
  | _ =>
    let (negative, body) := splitSign cs
    match body with
    | 'i' :: 'n' :: 'f' :: rest | 'n' :: 'a' :: 'n' :: rest => some (.float, rest)
    | _ => decimal? negative body

/-! ## Dates -/

def isLeapYear (year : Nat) : Bool := year % 4 == 0 && (year % 100 != 0 || year % 400 == 0)

def daysInMonth (year month : Nat) : Nat :=
  if month = 2 then if isLeapYear year then 29 else 28
  else if month = 4 ∨ month = 6 ∨ month = 9 ∨ month = 11 then 30
  else 31

/-- what follows a date -/
def afterDate? : List Char → Option (List Char)
  | a :: b :: c :: d :: '-' :: e :: f :: '-' :: g :: h :: rest =>
    let year := ofDigits [a, b, c, d]
    let month := ofDigits [e, f]
    let day := ofDigits [g, h]
    if [a, b, c, d, e, f, g, h].all Char.isDigit && 1 ≤ month && month ≤ 12 && 1 ≤ day && day ≤
      daysInMonth year month then some rest
    else none
  | _ => none

/-- what follows a time of day -/
def afterTime? : List Char → Option (List Char)
  | a :: b :: ':' :: c :: d :: ':' :: e :: f :: rest =>
    if [a, b, c, d, e, f].all Char.isDigit && ofDigits [a, b] ≤ 23 && ofDigits [c, d] ≤ 59 && ofDigits [e, f] ≤ 60 then
      match rest with
      | '.' :: cs => if (cs.takeWhile Char.isDigit).isEmpty then none else some (cs.dropWhile Char.isDigit)
      | _ => some rest
    else none
  | _ => none

/-- what follows an offset from universal time, if there is one -/
def afterOffset : List Char → List Char
  | 'Z' :: rest | 'z' :: rest => rest
  | sign :: a :: b :: ':' :: c :: d :: rest =>
    if (sign == '+' || sign == '-') && [a, b, c, d].all Char.isDigit && ofDigits [a, b] ≤
      23 && ofDigits [c, d] ≤ 59 then rest
    else sign :: a :: b :: ':' :: c :: d :: rest
  | cs => cs

/-- what follows a date, a time, or both -/
def afterDatetime? (cs : List Char) : Option (List Char) :=
  match afterDate? cs with
  | none => afterTime? cs
  | some [] => some []
  | some (mark :: rest) =>
    match afterTime? rest with
    | some after => some (if mark == 'T' || mark == 't' || mark == ' ' then afterOffset after else mark :: rest)
    | none => some (mark :: rest)

/-! ## Scalars -/

def scalar? (cs : List Char) : Option (Toml × List Char) :=
  match cs with
  | '"' :: _ | '\x27' :: _ => (readText cs).map fun (text, rest) => (.string (String.ofList text), rest)
  | 't' :: 'r' :: 'u' :: 'e' :: rest => some (.boolean true, rest)
  | 'f' :: 'a' :: 'l' :: 's' :: 'e' :: rest => some (.boolean false, rest)
  | _ =>
    match afterDatetime? cs with
    | some rest => some (.datetime, rest)
    | none => number? cs

end C15.Toml

/-
JSON as text: one value on a line, indented by two blanks for each level, and nothing inside empty brackets.

A number or string that has no value is written as one that is read as such: a negative zero, and an unpaired surrogate.
-/
import C15.Json

namespace C15.Json

/-- one character of a string: quotes, backslashes and control characters are escaped, nothing else -/
def escape (c : Char) : List Char :=
  if c = '"' then ['\\', '"']
  else if c = '\\' then ['\\', '\\']
  else if c = '\x08' then ['\\', 'b']
  else if c = '\x0c' then ['\\', 'f']
  else if c = '\n' then ['\\', 'n']
  else if c = '\r' then ['\\', 'r']
  else if c = '\t' then ['\\', 't']
  else if c.toNat < 0x20 then ['\\', 'u', '0', '0', Nat.digitChar (c.toNat / 16), Nat.digitChar (c.toNat % 16)]
  else [c]

def printString : Option String → List Char
  | some s => '"' :: s.toList.flatMap escape ++ ['"']
  | none => ['"', '\\', 'u', 'd', '8', '0', '0', '"']

def printNumber : Option Nat → List Char
  | some n => Nat.toDigits 10 n
  | none => ['-', '0']

/-- a new line at a level -/
def newLine (level : Nat) : List Char := '\n' :: List.replicate (2 * level) ' '

mutual

/-- a value whose first line stands at a level -/
def print (level : Nat) : Json → List Char
  | .null => ['n', 'u', 'l', 'l']
  | .bool true => ['t', 'r', 'u', 'e']
  | .bool false => ['f', 'a', 'l', 's', 'e']
  | .number value => printNumber value
  | .string value => printString value
  | .array [] => ['[', ']']
  | .array (x :: xs) =>
    '[' :: newLine (level + 1) ++ print (level + 1) x ++ printItems (level + 1) xs ++ newLine level ++ [']']
  | .object [] => ['{', '}']
  | .object ((key, x) :: ms) =>
    '{' :: newLine (level + 1) ++ printString key ++ [':', ' '] ++ print (level + 1) x ++
      printMembers (level + 1) ms ++ newLine level ++ ['}']

/-- the items after the first one -/
def printItems (level : Nat) : List Json → List Char
  | [] => []
  | x :: xs => ',' :: newLine level ++ print level x ++ printItems level xs

/-- the members after the first one -/
def printMembers (level : Nat) : List (Option String × Json) → List Char
  | [] => []
  | (key, x) :: ms => ',' :: newLine level ++ printString key ++ [':', ' '] ++ print level x ++ printMembers level ms

end

end C15.Json

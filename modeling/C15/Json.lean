/-
JSON documents.

A document keeps of its numbers and strings what a program image can hold: natural numbers written as plain digits, and
strings in which every surrogate escape is paired. Any other number or string is there, but has no value.

Documents are read and written by a library. What is assumed of it is what this module, the printer and the parser
define: which texts are documents, how documents are laid out and escaped, and that a record is read from an object that
has each of its fields once, or from an array of as many values. Results about files of images rest on this.
-/
import C15.Text.Digits

namespace C15

inductive Json where
  | null
  | bool (b : Bool)
  | number (value : Option Nat)
  | string (value : Option String)
  | array (items : List Json)
  /-- members in order; a key may occur more than once -/
  | object (members : List (Option String × Json))
deriving Repr

namespace Json

def ofNat (n : Nat) : Json := .number (some n)

def ofString (s : String) : Json := .string (some s)

def nat? : Json → Option Nat
  | .number value => value
  | _ => none

def string? : Json → Option String
  | .string value => value
  | _ => none

def array? : Json → Option (List Json)
  | .array items => some items
  | _ => none

/-- the values of the members with these keys, each of which occurs exactly once; other members are passed over, but a
key without a value is refused. A list of as many values stands for the members in order. -/
def fields? (keys : List String) : Json → Option (List Json)
  | .array items => if items.length = keys.length then some items else none
  | .object members =>
    if members.all (·.1.isSome) then
      keys.mapM fun key =>
        match members.filter (·.1 == some key) with
        | [(_, value)] => some value
        | _ => none
    else none
  | _ => none

end Json

end C15

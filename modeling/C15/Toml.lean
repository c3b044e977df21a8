/-
TOML values.

Numbers with a fraction and dates are read and checked, but only their kind is kept.

Documents are read by a library. What is assumed of it is what this module and those below it define: that it reads
TOML 1.0 with a limit on nesting, and that a record is filled by name from a table or by position from an array. Results
about manifests rest on this, and on nothing about the library's messages.
-/
namespace C15

inductive Toml where
  | string (s : String)
  | integer (n : Int)
  | float
  | boolean (b : Bool)
  | datetime
  | array (items : List Toml)
  | table (entries : List (String × Toml))
deriving Repr

namespace Toml

def string? : Toml → Option String
  | .string s => some s
  | _ => none

def boolean? : Toml → Option Bool
  | .boolean b => some b
  | _ => none

/-- an integer that is a word -/
def word? : Toml → Option UInt32
  | .integer n => if 0 ≤ n ∧ n < 0x100000000 then some (UInt32.ofNat n.toNat) else none
  | _ => none

/-- the values of a record's fields, where they are given: in a table by name, in an array by position. A date counts as
a record without fields. -/
def fields? (names : List String) : Toml → Option (List (Option Toml))
  | .table entries => some (names.map fun name => entries.lookup name)
  | .array items => some (names.mapIdx fun i _ => items[i]?)
  | .datetime => some (names.map fun _ => none)
  | _ => none

end Toml

end C15

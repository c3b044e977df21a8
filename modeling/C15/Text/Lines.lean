/-
Lines of a text, and its size in bytes.

A line ends at a newline. A carriage return right before that newline belongs to the ending, not to the line; a text
that ends in a newline has no empty line after it. Offsets count the bytes of the UTF-8 form.
-/
import C15.Text.Blank

namespace C15.Text

/-- bytes of the UTF-8 form -/
def width : List Char → Nat
  | [] => 0
  | c :: cs => c.utf8Size + width cs

@[simp] theorem width_nil : width [] = 0 := rfl

@[simp] theorem width_cons (c : Char) (cs : List Char) : width (c :: cs) = c.utf8Size + width cs := rfl

@[simp] theorem width_append (xs ys : List Char) : width (xs ++ ys) = width xs + width ys := by
  induction xs with
  | nil => simp
  | cons c cs ih => simp [ih, Nat.add_assoc]

/-- a text is as wide as its UTF-8 form -/
theorem width_ofList (cs : List Char) : width cs = (String.ofList cs).utf8ByteSize := by
  induction cs with
  | nil => simp [String.ofList_nil]
  | cons c cs ih =>
    have split : String.ofList (c :: cs) = String.ofList [c] ++ String.ofList cs := by
      rw [← String.ofList_append]
      rfl
    have one : (String.ofList [c]).utf8ByteSize = c.utf8Size := by
      rw [← String.singleton_eq_ofList]
      simp only [String.utf8ByteSize_singleton]
    rw [width_cons, ih, split, String.utf8ByteSize_append, one]

/-- drop one carriage return at the end -/
def dropReturn (line : List Char) : List Char :=
  if line.getLast? = some '\r' then line.dropLast else line

/-- the lines of a text, without their endings -/
def lines (cs : List Char) : List (List Char) :=
  let parts := pieces (· == '\n') cs
  parts.dropLast.map dropReturn ++ (parts.getLast?.toList.filter fun l => !l.isEmpty)

/-- number and content of a line; a line beyond the last is empty -/
def lineAt (cs : List Char) (number : Nat) : List Char := ((lines cs)[number - 1]?).getD []

end C15.Text

/-
White space and the words it separates.

A character is blank when it has the White_Space property: 25 characters, of which core's `Char.isWhitespace` knows
four. Words are the longest runs of characters that are not blank.
-/
namespace C15.Text

/-- the White_Space property -/
def isBlank (c : Char) : Bool :=
  let n := c.toNat
  (9 ≤ n && n ≤ 13) || n == 0x20 || n == 0x85 || n == 0xA0 || n == 0x1680 || (0x2000 ≤ n && n ≤ 0x200A) ||
    n == 0x2028 || n == 0x2029 || n == 0x202F || n == 0x205F || n == 0x3000

/-- the parts of a text between the characters that satisfy `p`; one more than there are such characters -/
def pieces (p : Char → Bool) : List Char → List (List Char)
  | [] => [[]]
  | c :: cs =>
    if p c then [] :: pieces p cs
    else match pieces p cs with
      | [] => [[c]]
      | w :: ws => (c :: w) :: ws

theorem pieces_ne_nil (p : Char → Bool) (cs : List Char) : pieces p cs ≠ [] := by
  cases cs with
  | nil => simp [pieces]
  | cons c cs =>
    simp only [pieces]
    split
    · simp
    · split <;> simp

/-- a text is cut where a separator stands -/
theorem pieces_append_cons {p : Char → Bool} {c : Char} (h : p c = true) (xs ys : List Char) :
    pieces p (xs ++ c :: ys) = pieces p xs ++ pieces p ys := by
  induction xs with
  | nil => simp [pieces, h]
  | cons x xs ih =>
    simp only [List.cons_append, pieces, ih]
    split
    · simp
    · obtain ⟨w, ws, hw⟩ := List.exists_cons_of_ne_nil (pieces_ne_nil p xs)
      simp [hw]

/-- the words of a text -/
def words (cs : List Char) : List (List Char) := (pieces isBlank cs).filter (fun w => !w.isEmpty)

/-- words end at a blank -/
theorem words_append_cons {c : Char} (h : isBlank c = true) (xs ys : List Char) :
    words (xs ++ c :: ys) = words xs ++ words ys := by
  simp [words, pieces_append_cons h]

end C15.Text

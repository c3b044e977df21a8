/-
Where a byte offset stands in a text.

An offset at the boundary of two characters cuts the text in two; the line it stands in goes back from there to the last
newline (`lineBefore`). Before the end of a text the position is found by walking over the characters, at the end by
taking the text apart into lines. Both find the same line. They measure its column differently: the walk counts
characters, the last line is measured in bytes. So the position at the end is the one that the walk would have found
exactly if the last line is of one-byte characters (`ofOffset_boundary`).
-/
import C15.Position
import C15.Proofs.LineText
import Mathlib.Data.List.DropRight

namespace C15

open Text

namespace Position

/-- what stands between the last newline, or the start, and the end of `pre` -/
def lineBefore (pre : List Char) : List Char := pre.rtakeWhile (· ≠ '\n')

theorem lineBefore_newline (pre : List Char) : lineBefore (pre ++ ['\n']) = [] :=
  List.rtakeWhile_concat_neg _ _ _ (by decide)

theorem lineBefore_other {c : Char} (hc : c ≠ '\n') (pre : List Char) :
    lineBefore (pre ++ [c]) = lineBefore pre ++ [c] :=
  List.rtakeWhile_concat_pos _ _ _ (by simpa using hc)

/-! ## The walk over the characters -/

/-- the position behind a character -/
def pass (p : Position) (c : Char) : Position := if c = '\n' then ⟨p.line + 1, 1⟩ else ⟨p.line, p.column + 1⟩

theorem advance_width (p : Position) (pre post : List Char) :
    advance p (width pre) (pre ++ post) = pre.foldl pass p := by
  induction pre generalizing p with
  | nil => rw [width_nil, advance, List.foldl_nil]
  | cons c pre ih =>
    have hpos := c.utf8Size_pos
    obtain ⟨n, hn⟩ : ∃ n, width (c :: pre) = n + 1 := ⟨c.utf8Size + width pre - 1, by rw [width_cons]; omega⟩
    have hrest : n + 1 - c.utf8Size = width pre := by rw [← hn, width_cons]; omega
    rw [hn, List.cons_append, advance, hrest]
    exact ih (pass p c)

/-- the walk counts the newlines, and the characters behind the last of them -/
theorem foldl_pass (pre : List Char) : pre.foldl pass ⟨1, 1⟩ = ⟨1 + pre.count '\n', 1 + (lineBefore pre).length⟩ := by
  induction pre using List.reverseRecOn with
  | nil => rfl
  | append_singleton pre c ih =>
    rw [List.foldl_concat, ih]
    by_cases hc : c = '\n'
    · rw [hc, lineBefore_newline, List.count_append]
      rfl
    · rw [lineBefore_other hc, List.count_append, List.count_singleton, pass, if_neg hc]
      simp [hc, Nat.add_assoc]

/-! ## The end of the text -/

/-- a text is its last line, behind what ends in a newline if there is one -/
theorem eq_lineBefore (cs : List Char) : cs = lineBefore cs ∨ ∃ front, cs = front ++ '\n' :: lineBefore cs := by
  induction cs using List.reverseRecOn with
  | nil => exact .inl rfl
  | append_singleton cs c ih =>
    by_cases hc : c = '\n'
    · exact .inr ⟨cs, by rw [hc, lineBefore_newline]⟩
    · rw [lineBefore_other hc]
      rcases ih with ih | ⟨front, ih⟩
      · exact .inl (by rw [← ih])
      · refine .inr ⟨front, ?_⟩
        rw [← List.cons_append, ← List.append_assoc, ← ih]

theorem not_mem_lineBefore (cs : List Char) : '\n' ∉ lineBefore cs := by
  intro h
  simpa using List.mem_rtakeWhile_imp h

/-- every newline cuts a text once more -/
theorem length_pieces (cs : List Char) : (pieces (· == '\n') cs).length = cs.count '\n' + 1 := by
  induction cs with
  | nil => rfl
  | cons c cs ih =>
    by_cases hc : c = '\n'
    · simp [pieces, hc, ih]
    · obtain ⟨w, ws, hw⟩ := List.exists_cons_of_ne_nil (pieces_ne_nil (· == '\n') cs)
      rw [hw] at ih
      simpa [pieces, hc, hw] using ih

/-- a text is cut into as many pieces as it has newlines, and its last line -/
theorem pieces_lineBefore (cs : List Char) :
    ∃ before, pieces (· == '\n') cs = before ++ [lineBefore cs] ∧ before.length = cs.count '\n' := by
  have hline : pieces (· == '\n') (lineBefore cs) = [lineBefore cs] := by
    apply pieces_of_none
    intro c hc
    simpa using ne_of_mem_of_not_mem hc (not_mem_lineBefore cs)
  rcases eq_lineBefore cs with heq | ⟨front, heq⟩
  · refine ⟨[], by rw [List.nil_append, ← hline, ← heq], ?_⟩
    rw [heq, List.count_eq_zero_of_not_mem (not_mem_lineBefore cs)]
    rfl
  · have hcut : pieces (· == '\n') cs = pieces (· == '\n') front ++ [lineBefore cs] := by
      rw [← hline, ← pieces_append_cons (c := '\n') rfl, ← heq]
    have hlength := length_pieces cs
    rw [hcut, List.length_append, List.length_singleton] at hlength
    exact ⟨_, hcut, Nat.succ.inj hlength⟩

/-- without a newline behind it the last line counts, if there is any -/
theorem atEnd_eq {cs : List Char} (h : cs.getLast? ≠ some '\n') :
    atEnd cs = ⟨1 + cs.count '\n', 1 + width (lineBefore cs)⟩ := by
  obtain ⟨before, hpieces, hlength⟩ := pieces_lineBefore cs
  by_cases hempty : cs = []
  · rw [hempty]
    rfl
  · have hlast : lineBefore cs ≠ [] := by
      intro hnil
      rcases eq_lineBefore cs with heq | ⟨front, heq⟩
      · exact hempty (heq.trans hnil)
      · rw [hnil] at heq
        exact h (by rw [heq, List.getLast?_concat])
    have hlines : lines cs = before.map dropReturn ++ [lineBefore cs] := by
      simp [lines, hpieces, hlast]
    simp [atEnd, hlines, hlength, Nat.add_comm]

/-! ## Offsets -/

/-- as many bytes as characters: every character takes one -/
theorem width_eq_length {cs : List Char} : width cs = cs.length ↔ ∀ c ∈ cs, c.utf8Size = 1 := by
  have hle : ∀ cs : List Char, cs.length ≤ width cs := by
    intro cs
    induction cs with
    | nil => exact Nat.le_refl 0
    | cons c cs ih =>
      have hpos := c.utf8Size_pos
      rw [List.length_cons, width_cons]
      omega
  induction cs with
  | nil => simp
  | cons c cs ih =>
    have hpos := c.utf8Size_pos
    have hcs := hle cs
    rw [List.forall_mem_cons, List.length_cons, width_cons]
    constructor
    · intro heq
      exact ⟨by omega, ih.1 (by omega)⟩
    · intro ⟨hc, hall⟩
      have hwidth := ih.2 hall
      omega

/-- **Positions.** In a text that does not end in a newline, an offset at the boundary of characters is on the line
after as many others as there are newlines before it. Its column counts the characters before it on its line, except
that at the end of the text it counts their bytes; so the position is exact if and only if the offset is before the end
or all characters of the last line take one byte. -/
theorem ofOffset_boundary (pre post : List Char) (h : (pre ++ post).getLast? ≠ some '\n') :
    ofOffset (pre ++ post) (width pre) =
        ⟨1 + pre.count '\n', 1 + if post = [] then width (lineBefore pre) else (lineBefore pre).length⟩ ∧
      (ofOffset (pre ++ post) (width pre) = ⟨1 + pre.count '\n', 1 + (lineBefore pre).length⟩ ↔
        post ≠ [] ∨ ∀ c ∈ lineBefore pre, c.utf8Size = 1) := by
  have hposition : ofOffset (pre ++ post) (width pre) =
      ⟨1 + pre.count '\n', 1 + if post = [] then width (lineBefore pre) else (lineBefore pre).length⟩ := by
    by_cases hpost : post = []
    · rw [hpost, List.append_nil] at h ⊢
      rw [ofOffset, if_pos (Nat.le_refl _), if_pos rfl, atEnd_eq h]
    · obtain ⟨c, cs, rfl⟩ := List.exists_cons_of_ne_nil hpost
      have hinside : ¬ width (pre ++ c :: cs) ≤ width pre := by
        have hpos := c.utf8Size_pos
        rw [width_append, width_cons]
        omega
      rw [ofOffset, if_neg hinside, if_neg hpost, advance_width, foldl_pass]
  refine ⟨hposition, ?_⟩
  rw [hposition, ← width_eq_length]
  by_cases hpost : post = []
  · simp [hpost]
  · simp [hpost]

/-- in `a\\né` the position in front of the last character counts characters, the one at the end bytes -/
theorem accented_positions :
    ['a', '\n', 'é'].getLast? ≠ some '\n' ∧ ofOffset ['a', '\n', 'é'] 2 = ⟨2, 1⟩ ∧
      ofOffset ['a', '\n', 'é'] 4 = ⟨2, 3⟩ :=
  ⟨by decide, (ofOffset_boundary ['a', '\n'] ['é'] (by decide)).1,
    (ofOffset_boundary ['a', '\n', 'é'] [] (by decide)).1⟩

/-- a text of one character of two bytes: its end is behind one character, not two -/
theorem accented_end_inexact :
    ['é'].getLast? ≠ some '\n' ∧
      ofOffset ['é'] (width ['é']) ≠ ⟨1 + ['é'].count '\n', 1 + (lineBefore ['é']).length⟩ := by
  refine ⟨by decide, ?_⟩
  intro hexact
  cases hexact

end Position

end C15

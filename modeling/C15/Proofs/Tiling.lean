/-
Lexing tiles the source.

One cursor goes over a source until it reaches the end, also past text that is no token. `Gap` says, without the lexer,
what stands between the pieces: white space, comments up to the end of their line, and closed comments. Each step passes
a gap and takes a piece, and both are read off the source where the cursor stands (`next_tile`), so steps follow one
another without a hole or an overlap. Results:
- `gap_spec`: what is passed in front of a piece is a gap;
- `steps_ordered`: the spans of steps lie one behind the other;
- `scan_tiles`: the steps of a source cover all of it but the gaps between them, and end with an empty span at its end.
-/
import C15.Token.Lexer
import Mathlib.Data.List.TakeWhile
import Mathlib.Tactic

namespace C15

namespace Lexer

open Text

/-! ## Gaps -/

/-- text without a token in front of `after`: white space, comments up to the end of their line, and closed comments -/
inductive Gap (after : List Char) : List Char → Prop where
  | nil : Gap after []
  | blank {c : Char} {g : List Char} (hc : isBlank c = true) (hg : Gap after g) : Gap after (c :: g)
  | line {body g : List Char} (hbody : '\n' ∉ body) (hend : ∀ c ∈ (g ++ after).head?, c = '\n') (hg : Gap after g) :
      Gap after ('/' :: '/' :: (body ++ g))
  | block {body g : List Char} (hbody : ¬ ['*', '/'] <:+: body) (hg : Gap after g) :
      Gap after ('/' :: '*' :: (body ++ '*' :: '/' :: g))

theorem Gap.blanks {after g : List Char} (hg : Gap after g) {bs : List Char} (hbs : ∀ c ∈ bs, isBlank c = true) :
    Gap after (bs ++ g) := by
  induction bs with
  | nil => exact hg
  | cons b bs ih =>
    obtain ⟨hb, hbs⟩ := List.forall_mem_cons.1 hbs
    exact .blank hb (ih hbs)

theorem blanks_takeWhile (cs : List Char) : ∀ c ∈ cs.takeWhile isBlank, isBlank c = true :=
  fun _ hc => List.mem_takeWhile_imp hc

/-- a block comment ends where it is closed for the first time -/
theorem blockComment_closed {cs body rest : List Char} (h : blockComment cs = some (body, rest)) :
    ∃ inner, body = inner ++ ['*', '/'] ∧ ¬ ['*', '/'] <:+: inner := by
  fun_induction blockComment cs generalizing body rest with
  | case1 => cases h
  | case2 cs =>
    simp only [Option.some.injEq, Prod.mk.injEq] at h
    exact ⟨[], h.1.symm, by simp⟩
  | case3 c cs hopen ih =>
    simp only [Option.map_eq_some_iff, Prod.exists, Prod.mk.injEq] at h
    obtain ⟨b, r, hb, rfl, rfl⟩ := h
    obtain ⟨inner, rfl, hinner⟩ := ih hb
    refine ⟨c :: inner, rfl, ?_⟩
    rw [List.infix_cons_iff, not_or]
    refine ⟨?_, hinner⟩
    -- a closing at the front would have been found there
    rintro ⟨more, hmore⟩
    have hcs := blockComment_append hb
    simp only [List.cons_append, List.nil_append, List.cons.injEq] at hmore
    obtain ⟨rfl, rfl⟩ := hmore
    exact hopen _ rfl hcs.symm

/-- **What is passed in front of a piece is a gap.** -/
theorem gap_spec (cs : List Char) : Gap (gap cs).2 (gap cs).1 := by
  fun_induction gap cs with
  | case1 cs blanks r h g rest hg ih =>
    have hrest : g ++ rest = r.dropWhile (· != '\n') := by simpa [hg] using gap_append (r.dropWhile (· != '\n'))
    rw [hg] at ih
    refine Gap.blanks (.line ?_ ?_ ih) (blanks_takeWhile cs)
    · intro hmem
      exact absurd (List.mem_takeWhile_imp hmem) (by simp)
    · rw [hrest]
      intro c hc
      have hhead := List.head?_dropWhile_not (· != '\n') r
      rw [Option.mem_def.1 hc] at hhead
      simpa using hhead
  | case2 cs blanks r h body r' hb g rest hg ih =>
    rw [hg] at ih
    obtain ⟨inner, rfl, hinner⟩ := blockComment_closed hb
    rw [List.append_assoc]
    exact Gap.blanks (.block hinner ih) (blanks_takeWhile cs)
  | case3 cs blanks r h hb => simpa using Gap.blanks .nil (blanks_takeWhile cs)
  | case4 cs blanks r h => simpa using Gap.blanks .nil (blanks_takeWhile cs)

/-! ## One step -/

/-- where a step found its token or error -/
def spanOf : Except (Located LexicalCause) Token → Span
  | .ok t => t.span
  | .error e => e.span

/-- characters of a source from one offset up to another, and what follows them -/
def Between (source : String) (lo hi : Nat) (text after : List Char) : Prop :=
  ∃ before, source.toList = before ++ text ++ after ∧ lo = width before ∧ hi = width (before ++ text)

/-- a cursor at its place in a source -/
def Cursor.In (c : Cursor) (source : String) : Prop :=
  ∃ before, source.toList = before ++ c.rest ∧ c.offset = width before

/-- a step from one cursor to another passes a gap and takes a text -/
structure Tile (source : String) (c : Cursor) (found : Except (Located LexicalCause) Token) (after : Cursor)
    (g text : List Char) : Prop where
  gap : Gap (text ++ after.rest) g
  passed : Between source c.offset (spanOf found).start g (text ++ after.rest)
  taken : Between source (spanOf found).start (spanOf found).stop text after.rest
  stop : (spanOf found).stop = after.offset
  lexeme : ∀ t, found = .ok t → t.lexeme = String.ofList text

theorem spanOf_next (c : Cursor) : spanOf (next c).1 = ⟨c.offset + width (gap c.rest).1, (next c).2.offset⟩ := by
  simp only [next]
  split <;> rfl

theorem lexeme_next {c : Cursor} {t : Token} (h : (next c).1 = .ok t) :
    t = ⟨t.kind, String.ofList (piece (gap c.rest).2).text, spanOf (next c).1⟩ ∧
      (piece (gap c.rest).2).found = .ok t.kind := by
  simp only [next] at h ⊢
  split at h
  · obtain rfl := Except.ok.inj h
    exact ⟨rfl, ‹_›⟩
  · cases h

/-- a step reads the source where its cursor stands -/
theorem next_tile {source : String} {c : Cursor} (hc : c.In source) :
    Tile source c (next c).1 (next c).2 (gap c.rest).1 (piece (gap c.rest).2).text := by
  obtain ⟨before, hsource, hoffset⟩ := hc
  have hrest : (piece (gap c.rest).2).text ++ (next c).2.rest = (gap c.rest).2 := piece_append _
  have hstop : (next c).2.offset = c.offset + width (gap c.rest).1 + width (piece (gap c.rest).2).text := rfl
  have hall : source.toList = before ++ (gap c.rest).1 ++ (gap c.rest).2 := by
    rw [hsource, List.append_assoc, gap_append]
  refine ⟨?_, ⟨before, ?_, hoffset, ?_⟩, ⟨before ++ (gap c.rest).1, ?_, ?_, ?_⟩, ?_, ?_⟩
  · rw [hrest]
    exact gap_spec _
  · rw [hrest, hall]
  · rw [spanOf_next, hoffset, width_append]
  · rw [List.append_assoc, hrest, hall]
  · rw [spanOf_next, hoffset, width_append]
  · rw [spanOf_next, hstop, hoffset, width_append, width_append]
  · rw [spanOf_next]
  · intro t ht
    rw [(lexeme_next ht).1]

theorem next_in_source {source : String} {c : Cursor} (hc : c.In source) : (next c).2.In source := by
  obtain ⟨before, hsource, -, hstop⟩ := (next_tile hc).taken
  exact ⟨_, hsource, by rw [← (next_tile hc).stop, hstop]⟩

/-! ## The end -/

theorem finish_ne_eof (text rest : List Char) (value : Literal) : (finish text rest value).found ≠ .ok .eof := by
  simp only [finish]
  split <;> simp

theorem finishInteger_ne_eof (text rest : List Char) (value : Nat) : (finishInteger text rest value).found ≠ .ok .eof :=
  finish_ne_eof _ _ _

theorem hexadecimal_ne_eof (mark cs : List Char) : (hexadecimal mark cs).found ≠ .ok .eof := by
  simp only [hexadecimal]
  split
  · simp
  · exact finishInteger_ne_eof _ _ _

theorem decimal_ne_eof (cs : List Char) : (decimal cs).found ≠ .ok .eof := by
  simp only [decimal]
  split
  · split
    · simp
    · split
      · exact finish_ne_eof _ _ _
      · simp
  · split
    · simp
    · exact finishInteger_ne_eof _ _ _

theorem ofWord_ne_eof (s : String) : TokenKind.ofWord s ≠ .eof := by
  unfold TokenKind.ofWord
  split
  · simp
  · split <;> simp

/-- only the end of a source is read as its end -/
theorem piece_ne_eof (c : Char) (cs : List Char) : (piece (c :: cs)).found ≠ .ok .eof := by
  simp only [piece]
  split
  · simp
  · split
    · simpa using ofWord_ne_eof _
    · split
      · exact hexadecimal_ne_eof _ _
      · split
        · exact decimal_ne_eof _
        · split <;> simp

theorem gap_ne_nil {c : Cursor} (h : isEnd (next c).1 = false) : (gap c.rest).2 ≠ [] := by
  intro hrest
  simp [next, hrest, piece, isEnd] at h

/-- a step that is no end takes at least one character -/
theorem next_text_ne_nil {c : Cursor} (h : isEnd (next c).1 = false) : (piece (gap c.rest).2).text ≠ [] := by
  obtain ⟨a, as, hrest⟩ := List.exists_cons_of_ne_nil (gap_ne_nil h)
  rw [hrest]
  exact piece_text_ne_nil a as

/-- the end is reached where nothing but a gap is left -/
theorem gap_of_isEnd {c : Cursor} (h : isEnd (next c).1 = true) : (gap c.rest).2 = [] := by
  cases hstep : (next c).1 with
  | error e =>
    rw [hstep] at h
    cases h
  | ok t =>
    rw [hstep] at h
    have hkind : t.kind = .eof := by simpa [isEnd] using h
    cases hrest : (gap c.rest).2 with
    | nil => rfl
    | cons a as =>
      have hfound := (lexeme_next hstep).2
      rw [hkind, hrest] at hfound
      exact absurd hfound (piece_ne_eof a as)

theorem next_of_isEnd {source : String} {c : Cursor} (hc : c.In source) (h : isEnd (next c).1 = true) :
    (next c).1 = .ok ⟨.eof, "", ⟨source.utf8ByteSize, source.utf8ByteSize⟩⟩ := by
  obtain ⟨before, hsource, hoffset⟩ := hc
  have hgap := gap_of_isEnd h
  have hall : c.rest = (gap c.rest).1 := by rw [← List.append_nil (gap c.rest).1, ← hgap, gap_append]
  have hwidth : c.offset + width (gap c.rest).1 = source.utf8ByteSize := by
    rw [← hall, hoffset, ← width_append, ← hsource, width_ofList, String.ofList_toList]
  simp only [next, hgap, piece, width_nil, Nat.add_zero, hwidth]

/-! ## All steps -/

/-- the cursor after a number of steps -/
def Cursor.after : Cursor → Nat → Cursor
  | c, 0 => c
  | c, k + 1 => (next c).2.after k

theorem Cursor.after_succ (c : Cursor) (k : Nat) : c.after (k + 1) = (next (c.after k)).2 := by
  induction k generalizing c with
  | zero => rfl
  | succ k ih => exact ih (next c).2

theorem Cursor.In.after {source : String} {c : Cursor} (hc : c.In source) (k : Nat) : (c.after k).In source := by
  induction k generalizing c with
  | zero => exact hc
  | succ k ih => exact ih (next_in_source hc)

theorem steps_of_isEnd {c : Cursor} (h : isEnd (next c).1 = true) : steps c = [(next c).1] := by
  rw [steps]
  exact dif_pos h

theorem steps_of_not_isEnd {c : Cursor} (h : isEnd (next c).1 = false) : steps c = (next c).1 :: steps (next c).2 := by
  rw [steps]
  exact dif_neg (Bool.eq_false_iff.1 h)

/-- what holds where the end is reached, and in front of a step if it holds behind it, holds everywhere -/
@[elab_as_elim]
theorem steps_induction {motive : Cursor → Prop} (last : ∀ c, isEnd (next c).1 = true → motive c)
    (step : ∀ c, isEnd (next c).1 = false → motive (next c).2 → motive c) (c : Cursor) : motive c := by
  induction c using steps.induct with
  | case1 c found after hnext hend => exact last c (by rwa [hnext])
  | case2 c found after hnext hend ih => exact step c (by rw [hnext]; exact Bool.eq_false_iff.2 hend) (by rwa [hnext])

/-- steps are taken one after the other, up to the first that reaches the end -/
theorem steps_eq_map (c : Cursor) :
    ∃ n, steps c = (List.range (n + 1)).map (fun k => (next (c.after k)).1) ∧
      (∀ k < n, isEnd (next (c.after k)).1 = false) ∧ isEnd (next (c.after n)).1 = true := by
  induction c using steps_induction with
  | last c hend => exact ⟨0, steps_of_isEnd hend, fun k hk => absurd hk (Nat.not_lt_zero k), hend⟩
  | step c hend ih =>
    obtain ⟨n, hsteps, hbefore, hlast⟩ := ih
    refine ⟨n + 1, ?_, ?_, hlast⟩
    · rw [steps_of_not_isEnd hend, List.range_succ_eq_map, List.map_cons, List.map_map, hsteps]
      rfl
    · intro k hk
      cases k with
      | zero => exact hend
      | succ k => exact hbefore k (Nat.lt_of_succ_lt_succ hk)

/-- a step starts where the cursor stands or behind it, and ends at the next cursor -/
theorem spanOf_next_bounds (c : Cursor) :
    c.offset ≤ (spanOf (next c).1).start ∧
      (isEnd (next c).1 = false → (spanOf (next c).1).start < (next c).2.offset) := by
  have hstop : (next c).2.offset = c.offset + width (gap c.rest).1 + width (piece (gap c.rest).2).text := rfl
  rw [spanOf_next, hstop]
  refine ⟨Nat.le_add_right _ _, fun h => ?_⟩
  obtain ⟨a, as, htext⟩ := List.exists_cons_of_ne_nil (next_text_ne_nil h)
  rw [htext, width_cons]
  exact Nat.lt_add_of_pos_right (Nat.add_pos_left a.utf8Size_pos _)

/-- **Spans of steps** lie behind the cursor, one behind the other. -/
theorem steps_ordered (c : Cursor) :
    ((steps c).map spanOf).Pairwise (fun a b => a.start < b.start ∧ a.stop ≤ b.start) ∧
      ∀ s ∈ (steps c).map spanOf, c.offset ≤ s.start := by
  induction c using steps_induction with
  | last c hend =>
    rw [steps_of_isEnd hend, List.map_singleton]
    exact ⟨List.pairwise_singleton _ _, List.forall_mem_singleton.2 (spanOf_next_bounds c).1⟩
  | step c hend ih =>
    obtain ⟨hordered, hbehind⟩ := ih
    obtain ⟨hstart, hlt⟩ := spanOf_next_bounds c
    have hstop : (spanOf (next c).1).stop = (next c).2.offset := by rw [spanOf_next]
    have hlt := hlt hend
    rw [steps_of_not_isEnd hend, List.map_cons, List.pairwise_cons, List.forall_mem_cons]
    refine ⟨⟨fun s hs => ?_, hordered⟩, hstart, fun s hs => ?_⟩
    · have := hbehind s hs
      omega
    · have := hbehind s hs
      omega

/-- the cursor in front of a source -/
def Cursor.start (source : String) : Cursor := ⟨source.toList, 0⟩

/-- the cursor of a source after a number of steps -/
def cursorAt (source : String) (k : Nat) : Cursor := (Cursor.start source).after k

/-- the step of a source behind a number of others -/
def stepAt (source : String) (k : Nat) : Except (Located LexicalCause) Token := (next (cursorAt source k)).1

/-- **Lexing tiles the source**, also across errors. The steps of one cursor up to the first that reaches the end are
the steps of the source. Each passes a gap and takes a text, read off the source between the offsets before and after
it: its span is that of the text, and a token has the text as its lexeme. Before the end the text is not empty; the
spans lie one behind the other, and the last is the empty one at the end of the source. -/
theorem scan_tiles (source : String) :
    ∃ n, scan source = (List.range (n + 1)).map (stepAt source) ∧
      (∀ k < n, isEnd (stepAt source k) = false) ∧
      stepAt source n = .ok ⟨.eof, "", ⟨source.utf8ByteSize, source.utf8ByteSize⟩⟩ ∧
      (∀ k ≤ n, ∃ g text, Tile source (cursorAt source k) (stepAt source k) (cursorAt source (k + 1)) g text ∧
        (k < n → text ≠ [] ∧ (spanOf (stepAt source k)).start < (spanOf (stepAt source k)).stop)) ∧
      ((scan source).map spanOf).Pairwise fun a b => a.start < b.start ∧ a.stop ≤ b.start := by
  obtain ⟨n, hsteps, hbefore, hlast⟩ := steps_eq_map (.start source)
  have hin : ∀ k, (cursorAt source k).In source := Cursor.In.after ⟨[], rfl, rfl⟩
  refine ⟨n, hsteps, hbefore, next_of_isEnd (hin n) hlast, ?_, (steps_ordered (.start source)).1⟩
  intro k _
  have hafter : cursorAt source (k + 1) = (next (cursorAt source k)).2 := Cursor.after_succ _ k
  have htile := next_tile (hin k)
  refine ⟨_, _, hafter ▸ htile, fun hk => ⟨next_text_ne_nil (hbefore k hk), ?_⟩⟩
  exact htile.stop ▸ (spanOf_next_bounds _).2 (hbefore k hk)

end Lexer

end C15

/-
Labels of generated code.

The labels of a construct are made from its kind and a number that no other construct has; the label of a function is
made from its name. Results:
- `lowerStmt_numbered`: the labels of a statement are distinct, and their numbers are those taken while lowering it;
- `Program.Parts.labels_nodup`: the labels of a generated program are distinct.
-/
import C15.Proofs.Lowering

namespace C15

namespace Line

/-- the labels placed by lines, in order -/
def labels (lines : List Line) : List String :=
  lines.filterMap fun
    | .label l => some l
    | _ => none

@[simp] theorem labels_nil : labels [] = [] := rfl

@[simp] theorem labels_append (xs ys : List Line) : labels (xs ++ ys) = labels xs ++ labels ys := List.filterMap_append

@[simp] theorem labels_label (l : String) (rest : List Line) : labels (.label l :: rest) = l :: labels rest := rfl

@[simp] theorem labels_instr (i : Instruction) (rest : List Line) : labels (.instr i :: rest) = labels rest := rfl

@[simp] theorem labels_reads (xs : List (VarDecl × Address)) : labels (xs.map fun x => .read x.2 x.1.name) = [] := by
  rw [labels, List.filterMap_eq_nil_iff]
  intro line hline
  obtain ⟨_, -, rfl⟩ := List.mem_map.1 hline
  rfl

@[simp] theorem labels_instrs (is : List Instruction) : labels (is.map .instr) = [] := by
  induction is with
  | nil => rfl
  | cons i rest ih => simpa using ih

end Line

namespace Codegen

/-! ## Texts of labels -/

/-- a last part without the separator is determined by the whole -/
theorem eq_of_separated {xs ys ds es : List Char} {c : Char} (hd : c ∉ ds) (he : c ∉ es)
    (h : xs ++ c :: ds = ys ++ c :: es) : xs = ys ∧ ds = es := by
  rcases List.append_eq_append_iff.1 h with ⟨as, rfl, has⟩ | ⟨as, rfl, has⟩
  · cases as with
    | nil => exact ⟨by simp, (List.cons.inj has).2⟩
    | cons a as =>
      obtain ⟨-, rfl⟩ := List.cons.inj has
      exact absurd (List.mem_append_right as List.mem_cons_self) hd
  · cases as with
    | nil => exact ⟨by simp, (List.cons.inj has).2.symm⟩
    | cons a as =>
      obtain ⟨-, rfl⟩ := List.cons.inj has
      exact absurd (List.mem_append_right as List.mem_cons_self) he

theorem toDigits_inj {m n : Nat} (h : Nat.toDigits 10 m = Nat.toDigits 10 n) : m = n := by
  calc
    m = Nat.ofDigitChars 10 (Nat.toDigits 10 m) 0 := Nat.ofDigitChars_ten_toDigits.symm
    _ = Nat.ofDigitChars 10 (Nat.toDigits 10 n) 0 := by rw [h]
    _ = n := Nat.ofDigitChars_ten_toDigits

theorem toList_label (kind : String) (n : Nat) : (label kind n).toList = kind.toList ++ '_' :: Nat.toDigits 10 n := by
  simp [label, toString, Nat.repr_eq_ofList_toDigits]

/-- a label determines its kind and its number -/
theorem label_inj {kind kind' : String} {n n' : Nat} (h : label kind n = label kind' n') : kind = kind' ∧ n = n' := by
  have hdigits (m : Nat) : '_' ∉ Nat.toDigits 10 m := by
    intro hmem
    have := Nat.isDigit_of_mem_toDigits (by decide) (by decide) hmem
    simp [Char.isDigit] at this
  have hlists := congrArg String.toList h
  rw [toList_label, toList_label] at hlists
  obtain ⟨hkind, hnumber⟩ := eq_of_separated (hdigits n) (hdigits n') hlists
  exact ⟨String.toList_inj.1 hkind, toDigits_inj hnumber⟩

/-- the kinds of labels inside functions -/
def kinds : List String :=
  ["if_end", "if_else", "while_head", "while_end", "do_body", "do_cond", "do_end", "for_head", "for_step", "for_end"]

theorem functionLabel_inj {name name' : String} (h : functionLabel name = functionLabel name') : name = name' := by
  have := congrArg String.toList h
  simp only [functionLabel, String.toList_append, List.append_cancel_left_eq] at this
  exact String.toList_inj.1 this

/-- no label inside a function is the label of a function -/
theorem functionLabel_ne_label {name kind : String} {n : Nat} (hkind : kind ∈ kinds) :
    functionLabel name ≠ label kind n := by
  intro h
  have hlists := congrArg (fun s => s.toList.take 2) h
  simp only [functionLabel, toList_label, String.toList_append] at hlists
  have hstart : ∀ k ∈ kinds, 2 ≤ k.toList.length ∧ k.toList.take 2 ≠ ['f', 'n'] := by decide
  obtain ⟨hlength, hne⟩ := hstart kind hkind
  rw [List.take_append_of_le_length hlength] at hlists
  exact hne hlists.symm

/-! ## Numbered labels -/

/-- distinct labels of constructs whose numbers lie in a range -/
structure Numbered (lo hi : Nat) (names : List String) : Prop where
  le : lo ≤ hi
  nodup : names.Nodup
  range : ∀ l ∈ names, ∃ kind ∈ kinds, ∃ n, lo ≤ n ∧ n < hi ∧ l = label kind n

namespace Numbered

theorem nil (n : Nat) : Numbered n n [] := ⟨le_refl n, List.nodup_nil, by simp⟩

theorem append {lo mid hi : Nat} {xs ys : List String} (hx : Numbered lo mid xs) (hy : Numbered mid hi ys) :
    Numbered lo hi (xs ++ ys) := by
  refine ⟨hx.le.trans hy.le, List.nodup_append.2 ⟨hx.nodup, hy.nodup, ?_⟩, ?_⟩
  · rintro l hl _ hl' rfl
    obtain ⟨kind, -, n, -, hn, rfl⟩ := hx.range l hl
    obtain ⟨kind', -, n', hn', -, heq⟩ := hy.range _ hl'
    obtain ⟨-, rfl⟩ := label_inj heq
    omega
  · intro l hl
    rcases List.mem_append.1 hl with hl | hl
    · obtain ⟨kind, hkind, n, hlo, hhi, rfl⟩ := hx.range l hl
      exact ⟨kind, hkind, n, hlo, hhi.trans_le hy.le, rfl⟩
    · obtain ⟨kind, hkind, n, hlo, hhi, rfl⟩ := hy.range l hl
      exact ⟨kind, hkind, n, hx.le.trans hlo, hhi, rfl⟩

theorem perm {lo hi : Nat} {xs ys : List String} (h : Numbered lo hi xs) (hperm : xs.Perm ys) : Numbered lo hi ys :=
  ⟨h.le, hperm.nodup_iff.1 h.nodup, fun l hl => h.range l (hperm.mem_iff.2 hl)⟩

/-- the labels of one construct -/
theorem own {ks : List String} (n : Nat) (hks : ks.Nodup) (hsub : ∀ k ∈ ks, k ∈ kinds) :
    Numbered n (n + 1) (ks.map fun k => label k n) := by
  refine ⟨Nat.le_succ n, ?_, ?_⟩
  · exact hks.map_on fun k _ k' _ h => (label_inj h).1
  · intro l hl
    obtain ⟨k, hk, rfl⟩ := List.mem_map.1 hl
    exact ⟨k, hsub k hk, n, le_refl n, Nat.lt_succ_self n, rfl⟩

end Numbered

/-! ## Labels of fragments -/

mutual

/-- the code of an expression has no labels -/
theorem lowerExpr_labels (e : Expr) {cx : Context} {slots : Slots} {used : Bool} {frag : Fragment}
    (h : lowerExpr cx slots used e = .ok frag) : Line.labels frag.lines = [] := by
  cases e with
  | literal id span value => simp [lowerExpr_literal h]
  | ident id span name =>
    obtain ⟨_, _, -, -, hlines⟩ := lowerExpr_ident h
    simp [hlines]
  | binary id span op lhs rhs =>
    obtain ⟨_, _, _, _, -, -, hl, hr, hlines⟩ := lowerExpr_binary h
    simp [hlines, lowerExpr_labels lhs hl, lowerExpr_labels rhs hr]
  | unary id span op operand =>
    obtain ⟨_, _, -, hi, hlines⟩ := lowerExpr_unary h
    simp [hlines, lowerExpr_labels operand hi]
  | update id span op targetId targetSpan target =>
    obtain ⟨_, _, _, -, -, -, hlines⟩ := lowerExpr_update h
    simp [hlines]
  | call id span callee calleeSpan args =>
    obtain ⟨_, _, -, hi, hlines⟩ := lowerExpr_call h
    simp only [hlines, Line.labels_append, Line.labels_instrs, Line.labels_instr, lowerArgs_labels args hi]
    rfl
  | intrinsic id span callee calleeSpan args =>
    obtain ⟨_, hi, hlines⟩ := lowerExpr_intrinsic h
    simp [hlines, lowerArgs_labels args hi]
  | assign id span op target targetSpan value =>
    cases op with
    | none =>
      obtain ⟨_, _, _, -, -, hi, hlines⟩ := lowerExpr_assign h
      cases used <;> simp [hlines, lowerExpr_labels value hi]
    | some op =>
      obtain ⟨_, _, _, _, _, -, -, -, -, hi, hlines⟩ := lowerExpr_compound h
      cases used <;> simp [hlines, lowerExpr_labels value hi]
  | cast id span base operand =>
    obtain ⟨_, _, _, -, -, hi, hlines⟩ := lowerExpr_cast h
    simp [hlines, lowerExpr_labels operand hi]

theorem lowerArgs_labels (args : List Expr) {cx : Context} {slots : Slots} {frag : Fragment}
    (h : lowerArgs cx slots args = .ok frag) : Line.labels frag.lines = [] := by
  cases args with
  | nil => simp [lowerArgs_nil h]
  | cons arg rest =>
    obtain ⟨_, _, hf, hr, hlines⟩ := lowerArgs_cons h
    simp [hlines, lowerExpr_labels arg hf, lowerArgs_labels rest hr]

end

theorem lowerEffect_labels {cx : Context} {slots : Slots} {e : Expr} {frag : Fragment}
    (h : lowerEffect cx slots e = .ok frag) : Line.labels frag.lines = [] := by
  rcases lowerEffect_eq_ok h with ⟨-, h⟩ | ⟨_, h, hlines⟩
  · exact lowerExpr_labels e h
  · rw [hlines, Line.labels_append, lowerExpr_labels e h]
    cases cx.info.familyOf e.id <;> rfl

theorem lowerCondition_labels {cx : Context} {slots : Slots} {e : Expr} {frag : Fragment}
    (h : lowerCondition cx slots e = .ok frag) : Line.labels frag.lines = [] := by
  obtain ⟨_, h, hlines⟩ := lowerCondition_eq_ok h
  simp [hlines, lowerExpr_labels e h]

theorem TestCode.labels {cx : Context} {slots : Slots} {exit : String} {lines : List Line} {cond : Option Expr}
    (h : TestCode cx slots exit lines cond) : Line.labels lines = [] := by
  cases cond with
  | none =>
    obtain rfl := h
    rfl
  | some e =>
    obtain ⟨_, ht, rfl⟩ := h
    simp [lowerCondition_labels ht]

/-- a construct's own labels around the labels of its parts -/
theorem Numbered.around (ks : List String) {n hi : Nat} {inner names : List String} (hks : ks.Nodup)
    (hsub : ∀ k ∈ ks, k ∈ kinds) (h : Numbered (n + 1) hi inner)
    (hperm : (ks.map (fun k => label k n) ++ inner).Perm names) : Numbered n hi names :=
  ((Numbered.own n hks hsub).append h).perm hperm

theorem lowerLocal_numbered {cx : Context} {d : VarDecl} {st st' : Storage} {frag : Fragment}
    (h : (lowerLocal cx d).run st = .ok (frag, st')) :
    Numbered st.nextLabel st'.nextLabel (Line.labels frag.lines) := by
  cases hd : d.init with
  | none =>
    obtain ⟨-, rfl, hlines⟩ := lowerLocal_declare hd h
    rw [hlines]
    exact .nil _
  | some e =>
    obtain ⟨_, he, -, rfl, hlines⟩ := lowerLocal_value hd h
    rw [hlines, Line.labels_append, lowerExpr_labels e he]
    exact .nil _

theorem lowerForInit_numbered {cx : Context} {loop : Option LoopLabels} {init : ForInit} {span : Span}
    {st st' : Storage} {frag : Fragment} (h : (lowerStmt cx loop (init.stmt span)).run st = .ok (frag, st')) :
    Numbered st.nextLabel st'.nextLabel (Line.labels frag.lines) := by
  cases init with
  | nothing =>
    obtain ⟨rfl, hlines⟩ := lowerStmt_empty h
    rw [hlines]
    exact .nil _
  | decl d =>
    simp only [ForInit.stmt, lowerStmt] at h
    exact lowerLocal_numbered h
  | expr span e =>
    obtain ⟨he, rfl⟩ := lowerStmt_expr h
    rw [lowerEffect_labels he]
    exact .nil _

theorem lowerStep_labels {cx : Context} {loop : Option LoopLabels} {step : Option Expr} {span : Span} {st st' : Storage}
    {frag : Fragment} (h : (lowerStmt cx loop (.ofStep span step)).run st = .ok (frag, st')) :
    Line.labels frag.lines = [] := by
  cases step with
  | none => rw [(lowerStmt_empty h).2, Line.labels_nil]
  | some e => exact lowerEffect_labels (lowerStmt_expr h).1

mutual

/-- the labels of a statement are distinct and have the numbers taken while it is lowered -/
theorem lowerStmt_numbered (s : Stmt) {cx : Context} {loop : Option LoopLabels} {st st' : Storage} {frag : Fragment}
    (h : (lowerStmt cx loop s).run st = .ok (frag, st')) :
    Numbered st.nextLabel st'.nextLabel (Line.labels frag.lines) := by
  cases s with
  | decl d =>
    simp only [lowerStmt] at h
    exact lowerLocal_numbered h
  | ifThen span cond yes =>
    obtain ⟨_, _, ht, hy, hlines⟩ := lowerStmt_ifThen h
    -- the own number is taken first and its label stands last: only the labels matter here, not their order
    refine .around ["if_end"] (by decide) (by decide) (lowerStmt_numbered yes hy) ?_
    simpa [hlines, ht.labels] using (List.perm_append_singleton _ _).symm
  | ifElse span cond yes no =>
    obtain ⟨_, _, _, _, ht, hy, hn, hlines⟩ := lowerStmt_ifElse h
    refine .around ["if_else", "if_end"] (by decide) (by decide)
      ((lowerStmt_numbered yes hy).append (lowerStmt_numbered no hn)) ?_
    have hskip : Line.labels (if yes.diverges then [] else [.instr (.jump .jmp (label "if_end" st.nextLabel))]) =
        [] := by
      cases yes.diverges <;> rfl
    refine List.perm_iff_count.2 fun l => ?_
    simp only [hlines, ht.labels, hskip, Line.labels_append, Line.labels_label, Line.labels_nil,
      List.map_cons, List.map_nil, List.count_append, List.count_cons, List.count_nil]
    omega
  | while_ span cond body =>
    obtain ⟨_, _, ht, hb, hlines⟩ := lowerStmt_while h
    refine .around ["while_head", "while_end"] (by decide) (by decide) (lowerStmt_numbered body hb) ?_
    simpa [hlines, ht.labels] using (List.perm_append_singleton _ _).symm
  | doWhile span body cond =>
    obtain ⟨_, _, hb, ht, hlines⟩ := lowerStmt_doWhile h
    refine .around ["do_body", "do_cond", "do_end"] (by decide) (by decide) (lowerStmt_numbered body hb) ?_
    refine List.perm_iff_count.2 fun l => ?_
    simp only [hlines, lowerCondition_labels ht, Line.labels_append, Line.labels_label, Line.labels_instr,
      Line.labels_nil, List.map_cons, List.map_nil, List.count_append, List.count_cons, List.count_nil]
    omega
  | for_ span init cond step body =>
    obtain ⟨_, _, _, _, _, hi, ht, hb, hs, hlines⟩ := lowerStmt_for h
    refine .around ["for_head", "for_step", "for_end"] (by decide) (by decide)
      ((lowerForInit_numbered hi).append (lowerStmt_numbered body hb)) ?_
    refine List.perm_iff_count.2 fun l => ?_
    simp only [hlines, ht.labels, lowerStep_labels hs, Line.labels_append, Line.labels_label, Line.labels_instr,
      Line.labels_nil, List.map_cons, List.map_nil, List.count_append, List.count_cons, List.count_nil]
    omega
  | break_ span =>
    obtain ⟨_, -, rfl, hlines⟩ := lowerStmt_break h
    rw [hlines]
    exact .nil _
  | continue_ span =>
    obtain ⟨_, -, rfl, hlines⟩ := lowerStmt_continue h
    rw [hlines]
    exact .nil _
  | return_ span value =>
    cases value with
    | none =>
      obtain ⟨rfl, hlines⟩ := lowerStmt_return h
      rw [hlines]
      exact .nil _
    | some e =>
      obtain ⟨_, _, _, -, -, he, rfl, hlines⟩ := lowerStmt_returnValue h
      rw [hlines, Line.labels_append, lowerExpr_labels e he]
      exact .nil _
  | expr span e =>
    obtain ⟨he, rfl⟩ := lowerStmt_expr h
    rw [lowerEffect_labels he]
    exact .nil _
  | block span body =>
    simp only [lowerStmt] at h
    exact lowerStmts_numbered body h
  | empty span =>
    obtain ⟨rfl, hlines⟩ := lowerStmt_empty h
    rw [hlines]
    exact .nil _

theorem lowerStmts_numbered (ss : List Stmt) {cx : Context} {loop : Option LoopLabels} {st st' : Storage}
    {frag : Fragment} (h : (lowerStmts cx loop ss).run st = .ok (frag, st')) :
    Numbered st.nextLabel st'.nextLabel (Line.labels frag.lines) := by
  cases ss with
  | nil =>
    obtain ⟨rfl, hlines⟩ := lowerStmts_nil h
    rw [hlines]
    exact .nil _
  | cons s rest =>
    cases hs : s.diverges with
    | true =>
      obtain ⟨_, hf, hlines⟩ := lowerStmts_cons_diverges hs h
      rw [hlines]
      exact lowerStmt_numbered s hf
    | false =>
      obtain ⟨_, _, _, hf, hm, hlines⟩ := lowerStmts_cons hs h
      rw [hlines, Line.labels_append]
      exact (lowerStmt_numbered s hf).append (lowerStmts_numbered rest hm)

end

/-! ## Labels of a program -/

theorem lowerGlobals_labels {cx : Context} (gs : List (VarDecl × Address)) {st st' : Storage} {frag : Fragment}
    (h : (lowerGlobals cx gs).run st = .ok (frag, st')) : Line.labels frag.lines = [] := by
  induction gs generalizing frag with
  | nil => rw [(lowerGlobals_nil h).2, Line.labels_nil]
  | cons g rest ih =>
    obtain ⟨d, a⟩ := g
    cases hd : d.init with
    | none =>
      obtain ⟨_, hm, hlines⟩ := lowerGlobals_zero hd h
      rw [hlines, Line.labels_instr, ih hm]
    | some e =>
      obtain ⟨_, _, he, hm, hlines⟩ := lowerGlobals_value hd h
      rw [hlines, Line.labels_append, Line.labels_instr, lowerExpr_labels e he, ih hm, List.append_nil]

/-- the labels of functions: their own and the numbered ones inside -/
theorem lowerFunctions_labels {cx : Context} (fs : List FunctionDecl) {st st' : Storage} {frag : Fragment}
    (h : (lowerFunctions cx fs).run st = .ok (frag, st')) :
    ∃ inner, Numbered st.nextLabel st'.nextLabel inner ∧
      (fs.map (fun f => functionLabel f.name) ++ inner).Perm (Line.labels frag.lines) := by
  induction fs generalizing st frag with
  | nil =>
    obtain ⟨rfl, hlines⟩ := lowerFunctions_nil h
    rw [hlines]
    exact ⟨[], .nil _, List.Perm.refl _⟩
  | cons f rest ih =>
    obtain ⟨first, _, more, hf, hm, hlines⟩ := lowerFunctions_cons h
    obtain ⟨body, hb, hfirst⟩ := lowerFunction_eq_ok hf
    obtain ⟨inner, hinner, hperm⟩ := ih hm
    refine ⟨_, (lowerStmts_numbered f.body hb).append hinner, List.perm_iff_count.2 fun l => ?_⟩
    have hlast : Line.labels (if Stmt.anyDiverges f.body then [] else [.instr (.bare .rtn)]) = [] := by
      cases Stmt.anyDiverges f.body <;> rfl
    have hcount := List.perm_iff_count.1 hperm l
    simp only [hlines, hfirst, hlast, Line.labels_append, Line.labels_label, List.map_cons, List.count_append,
      List.count_cons, List.count_nil] at hcount ⊢
    omega

end Codegen

/-- **Labels of a generated program are distinct.** -/
theorem Program.Parts.labels_nodup {p : Program} {info : TypeInfo} {out : Generated} (parts : p.Parts info out)
    (hnames : (p.functions.map (·.name)).Nodup) : (Line.labels out.lines).Nodup := by
  obtain ⟨inner, hinner, hperm⟩ := Codegen.lowerFunctions_labels p.functions parts.lowerFunctions
  have hlabels : Line.labels out.lines = Line.labels parts.functions.lines := by
    simp [parts.lines, Codegen.lowerGlobals_labels _ parts.lowerGlobals]
  rw [hlabels]
  refine hperm.nodup_iff.1 (List.nodup_append.2 ⟨?_, hinner.nodup, ?_⟩)
  · have := hnames.map fun _ _ h => Codegen.functionLabel_inj h
    rwa [List.map_map] at this
  · intro l hl l' hl' heq
    obtain ⟨f, -, rfl⟩ := List.mem_map.1 hl
    obtain ⟨kind, hkind, n, -, -, rfl⟩ := hinner.range l' hl'
    exact Codegen.functionLabel_ne_label hkind heq

end C15

/-
Warnings about recursion are exact.

Parameters and locals have fixed addresses, so a call that leads back to the function it stands in overwrites what that
function still needs. The generator warns about a call with code if a path leads from what is called to the function, in
the graph of all calls of all bodies. The spans of calls are different, so the warnings at the span of a call are about
that call.

Results:
- `Codegen.lowerExpr_performs`, `Codegen.lowerStmt_performs`: code calls what the calls it was generated for call, once
  for each;
- `Program.Parts.callsIn_iff`: the code of one function calls another exactly if there is such a call in its body;
- `Program.recursion_eq`, `Program.sites_apart`: warnings stand for calls that lead back, and their spans keep them
  apart;
- `generate_warns_recursion`: warnings are exact, and code without them has no cycle of calls.
-/
import C15.Proofs.Assembling
import C15.Proofs.CallPaths
import C15.Proofs.ControlFlow
import C15.Proofs.SourceSpans

namespace C15

/-! ## Calls in code -/

namespace Codegen

/-- code that calls what some calls call, once for each -/
def Performs (sites : List CallSite) (lines : List Line) : Prop :=
  (Line.calls lines).Perm (sites.map fun c => functionLabel c.callee)

namespace Performs

variable {cs ds : List CallSite} {xs ys : List Line}

theorem append (hx : Performs cs xs) (hy : Performs ds ys) : Performs (cs ++ ds) (xs ++ ys) := by
  unfold Performs
  rw [Line.calls_append, List.map_append]
  exact List.Perm.append hx hy

theorem silent (h : Line.calls xs = []) : Performs [] xs := .of_eq h

theorem label (hx : Performs cs xs) (t : String) : Performs cs (.label t :: xs) := hx

/-- code without calls behind -/
theorem snoc (hx : Performs cs xs) (h : Line.calls ys = []) : Performs cs (xs ++ ys) := by
  rw [← List.append_nil cs]
  exact hx.append (silent h)

/-- the call comes behind the calls in its arguments -/
theorem call (hx : Performs cs xs) (c : CallSite) :
    Performs (c :: cs) (xs ++ [.instr (.jump .call (functionLabel c.callee))]) := by
  unfold Performs
  rw [Line.calls_append, List.map_cons]
  exact (List.perm_append_singleton _ _).trans (List.Perm.cons _ hx)

end Performs

section Expr

variable {cx : Context} {slots : Slots}

mutual

theorem lowerExpr_performs (e : Expr) {used : Bool} {frag : Fragment} (h : lowerExpr cx slots used e = .ok frag) :
    Performs e.sites frag.lines := by
  cases e with
  | literal id span value =>
    rw [lowerExpr_literal h]
    exact .silent rfl
  | ident id span name =>
    obtain ⟨_, _, -, -, hlines⟩ := lowerExpr_ident h
    rw [hlines]
    exact .silent rfl
  | binary id span op lhs rhs =>
    obtain ⟨_, _, _, _, -, -, hl, hr, hlines⟩ := lowerExpr_binary h
    rw [hlines]
    exact ((lowerExpr_performs lhs hl).append (lowerExpr_performs rhs hr)).snoc rfl
  | unary id span op operand =>
    obtain ⟨_, _, -, hi, hlines⟩ := lowerExpr_unary h
    rw [hlines]
    exact (lowerExpr_performs operand hi).snoc (by cases op <;> rfl)
  | update id span op targetId targetSpan target =>
    obtain ⟨_, _, _, -, -, -, hlines⟩ := lowerExpr_update h
    rw [hlines]
    exact .silent (by cases op <;> cases used <;> rfl)
  | call id span callee calleeSpan args =>
    obtain ⟨frame, _, -, hi, hlines⟩ := lowerExpr_call h
    rw [hlines]
    have hresult : Line.calls ((if used then frame.result.toList.map pushA else []).map .instr) = [] := by
      cases used <;> cases frame.result <;> rfl
    exact (((lowerArgs_performs args hi).snoc (silent_pops _).2).call ⟨span, callee⟩).snoc hresult
  | intrinsic id span callee calleeSpan args =>
    obtain ⟨_, hi, hlines⟩ := lowerExpr_intrinsic h
    rw [hlines]
    exact (lowerArgs_performs args hi).snoc (by cases callee <;> rfl)
  | assign id span op target targetSpan value =>
    cases op with
    | none =>
      obtain ⟨_, a, _, -, -, hi, hlines⟩ := lowerExpr_assign h
      rw [hlines]
      exact ((lowerExpr_performs value hi).snoc rfl).snoc (by cases used <;> rfl)
    | some op =>
      obtain ⟨_, a, _, i, _, -, -, -, -, hi, hlines⟩ := lowerExpr_compound h
      rw [hlines]
      have hloaded : Performs value.sites (.instr (pushA a) :: _) := lowerExpr_performs value hi
      exact (hloaded.snoc rfl).snoc (by cases used <;> rfl)
  | cast id span base operand =>
    obtain ⟨source, target, _, -, -, hi, hlines⟩ := lowerExpr_cast h
    rw [hlines]
    exact (lowerExpr_performs operand hi).snoc (by cases source.conversion target <;> rfl)

theorem lowerArgs_performs (args : List Expr) {frag : Fragment} (h : lowerArgs cx slots args = .ok frag) :
    Performs (Expr.sitesOf args) frag.lines := by
  cases args with
  | nil =>
    rw [lowerArgs_nil h]
    exact .silent rfl
  | cons arg rest =>
    obtain ⟨_, _, hf, hr, hlines⟩ := lowerArgs_cons h
    rw [hlines]
    exact (lowerExpr_performs arg hf).append (lowerArgs_performs rest hr)

end

theorem lowerEffect_performs {e : Expr} {frag : Fragment} (h : lowerEffect cx slots e = .ok frag) :
    Performs e.sites frag.lines := by
  rcases lowerEffect_eq_ok h with ⟨-, h⟩ | ⟨_, h, hlines⟩
  · exact lowerExpr_performs e h
  · rw [hlines]
    exact (lowerExpr_performs e h).snoc (by cases cx.info.familyOf e.id <;> rfl)

theorem lowerCondition_performs {e : Expr} {frag : Fragment} (h : lowerCondition cx slots e = .ok frag) :
    Performs e.sites frag.lines := by
  obtain ⟨_, h, hlines⟩ := lowerCondition_eq_ok h
  rw [hlines]
  exact (lowerExpr_performs e h).snoc rfl

theorem TestCode.performs {exit : String} {lines : List Line} {cond : Option Expr}
    (h : TestCode cx slots exit lines cond) : Performs (Expr.optionalSites cond) lines := by
  cases cond with
  | none =>
    obtain rfl := h
    exact .silent rfl
  | some e =>
    obtain ⟨_, ht, rfl⟩ := h
    exact (lowerCondition_performs ht).snoc rfl

end Expr

section Stmt

variable {cx : Context}

theorem lowerLocal_performs {d : VarDecl} {st st' : Storage} {frag : Fragment}
    (h : (lowerLocal cx d).run st = .ok (frag, st')) : Performs d.sites frag.lines := by
  unfold VarDecl.sites
  cases hd : d.init with
  | none =>
    obtain ⟨-, -, hlines⟩ := lowerLocal_declare hd h
    rw [hlines]
    exact .silent rfl
  | some e =>
    obtain ⟨_, he, -, -, hlines⟩ := lowerLocal_value hd h
    rw [hlines]
    exact (lowerExpr_performs e he).snoc rfl

theorem lowerForInit_performs {loop : Option LoopLabels} {init : ForInit} {span : Span} {st st' : Storage}
    {frag : Fragment} (h : (lowerStmt cx loop (init.stmt span)).run st = .ok (frag, st')) :
    Performs init.sites frag.lines := by
  cases init with
  | nothing =>
    rw [(lowerStmt_empty h).2]
    exact .silent rfl
  | decl d =>
    simp only [ForInit.stmt, lowerStmt] at h
    exact lowerLocal_performs h
  | expr span e => exact lowerEffect_performs (lowerStmt_expr h).1

theorem lowerStep_performs {loop : Option LoopLabels} {step : Option Expr} {span : Span} {st st' : Storage}
    {frag : Fragment} (h : (lowerStmt cx loop (.ofStep span step)).run st = .ok (frag, st')) :
    Performs (Expr.optionalSites step) frag.lines := by
  cases step with
  | none =>
    rw [(lowerStmt_empty h).2]
    exact .silent rfl
  | some e => exact lowerEffect_performs (lowerStmt_expr h).1

mutual

theorem lowerStmt_performs (s : Stmt) {loop : Option LoopLabels} {st st' : Storage} {frag : Fragment}
    (h : (lowerStmt cx loop s).run st = .ok (frag, st')) : Performs s.lowered frag.lines := by
  cases s with
  | decl d =>
    simp only [lowerStmt] at h
    exact lowerLocal_performs h
  | ifThen span cond yes =>
    obtain ⟨_, _, ht, hy, hlines⟩ := lowerStmt_ifThen h
    rw [hlines]
    exact (ht.performs.append (lowerStmt_performs yes hy)).snoc rfl
  | ifElse span cond yes no =>
    obtain ⟨_, _, _, _, ht, hy, hn, hlines⟩ := lowerStmt_ifElse h
    rw [hlines]
    have hskip : Line.calls (if yes.diverges then [] else [.instr (.jump .jmp (label "if_end" st.nextLabel))]) =
        [] := by
      cases yes.diverges <;> rfl
    have htaken := (ht.performs.append (lowerStmt_performs yes hy)).snoc hskip
    exact (htaken.append ((lowerStmt_performs no hn).label _)).snoc rfl
  | while_ span cond body =>
    obtain ⟨_, _, ht, hb, hlines⟩ := lowerStmt_while h
    rw [hlines]
    exact ((ht.performs.label _).append (lowerStmt_performs body hb)).snoc rfl
  | doWhile span body cond =>
    obtain ⟨_, _, hb, ht, hlines⟩ := lowerStmt_doWhile h
    rw [hlines]
    exact (((lowerStmt_performs body hb).label _).append ((lowerCondition_performs ht).label _)).snoc rfl
  | for_ span init cond step body =>
    obtain ⟨_, _, _, _, _, hi, ht, hb, hs, hlines⟩ := lowerStmt_for h
    rw [hlines]
    have hhead := (lowerForInit_performs hi).append (ht.performs.label (label "for_head" st.nextLabel))
    exact ((hhead.append (lowerStmt_performs body hb)).append ((lowerStep_performs hs).label _)).snoc rfl
  | break_ span =>
    obtain ⟨_, -, -, hlines⟩ := lowerStmt_break h
    rw [hlines]
    exact .silent rfl
  | continue_ span =>
    obtain ⟨_, -, -, hlines⟩ := lowerStmt_continue h
    rw [hlines]
    exact .silent rfl
  | return_ span value =>
    cases value with
    | none =>
      rw [(lowerStmt_return h).2]
      exact .silent rfl
    | some e =>
      obtain ⟨_, _, _, -, -, he, -, hlines⟩ := lowerStmt_returnValue h
      rw [hlines]
      exact (lowerExpr_performs e he).snoc rfl
  | expr span e => exact lowerEffect_performs (lowerStmt_expr h).1
  | block span body =>
    simp only [lowerStmt] at h
    exact lowerStmts_performs body h
  | empty span =>
    rw [(lowerStmt_empty h).2]
    exact .silent rfl

theorem lowerStmts_performs (ss : List Stmt) {loop : Option LoopLabels} {st st' : Storage} {frag : Fragment}
    (h : (lowerStmts cx loop ss).run st = .ok (frag, st')) : Performs (Stmt.loweredOf ss) frag.lines := by
  cases ss with
  | nil =>
    rw [(lowerStmts_nil h).2]
    exact .silent rfl
  | cons s rest =>
    cases hs : s.diverges with
    | true =>
      obtain ⟨_, hf, hlines⟩ := lowerStmts_cons_diverges hs h
      rw [hlines, Stmt.loweredOf, hs, if_pos rfl, List.append_nil]
      exact lowerStmt_performs s hf
    | false =>
      obtain ⟨_, _, _, hf, hm, hlines⟩ := lowerStmts_cons hs h
      rw [hlines, Stmt.loweredOf, hs]
      exact (lowerStmt_performs s hf).append (lowerStmts_performs rest hm)

end

/-- a function calls what the calls of its body with code call -/
theorem IsCodeOf.performs {f : FunctionDecl} {code : List Line} (h : IsCodeOf cx f code) : Performs f.lowered code := by
  obtain ⟨_, _, _, hf, hlines⟩ := h
  obtain ⟨_, hb, hfirst⟩ := lowerFunction_eq_ok hf
  rw [hlines, List.cons_append] at hfirst
  rw [(List.cons.inj hfirst).2]
  exact (lowerStmts_performs f.body hb).snoc (by cases Stmt.anyDiverges f.body <;> rfl)

end Stmt

end Codegen

/-- the code of one function calls another -/
def Line.CallsIn (lines : List Line) (caller callee : String) : Prop :=
  ∃ (start i : Nat) (l : Line), lines[start]? = some (.label (Codegen.functionLabel caller)) ∧
    InFunction lines start i ∧ lines[i]? = some l ∧ l.call? = some (Codegen.functionLabel callee)

namespace Program.Parts

open Codegen

variable {p : Program} {info : TypeInfo} {out : Generated}

/-- the lines that belong to a function are those of its code -/
theorem block_of_inFunction (parts : p.Parts info out) {start i : Nat} {name : String}
    (hstart : out.lines[start]? = some (.label (functionLabel name))) (hi : Line.InFunction out.lines start i) :
    ∃ f ∈ p.functions, f.name = name ∧
      ∃ before code after, out.lines = before ++ (.label (functionLabel f.name) :: code) ++ after ∧
      IsCodeOf ⟨info, .ofFunctions p.functions, parts.frames, ""⟩ f code ∧ start = before.length ∧
      ∃ k ≤ code.length, i = before.length + k := by
  have hentry : parts.entryLines.length < i := Nat.lt_of_lt_of_le (parts.entry_lt_label hstart) hi.le
  obtain ⟨f, hf, before, code, after, hlines, hcode, k, hk, rfl⟩ := parts.exists_block hentry hi.lt
  have hlabel := Line.Sealed.getElem?_start hlines
  -- the label of the block that holds line `i` is the last function label up to `i`, and so is `start`
  have heq : start = before.length := by
    rcases Nat.lt_trichotomy start before.length with hlt | heq | hlt
    · exact absurd hlabel (hi.same _ hlt (Nat.le_add_right _ _) f.name)
    · exact heq
    · obtain ⟨m, rfl⟩ : ∃ m, start = before.length + (m + 1) := ⟨start - before.length - 1, by omega⟩
      have hle := hi.le
      rw [Line.Sealed.getElem?_block hlines (by omega)] at hstart
      exact absurd (Line.mem_labels.2 (List.mem_of_getElem? hstart)) (hcode.sealed.inner name)
  subst heq
  have hname := functionLabel_inj (Line.label.inj (Option.some.inj (hlabel.symm.trans hstart)))
  exact ⟨f, hf, hname, before, code, after, hlines, hcode, rfl, k, hk, rfl⟩

/-- **Calls between functions** are those of their bodies that have code. -/
theorem callsIn_iff (parts : p.Parts info out) (hnames : (p.functions.map (·.name)).Nodup) {caller callee : String} :
    Line.CallsIn out.lines caller callee ↔ ∃ f ∈ p.functions, f.name = caller ∧ ∃ c ∈ f.lowered, c.callee = callee := by
  constructor
  · rintro ⟨start, i, l, hstart, hin, hl, hcall⟩
    obtain ⟨f, hf, hname, before, code, after, hlines, hcode, rfl, k, hk, rfl⟩ := parts.block_of_inFunction hstart hin
    refine ⟨f, hf, hname, ?_⟩
    rcases k with _ | k
    · rw [Nat.add_zero, hstart] at hl
      obtain rfl := Option.some.inj hl
      cases hcall
    · rw [Line.Sealed.getElem?_block hlines hk] at hl
      have hmem : functionLabel callee ∈ Line.calls code := List.mem_filterMap.2 ⟨l, List.mem_of_getElem? hl, hcall⟩
      obtain ⟨c, hc, hlabel⟩ := List.mem_map.1 (hcode.performs.mem_iff.1 hmem)
      exact ⟨c, hc, functionLabel_inj hlabel⟩
  · rintro ⟨f, hf, rfl, c, hc, rfl⟩
    obtain ⟨start, hstart⟩ := parts.exists_start hf
    have hself : Line.InFunction out.lines start start :=
      ⟨Nat.le_refl _, (List.getElem?_eq_some_iff.1 hstart).1, fun k hlt hle => absurd hlt (Nat.not_lt.2 hle)⟩
    obtain ⟨g, hg, hname, before, code, after, hlines, hcode, rfl, -⟩ := parts.block_of_inFunction hstart hself
    obtain rfl : g = f := List.inj_on_of_nodup_map hnames hg hf hname
    have hmem : functionLabel c.callee ∈ Line.calls code := hcode.performs.mem_iff.2 (List.mem_map.2 ⟨c, hc, rfl⟩)
    obtain ⟨l, hl, hcall⟩ := List.mem_filterMap.1 hmem
    obtain ⟨k, hk⟩ := List.mem_iff_getElem?.1 hl
    have hlt : k < code.length := (List.getElem?_eq_some_iff.1 hk).1
    refine ⟨before.length, before.length + (k + 1), l, hstart, hcode.sealed.inFunction hlines hlt, ?_, hcall⟩
    rw [Line.Sealed.getElem?_block hlines hlt, hk]

end Program.Parts

/-! ## Calls that lead back -/

mutual

theorem Stmt.lowered_sublist (s : Stmt) : s.lowered.Sublist s.sites := by
  cases s with
  | decl | return_ | expr | break_ | continue_ | empty => exact .refl _
  | ifThen span cond yes => exact yes.lowered_sublist.append_left _
  | ifElse span cond yes no => exact (yes.lowered_sublist.append_left _).append no.lowered_sublist
  | for_ span init cond step body => exact (body.lowered_sublist.append_left _).append_right _
  | while_ span cond body => exact body.lowered_sublist.append_left _
  | doWhile span body cond => exact body.lowered_sublist.append_right _
  | block span body => exact Stmt.loweredOf_sublist body

theorem Stmt.loweredOf_sublist (ss : List Stmt) : (Stmt.loweredOf ss).Sublist (Stmt.sitesOf ss) := by
  cases ss with
  | nil => exact .refl _
  | cons s rest =>
    refine s.lowered_sublist.append ?_
    cases s.diverges with
    | true => exact List.nil_sublist _
    | false => exact Stmt.loweredOf_sublist rest

end

theorem FunctionDecl.lowered_sublist (f : FunctionDecl) : f.lowered.Sublist f.sites := Stmt.loweredOf_sublist f.body

theorem CallGraph.reaches_iff_calls {fs : List FunctionDecl} (hnames : (fs.map (·.name)).Nodup)
    {source target : String} :
    (ofFunctions fs).reaches source target = true ↔ Relation.ReflTransGen (Calls fs) source target := by
  have hedges : (ofFunctions fs).Edge = Calls fs := by
    funext caller callee
    exact propext (edge_iff hnames)
  rw [reaches_iff, Leads, hedges]

namespace Program

variable {p : Program}

/-- the calls with code that lead back to the function they stand in -/
def leadingBack (p : Program) : List CallSite :=
  p.functions.flatMap fun f => f.lowered.filter fun c => (CallGraph.ofFunctions p.functions).reaches c.callee f.name

/-- some calls of every function, in the order of the program -/
theorem flatMap_functions_sublist {pick : FunctionDecl → List CallSite} (hpick : ∀ f, (pick f).Sublist f.sites) :
    (p.functions.flatMap pick).Sublist p.sites := by
  obtain ⟨items, span⟩ := p
  unfold functions sites
  induction items with
  | nil => exact .refl _
  | cons i items ih =>
    cases i with
    | function f => exact (hpick f).append ih
    | global d => exact ih.trans (List.sublist_append_right _ _)

theorem leadingBack_sublist (p : Program) : p.leadingBack.Sublist p.sites :=
  flatMap_functions_sublist fun f => List.filter_sublist.trans f.lowered_sublist

/-- calls of one span are one call, in one item -/
theorem sites_apart (h : (starts p.sites).Nodup) {i j : Item} (hi : i ∈ p.items) (hj : j ∈ p.items) {c e : CallSite}
    (hc : c ∈ i.sites) (he : e ∈ j.sites) (hspan : c.span = e.span) : i = j ∧ c = e := by
  have hstart : c.span.start = e.span.start := congrArg Span.start hspan
  refine ⟨?_, List.inj_on_of_nodup_map h (List.mem_flatMap.2 ⟨i, hi, hc⟩) (List.mem_flatMap.2 ⟨j, hj, he⟩) hstart⟩
  by_contra hne
  rw [starts, sites, List.map_flatMap, List.nodup_flatMap] at h
  have hsymm : Std.Symm (Function.onFun List.Disjoint fun i : Item => i.sites.map (·.span.start)) :=
    ⟨fun _ _ hd => hd.symm⟩
  exact h.2.forall hi hj hne (List.mem_map.2 ⟨c, hc, rfl⟩) (List.mem_map.2 ⟨e, he, hstart.symm⟩)

/-- names of functions are not empty, so nothing leads back to the entry code -/
theorem not_reaches_entry {info : TypeInfo} (hrec : p.Recorded info) (hwf : p.WellFormed .source) {c : CallSite}
    (hc : c ∈ p.sites) : (CallGraph.ofFunctions p.functions).reaches c.callee "" = false := by
  have hcallee : ∀ e ∈ p.sites, e.callee ≠ "" := by
    intro e he hempty
    obtain ⟨f, hf, hname⟩ := hrec.callee_mem he
    have hspelled : IsName f.name := (hwf.spelled _ (mem_functions.1 hf)).1
    rw [hname, hempty] at hspelled
    exact absurd hspelled (by decide)
  -- a path to the entry code would have a last call, and that would call a function without a name
  rw [Bool.eq_false_iff]
  intro h
  rcases ((CallGraph.reaches_iff_calls hrec.names).1 h).cases_tail with hempty | ⟨caller, -, f, hf, -, e, he, hempty⟩
  · exact hcallee c hc hempty.symm
  · exact hcallee e (List.mem_flatMap.2 ⟨_, mem_functions.1 hf, he⟩) hempty

theorem recursion_eq {info : TypeInfo} (hrec : p.Recorded info) (hwf : p.WellFormed .source) :
    p.recursion = p.leadingBack.map CallSite.warning := by
  have hglobals : (CallGraph.ofFunctions p.functions).recursion "" (p.globals.flatMap VarDecl.sites) = [] := by
    rw [CallGraph.recursion, List.map_eq_nil_iff, List.filter_eq_nil_iff]
    intro c hc
    obtain ⟨d, hd, hc⟩ := List.mem_flatMap.1 hc
    rw [not_reaches_entry hrec hwf (List.mem_flatMap.2 ⟨_, mem_globals.1 hd, hc⟩)]
    exact Bool.false_ne_true
  rw [recursion, hglobals, List.nil_append, leadingBack, List.map_flatMap]
  rfl

theorem mem_leadingBack {c : CallSite} :
    c ∈ p.leadingBack ↔
      ∃ f ∈ p.functions, c ∈ f.lowered ∧ (CallGraph.ofFunctions p.functions).reaches c.callee f.name = true := by
  simp only [leadingBack, List.mem_flatMap, List.mem_filter]

/-- of the calls that lead back, those at the span of a call are that call, or none -/
theorem filter_leadingBack (h : (starts p.sites).Nodup) {f : FunctionDecl} (hf : f ∈ p.functions) {c : CallSite}
    (hc : c ∈ f.lowered) :
    p.leadingBack.filter (fun e => e.span = c.span) =
      if (CallGraph.ofFunctions p.functions).reaches c.callee f.name then [c] else [] := by
  have hsite := f.lowered_sublist.subset hc
  have hsame {g : FunctionDecl} (hg : g ∈ p.functions) {e : CallSite} (he : e ∈ g.lowered) (hspan : e.span = c.span) :
      g = f ∧ e = c := by
    obtain ⟨hitem, heq⟩ :=
      sites_apart h (mem_functions.1 hg) (mem_functions.1 hf) (g.lowered_sublist.subset he) hsite hspan
    exact ⟨Item.function.inj hitem, heq⟩
  have hfilter : p.leadingBack.filter (fun e => e.span = c.span) = p.leadingBack.filter (fun e => e = c) := by
    refine List.filter_congr fun e he => ?_
    obtain ⟨g, hg, hlowered, -⟩ := mem_leadingBack.1 he
    refine decide_eq_decide.2 ⟨fun hspan => (hsame hg hlowered hspan).2, fun heq => by rw [heq]⟩
  have hnodup : p.leadingBack.Nodup := (List.Nodup.of_map _ h).sublist p.leadingBack_sublist
  rw [hfilter, List.filter_eq, hnodup.count]
  cases hreaches : (CallGraph.ofFunctions p.functions).reaches c.callee f.name with
  | true =>
    rw [if_pos (mem_leadingBack.2 ⟨f, hf, hc, hreaches⟩)]
    rfl
  | false =>
    rw [if_neg]
    · rfl
    · intro hmem
      obtain ⟨g, hg, hlowered, hback⟩ := mem_leadingBack.1 hmem
      rw [(hsame hg hlowered rfl).1, hreaches] at hback
      cases hback

end Program

/-- the warnings about recursion at a span -/
def Generated.recursionAt (g : Generated) (span : Span) : List Diagnostic :=
  (g.warnings.filter Diagnostic.isRecursion).filter fun w => w.location = some ⟨.source, span⟩

/-- the warnings about recursion are about the calls that lead back, and calls have different spans -/
structure Program.Warned (p : Program) (out : Generated) : Prop where
  recursion : out.warnings.filter Diagnostic.isRecursion = p.leadingBack.map CallSite.warning
  apart : (starts p.sites).Nodup

namespace Program.Warned

variable {p : Program} {out : Generated}

theorem recursionAt_eq (h : p.Warned out) (span : Span) :
    out.recursionAt span = (p.leadingBack.filter fun c => c.span = span).map CallSite.warning := by
  rw [Generated.recursionAt, h.recursion, List.filter_map]
  refine congrArg _ (List.filter_congr fun c _ => ?_)
  refine decide_eq_decide.2 ⟨fun heq => ?_, fun heq => by rw [← heq]; rfl⟩
  exact (Location.mk.inj (Option.some.inj heq)).2

/-- a call with code is warned about once, or not at all -/
theorem at_call (h : p.Warned out) {f : FunctionDecl} (hf : f ∈ p.functions) {c : CallSite} (hc : c ∈ f.lowered) :
    out.recursionAt c.span = if (CallGraph.ofFunctions p.functions).reaches c.callee f.name
      then [c.warning] else [] := by
  rw [h.recursionAt_eq, filter_leadingBack h.apart hf hc]
  cases (CallGraph.ofFunctions p.functions).reaches c.callee f.name <;> rfl

/-- calls in the initializers of globals are not warned about -/
theorem at_global (h : p.Warned out) {d : VarDecl} (hd : d ∈ p.globals) {c : CallSite} (hc : c ∈ d.sites) :
    out.recursionAt c.span = [] := by
  rw [h.recursionAt_eq, List.map_eq_nil_iff, List.filter_eq_nil_iff]
  intro e he hspan
  obtain ⟨f, hf, hlowered, -⟩ := mem_leadingBack.1 he
  obtain ⟨hitem, -⟩ :=
    sites_apart h.apart (mem_functions.1 hf) (mem_globals.1 hd) (f.lowered_sublist.subset hlowered) hc
    (of_decide_eq_true hspan)
  cases hitem

/-- code in which no call is warned about has no cycle of calls -/
theorem acyclic (h : p.Warned out) {info : TypeInfo} (parts : p.Parts info out)
    (hnames : (p.functions.map (·.name)).Nodup) (hquiet : ∀ w ∈ out.warnings, w.isRecursion = false) (name : String) :
    ¬ Relation.TransGen (Line.CallsIn out.lines) name name := by
  intro hcycle
  obtain ⟨callee, hfirst, hpath⟩ := Relation.TransGen.head'_iff.1 hcycle
  obtain ⟨f, hf, rfl, c, hc, rfl⟩ := (parts.callsIn_iff hnames).1 hfirst
  -- the first call of the cycle has code, and the others are at least calls of bodies: it leads back
  have hcalls : ∀ a b, Line.CallsIn out.lines a b → Calls p.functions a b := by
    intro a b hab
    obtain ⟨g, hg, hname, e, he, hcallee⟩ := (parts.callsIn_iff hnames).1 hab
    exact ⟨g, hg, hname, e, g.lowered_sublist.subset he, hcallee⟩
  have hreaches := (CallGraph.reaches_iff_calls hnames).2 (Relation.ReflTransGen.mono hcalls _ _ hpath)
  have hwarning : c.warning ∈ out.warnings.filter Diagnostic.isRecursion := by
    rw [h.recursion]
    exact List.mem_map_of_mem (mem_leadingBack.2 ⟨f, hf, hc, hreaches⟩)
  obtain ⟨hmem, hrecursion⟩ := List.mem_filter.1 hwarning
  rw [hquiet _ hmem] at hrecursion
  cases hrecursion

end Program.Warned

theorem warned_of_source {source : String} {tokens : List Token} {p : Program} {info : TypeInfo} {out : Generated}
    (htokens : Lexer.tokenize source = .ok tokens) (hparse : Program.parse tokens = .ok p) (hcheck : p.check = .ok info)
    (hgen : p.generate info = .ok out) : p.Warned out := by
  have hwf : p.WellFormed .source := wellFormed_of_source htokens hparse
  obtain ⟨hplaced, hapart⟩ := placed_of_source htokens hparse
  have hreports := Program.generate_reports info (hplaced.imp fun span outer hspan => hspan.1)
  rw [hgen] at hreports
  exact ⟨hreports.recursion.trans (Program.recursion_eq (recorded_of_check hcheck hwf.distinct) hwf), hapart⟩

/-- **Warnings about recursion are exact.** In code that is generated for a source there is one warning at the span of a
call with code if a path of calls leads from what it calls back to its function, and none if not. Paths go along all
calls of bodies, reachable or not. Calls in the initializers of globals are not warned about, and all warnings are of
this kind. Functions call each other in the code as the calls with code say; if there is no warning, these calls have no
cycle. On every graph the search ends within two rounds more than the graph has edges. -/
theorem generate_warns_recursion {source : String} {tokens : List Token} {p : Program} {info : TypeInfo}
    {out : Generated} (htokens : Lexer.tokenize source = .ok tokens) (hparse : Program.parse tokens = .ok p)
    (hcheck : p.check = .ok info) (hgen : p.generate info = .ok out) :
    (∀ f ∈ p.functions, ∀ c ∈ f.lowered,
      (Relation.ReflTransGen (Calls p.functions) c.callee f.name → out.recursionAt c.span = [c.warning]) ∧
      (¬ Relation.ReflTransGen (Calls p.functions) c.callee f.name → out.recursionAt c.span = [])) ∧
    (∀ d ∈ p.globals, ∀ c ∈ d.sites, out.recursionAt c.span = []) ∧
    (∀ w ∈ out.warnings, w.isRecursion = true → ∃ f ∈ p.functions, ∃ c ∈ f.lowered, w = c.warning) ∧
    (∀ caller callee, Line.CallsIn out.lines caller callee ↔
      ∃ f ∈ p.functions, f.name = caller ∧ ∃ c ∈ f.lowered, c.callee = callee) ∧
    ((∀ w ∈ out.warnings, w.isRecursion = false) → ∀ name, ¬ Relation.TransGen (Line.CallsIn out.lines) name name) ∧
    ∀ (g : CallGraph) (source target : String) (n : Nat), g.size + 2 ≤ n →
      g.rounds target n ([], [source]) = some (g.reaches source target) := by
  have hnames := (names_of_check hcheck).1
  have hwarned := warned_of_source htokens hparse hcheck hgen
  obtain ⟨parts⟩ := Program.nonempty_parts hgen
  refine ⟨?_, ?_, ?_, ?_, ?_, ?_⟩
  · intro f hf c hc
    rw [hwarned.at_call hf hc, ← CallGraph.reaches_iff_calls hnames]
    exact ⟨fun h => if_pos h, fun h => if_neg h⟩
  · intro d hd c hc
    exact hwarned.at_global hd hc
  · intro w hw hrecursion
    have hmem : w ∈ out.warnings.filter Diagnostic.isRecursion := List.mem_filter.2 ⟨hw, hrecursion⟩
    rw [hwarned.recursion] at hmem
    obtain ⟨c, hc, rfl⟩ := List.mem_map.1 hmem
    obtain ⟨f, hf, hlowered, -⟩ := Program.mem_leadingBack.1 hc
    exact ⟨f, hf, c, hlowered, rfl⟩
  · intro caller callee
    exact parts.callsIn_iff hnames
  · intro hquiet name
    exact hwarned.acyclic parts hnames hquiet name
  · intro g source target n hn
    exact g.rounds_eq source target hn

/-- `g` calls `f`, which calls `g` where it is not reachable, and a global is initialized by a call -/
def winding : String :=
  "int h() { return 1; } int a = h(); void f() { return; g(); } void g() { f(); } void main() { g(); }"

/-- functions that call each other in one direction -/
def straight : String := "void f() { } void g() { f(); } void main() { g(); f(); }"

theorem winding_warned :
    (∃ tokens p info out, Lexer.tokenize winding = .ok tokens ∧ Program.parse tokens = .ok p ∧ p.check = .ok info ∧
      p.generate info = .ok out ∧
      (∃ f ∈ p.functions, ∃ c ∈ f.lowered, f.name = "g" ∧ c.callee = "f" ∧
        Relation.ReflTransGen (Calls p.functions) c.callee f.name ∧ out.recursionAt c.span = [c.warning]) ∧
      (∃ f ∈ p.functions, ∃ c ∈ f.lowered, f.name = "main" ∧ c.callee = "g" ∧
        ¬ Relation.ReflTransGen (Calls p.functions) c.callee f.name ∧ out.recursionAt c.span = []) ∧
      (∃ d ∈ p.globals, ∃ c ∈ d.sites, c.callee = "h" ∧ out.recursionAt c.span = []) ∧
      (CallGraph.mk [("a", ["b"]), ("b", ["a"])]).rounds "c" 4 ([], ["a"]) = some false) ∧
    ∃ out, compile straight = .ok out ∧ (∀ w ∈ out.warnings, w.isRecursion = false) ∧
      ∀ name, ¬ Relation.TransGen (Line.CallsIn out.lines) name name := by
  constructor
  · have hcalls : ((Lexer.tokenize winding).toOption.bind fun tokens => (Program.parse tokens).toOption.map fun p =>
        (p.functions.flatMap fun f => f.lowered.map fun c =>
            (f.name, c.callee, (CallGraph.ofFunctions p.functions).reaches c.callee f.name),
          p.globals.flatMap fun d => d.sites.map (·.callee))) =
        some ([("g", "f", true), ("main", "g", false)], ["h"]) := by
      decide +kernel
    have hcompiles : (compile winding).toOption.isSome = true := by decide +kernel
    cases hcompile : compile winding with
    | error e =>
      rw [hcompile] at hcompiles
      cases hcompiles
    | ok out =>
      obtain ⟨tokens, p, info, htokens, hparse, hcheck, hgen⟩ := compile_eq_ok hcompile
      obtain ⟨hlowered, hglobal, -, -, -, hends⟩ := generate_warns_recursion htokens hparse hcheck hgen
      have hiff := @CallGraph.reaches_iff_calls p.functions (names_of_check hcheck).1
      rw [htokens] at hcalls
      change (Program.parse tokens).toOption.map _ = _ at hcalls
      rw [hparse] at hcalls
      replace hcalls := Prod.mk.inj (Option.some.inj hcalls)
      have hcall (name callee : String) (back : Bool)
          (h : (name, callee, back) ∈ [("g", "f", true), ("main", "g", false)]) :
          ∃ f ∈ p.functions, ∃ c ∈ f.lowered, f.name = name ∧ c.callee = callee ∧
            (CallGraph.ofFunctions p.functions).reaches c.callee f.name = back := by
        rw [← hcalls.1] at h
        obtain ⟨f, hf, h⟩ := List.mem_flatMap.1 h
        obtain ⟨c, hc, heq⟩ := List.mem_map.1 h
        simp only [Prod.mk.injEq] at heq
        exact ⟨f, hf, c, hc, heq⟩
      refine ⟨tokens, p, info, out, htokens, hparse, hcheck, hgen, ?_, ?_, ?_, ?_⟩
      · obtain ⟨f, hf, c, hc, hname, hcallee, hback⟩ := hcall "g" "f" true (by decide)
        exact ⟨f, hf, c, hc, hname, hcallee, hiff.1 hback, (hlowered f hf c hc).1 (hiff.1 hback)⟩
      · obtain ⟨f, hf, c, hc, hname, hcallee, hback⟩ := hcall "main" "g" false (by decide)
        have hnot : ¬ Relation.ReflTransGen (Calls p.functions) c.callee f.name := by
          rw [← hiff, hback]
          exact Bool.false_ne_true
        exact ⟨f, hf, c, hc, hname, hcallee, hnot, (hlowered f hf c hc).2 hnot⟩
      · have hmem : "h" ∈ p.globals.flatMap fun d => d.sites.map (·.callee) := by
          rw [hcalls.2]
          exact List.mem_cons_self
        obtain ⟨d, hd, hmem⟩ := List.mem_flatMap.1 hmem
        obtain ⟨c, hc, hcallee⟩ := List.mem_map.1 hmem
        exact ⟨d, hd, c, hc, hcallee, hglobal d hd c hc⟩
      · rw [hends _ "a" "c" 4 (by decide)]
        decide +kernel
  · have hquiet : (compile straight).toOption.map (·.warnings) = some [] := by decide +kernel
    cases hcompile : compile straight with
    | error e =>
      rw [hcompile] at hquiet
      cases hquiet
    | ok out =>
      obtain ⟨tokens, p, info, htokens, hparse, hcheck, hgen⟩ := compile_eq_ok hcompile
      obtain ⟨-, -, -, -, hacyclic, -⟩ := generate_warns_recursion htokens hparse hcheck hgen
      rw [hcompile] at hquiet
      have hnone : ∀ w ∈ out.warnings, w.isRecursion = false := by
        rw [show out.warnings = [] from Option.some.inj hquiet]
        exact List.forall_mem_nil _
      exact ⟨out, rfl, hnone, hacyclic hnone⟩

end C15

/-
Paths in call graphs, and the search for them.

The search keeps the names it has seen and those that are pending. Nothing it has seen is the target, and whatever a
seen name calls is seen or pending (`Covered`). When nothing is pending, what is seen is closed under calls, so no path
leads out of it to the target.

Results:
- `CallGraph.reaches_iff`: the search answers whether a path leads from one name to another;
- `CallGraph.rounds_eq`: on every graph it ends, after at most two rounds more than the graph has edges;
- `CallGraph.edge_iff`: the edges of the graph of some functions are the calls in their bodies, wherever they stand;
- `Program.Recorded.callee_mem`: what a checked program calls are its functions.
-/
import Mathlib.Logic.Relation
import C15.CallGraph
import C15.Proofs.Facts
import C15.Proofs.Nesting

namespace C15

namespace CallGraph

/-! ## The search finds every path -/

def Edge (g : CallGraph) (caller callee : String) : Prop := callee ∈ g.callees caller

/-- any number of calls lead from one name to another -/
def Leads (g : CallGraph) : String → String → Prop := Relation.ReflTransGen g.Edge

variable {g : CallGraph} {target : String} {seen pending : List String}

/-- what the search has seen is not the target, and what it calls is seen or pending -/
structure Covered (g : CallGraph) (target : String) (seen pending : List String) : Prop where
  other : target ∉ seen
  closed : ∀ name ∈ seen, ∀ callee, g.Edge name callee → callee ∈ seen ∨ callee ∈ pending

namespace Covered

theorem start (g : CallGraph) (target : String) (pending : List String) : Covered g target [] pending :=
  ⟨List.not_mem_nil, List.forall_mem_nil _⟩

/-- a name that was seen need not be visited again -/
theorem skip {name : String} (h : Covered g target seen (name :: pending)) (hname : name ∈ seen) :
    Covered g target seen pending := by
  refine ⟨h.other, ?_⟩
  intro other hother callee hcallee
  rcases h.closed other hother callee hcallee with hin | hin
  · exact Or.inl hin
  · rcases List.mem_cons.1 hin with rfl | hin
    · exact Or.inl hname
    · exact Or.inr hin

/-- a name is seen once what it calls is pending -/
theorem expand {name : String} (h : Covered g target seen (name :: pending)) (hname : name ≠ target) :
    Covered g target (name :: seen) (g.callees name ++ pending) := by
  refine ⟨?_, ?_⟩
  · intro hmem
    rcases List.mem_cons.1 hmem with rfl | hmem
    · exact hname rfl
    · exact h.other hmem
  · intro other hother callee hcallee
    rcases List.mem_cons.1 hother with rfl | hother
    · exact Or.inr (List.mem_append_left _ hcallee)
    · rcases h.closed other hother callee hcallee with hin | hin
      · exact Or.inl (List.mem_cons_of_mem _ hin)
      · rcases List.mem_cons.1 hin with rfl | hin
        · exact Or.inl List.mem_cons_self
        · exact Or.inr (List.mem_append_right _ hin)

/-- with nothing pending, paths do not leave what is seen -/
theorem stays (h : Covered g target seen []) {name last : String} (hname : name ∈ seen) (hpath : g.Leads name last) :
    last ∈ seen := by
  induction hpath with
  | refl => exact hname
  | tail _ hedge ih => exact (h.closed _ ih _ hedge).resolve_right List.not_mem_nil

end Covered

/-- **The search is sound.** -/
theorem leads_of_search (h : g.search target seen pending = true) : ∃ name ∈ pending, g.Leads name target := by
  fun_induction search g target seen pending with
  | case1 => cases h
  | case2 => exact ⟨_, List.mem_cons_self, .refl⟩
  | case3 seen name rest _ _ ih =>
    obtain ⟨other, hother, hpath⟩ := ih h
    exact ⟨other, List.mem_cons_of_mem _ hother, hpath⟩
  | case4 seen name rest _ _ ih =>
    obtain ⟨other, hother, hpath⟩ := ih h
    rcases List.mem_append.1 hother with hedge | hrest
    · exact ⟨name, List.mem_cons_self, .head hedge hpath⟩
    · exact ⟨other, List.mem_cons_of_mem _ hrest, hpath⟩

/-- **The search is complete.** If it finds nothing, no path leads to the target from what was seen or pending. -/
theorem not_leads_of_search (hcovered : Covered g target seen pending) (h : g.search target seen pending = false)
    {name : String} (hname : name ∈ seen ∨ name ∈ pending) : ¬ g.Leads name target := by
  fun_induction search g target seen pending with
  | case1 seen =>
    intro hpath
    exact hcovered.other (hcovered.stays (hname.resolve_right List.not_mem_nil) hpath)
  | case2 => cases h
  | case3 seen first rest _ hseen ih =>
    refine ih (hcovered.skip hseen) h ?_
    rcases hname with hin | hin
    · exact Or.inl hin
    · rcases List.mem_cons.1 hin with rfl | hin
      · exact Or.inl hseen
      · exact Or.inr hin
  | case4 seen first rest hne _ ih =>
    refine ih (hcovered.expand hne) h ?_
    rcases hname with hin | hin
    · exact Or.inl (List.mem_cons_of_mem _ hin)
    · rcases List.mem_cons.1 hin with rfl | hin
      · exact Or.inl List.mem_cons_self
      · exact Or.inr (List.mem_append_right _ hin)

theorem reaches_iff {source : String} : g.reaches source target = true ↔ g.Leads source target := by
  constructor
  · intro h
    obtain ⟨name, hname, hpath⟩ := leads_of_search h
    rwa [List.mem_singleton.1 hname] at hpath
  · intro hpath
    by_contra h
    exact not_leads_of_search (.start g target _) (Bool.eq_false_iff.2 h) (Or.inr List.mem_cons_self) hpath

/-! ## The search ends -/

/-- one round of the search with what is seen and pending: an answer, or what is seen and pending after it -/
def round (g : CallGraph) (target : String) : List String × List String → Bool ⊕ List String × List String
  | (_, []) => .inl false
  | (seen, name :: rest) =>
    if name = target then .inl true
    else if name ∈ seen then .inr (seen, rest)
    else .inr (name :: seen, g.callees name ++ rest)

/-- the answer after at most so many rounds -/
def rounds (g : CallGraph) (target : String) : Nat → List String × List String → Option Bool
  | 0, _ => none
  | n + 1, s =>
    match g.round target s with
    | .inl answer => some answer
    | .inr next => g.rounds target n next

/-- the number of edges -/
def size (g : CallGraph) : Nat := weight g.entries []

/-- the names that are pending and the callees of those not yet seen bound the rounds that are left -/
theorem rounds_eq_search {n : Nat} (h : pending.length + weight g.entries seen < n) :
    g.rounds target n (seen, pending) = some (g.search target seen pending) := by
  induction n generalizing seen pending with
  | zero => exact absurd h (Nat.not_lt_zero _)
  | succ n ih =>
    cases pending with
    | nil => simp [rounds, round, search]
    | cons name rest =>
      rw [List.length_cons] at h
      rw [search]
      by_cases htarget : name = target
      · simp [rounds, round, htarget]
      · by_cases hseen : name ∈ seen
        · have hless : rest.length + weight g.entries seen < n := by omega
          simpa [rounds, round, htarget, hseen] using ih hless
        · have hless : (g.callees name ++ rest).length + weight g.entries (name :: seen) < n := by
            have hweight := weight_expand g.entries hseen
            rw [List.length_append, callees]
            omega
          simpa [rounds, round, htarget, hseen] using ih hless

theorem rounds_eq (g : CallGraph) (source target : String) {n : Nat} (h : g.size + 2 ≤ n) :
    g.rounds target n ([], [source]) = some (g.reaches source target) := by
  refine rounds_eq_search ?_
  rw [List.length_singleton]
  unfold size at h
  omega

end CallGraph

/-! ## Calls in bodies -/

mutual

theorem Expr.callees_eq (e : Expr) : e.callees = e.sites.map (·.callee) := by
  cases e with
  | literal | ident | update => rfl
  | binary id span op lhs rhs => simp only [Expr.callees, Expr.sites, List.map_append, lhs.callees_eq, rhs.callees_eq]
  | unary id span op e | assign id span op target targetSpan e | cast id span base e =>
    simp only [Expr.callees, Expr.sites, e.callees_eq]
  | call id span callee calleeSpan args => simp only [Expr.callees, Expr.sites, List.map_cons, Expr.calleesOf_eq args]
  | intrinsic id span callee calleeSpan args => simp only [Expr.callees, Expr.sites, Expr.calleesOf_eq args]

theorem Expr.calleesOf_eq (es : List Expr) : Expr.calleesOf es = (Expr.sitesOf es).map (·.callee) := by
  cases es with
  | nil => rfl
  | cons e es => simp only [Expr.calleesOf, Expr.sitesOf, List.map_append, e.callees_eq, Expr.calleesOf_eq es]

end

theorem Expr.optional_callees_eq (e : Option Expr) :
    e.elim [] Expr.callees = (Expr.optionalSites e).map (·.callee) := by
  cases e with
  | none => rfl
  | some e => exact e.callees_eq

theorem ForInit.callees_eq (i : ForInit) : i.callees = i.sites.map (·.callee) := by
  cases i with
  | nothing => rfl
  | decl d => exact Expr.optional_callees_eq d.init
  | expr _ e => exact e.callees_eq

mutual

/-- loops list their parts in another order -/
theorem Stmt.callees_perm (s : Stmt) : s.callees.Perm (s.sites.map (·.callee)) := by
  cases s with
  | decl d => exact .of_eq (Expr.optional_callees_eq d.init)
  | ifThen span cond yes =>
    simp only [Stmt.callees, Stmt.sites, List.map_append, cond.callees_eq]
    exact yes.callees_perm.append_left _
  | ifElse span cond yes no =>
    simp only [Stmt.callees, Stmt.sites, List.map_append, cond.callees_eq]
    exact (yes.callees_perm.append_left _).append no.callees_perm
  | for_ span init cond step body =>
    simp only [Stmt.callees, Stmt.sites, List.map_append, init.callees_eq, Expr.optional_callees_eq, List.append_assoc]
    refine (List.Perm.append_left _ (List.Perm.append_left _ ?_))
    exact List.perm_append_comm.trans (body.callees_perm.append_right _)
  | while_ span cond body =>
    simp only [Stmt.callees, Stmt.sites, List.map_append, cond.callees_eq]
    exact body.callees_perm.append_left _
  | doWhile span body cond =>
    simp only [Stmt.callees, Stmt.sites, List.map_append, cond.callees_eq]
    exact List.perm_append_comm.trans (body.callees_perm.append_right _)
  | return_ span value => exact .of_eq (Expr.optional_callees_eq value)
  | expr span e => exact .of_eq e.callees_eq
  | block span body => exact Stmt.calleesOf_perm body
  | break_ | continue_ | empty => exact .nil

theorem Stmt.calleesOf_perm (ss : List Stmt) : (Stmt.calleesOf ss).Perm ((Stmt.sitesOf ss).map (·.callee)) := by
  cases ss with
  | nil => exact .nil
  | cons s ss =>
    simp only [Stmt.calleesOf, Stmt.sitesOf, List.map_append]
    exact s.callees_perm.append (Stmt.calleesOf_perm ss)

end

/-- the body of one function has a call of another, reachable or not -/
def Calls (fs : List FunctionDecl) (caller callee : String) : Prop :=
  ∃ f ∈ fs, f.name = caller ∧ ∃ c ∈ f.sites, c.callee = callee

/-- **Edges are calls**, if no two functions have one name. -/
theorem CallGraph.edge_iff {fs : List FunctionDecl} (hnames : (fs.map (·.name)).Nodup) {caller callee : String} :
    (ofFunctions fs).Edge caller callee ↔ Calls fs caller callee := by
  have hcalls (f : FunctionDecl) : callee ∈ (Stmt.calleesOf f.body).eraseDups ↔ ∃ c ∈ f.sites, c.callee = callee := by
    rw [List.mem_eraseDups, (Stmt.calleesOf_perm f.body).mem_iff, List.mem_map]
    rfl
  -- names are distinct, so that the entry found for a caller is its own
  have hkeys : ((ofFunctions fs).entries.map Prod.fst).Nodup := by
    rw [ofFunctions, List.map_reverse, List.nodup_reverse, List.map_map]
    exact hnames
  have hmem {entry : String × List String} :
      entry ∈ (ofFunctions fs).entries ↔ ∃ f ∈ fs, (f.name, (Stmt.calleesOf f.body).eraseDups) = entry := by
    rw [ofFunctions, List.mem_reverse, List.mem_map]
  unfold Edge callees
  constructor
  · intro h
    cases hfound : (ofFunctions fs).entries.lookup caller with
    | none =>
      rw [hfound] at h
      cases h
    | some names =>
      rw [hfound] at h
      obtain ⟨before, after, hentries, -⟩ := List.lookup_eq_some_iff.1 hfound
      have hentry : (caller, names) ∈ (ofFunctions fs).entries := hentries ▸ List.mem_append_right _ List.mem_cons_self
      obtain ⟨f, hf, heq⟩ := hmem.1 hentry
      obtain ⟨rfl, rfl⟩ := Prod.mk.inj heq
      exact ⟨f, hf, rfl, (hcalls f).1 h⟩
  · intro h
    obtain ⟨f, hf, rfl, hsite⟩ := h
    have hfound := lookup_eq_of_mem hkeys (hmem.2 ⟨f, hf, rfl⟩)
    dsimp only at hfound
    rw [hfound]
    exact (hcalls f).2 hsite

/-! ## Calls of a checked program -/

/-- a call of a function with a signature -/
def CallSite.Known (functions : List (String × Signature)) (c : CallSite) : Prop :=
  ∃ sig, functions.lookup c.callee = some sig

section Known

open Typing

variable {info : TypeInfo} {functions : List (String × Signature)}

mutual

theorem Expr.sites_known {env : Env} (e : Expr) {b : Base} (h : e.Recorded info env b)
    (henv : env.functions = functions) : ∀ c ∈ e.sites, c.Known functions := by
  cases e with
  | literal | ident | update => exact List.forall_mem_nil _
  | binary id span op lhs rhs =>
    obtain ⟨_, hl, hr, -⟩ := h
    exact List.forall_mem_append.2 ⟨lhs.sites_known hl henv, rhs.sites_known hr henv⟩
  | unary id span op operand =>
    obtain ⟨_, he, -⟩ := h
    exact operand.sites_known he henv
  | assign id span op target targetSpan value =>
    obtain ⟨_, _, -, -, -, -, he, -⟩ := h
    exact value.sites_known he henv
  | call id span callee calleeSpan args =>
    obtain ⟨sig, hsig, hargs, -⟩ := h
    refine List.forall_mem_cons.2 ⟨⟨sig, ?_⟩, Expr.sitesOf_known args (recordedValues_of_args _ _ hargs).2 henv⟩
    rwa [← henv]
  | intrinsic id span callee calleeSpan args => exact Expr.sitesOf_known args h.2.1 henv
  | cast id span base operand =>
    obtain ⟨⟨_, he⟩, -⟩ := h
    exact operand.sites_known he henv

theorem Expr.sitesOf_known {env : Env} (es : List Expr) (h : Expr.RecordedValues info env es)
    (henv : env.functions = functions) : ∀ c ∈ Expr.sitesOf es, c.Known functions := by
  cases es with
  | nil => exact List.forall_mem_nil _
  | cons e es =>
    obtain ⟨⟨_, he⟩, hes⟩ := h
    exact List.forall_mem_append.2 ⟨e.sites_known he henv, Expr.sitesOf_known es hes henv⟩

end

theorem Expr.optionalSites_known {env : Env} {e : Option Expr} (h : ∀ x ∈ e, ∃ b, x.Recorded info env b)
    (henv : env.functions = functions) : ∀ c ∈ Expr.optionalSites e, c.Known functions := by
  cases e with
  | none => exact List.forall_mem_nil _
  | some e =>
    obtain ⟨_, he⟩ := h e rfl
    exact e.sites_known he henv

theorem VarDecl.sites_known {env : Env} {d : VarDecl} (h : d.Recorded info env) (henv : env.functions = functions) :
    ∀ c ∈ d.sites, c.Known functions := by
  have hinit : ∀ e ∈ d.init, ∃ b, e.Recorded info env b := by
    intro e he
    obtain ⟨f, -, hrec⟩ := h.2 e he
    exact ⟨_, hrec⟩
  exact Expr.optionalSites_known hinit henv

theorem ForInit.sites_known {env : Env} {i : ForInit} (h : i.Recorded info env) (henv : env.functions = functions) :
    ∀ c ∈ i.sites, c.Known functions := by
  cases i with
  | nothing => exact List.forall_mem_nil _
  | decl d => exact VarDecl.sites_known h henv
  | expr _ e =>
    obtain ⟨_, he⟩ := h
    exact e.sites_known he henv

mutual

/-- the environments of a body have different scopes and the same functions -/
theorem Stmt.sites_known {env : Env} (s : Stmt) (h : s.Recorded info env) (henv : env.functions = functions) :
    ∀ c ∈ s.sites, c.Known functions := by
  cases s with
  | decl d => exact VarDecl.sites_known h henv
  | ifThen span cond yes =>
    obtain ⟨⟨_, hcond⟩, hyes⟩ := h
    exact List.forall_mem_append.2 ⟨cond.sites_known hcond henv, yes.sites_known hyes henv⟩
  | ifElse span cond yes no =>
    obtain ⟨⟨_, hcond⟩, hyes, hno⟩ := h
    have htaken := List.forall_mem_append.2 ⟨cond.sites_known hcond henv, yes.sites_known hyes henv⟩
    exact List.forall_mem_append.2 ⟨htaken, no.sites_known hno henv⟩
  | while_ span cond body =>
    obtain ⟨⟨_, hcond⟩, hbody⟩ := h
    exact List.forall_mem_append.2 ⟨cond.sites_known hcond henv, body.sites_known hbody henv⟩
  | doWhile span body cond =>
    obtain ⟨hbody, _, hcond⟩ := h
    exact List.forall_mem_append.2 ⟨body.sites_known hbody henv, cond.sites_known hcond henv⟩
  | for_ span init cond step body =>
    obtain ⟨hinit, hcond, hstep, hbody⟩ := h
    have htest := Expr.optionalSites_known (fun e he => (hcond e he).elim fun f hf => ⟨f.base, hf⟩) henv
    have hhead := List.forall_mem_append.2 ⟨init.sites_known hinit henv, htest⟩
    have hround := List.forall_mem_append.2 ⟨hhead, body.sites_known hbody henv⟩
    exact List.forall_mem_append.2 ⟨hround, Expr.optionalSites_known hstep henv⟩
  | return_ span value =>
    cases value with
    | none => exact List.forall_mem_nil _
    | some e =>
      obtain ⟨_, -, he⟩ := h
      exact e.sites_known he henv
  | expr span e =>
    obtain ⟨_, he⟩ := h
    exact e.sites_known he henv
  | block span body => exact Stmt.sitesOf_known body h henv
  | break_ | continue_ | empty => exact List.forall_mem_nil _

theorem Stmt.sitesOf_known {env : Env} (ss : List Stmt) (h : Stmt.RecordedAll info env ss)
    (henv : env.functions = functions) : ∀ c ∈ Stmt.sitesOf ss, c.Known functions := by
  cases ss with
  | nil => exact List.forall_mem_nil _
  | cons s ss => exact List.forall_mem_append.2 ⟨s.sites_known h.1 henv, Stmt.sitesOf_known ss h.2 henv⟩

end

theorem Item.sites_known {env : Env} {is : List Item} (h : Item.RecordedAll info env is)
    (henv : env.functions = functions) : ∀ i ∈ is, ∀ c ∈ i.sites, c.Known functions := by
  induction is generalizing env with
  | nil => exact List.forall_mem_nil _
  | cons i is ih =>
    cases i with
    | global d => exact List.forall_mem_cons.2 ⟨VarDecl.sites_known h.1 henv, ih h.2 henv⟩
    | function f => exact List.forall_mem_cons.2 ⟨Stmt.sitesOf_known f.body h.1.2 henv, ih h.2 henv⟩

/-- what is called in a checked program, reachable or not, is one of its functions -/
theorem Program.Recorded.callee_mem {p : Program} (hrec : p.Recorded info) {c : CallSite} (hc : c ∈ p.sites) :
    ∃ f ∈ p.functions, f.name = c.callee := by
  obtain ⟨i, hi, hc⟩ := List.mem_flatMap.1 hc
  obtain ⟨sig, hsig⟩ := Item.sites_known hrec.items rfl i hi c hc
  obtain ⟨f, hf, hname, -⟩ := hrec.exists_function hsig
  exact ⟨f, hf, hname⟩

end Known

end C15

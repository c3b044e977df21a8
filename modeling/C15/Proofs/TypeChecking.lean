/-
The checker decides the type system.

The checker walks through a program with a stack of scopes and writes down what it finds. `Env.Shows` ties its stack to
the scope of the rules, and `Facts.About` what it writes down to the places it is about. Each function of the checker is
then described twice:
- sound (`checkExpr_sound`, `checkStmt_sound`): what it accepts the rules accept, and its facts are about the
  expressions that it went through, node by node and in order;
- complete (`checkExpr_complete`, `checkStmt_complete`): what the rules accept it accepts.
`check_decides_typing` puts these together, for programs whose identities are distinct: a program is checked exactly if
it is well typed, the table of types has the one type of every expression node, and the table of declarations what every
occurrence of a variable means.
-/
import C15.Proofs.Facts
import C15.Proofs.TypeRules

namespace C15

/-! ## What facts are about -/

/-- what is found in a table is an entry of it -/
theorem mem_of_lookup {α β : Type} [BEq α] [LawfulBEq α] {l : List (α × β)} {key : α} {x : β}
    (h : l.lookup key = some x) : (key, x) ∈ l := by
  obtain ⟨before, after, hl, -⟩ := List.lookup_eq_some_iff.1 h
  exact hl ▸ List.mem_append_right _ List.mem_cons_self

/-- the nodes of expressions, each with the scope it stands in -/
def nodesAt (places : List (Scope × Expr)) : List (Scope × Expr) := places.flatMap fun x => x.2.nodes.map (x.1, ·)

/-- the occurrences of variables in expressions, each with the scope it stands in -/
def occurrencesAt (places : List (Scope × Expr)) : List (Scope × NodeId × String) :=
  places.flatMap fun x => x.2.occurrences.map (x.1, ·)

@[simp] theorem nodesAt_append (xs ys : List (Scope × Expr)) : nodesAt (xs ++ ys) = nodesAt xs ++ nodesAt ys :=
  List.flatMap_append

@[simp] theorem occurrencesAt_append (xs ys : List (Scope × Expr)) :
    occurrencesAt (xs ++ ys) = occurrencesAt xs ++ occurrencesAt ys := List.flatMap_append

/-- the types and declarations in facts are those of these nodes and occurrences, in this order -/
structure Facts.Of (fs : List FunctionDecl) (facts : Facts) (nodes : List (Scope × Expr))
    (occurrences : List (Scope × NodeId × String)) : Prop where
  types : List.Forall₂ (fun x n => x.1 = n.2.id ∧ HasType fs n.1 n.2 x.2) facts.types nodes
  resolved : List.Forall₂ (fun x o => x.1 = o.2.1 ∧ ∃ v, o.1.Means o.2.2 v ∧ v.decl = x.2) facts.resolved occurrences

/-- facts about expressions where they stand -/
def Facts.About (fs : List FunctionDecl) (facts : Facts) (places : List (Scope × Expr)) : Prop :=
  facts.Of fs (nodesAt places) (occurrencesAt places)

namespace Facts

variable {fs : List FunctionDecl} {a b : Facts} {Γ : Scope}

namespace Of

variable {xs ys : List (Scope × Expr)} {os us : List (Scope × NodeId × String)}

theorem nil : ({} : Facts).Of fs [] [] := ⟨.nil, .nil⟩

theorem append (ha : a.Of fs xs os) (hb : b.Of fs ys us) : (a ++ b).Of fs (xs ++ ys) (os ++ us) :=
  ⟨List.rel_append ha.types hb.types, List.rel_append ha.resolved hb.resolved⟩

/-- the type of a node after the facts about its operands -/
theorem snoc (ha : a.Of fs xs os) {e : Expr} {t : Base} (he : HasType fs Γ e t) :
    (a ++ .typed e.id t).Of fs (xs ++ [(Γ, e)]) os := by
  have hnode : (Facts.typed e.id t).Of fs [(Γ, e)] [] := ⟨.cons ⟨rfl, he⟩ .nil, .nil⟩
  simpa using ha.append hnode

/-- only types and declarations count -/
theorem congr (ha : a.Of fs xs os) (htypes : b.types = a.types) (hresolved : b.resolved = a.resolved) : b.Of fs xs os :=
  ⟨htypes ▸ ha.types, hresolved ▸ ha.resolved⟩

end Of

theorem About.nil : ({} : Facts).About fs [] := Of.nil

theorem About.append {xs ys : List (Scope × Expr)} (ha : a.About fs xs) (hb : b.About fs ys) :
    (a ++ b).About fs (xs ++ ys) := by
  unfold About
  rw [nodesAt_append, occurrencesAt_append]
  exact Of.append ha hb

/-- one expression -/
theorem Of.about {e : Expr} (h : a.Of fs (e.nodes.map (Γ, ·)) (e.occurrences.map (Γ, ·))) : a.About fs [(Γ, e)] := by
  simpa [About, nodesAt, occurrencesAt] using h

end Facts

namespace Typing

/-! ## Environments and scopes -/

/-- an environment sees what a scope does: the same functions and the same declarations in force -/
structure Env.Sees (env : Env) (fs : List FunctionDecl) (Γ : Scope) : Prop where
  functions : env.functions = fs.map fun f => (f.name, f.signature)
  names : (fs.map (·.name)).Nodup
  visible : env.scopes.flatten = Γ.visible

/-- an environment shows a scope: its innermost block has declared the same names too, and is the outermost one exactly
if we are not `inside` a function -/
structure Env.Shows (env : Env) (fs : List FunctionDecl) (Γ : Scope) (inside : Bool) : Prop
    extends Env.Sees env fs Γ where
  own : ∃ scope outer, env.scopes = scope :: outer ∧ scope.map (·.name) = Γ.own ∧ (outer = [] ↔ inside = false)

namespace Env.Sees

variable {fs : List FunctionDecl} {Γ : Scope} {env : Env}

theorem find?_iff (h : env.Sees fs Γ) {name : String} {v : Variable} : env.find? name = some v ↔ Γ.Means name v := by
  rw [Scope.Means, Scope.latest_iff, ← h.visible, List.find?_flatten]
  rfl

theorem signature?_iff (h : env.Sees fs Γ) {name : String} {sig : Signature} :
    env.signature? name = some sig ↔ ∃ f ∈ fs, f.name = name ∧ f.signature = sig := by
  have hkeys : ((fs.map fun f => (f.name, f.signature)).map Prod.fst).Nodup := by
    rw [List.map_map]
    exact h.names
  rw [signature?, h.functions]
  constructor
  · intro hsig
    obtain ⟨f, hf, heq⟩ := List.mem_map.1 (mem_of_lookup hsig)
    exact ⟨f, hf, congrArg Prod.fst heq, congrArg Prod.snd heq⟩
  · rintro ⟨f, hf, rfl, rfl⟩
    exact lookup_eq_of_mem hkeys (List.mem_map_of_mem hf)

theorem isSome_signature?_iff (h : env.Sees fs Γ) {name : String} :
    (env.signature? name).isSome = true ↔ ∃ f ∈ fs, f.name = name := by
  rw [Option.isSome_iff_exists]
  constructor
  · rintro ⟨sig, hsig⟩
    obtain ⟨f, hf, hname, -⟩ := h.signature?_iff.1 hsig
    exact ⟨f, hf, hname⟩
  · rintro ⟨f, hf, hname⟩
    exact ⟨f.signature, h.signature?_iff.2 ⟨f, hf, hname, rfl⟩⟩

end Env.Sees

namespace Env.Shows

variable {fs : List FunctionDecl} {Γ : Scope} {env : Env} {inside : Bool}

/-- the rest of an environment does not matter -/
theorem of_eq {env' : Env} (h : env.Shows fs Γ inside) (hfunctions : env'.functions = env.functions)
    (hscopes : env'.scopes = env.scopes) : env'.Shows fs Γ inside :=
  ⟨⟨hfunctions ▸ h.functions, h.names, hscopes ▸ h.visible⟩, hscopes ▸ h.own⟩

theorem looping (h : env.Shows fs Γ inside) : Env.Shows { env with inLoop := true } fs Γ inside := h.of_eq rfl rfl

theorem enter (h : env.Shows fs Γ inside) : env.enter.Shows fs Γ.enter true := by
  obtain ⟨scope, outer, hscopes, -, -⟩ := h.own
  refine ⟨⟨h.functions, h.names, ?_⟩, [], env.scopes, rfl, rfl, ?_⟩
  · simpa [Env.enter, Scope.enter] using h.visible
  · simp [hscopes]

theorem bind (h : env.Shows fs Γ inside) (v : Variable) : (env.bind v).Shows fs (Γ.add v) inside := by
  obtain ⟨scope, outer, hscopes, hown, hinside⟩ := h.own
  refine ⟨⟨h.functions, h.names, ?_⟩, v :: scope, outer, ?_, ?_, hinside⟩
  · have hvisible := h.visible
    rw [hscopes, List.flatten_cons] at hvisible
    simp [Env.bind, Scopes.bind, hscopes, Scope.add, hvisible]
  · simp [Env.bind, Scopes.bind, hscopes]
  · simp [Scope.add, hown]

/-- local declarations are added to both -/
theorem declareAll (h : env.Shows fs Γ inside) (ds : List VarDecl) :
    (env.declareAll ds).Shows fs (Γ.declare ds) inside := by
  induction ds generalizing env Γ with
  | nil => exact h.of_eq rfl rfl
  | cons d rest ih => exact (ih (h.bind (d.variable .localVar))).of_eq rfl rfl

theorem after (h : env.Shows fs Γ inside) (s : Stmt) : (env.after s).Shows fs (Γ.after s) inside :=
  h.declareAll s.declared

/-- a declaration is taken exactly if its name is new in the innermost block, and outside of functions no function has
it -/
theorem declare_iff (h : env.Shows fs Γ inside) {v : Variable} {span : Span} {env' : Env} :
    env.declare v span = .ok env' ↔ (inside = false → ∀ f ∈ fs, f.name ≠ v.name) ∧ v.name ∉ Γ.own ∧
      env' = env.bind v := by
  obtain ⟨scope, outer, hscopes, hown, hinside⟩ := h.own
  have houtermost : env.scopes.length = 1 ↔ inside = false := by
    rw [← hinside, hscopes, List.length_cons, Nat.add_eq_right, List.length_eq_zero_iff]
  have hnew : scope.any (·.name == v.name) = true ↔ v.name ∈ Γ.own := by
    rw [← hown, List.any_eq_true, List.mem_map]
    simp
  have hbind : env.bind v = { env with scopes := (v :: scope) :: outer } := by simp [Env.bind, Scopes.bind, hscopes]
  unfold Env.declare
  by_cases hfunction : env.scopes.length = 1 ∧ (env.signature? v.name).isSome = true
  · obtain ⟨f, hf, hname⟩ := h.isSome_signature?_iff.1 hfunction.2
    rw [if_pos hfunction]
    constructor
    · intro heq
      cases heq
    · rintro ⟨hother, -, -⟩
      exact absurd hname (hother (houtermost.1 hfunction.1) f hf)
  · have hother : inside = false → ∀ f ∈ fs, f.name ≠ v.name := by
      intro hout f hf hname
      exact hfunction ⟨houtermost.2 hout, h.isSome_signature?_iff.2 ⟨f, hf, hname⟩⟩
    rw [if_neg hfunction, hscopes, hbind]
    by_cases hold : v.name ∈ Γ.own
    · simp [hnew.2 hold, hold]
    · have hfresh : ¬ scope.any (·.name == v.name) = true := fun hany => hold (hnew.1 hany)
      simp only [if_neg hfresh, Except.ok.injEq]
      exact ⟨fun heq => ⟨hother, hold, heq.symm⟩, fun hall => hall.2.2.symm⟩

end Env.Shows

/-! ## Expressions -/

theorem isTest_iff {op : BinOp} : op.IsTest ↔ (op.isComparison || op.isLogical) = true := by simp [BinOp.IsTest]

theorem IsTest.not_integerOnly {op : BinOp} (h : op.IsTest) : op.isIntegerOnly = false := by
  cases op <;> simp_all [BinOp.IsTest, BinOp.isComparison, BinOp.isLogical, BinOp.isIntegerOnly]

section Expressions

variable {fs : List FunctionDecl} {Γ : Scope} {env : Env}

mutual

/-- **Accepted expressions are typed**, and the facts about them are about their nodes. -/
theorem checkExpr_sound (hΓ : env.Sees fs Γ) (e : Expr) {b : Base} {facts : Facts}
    (h : checkExpr env e = .ok (b, facts)) :
    HasType fs Γ e b ∧ facts.Of fs (e.nodes.map (Γ, ·)) (e.occurrences.map (Γ, ·)) := by
  cases e with
  | literal id span value =>
    obtain ⟨rfl, rfl⟩ := checkExpr_literal.1 h
    have htype : HasType fs Γ (.literal id span value) value.base := .literal value
    exact ⟨htype, .cons ⟨rfl, htype⟩ .nil, .nil⟩
  | ident id span name =>
    obtain ⟨v, hv, rfl, rfl⟩ := checkExpr_ident.1 h
    have hv := hΓ.find?_iff.1 hv
    have htype : HasType fs Γ (.ident id span name) v.ty.base := .ident hv
    exact ⟨htype, .cons ⟨rfl, htype⟩ .nil, .cons ⟨rfl, v, hv, rfl⟩ .nil⟩
  | binary id span op lhs rhs =>
    obtain ⟨f, _, _, hl, hr, hop, rfl, rfl⟩ := checkExpr_binary.1 h
    obtain ⟨htl, hl⟩ := checkExpr_sound hΓ lhs hl
    obtain ⟨htr, hr⟩ := checkExpr_sound hΓ rhs hr
    have htype : HasType fs Γ (.binary id span op lhs rhs)
        (if op.isComparison || op.isLogical then .int else f.base) := by
      by_cases htest : op.IsTest
      · rw [if_pos (isTest_iff.1 htest)]
        exact .test htest htl htr f.base_ne_void
      · rw [if_neg (mt isTest_iff.2 htest)]
        exact .arithmetic htest htl htr f.base_ne_void fun honly => mt Family.base_eq_float.1 (hop honly)
    refine ⟨htype, ?_⟩
    simpa [Expr.nodes, Expr.occurrences, Expr.id] using (hl.append hr).snoc htype
  | unary id span op operand =>
    obtain ⟨f, _, he, hop, rfl, rfl⟩ := checkExpr_unary.1 h
    obtain ⟨hte, he⟩ := checkExpr_sound hΓ operand he
    have htype : HasType fs Γ (.unary id span op operand) (if op = .not then .int else f.base) := by
      cases op with
      | neg => exact .neg hte f.base_ne_void
      | not => exact .not hte f.base_ne_void
      | bitNot => exact .bitNot hte f.base_ne_void (mt Family.base_eq_float.1 (hop rfl))
    refine ⟨htype, ?_⟩
    simpa [Expr.nodes, Expr.occurrences, Expr.id] using he.snoc htype
  | update id span op targetId targetSpan target =>
    -- the variable that is updated is a node of its own, in front of the update
    obtain ⟨v, hv, hconst, rfl, rfl⟩ := checkExpr_update.1 h
    have hv := hΓ.find?_iff.1 hv
    have htarget : HasType fs Γ (.ident targetId targetSpan target) v.ty.base := .ident hv
    have htype : HasType fs Γ (.update id span op targetId targetSpan target) v.ty.base := .update hv hconst
    exact ⟨htype, .cons ⟨rfl, htarget⟩ (.cons ⟨rfl, htype⟩ .nil),
      .cons ⟨rfl, v, hv, rfl⟩ (.cons ⟨rfl, v, hv, rfl⟩ .nil)⟩
  | assign id span op target targetSpan value =>
    have hoccurrence {v : Variable} (hv : Γ.Means target v) : (Facts.resolves id v.decl).Of fs [] [(Γ, id, target)] :=
      ⟨.nil, .cons ⟨rfl, v, hv, rfl⟩ .nil⟩
    cases op with
    | none =>
      obtain ⟨v, f, _, hv, hconst, he, hty, rfl, rfl⟩ := checkExpr_assign.1 h
      obtain ⟨hte, he⟩ := checkExpr_sound hΓ value he
      have hv := hΓ.find?_iff.1 hv
      have htype : HasType fs Γ (.assign id span none target targetSpan value) v.ty.base :=
        .assign hv hconst (hty ▸ hte) (hty ▸ f.base_ne_void)
      refine ⟨htype, ?_⟩
      simpa [Expr.nodes, Expr.occurrences, Expr.id] using ((hoccurrence hv).append he).snoc htype
    | some op =>
      obtain ⟨v, f, _, hv, hconst, he, hty, hop, rfl, rfl⟩ := checkExpr_compound.1 h
      obtain ⟨hte, he⟩ := checkExpr_sound hΓ value he
      have hv := hΓ.find?_iff.1 hv
      have htype : HasType fs Γ (.assign id span (some op) target targetSpan value) v.ty.base :=
        .compound hv hconst (hty ▸ hte) (hty ▸ f.base_ne_void) fun honly => hty ▸ mt Family.base_eq_float.1 (hop honly)
      have hreads : (Facts.reads v.decl).Of fs [] [] := ⟨.nil, .nil⟩
      refine ⟨htype, ?_⟩
      simpa [Expr.nodes, Expr.occurrences, Expr.id] using (((hoccurrence hv).append he).append hreads).snoc htype
  | call id span callee calleeSpan args =>
    obtain ⟨_, _, hsig, hlength, ha, rfl, rfl⟩ := checkExpr_call.1 h
    obtain ⟨f, hf, rfl, rfl⟩ := hΓ.signature?_iff.1 hsig
    obtain ⟨hta, ha⟩ := checkArguments_sound hΓ args ha hlength
    have htype : HasType fs Γ (.call id span f.name calleeSpan args) f.result.base := .call hf hta
    refine ⟨htype, ?_⟩
    simpa [Expr.nodes, Expr.occurrences, Expr.id, FunctionDecl.signature] using ha.snoc htype
  | intrinsic id span callee calleeSpan args =>
    obtain ⟨_, hlength, ha, rfl, rfl⟩ := checkExpr_intrinsic.1 h
    obtain ⟨hta, ha⟩ := checkValues_sound hΓ args ha
    have htype : HasType fs Γ (.intrinsic id span callee calleeSpan args) callee.result := .intrinsic hlength hta
    refine ⟨htype, ?_⟩
    simpa [Expr.nodes, Expr.occurrences, Expr.id] using ha.snoc htype
  | cast id span base operand =>
    obtain ⟨f, _, he, rfl, rfl⟩ := checkExpr_cast.1 h
    obtain ⟨hte, he⟩ := checkExpr_sound hΓ operand he
    have htype : HasType fs Γ (.cast id span b operand) b := .cast hte f.base_ne_void
    refine ⟨htype, ?_⟩
    simpa [Expr.nodes, Expr.occurrences, Expr.id] using he.snoc htype

theorem checkArguments_sound (hΓ : env.Sees fs Γ) {callee : String} {number : Nat} {params : List Ty} (args : List Expr)
    {facts : Facts} (h : checkArguments env callee number params args = .ok facts)
    (hlength : params.length = args.length) :
    HasTypes fs Γ params args ∧
      facts.Of fs ((Expr.nodesOf args).map (Γ, ·)) ((Expr.occurrencesOf args).map (Γ, ·)) := by
  match params, args with
  | [], [] =>
    obtain rfl := checkArguments_nil.1 h
    exact ⟨.nil, .nil⟩
  | param :: params, arg :: args =>
    obtain ⟨f, _, _, he, hparam, hr, rfl⟩ := checkArguments_cons.1 h
    obtain ⟨hte, he⟩ := checkExpr_sound hΓ arg he
    obtain ⟨htr, hr⟩ := checkArguments_sound hΓ args hr (by simpa using hlength)
    refine ⟨.cons (hparam ▸ hte) (hparam ▸ f.base_ne_void) htr, ?_⟩
    simpa [Expr.nodesOf, Expr.occurrencesOf] using he.append hr
  | [], _ :: _ => simp at hlength
  | _ :: _, [] => simp at hlength

theorem checkValues_sound (hΓ : env.Sees fs Γ) (args : List Expr) {facts : Facts}
    (h : checkValues env args = .ok facts) :
    HasValues fs Γ args ∧ facts.Of fs ((Expr.nodesOf args).map (Γ, ·)) ((Expr.occurrencesOf args).map (Γ, ·)) := by
  match args with
  | [] =>
    obtain rfl := checkValues_nil.1 h
    exact ⟨.nil, .nil⟩
  | arg :: args =>
    obtain ⟨f, _, _, he, hr, rfl⟩ := checkValues_cons.1 h
    obtain ⟨hte, he⟩ := checkExpr_sound hΓ arg he
    obtain ⟨htr, hr⟩ := checkValues_sound hΓ args hr
    refine ⟨.cons hte f.base_ne_void htr, ?_⟩
    simpa [Expr.nodesOf, Expr.occurrencesOf] using he.append hr

end

mutual

/-- **Typed expressions are accepted**, with their type. -/
theorem checkExpr_complete (hΓ : env.Sees fs Γ) {e : Expr} {b : Base} (h : HasType fs Γ e b) :
    ∃ facts, checkExpr env e = .ok (b, facts) := by
  cases h with
  | literal value => exact ⟨_, checkExpr_literal.2 ⟨rfl, rfl⟩⟩
  | ident hv => exact ⟨_, checkExpr_ident.2 ⟨_, hΓ.find?_iff.2 hv, rfl, rfl⟩⟩
  | arithmetic htest hl hr hb hinteger =>
    obtain ⟨_, hl⟩ := checkExpr_complete hΓ hl
    obtain ⟨_, hr⟩ := checkExpr_complete hΓ hr
    obtain ⟨f, rfl⟩ := Base.exists_family hb
    refine ⟨_, checkExpr_binary.2 ⟨f, _, _, hl, hr, fun honly => mt Family.base_eq_float.2 (hinteger honly), ?_, rfl⟩⟩
    rw [if_neg (mt isTest_iff.2 htest)]
  | test htest hl hr hb =>
    obtain ⟨_, hl⟩ := checkExpr_complete hΓ hl
    obtain ⟨_, hr⟩ := checkExpr_complete hΓ hr
    obtain ⟨f, rfl⟩ := Base.exists_family hb
    refine ⟨_, checkExpr_binary.2 ⟨f, _, _, hl, hr, ?_, ?_, rfl⟩⟩
    · intro honly
      rw [IsTest.not_integerOnly htest] at honly
      cases honly
    · rw [if_pos (isTest_iff.1 htest)]
  | neg he hb | not he hb =>
    obtain ⟨_, he⟩ := checkExpr_complete hΓ he
    obtain ⟨f, rfl⟩ := Base.exists_family hb
    exact ⟨_, checkExpr_unary.2 ⟨f, _, he, nofun, rfl, rfl⟩⟩
  | bitNot he hb hinteger =>
    obtain ⟨_, he⟩ := checkExpr_complete hΓ he
    obtain ⟨f, rfl⟩ := Base.exists_family hb
    exact ⟨_, checkExpr_unary.2 ⟨f, _, he, fun _ => mt Family.base_eq_float.2 hinteger, rfl, rfl⟩⟩
  | update hv hconst => exact ⟨_, checkExpr_update.2 ⟨_, hΓ.find?_iff.2 hv, hconst, rfl, rfl⟩⟩
  | assign hv hconst he hb =>
    obtain ⟨_, he⟩ := checkExpr_complete hΓ he
    obtain ⟨f, hf⟩ := Base.exists_family hb
    exact ⟨_, checkExpr_assign.2 ⟨_, f, _, hΓ.find?_iff.2 hv, hconst, hf ▸ he, hf, rfl, rfl⟩⟩
  | compound hv hconst he hb hinteger =>
    obtain ⟨_, he⟩ := checkExpr_complete hΓ he
    obtain ⟨f, hf⟩ := Base.exists_family hb
    have hop := fun honly => mt Family.base_eq_float.2 (hf ▸ hinteger honly)
    exact ⟨_, checkExpr_compound.2 ⟨_, f, _, hΓ.find?_iff.2 hv, hconst, hf ▸ he, hf, hop, rfl, rfl⟩⟩
  | @call _ _ _ _ f hf hargs =>
    obtain ⟨hlength, _, ha⟩ := checkArguments_complete hΓ f.name 1 hargs
    have hsig : env.signature? f.name = some f.signature := hΓ.signature?_iff.2 ⟨f, hf, rfl, rfl⟩
    exact ⟨_, checkExpr_call.2 ⟨f.signature, _, hsig, hlength, ha, rfl, rfl⟩⟩
  | intrinsic hlength hargs =>
    obtain ⟨_, ha⟩ := checkValues_complete hΓ hargs
    exact ⟨_, checkExpr_intrinsic.2 ⟨_, hlength, ha, rfl, rfl⟩⟩
  | cast he hb =>
    obtain ⟨_, he⟩ := checkExpr_complete hΓ he
    obtain ⟨f, rfl⟩ := Base.exists_family hb
    exact ⟨_, checkExpr_cast.2 ⟨f, _, he, rfl, rfl⟩⟩

theorem checkArguments_complete (hΓ : env.Sees fs Γ) (callee : String) (number : Nat) {params : List Ty}
    {args : List Expr} (h : HasTypes fs Γ params args) :
    params.length = args.length ∧ ∃ facts, checkArguments env callee number params args = .ok facts := by
  cases h with
  | nil => exact ⟨rfl, {}, rfl⟩
  | cons harg hb hargs =>
    obtain ⟨_, he⟩ := checkExpr_complete hΓ harg
    obtain ⟨f, hf⟩ := Base.exists_family hb
    obtain ⟨hlength, _, hr⟩ := checkArguments_complete hΓ callee (number + 1) hargs
    exact ⟨by simp [hlength], _, checkArguments_cons.2 ⟨f, _, _, hf ▸ he, hf, hr, rfl⟩⟩

theorem checkValues_complete (hΓ : env.Sees fs Γ) {args : List Expr} (h : HasValues fs Γ args) :
    ∃ facts, checkValues env args = .ok facts := by
  cases h with
  | nil => exact ⟨{}, rfl⟩
  | cons harg hb hargs =>
    obtain ⟨_, he⟩ := checkExpr_complete hΓ harg
    obtain ⟨f, rfl⟩ := Base.exists_family hb
    obtain ⟨_, hr⟩ := checkValues_complete hΓ hargs
    exact ⟨_, checkValues_cons.2 ⟨f, _, _, he, hr, rfl⟩⟩

end

/-- a type of an expression is its only one: it is what an environment finds that sees just this scope -/
theorem hasType_unique (hnames : (fs.map (·.name)).Nodup) {e : Expr} {b c : Base} (hb : HasType fs Γ e b)
    (hc : HasType fs Γ e c) : b = c := by
  have hΓ : Env.Sees ⟨fs.map fun f => (f.name, f.signature), [Γ.visible], "", .plain .void, false⟩ fs Γ :=
    ⟨rfl, hnames, List.flatten_singleton⟩
  obtain ⟨_, hb⟩ := checkExpr_complete hΓ hb
  obtain ⟨_, hc⟩ := checkExpr_complete hΓ hc
  rw [hb] at hc
  exact congrArg Prod.fst (Except.ok.inj hc)

theorem checkValue_sound (hΓ : env.Sees fs Γ) {e : Expr} {f : Family} {facts : Facts}
    (h : checkExpr env e = .ok (f.base, facts)) : HasValue fs Γ e ∧ facts.About fs [(Γ, e)] := by
  obtain ⟨hte, he⟩ := checkExpr_sound hΓ e h
  exact ⟨⟨f.base, hte, f.base_ne_void⟩, he.about⟩

theorem checkValue_complete (hΓ : env.Sees fs Γ) {e : Expr} (h : HasValue fs Γ e) :
    ∃ f facts, checkExpr env e = .ok (Family.base f, facts) := by
  obtain ⟨b, he, hb⟩ := h
  obtain ⟨f, rfl⟩ := Base.exists_family hb
  exact ⟨f, checkExpr_complete hΓ he⟩

theorem checkEffect_sound (hΓ : env.Sees fs Γ) {e : Expr} {facts : Facts} (h : checkEffect env e = .ok facts) :
    (∃ b, HasType fs Γ e b) ∧ facts.About fs [(Γ, e)] := by
  obtain ⟨b, full, he, htypes, hresolved, -⟩ := checkEffect_eq_ok h
  obtain ⟨hte, he⟩ := checkExpr_sound hΓ e he
  exact ⟨⟨b, hte⟩, (he.congr htypes hresolved).about⟩

theorem checkEffect_complete (hΓ : env.Sees fs Γ) {e : Expr} {b : Base} (h : HasType fs Γ e b) :
    ∃ facts, checkEffect env e = .ok facts := by
  obtain ⟨_, he⟩ := checkExpr_complete hΓ h
  exact exists_checkEffect he

theorem checkOptional_sound (hΓ : env.Sees fs Γ) {e : Option Expr} {facts : Facts}
    (h : checkOptional env e = .ok facts) : (∀ x ∈ e, HasValue fs Γ x) ∧ facts.About fs (Γ.place e) := by
  cases e with
  | none =>
    obtain rfl := checkOptional_none.1 h
    exact ⟨by simp, .nil⟩
  | some e =>
    obtain ⟨f, he⟩ := checkOptional_some.1 h
    obtain ⟨hte, he⟩ := checkValue_sound hΓ he
    refine ⟨?_, he⟩
    rintro _ ⟨⟩
    exact hte

theorem checkOptional_complete (hΓ : env.Sees fs Γ) {e : Option Expr} (h : ∀ x ∈ e, HasValue fs Γ x) :
    ∃ facts, checkOptional env e = .ok facts := by
  cases e with
  | none => exact ⟨{}, rfl⟩
  | some e =>
    obtain ⟨f, _, he⟩ := checkValue_complete hΓ (h e rfl)
    exact ⟨_, checkOptional_some.2 ⟨f, he⟩⟩

theorem checkStep_sound (hΓ : env.Sees fs Γ) {e : Option Expr} {facts : Facts} (h : checkStep env e = .ok facts) :
    (∀ x ∈ e, ∃ b, HasType fs Γ x b) ∧ facts.About fs (Γ.place e) := by
  cases e with
  | none =>
    obtain rfl := checkStep_none.1 h
    exact ⟨by simp, .nil⟩
  | some e =>
    rw [checkStep_some] at h
    obtain ⟨hte, he⟩ := checkEffect_sound hΓ h
    refine ⟨?_, he⟩
    rintro _ ⟨⟩
    exact hte

theorem checkStep_complete (hΓ : env.Sees fs Γ) {e : Option Expr} (h : ∀ x ∈ e, ∃ b, HasType fs Γ x b) :
    ∃ facts, checkStep env e = .ok facts := by
  cases e with
  | none => exact ⟨{}, rfl⟩
  | some e =>
    obtain ⟨b, he⟩ := h e rfl
    exact checkEffect_complete hΓ he

end Expressions

/-! ## Statements -/

section Statements

variable {fs : List FunctionDecl} {Γ : Scope} {env env' : Env} {inside : Bool}

/-- a declaration adds its variable; outside of functions it has no name of a function -/
theorem checkDecl_sound (hΓ : env.Shows fs Γ inside) {kind : VarKind} {d : VarDecl} {facts : Facts}
    (h : checkDecl env kind d = .ok (env', facts)) :
    Declares fs Γ d ∧ (inside = false → ∀ f ∈ fs, f.name ≠ d.name) ∧ env' = env.bind (d.variable kind) ∧
      facts.About fs (Γ.place d.init) := by
  cases hinit : d.init with
  | none =>
    obtain ⟨hvoid, hconst, hdeclare, rfl⟩ := (checkDecl_none hinit).1 h
    obtain ⟨hother, hfresh, rfl⟩ := hΓ.declare_iff.1 hdeclare
    exact ⟨⟨hvoid, hfresh, by simp [hinit], by simp [hconst]⟩, hother, rfl, .nil, .nil⟩
  | some e =>
    obtain ⟨f, facts, he, hty, hdeclare, rfl⟩ := (checkDecl_some hinit).1 h
    obtain ⟨hother, hfresh, rfl⟩ := hΓ.declare_iff.1 hdeclare
    obtain ⟨hte, he⟩ := checkExpr_sound hΓ.toSees e he
    refine ⟨⟨hty ▸ f.base_ne_void, hfresh, ?_, by simp [hinit]⟩, hother, rfl, he.about.congr ?_ ?_⟩
    · rw [hinit]
      rintro _ ⟨⟩
      exact hty ▸ hte
    · exact List.append_nil facts.types
    · exact List.append_nil facts.resolved

theorem checkDecl_complete (hΓ : env.Shows fs Γ inside) {kind : VarKind} {d : VarDecl} (h : Declares fs Γ d)
    (hother : inside = false → ∀ f ∈ fs, f.name ≠ d.name) :
    ∃ facts, checkDecl env kind d = .ok (env.bind (d.variable kind), facts) := by
  have hdeclare : env.declare (d.variable kind) d.nameSpan = .ok (env.bind (d.variable kind)) :=
    hΓ.declare_iff.2 ⟨hother, h.fresh, rfl⟩
  cases hinit : d.init with
  | none =>
    have hconst : d.ty.isConst = false := Bool.eq_false_iff.2 fun hconst => h.const hconst hinit
    exact ⟨_, (checkDecl_none hinit).2 ⟨h.value, hconst, hdeclare, rfl⟩⟩
  | some e =>
    obtain ⟨f, hf⟩ := Base.exists_family h.value
    obtain ⟨_, he⟩ := checkExpr_complete hΓ.toSees (h.init e hinit)
    exact ⟨_, (checkDecl_some hinit).2 ⟨f, _, hf ▸ he, hf, hdeclare, rfl⟩⟩

theorem checkReturn_sound (hΓ : env.Sees fs Γ) {span : Span} {value : Option Expr} {facts : Facts} {loop : Bool}
    (h : checkReturn env span value = .ok facts) :
    Accepts fs env.result loop Γ (.return_ span value) ∧ facts.About fs (Γ.place value) := by
  cases value with
  | none =>
    obtain ⟨hvoid, rfl⟩ := checkReturn_none.1 h
    exact ⟨.return_ hvoid, .nil⟩
  | some e =>
    obtain ⟨f, he, hty⟩ := checkReturn_some.1 h
    obtain ⟨hte, he⟩ := checkExpr_sound hΓ e he
    exact ⟨.returnValue (hty ▸ hte) (hty ▸ f.base_ne_void), he.about⟩

theorem checkForInit_sound (hΓ : env.Shows fs Γ true) {init : ForInit} {facts : Facts}
    (h : checkForInit env init = .ok (env', facts)) :
    Starts fs Γ init ∧ env' = env.declareAll init.declared ∧ facts.About fs (init.exprs Γ) := by
  cases init with
  | nothing =>
    obtain ⟨rfl, rfl⟩ := checkForInit_nothing.1 h
    exact ⟨.nothing, rfl, .nil⟩
  | decl d =>
    rw [checkForInit_decl] at h
    obtain ⟨hd, -, henv, he⟩ := checkDecl_sound hΓ h
    exact ⟨.decl hd, henv, he⟩
  | expr span e =>
    obtain ⟨rfl, he⟩ := checkForInit_expr.1 h
    obtain ⟨⟨b, hte⟩, he⟩ := checkEffect_sound hΓ.toSees he
    exact ⟨.expr hte, rfl, he⟩

theorem checkForInit_complete (hΓ : env.Shows fs Γ true) {init : ForInit} (h : Starts fs Γ init) :
    ∃ facts, checkForInit env init = .ok (env.declareAll init.declared, facts) := by
  cases h with
  | nothing => exact ⟨{}, rfl⟩
  | decl hd => exact checkDecl_complete hΓ hd (by simp)
  | expr he =>
    obtain ⟨_, he⟩ := checkEffect_complete hΓ.toSees he
    exact ⟨_, checkForInit_expr.2 ⟨rfl, he⟩⟩

mutual

/-- **Accepted statements are typed**, and the facts about them are about their expressions. -/
theorem checkStmt_sound {Γ : Scope} {env env' : Env} (hΓ : env.Shows fs Γ true) (s : Stmt) {facts : Facts}
    (h : checkStmt env s = .ok (env', facts)) :
    Accepts fs env.result env.inLoop Γ s ∧ facts.About fs (s.exprs Γ) := by
  cases s with
  | decl d =>
    rw [checkStmt_decl] at h
    obtain ⟨hd, -, -, he⟩ := checkDecl_sound hΓ h
    exact ⟨.decl hd, he⟩
  | ifThen span cond yes =>
    obtain ⟨f, _, _, _, hc, hy, rfl, rfl⟩ := checkStmt_ifThen.1 h
    obtain ⟨htc, hc⟩ := checkValue_sound hΓ.toSees hc
    obtain ⟨hty, hy⟩ := checkStmt_sound hΓ.enter yes hy
    exact ⟨.ifThen htc hty, hc.append hy⟩
  | ifElse span cond yes no =>
    obtain ⟨f, _, _, _, _, _, hc, hy, hn, rfl, rfl⟩ := checkStmt_ifElse.1 h
    obtain ⟨htc, hc⟩ := checkValue_sound hΓ.toSees hc
    obtain ⟨hty, hy⟩ := checkStmt_sound hΓ.enter yes hy
    obtain ⟨htn, hn⟩ := checkStmt_sound hΓ.enter no hn
    exact ⟨.ifElse htc hty htn, (hc.append hy).append hn⟩
  | while_ span cond body =>
    obtain ⟨f, _, _, _, hc, hb, rfl, rfl⟩ := checkStmt_while.1 h
    obtain ⟨htc, hc⟩ := checkValue_sound hΓ.toSees hc
    obtain ⟨htb, hb⟩ := checkStmt_sound hΓ.looping body hb
    exact ⟨.while_ htc htb, hc.append hb⟩
  | doWhile span body cond =>
    obtain ⟨_, _, f, _, hb, hc, rfl, rfl⟩ := checkStmt_doWhile.1 h
    -- the condition sees what the body declares
    obtain ⟨rfl, -⟩ := checkStmt_continues body hb
    obtain ⟨htb, hb⟩ := checkStmt_sound hΓ.looping body hb
    obtain ⟨htc, hc⟩ := checkValue_sound ((hΓ.after body).of_eq rfl rfl).toSees hc
    exact ⟨.doWhile htb htc, hb.append hc⟩
  | for_ span init cond step body =>
    obtain ⟨_, _, _, _, _, _, hinit, hc, hs, hb, rfl, rfl⟩ := checkStmt_for.1 h
    obtain ⟨hti, rfl, hi⟩ := checkForInit_sound hΓ.enter hinit
    have hinner := hΓ.enter.declareAll init.declared
    obtain ⟨htc, hc⟩ := checkOptional_sound hinner.toSees hc
    obtain ⟨hts, hs⟩ := checkStep_sound hinner.toSees hs
    obtain ⟨htb, hb⟩ := checkStmt_sound hinner.looping body hb
    exact ⟨.for_ hti htc hts htb, ((hi.append hc).append hs).append hb⟩
  | break_ span =>
    obtain ⟨hloop, rfl, rfl⟩ := checkStmt_break.1 h
    exact ⟨hloop ▸ .break_, .nil⟩
  | continue_ span =>
    obtain ⟨hloop, rfl, rfl⟩ := checkStmt_continue.1 h
    exact ⟨hloop ▸ .continue_, .nil⟩
  | return_ span value =>
    obtain ⟨rfl, hr⟩ := checkStmt_return.1 h
    exact checkReturn_sound hΓ.toSees hr
  | expr span e =>
    obtain ⟨rfl, he⟩ := checkStmt_expr.1 h
    obtain ⟨⟨b, hte⟩, he⟩ := checkEffect_sound hΓ.toSees he
    exact ⟨.expr hte, he⟩
  | block span body =>
    obtain ⟨rfl, _, hb⟩ := checkStmt_block.1 h
    obtain ⟨htb, hb⟩ := checkStmts_sound hΓ.enter body hb
    exact ⟨.block htb, hb⟩
  | empty span =>
    obtain ⟨rfl, rfl⟩ := checkStmt_empty.1 h
    exact ⟨.empty, .nil⟩

theorem checkStmts_sound {Γ : Scope} {env env' : Env} (hΓ : env.Shows fs Γ true) (ss : List Stmt) {facts : Facts}
    (h : checkStmts env ss = .ok (env', facts)) :
    AcceptsAll fs env.result env.inLoop Γ ss ∧ facts.About fs (Stmt.exprsOf Γ ss) := by
  cases ss with
  | nil =>
    obtain ⟨rfl, rfl⟩ := checkStmts_nil.1 h
    exact ⟨.nil, .nil⟩
  | cons s rest =>
    obtain ⟨_, _, _, hs, hr, rfl⟩ := checkStmts_cons.1 h
    obtain ⟨rfl, -⟩ := checkStmt_continues s hs
    obtain ⟨hts, hs⟩ := checkStmt_sound hΓ s hs
    obtain ⟨htr, hr⟩ := checkStmts_sound (hΓ.after s) rest hr
    exact ⟨.cons hts htr, hs.append hr⟩

end

mutual

/-- **Typed statements are accepted**, and add their declarations to the scope. -/
theorem checkStmt_complete {Γ : Scope} {env : Env} {result : Ty} {loop : Bool} {s : Stmt}
    (h : Accepts fs result loop Γ s) (hΓ : env.Shows fs Γ true) (hresult : env.result = result)
    (hloop : env.inLoop = loop) : ∃ facts, checkStmt env s = .ok (env.after s, facts) := by
  cases h with
  | decl hd =>
    rw [checkStmt_decl]
    exact checkDecl_complete hΓ hd (by simp)
  | ifThen hcond hyes =>
    obtain ⟨f, _, hc⟩ := checkValue_complete hΓ.toSees hcond
    obtain ⟨_, hy⟩ := checkStmt_complete hyes hΓ.enter hresult hloop
    exact ⟨_, checkStmt_ifThen.2 ⟨f, _, _, _, hc, hy, rfl, rfl⟩⟩
  | ifElse hcond hyes hno =>
    obtain ⟨f, _, hc⟩ := checkValue_complete hΓ.toSees hcond
    obtain ⟨_, hy⟩ := checkStmt_complete hyes hΓ.enter hresult hloop
    obtain ⟨_, hn⟩ := checkStmt_complete hno hΓ.enter hresult hloop
    exact ⟨_, checkStmt_ifElse.2 ⟨f, _, _, _, _, _, hc, hy, hn, rfl, rfl⟩⟩
  | while_ hcond hbody =>
    obtain ⟨f, _, hc⟩ := checkValue_complete hΓ.toSees hcond
    obtain ⟨_, hb⟩ := checkStmt_complete hbody hΓ.looping hresult rfl
    exact ⟨_, checkStmt_while.2 ⟨f, _, _, _, hc, hb, rfl, rfl⟩⟩
  | @doWhile _ _ _ body _ hbody hcond =>
    obtain ⟨_, hb⟩ := checkStmt_complete hbody hΓ.looping hresult rfl
    obtain ⟨f, _, hc⟩ := checkValue_complete (hΓ.after body).toSees hcond
    exact ⟨_, checkStmt_doWhile.2 ⟨_, _, f, _, hb, hc, rfl, rfl⟩⟩
  | @for_ _ _ _ init _ _ _ hinit hcond hstep hbody =>
    have hinner := hΓ.enter.declareAll init.declared
    obtain ⟨_, hi⟩ := checkForInit_complete hΓ.enter hinit
    obtain ⟨_, hc⟩ := checkOptional_complete hinner.toSees hcond
    obtain ⟨_, hs⟩ := checkStep_complete hinner.toSees hstep
    obtain ⟨_, hb⟩ := checkStmt_complete hbody hinner.looping hresult rfl
    exact ⟨_, checkStmt_for.2 ⟨_, _, _, _, _, _, hi, hc, hs, hb, rfl, rfl⟩⟩
  | break_ => exact ⟨_, checkStmt_break.2 ⟨hloop, rfl, rfl⟩⟩
  | continue_ => exact ⟨_, checkStmt_continue.2 ⟨hloop, rfl, rfl⟩⟩
  | return_ hvoid => exact ⟨_, checkStmt_return.2 ⟨rfl, checkReturn_none.2 ⟨hresult ▸ hvoid, rfl⟩⟩⟩
  | returnValue he hvoid =>
    obtain ⟨f, hf⟩ := Base.exists_family hvoid
    obtain ⟨_, he⟩ := checkExpr_complete hΓ.toSees he
    exact ⟨_, checkStmt_return.2 ⟨rfl, checkReturn_some.2 ⟨f, hf ▸ he, hresult ▸ hf⟩⟩⟩
  | expr he =>
    obtain ⟨_, he⟩ := checkEffect_complete hΓ.toSees he
    exact ⟨_, checkStmt_expr.2 ⟨rfl, he⟩⟩
  | block hbody =>
    obtain ⟨_, _, hb⟩ := checkStmts_complete hbody hΓ.enter hresult hloop
    exact ⟨_, checkStmt_block.2 ⟨rfl, _, hb⟩⟩
  | empty => exact ⟨_, checkStmt_empty.2 ⟨rfl, rfl⟩⟩

theorem checkStmts_complete {Γ : Scope} {env : Env} {result : Ty} {loop : Bool} {ss : List Stmt}
    (h : AcceptsAll fs result loop Γ ss)
    (hΓ : env.Shows fs Γ true) (hresult : env.result = result) (hloop : env.inLoop = loop) :
    ∃ env' facts, checkStmts env ss = .ok (env', facts) := by
  cases h with
  | nil => exact ⟨env, {}, rfl⟩
  | @cons _ _ s _ hs hrest =>
    obtain ⟨_, hs⟩ := checkStmt_complete hs hΓ hresult hloop
    obtain ⟨_, _, hr⟩ := checkStmts_complete hrest (hΓ.after s) hresult hloop
    exact ⟨_, _, checkStmts_cons.2 ⟨_, _, _, hs, hr, rfl⟩⟩

end

end Statements

/-! ## Programs -/

section Programs

variable {fs : List FunctionDecl} {Γ : Scope} {env env' : Env}

/-- the parameters of a function have values, and names that are different and new in the block -/
theorem checkParams_sound (hΓ : env.Shows fs Γ true) (ps : List Param) {facts : Facts}
    (h : checkParams env ps = .ok (env', facts)) :
    (∀ q ∈ ps, q.ty.base ≠ .void) ∧ (ps.map (·.name)).Nodup ∧ (∀ q ∈ ps, q.name ∉ Γ.own) ∧
      env'.Shows fs (Γ.addAll (ps.map Param.variable)) true ∧ env'.result = env.result ∧ env'.inLoop = env.inLoop ∧
      facts.About fs [] := by
  induction ps generalizing env Γ facts with
  | nil =>
    obtain ⟨rfl, rfl⟩ := checkParams_nil.1 h
    exact ⟨by simp, List.nodup_nil, by simp, hΓ, rfl, rfl, .nil⟩
  | cons q rest ih =>
    obtain ⟨_, _, hvalue, hdeclare, hr, rfl⟩ := checkParams_cons.1 h
    obtain ⟨-, hfresh, rfl⟩ := hΓ.declare_iff.1 hdeclare
    obtain ⟨hvalues, hnames, hnew, hshows, hresult, hloop, hfacts⟩ := ih (hΓ.bind q.variable) hr
    have hdifferent : q.name ∉ rest.map (·.name) := by
      intro hmem
      obtain ⟨r, hr, hname⟩ := List.mem_map.1 hmem
      refine hnew r hr ?_
      rw [hname]
      exact List.mem_cons_self
    refine ⟨List.forall_mem_cons.2 ⟨hvalue, hvalues⟩, List.nodup_cons.2 ⟨hdifferent, hnames⟩, ?_, hshows,
      hresult, hloop, ?_⟩
    · intro r hr
      rcases List.mem_cons.1 hr with rfl | hr
      · exact hfresh
      · intro hown
        exact hnew r hr (List.mem_cons_of_mem _ hown)
    · exact hfacts.congr rfl rfl

theorem checkParams_complete (hΓ : env.Shows fs Γ true) (ps : List Param) (hvalues : ∀ q ∈ ps, q.ty.base ≠ .void)
    (hnames : (ps.map (·.name)).Nodup) (hnew : ∀ q ∈ ps, q.name ∉ Γ.own) :
    ∃ env' facts, checkParams env ps = .ok (env', facts) := by
  induction ps generalizing env Γ with
  | nil => exact ⟨env, {}, rfl⟩
  | cons q rest ih =>
    obtain ⟨hvalue, hvalues⟩ := List.forall_mem_cons.1 hvalues
    obtain ⟨hfresh, hnew⟩ := List.forall_mem_cons.1 hnew
    obtain ⟨hdifferent, hnames⟩ := List.nodup_cons.1 hnames
    have hnext : ∀ r ∈ rest, r.name ∉ (Γ.add q.variable).own := by
      intro r hr hown
      rcases List.mem_cons.1 hown with hname | hown
      · exact hdifferent (List.mem_map.2 ⟨r, hr, hname⟩)
      · exact hnew r hr hown
    obtain ⟨env', _, hr⟩ := ih (hΓ.bind q.variable) hvalues hnames hnext
    have hdeclare : env.declare q.variable q.span = .ok (env.bind q.variable) := hΓ.declare_iff.2 ⟨by simp, hfresh, rfl⟩
    exact ⟨env', _, checkParams_cons.2 ⟨_, _, hvalue, hdeclare, hr, rfl⟩⟩

/-- the environment in which the parameters of a function are declared -/
theorem Env.Shows.entered (hΓ : env.Shows fs Γ false) (f : FunctionDecl) :
    Env.Shows { env.enter with function := f.name, result := f.result } fs Γ.enter true := hΓ.enter.of_eq rfl rfl

theorem checkFunction_sound (hΓ : env.Shows fs Γ false) (hloop : env.inLoop = false) {f : FunctionDecl} {facts : Facts}
    (h : checkFunction env f = .ok facts) :
    FunctionTyped fs Γ f ∧ facts.About fs (Stmt.exprsOf (Γ.inside f) f.body) := by
  obtain ⟨_, _, _, _, hp, hb, rfl⟩ := checkFunction_eq_ok.1 h
  obtain ⟨hvalues, hnames, -, hinner, hresult, houter, hp⟩ := checkParams_sound (hΓ.entered f) f.params hp
  obtain ⟨htb, hb⟩ := checkStmts_sound hinner f.body hb
  rw [hresult, houter, Env.enter, hloop] at htb
  exact ⟨⟨hvalues, hnames, htb⟩, hp.append hb⟩

theorem checkFunction_complete (hΓ : env.Shows fs Γ false) (hloop : env.inLoop = false) {f : FunctionDecl}
    (h : FunctionTyped fs Γ f) : ∃ facts, checkFunction env f = .ok facts := by
  obtain ⟨_, _, hp⟩ := checkParams_complete (hΓ.entered f) f.params h.values h.names (by simp [Scope.enter])
  obtain ⟨-, -, -, hinner, hresult, houter, -⟩ := checkParams_sound (hΓ.entered f) f.params hp
  obtain ⟨_, _, hb⟩ := checkStmts_complete h.body hinner hresult (houter.trans hloop)
  exact ⟨_, checkFunction_eq_ok.2 ⟨_, _, _, _, hp, hb, rfl⟩⟩

theorem checkItems_sound (hΓ : env.Shows fs Γ false) (hloop : env.inLoop = false) (items : List Item) {facts : Facts}
    (h : checkItems env items = .ok facts) : ItemsTyped fs Γ items ∧ facts.About fs (Item.exprsOf Γ items) := by
  induction items generalizing env Γ facts with
  | nil =>
    obtain rfl := checkItems_nil.1 h
    exact ⟨.nil, .nil⟩
  | cons item rest ih =>
    cases item with
    | global d =>
      obtain ⟨_, _, _, hdecl, hr, rfl⟩ := checkItems_global.1 h
      obtain ⟨htd, hother, rfl, hd⟩ := checkDecl_sound hΓ hdecl
      obtain ⟨htr, hr⟩ := ih (hΓ.bind (d.variable .global)) hloop hr
      exact ⟨.global htd (hother rfl) htr, hd.append hr⟩
    | function f =>
      obtain ⟨_, _, hf, hr, rfl⟩ := checkItems_function.1 h
      obtain ⟨htf, hf⟩ := checkFunction_sound hΓ hloop hf
      obtain ⟨htr, hr⟩ := ih hΓ hloop hr
      exact ⟨.function htf htr, hf.append hr⟩

theorem checkItems_complete (hΓ : env.Shows fs Γ false) (hloop : env.inLoop = false) {items : List Item}
    (h : ItemsTyped fs Γ items) : ∃ facts, checkItems env items = .ok facts := by
  induction h generalizing env with
  | nil => exact ⟨{}, rfl⟩
  | @global Γ d rest hd hname hrest ih =>
    obtain ⟨_, hd⟩ := checkDecl_complete hΓ hd fun _ => hname
    obtain ⟨_, hr⟩ := ih (hΓ.bind (d.variable .global)) hloop
    exact ⟨_, checkItems_global.2 ⟨_, _, _, hd, hr, rfl⟩⟩
  | function hf hrest ih =>
    obtain ⟨_, hf⟩ := checkFunction_complete hΓ hloop hf
    obtain ⟨_, hr⟩ := ih hΓ hloop
    exact ⟨_, checkItems_function.2 ⟨_, _, hf, hr, rfl⟩⟩

/-- functions of different names are collected -/
theorem collect_complete {seen : List (String × Signature)} (fs : List FunctionDecl) (hnames : (fs.map (·.name)).Nodup)
    (hnew : ∀ f ∈ fs, f.name ∉ seen.map Prod.fst) :
    collect seen fs = .ok (seen ++ fs.map fun f => (f.name, f.signature)) := by
  induction fs generalizing seen with
  | nil => simp [collect, pure_eq_ok]
  | cons f rest ih =>
    obtain ⟨hdifferent, hnames⟩ := List.nodup_cons.1 hnames
    obtain ⟨hfresh, hnew⟩ := List.forall_mem_cons.1 hnew
    have hnone : seen.lookup f.name = none := by
      rw [List.lookup_eq_none_iff]
      intro x hx
      rw [bne_iff_ne]
      intro hname
      exact hfresh (List.mem_map.2 ⟨x, hx, hname.symm⟩)
    have hnext : ∀ g ∈ rest, g.name ∉ (seen ++ [(f.name, f.signature)]).map Prod.fst := by
      intro g hg hmem
      rw [List.map_append, List.mem_append] at hmem
      rcases hmem with hmem | hmem
      · exact hnew g hg hmem
      · have hname : g.name = f.name := by simpa using hmem
        exact hdifferent (List.mem_map.2 ⟨g, hg, hname⟩)
    have hrest := ih hnames hnext
    rw [List.append_assoc] at hrest
    simpa [collect, hnone, FunctionDecl.signature] using hrest

/-- among functions of different names, the first `main` is the only one -/
theorem checkMain_iff {p : Program} (hnames : (p.functions.map (·.name)).Nodup) :
    checkMain p = .ok () ↔ ∃ f ∈ p.functions, f.name = "main" ∧ f.params = [] := by
  constructor
  · intro h
    obtain ⟨f, hf, hparams⟩ := checkMain_eq_ok h
    exact ⟨f, List.mem_of_find?_eq_some hf, by simpa using List.find?_some hf, hparams⟩
  · rintro ⟨f, hf, hname, hparams⟩
    have hfound : (p.functions.find? (·.name == "main")).isSome = true :=
      List.find?_isSome.2 ⟨f, hf, by simpa using hname⟩
    obtain ⟨g, hg⟩ := Option.isSome_iff_exists.1 hfound
    have hgname : g.name = "main" := by simpa using List.find?_some hg
    have heq : g = f := List.inj_on_of_nodup_map hnames (List.mem_of_find?_eq_some hg) hf (hgname.trans hname.symm)
    simp [checkMain, hg, heq, hparams]

/-- the environment in which a program's items are checked shows the empty scope -/
theorem shows_outermost (hnames : (fs.map (·.name)).Nodup) :
    Env.Shows ⟨fs.map fun f => (f.name, f.signature), [[]], "", .plain .void, false⟩ fs .empty false :=
  ⟨⟨rfl, hnames, rfl⟩, [], [], rfl, rfl, by simp⟩

end Programs

end Typing

/-! ## Tables -/

/-- the tables hold the one type of every node and the declaration that every occurrence of a variable means, and
nothing else -/
structure TypeInfo.Exact (info : TypeInfo) (fs : List FunctionDecl) (places : List (Scope × Expr)) : Prop where
  types : ∀ x ∈ nodesAt places, ∃ b, info.typeOf x.2.id = some b ∧ ∀ c, HasType fs x.1 x.2 c ↔ c = b
  nodes : ∀ id b, info.typeOf id = some b → ∃ x ∈ nodesAt places, x.2.id = id
  resolved : ∀ o ∈ occurrencesAt places, ∃ v, info.facts.resolved.lookup o.2.1 = some v.decl ∧
    ∀ w, o.1.Means o.2.2 w ↔ w = v
  occurrences : ∀ id decl, info.facts.resolved.lookup id = some decl → ∃ o ∈ occurrencesAt places, o.2.1 = id

theorem Scope.Means.unique {Γ : Scope} {name : String} {v w : Variable} (hv : Γ.Means name v) (hw : Γ.Means name w) :
    w = v := by
  rw [Scope.Means, Scope.latest_iff] at hv hw
  exact Option.some.inj (hw.symm.trans hv)

/-- related lists: an entry of either has one in the other -/
theorem exists_mem_of_forall₂ {α β : Type} {R : α → β → Prop} {xs : List α} {ys : List β} (h : List.Forall₂ R xs ys) :
    (∀ x ∈ xs, ∃ y ∈ ys, R x y) ∧ ∀ y ∈ ys, ∃ x ∈ xs, R x y := by
  induction h with
  | nil => simp
  | @cons a b xs ys hab _ ih =>
    constructor
    · intro x hx
      rcases List.mem_cons.1 hx with rfl | hx
      · exact ⟨b, List.mem_cons_self, hab⟩
      · obtain ⟨y, hy, hxy⟩ := ih.1 x hx
        exact ⟨y, List.mem_cons_of_mem _ hy, hxy⟩
    · intro y hy
      rcases List.mem_cons.1 hy with rfl | hy
      · exact ⟨a, List.mem_cons_self, hab⟩
      · obtain ⟨x, hx, hxy⟩ := ih.2 y hy
        exact ⟨x, List.mem_cons_of_mem _ hx, hxy⟩

/-- facts about expressions that hide none of their entries are exact tables for them -/
theorem Facts.About.exact {info : TypeInfo} {fs : List FunctionDecl} {places : List (Scope × Expr)}
    (h : info.facts.About fs places) (hnames : (fs.map (·.name)).Nodup) (hknows : info.Knows info.facts) :
    info.Exact fs places := by
  obtain ⟨htypes, hresolved⟩ := h
  refine ⟨?_, ?_, ?_, ?_⟩
  · intro n hn
    obtain ⟨x, hx, hid, htype⟩ := (exists_mem_of_forall₂ htypes).2 n hn
    refine ⟨x.2, hid ▸ hknows.types x hx, ?_⟩
    intro c
    constructor
    · intro hc
      exact Typing.hasType_unique hnames hc htype
    · intro hc
      exact hc ▸ htype
  · intro id b hb
    obtain ⟨n, hn, hid, -⟩ := (exists_mem_of_forall₂ htypes).1 _ (mem_of_lookup hb)
    exact ⟨n, hn, hid.symm⟩
  · intro o ho
    obtain ⟨x, hx, hid, v, hv, hdecl⟩ := (exists_mem_of_forall₂ hresolved).2 o ho
    refine ⟨v, ?_, ?_⟩
    · rw [← hid, hdecl]
      exact hknows.resolved x hx
    · intro w
      constructor
      · exact hv.unique
      · intro hw
        exact hw ▸ hv
  · intro id decl hdecl
    obtain ⟨o, ho, hid, -⟩ := (exists_mem_of_forall₂ hresolved).1 _ (mem_of_lookup hdecl)
    exact ⟨o, ho, hid.symm⟩

namespace Program

/-- a program that is checked has been accepted by the rules, and its facts are about its expressions -/
theorem check_sound {p : Program} {info : TypeInfo} (h : p.check = .ok info) :
    p.WellTyped ∧ info.facts.About p.functions p.exprs := by
  have hnames := (names_of_check h).1
  obtain ⟨hcollect, hmain, hitems⟩ := check_eq_ok.1 h
  rw [(Typing.collect_eq_ok p.functions hcollect List.nodup_nil).1] at hitems
  obtain ⟨htyped, habout⟩ := Typing.checkItems_sound (Typing.shows_outermost hnames) rfl p.items hitems
  exact ⟨⟨hnames, (Typing.checkMain_iff hnames).1 hmain, htyped⟩, habout⟩

theorem check_complete {p : Program} (h : p.WellTyped) : ∃ info, p.check = .ok info := by
  have hcollect : Typing.collect [] p.functions = .ok (p.functions.map fun f => (f.name, f.signature)) :=
    Typing.collect_complete p.functions h.names (by simp)
  obtain ⟨facts, hitems⟩ := Typing.checkItems_complete (Typing.shows_outermost h.names) rfl h.items
  exact ⟨⟨facts, _⟩, check_eq_ok.2 ⟨hcollect, (Typing.checkMain_iff h.names).2 h.main, hitems⟩⟩

/-- **The checker decides the type system.** A program whose identities are distinct is checked exactly if it is well
typed. The table of types then holds the one type of every expression node, at the place where it stands, and the table
of declarations what every occurrence of a variable means there; neither holds anything else. -/
theorem check_decides_typing (p : Program) (hids : p.ids.Nodup) :
    ((∃ info, p.check = .ok info) ↔ p.WellTyped) ∧ ∀ info, p.check = .ok info → info.Exact p.functions p.exprs := by
  refine ⟨⟨?_, check_complete⟩, ?_⟩
  · rintro ⟨info, h⟩
    exact (check_sound h).1
  · intro info h
    obtain ⟨hp, habout⟩ := check_sound h
    refine habout.exact hp.names ?_
    simp only [Program.check, bind_eq_ok, pure_eq_ok] at h
    obtain ⟨functions, -, _, -, facts, hitems, rfl⟩ := h
    exact (Typing.checkItems_checked p.items hitems).within.knows hids

end Program

/-- `uint x; void main() { int x = 2; do int y = x; while (y < x); ... }`, with one more statement -/
def sharing (last : Stmt) : Program :=
  { span := ⟨0, 0⟩
    items :=
      [.global ⟨0, ⟨0, 0⟩, "x", ⟨0, 0⟩, .plain .uint, none⟩,
       .function ⟨⟨0, 0⟩, "main", ⟨0, 0⟩, .plain .void, [], ⟨0, 0⟩,
        [.decl ⟨2, ⟨0, 0⟩, "x", ⟨0, 0⟩, .plain .int, some (.literal 1 ⟨0, 0⟩ (.int 2))⟩,
         .doWhile ⟨0, 0⟩ (.decl ⟨4, ⟨0, 0⟩, "y", ⟨0, 0⟩, .plain .int, some (.ident 3 ⟨0, 0⟩ "x")⟩)
          (.binary 7 ⟨0, 0⟩ .lt (.ident 5 ⟨0, 0⟩ "y") (.ident 6 ⟨0, 0⟩ "x")), last]⟩] }

/-- `uint y;` -/
def anotherY : Stmt := .decl ⟨8, ⟨0, 0⟩, "y", ⟨0, 0⟩, .plain .uint, none⟩

/-- the body of the `do` is in the scope around it, so that another `y` needs a block of its own; the compared `x` is
the local one -/
theorem sharing_checked :
    (sharing anotherY).ids.Nodup ∧ ¬ (sharing anotherY).WellTyped ∧ (sharing (.block ⟨0, 0⟩ [anotherY])).WellTyped ∧
    ∃ info, (sharing (.block ⟨0, 0⟩ [anotherY])).check = .ok info ∧ info.facts.resolved.lookup 6 = some 2 ∧
      info.Exact (sharing (.block ⟨0, 0⟩ [anotherY])).functions (sharing (.block ⟨0, 0⟩ [anotherY])).exprs := by
  obtain ⟨info, hcheck, hx⟩ : ∃ info, (sharing (.block ⟨0, 0⟩ [anotherY])).check = .ok info ∧
      info.facts.resolved.lookup 6 = some 2 :=
    ⟨_, rfl, rfl⟩
  have hrefused := (Program.check_decides_typing (sharing anotherY) (by decide)).1
  obtain ⟨haccepted, hexact⟩ := Program.check_decides_typing (sharing (.block ⟨0, 0⟩ [anotherY])) (by decide)
  refine ⟨by decide, ?_, haccepted.1 ⟨info, hcheck⟩, info, hcheck, hx, hexact info hcheck⟩
  intro htyped
  obtain ⟨_, hchecked⟩ := hrefused.2 htyped
  cases hchecked

end C15

/-
Constants are written once.

The checker refuses an assignment or update that names a constant, and a constant without an initializer. So of the
purposes for which a line may write an address only the first value is left for a constant, and only the argument for a
constant parameter. Results:
- `Program.stored_not_const`: what an assignment or update means is not a constant;
- `Program.constant_writer`, `Program.constant_param_writer`: what the lines are for that write the address of a
  constant;
- `compile_constants_written_once`: the address of a constant global or local is written by one line, right behind the
  code of its initializer, and that of a constant parameter only by the arguments in front of a call of its function.
-/
import C15.Proofs.Assembling
import C15.Proofs.Writes

namespace C15

/-! ## Declarations that are accepted -/

section Accepted

variable {fs : List FunctionDecl}

mutual

/-- the declarations that an accepted statement reaches are among its variables, and a constant has an initializer -/
theorem Accepts.locals_declared {result : Ty} {loop : Bool} {Γ : Scope} {s : Stmt} (h : Accepts fs result loop Γ s)
    {d : VarDecl} (hd : d ∈ s.locals) : d.variable .localVar ∈ s.vars ∧ (d.ty.isConst = true → d.init ≠ none) := by
  cases s with
  | decl d' =>
    cases h with
    | decl hdeclares =>
      obtain rfl := List.mem_singleton.1 hd
      exact ⟨List.mem_singleton_self _, hdeclares.const⟩
  | ifThen _ cond yes =>
    cases h with
    | ifThen _ hyes => exact hyes.locals_declared hd
  | ifElse _ cond yes no =>
    cases h with
    | ifElse _ hyes hno =>
      rcases List.mem_append.1 hd with hd | hd
      · exact (hyes.locals_declared hd).imp_left (List.mem_append_left _)
      · exact (hno.locals_declared hd).imp_left (List.mem_append_right _)
  | while_ _ cond body =>
    cases h with
    | while_ _ hbody => exact hbody.locals_declared hd
  | doWhile _ body cond =>
    cases h with
    | doWhile hbody _ => exact hbody.locals_declared hd
  | for_ _ init cond step body =>
    cases h with
    | for_ hinit _ _ hbody =>
      rcases List.mem_append.1 hd with hd | hd
      · refine ⟨List.mem_append_left _ (List.mem_map_of_mem hd), ?_⟩
        cases hinit with
        | decl hdeclares =>
          obtain rfl := List.mem_singleton.1 hd
          exact hdeclares.const
        | nothing | expr => cases hd
      · exact (hbody.locals_declared hd).imp_left (List.mem_append_right _)
  | block _ body =>
    cases h with
    | block hbody => exact hbody.locals_declared hd
  | break_ | continue_ | return_ | expr | empty => cases hd

theorem AcceptsAll.locals_declared {result : Ty} {loop : Bool} {Γ : Scope} {ss : List Stmt}
    (h : AcceptsAll fs result loop Γ ss) {d : VarDecl} (hd : d ∈ Stmt.localsOf ss) :
    d.variable .localVar ∈ Stmt.varsOf ss ∧ (d.ty.isConst = true → d.init ≠ none) := by
  cases ss with
  | nil => cases hd
  | cons s rest =>
    cases h with
    | cons hs hrest =>
      rw [Stmt.localsOf, List.mem_append] at hd
      rcases hd with hd | hd
      · exact (hs.locals_declared hd).imp_left (List.mem_append_left _)
      · cases hdiverges : s.diverges with
        | true =>
          rw [hdiverges] at hd
          cases hd
        | false =>
          rw [hdiverges] at hd
          exact (hrest.locals_declared hd).imp_left (List.mem_append_right _)

end

theorem ItemsTyped.declares {Γ : Scope} {items : List Item} (h : ItemsTyped fs Γ items) {d : VarDecl}
    (hd : .global d ∈ items) :
    ∃ Γ', Declares fs Γ' d := by
  induction h with
  | nil => cases hd
  | @global Γ d' rest hdeclares _ _ ih =>
    rcases List.mem_cons.1 hd with heq | hd
    · cases heq
      exact ⟨Γ, hdeclares⟩
    · exact ih hd
  | function _ _ ih =>
    rcases List.mem_cons.1 hd with heq | hd
    · cases heq
    · exact ih hd

theorem ItemsTyped.function_typed {Γ : Scope} {items : List Item} (h : ItemsTyped fs Γ items) {f : FunctionDecl}
    (hf : .function f ∈ items) : ∃ Γ', FunctionTyped fs Γ' f := by
  induction h with
  | nil => cases hf
  | global _ _ _ ih =>
    rcases List.mem_cons.1 hf with heq | hf
    · cases heq
    · exact ih hf
  | @function Γ f' rest htyped _ ih =>
    rcases List.mem_cons.1 hf with heq | hf
    · cases heq
      exact ⟨Γ, htyped⟩
    · exact ih hf

/-- an assignment or update has a variable that is no constant -/
theorem HasType.target_not_const {Γ : Scope} {e : Expr} {b : Base} (h : HasType fs Γ e b) {id : NodeId} {name : String}
    (ht : e.target? = some (id, name)) : ∃ v, Γ.Means name v ∧ v.ty.isConst = false := by
  cases h with
  | update hv hconst | assign hv hconst | compound hv hconst =>
    cases ht
    exact ⟨_, hv, hconst⟩
  | literal | ident | arithmetic | test | neg | not | bitNot | call | intrinsic | cast => cases ht

end Accepted

/-! ## Related lists -/

section Related

variable {α β : Type} {R : α → β → Prop}

theorem countP_eq_of_forall₂ {xs : List α} {ys : List β} (h : List.Forall₂ R xs ys) {f : α → Bool} {g : β → Bool}
    (hfg : ∀ x, ∀ y ∈ ys, R x y → f x = g y) : xs.countP f = ys.countP g := by
  induction h with
  | nil => rfl
  | @cons x y xs ys hxy _ ih =>
    rw [List.countP_cons, List.countP_cons, hfg x y List.mem_cons_self hxy, ih fun x y hy =>
      hfg x y (List.mem_cons_of_mem _ hy)]

theorem exists_getElem?_of_forall₂ {xs : List α} {ys : List β} (h : List.Forall₂ R xs ys) {i : Nat} {x : α}
    (hx : xs[i]? = some x) :
    ∃ y, ys[i]? = some y ∧ R x y := by
  induction h generalizing i with
  | nil => cases hx
  | @cons a b xs ys hab _ ih =>
    cases i with
    | zero =>
      obtain rfl := Option.some.inj hx
      exact ⟨b, rfl, hab⟩
    | succ i => exact ih hx

theorem exists_append_of_forall₂ {xs : List α} {ys zs : List β} (h : List.Forall₂ R xs (ys ++ zs)) :
    ∃ as bs, xs = as ++ bs ∧ List.Forall₂ R as ys ∧ List.Forall₂ R bs zs :=
  ⟨_, _, (List.take_append_drop ys.length xs).symm, List.forall₂_take_append _ _ _ h, List.forall₂_drop_append _ _ _ h⟩

end Related

theorem Purpose.first?_eq_init {q : Purpose} {decl : NodeId} : q.first? = some (decl, true) ↔ q = .init decl := by
  cases q <;> simp [Purpose.first?]

/-- lines that take arguments and call take them from addresses of the parameters -/
theorem Codegen.exists_addresses_of_pass {cells : List Cell} {info : TypeInfo} {callee : String} {ps : List Param}
    {ls : List Line} (h : Served cells info ls (ps.map (fun q => .pass callee q.id) ++ [.call callee])) :
    ∃ as, ls = as.map (fun a => .instr (popA a)) ++ [.instr (.jump .call (functionLabel callee))] ∧
      Places cells as (ps.map Param.cell) := by
  induction ps generalizing ls with
  | nil =>
    obtain ⟨l, rest, hl, hrest, rfl⟩ := List.forall₂_cons_right_iff.1 h
    cases hrest
    exact ⟨[], by rw [show l = _ from hl]; rfl, .nil⟩
  | cons q ps ih =>
    obtain ⟨l, rest, ⟨a, rfl, ha⟩, hrest, rfl⟩ := List.forall₂_cons_right_iff.1 h
    obtain ⟨as, rfl, hplaced⟩ := ih hrest
    exact ⟨a :: as, rfl, .cons ha hplaced⟩

namespace Program

variable {p : Program} {info : TypeInfo} {out : Generated}

/-! ## Owners of a checked program -/

/-- a global or local that has an address is a variable of the program, and a constant has an initializer -/
theorem variable_declared (hp : p.WellTyped) {d : VarDecl} (hd : .variable d ∈ p.owners) :
    (∃ kind, d.variable kind ∈ p.vars) ∧ (d.ty.isConst = true → d.init ≠ none) := by
  rcases mem_owners_variable.1 hd with hd | ⟨f, hf, hd⟩
  · have hitem := mem_globals.1 hd
    obtain ⟨Γ, hdeclares⟩ := hp.items.declares hitem
    exact ⟨⟨.global, List.mem_flatMap.2 ⟨_, hitem, List.mem_singleton_self _⟩⟩, hdeclares.const⟩
  · have hitem := mem_functions.1 hf
    obtain ⟨Γ, htyped⟩ := hp.items.function_typed hitem
    obtain ⟨hvar, hconst⟩ := htyped.body.locals_declared hd
    exact ⟨⟨.localVar, List.mem_flatMap.2 ⟨_, hitem, List.mem_append_right _ hvar⟩⟩, hconst⟩

theorem param_declared {f : FunctionDecl} (hf : f ∈ p.functions) {q : Param} (hq : q ∈ f.params) :
    q.variable ∈ p.vars :=
  List.mem_flatMap.2 ⟨_, mem_functions.1 hf, List.mem_append_left _ (List.mem_map_of_mem hq)⟩

/-- owners of one cell are one owner -/
theorem owner_unique (hids : p.ids.Nodup) (hcheck : p.check = .ok info) {i : Nat} {o o' : Owner}
    (ho : p.owners[i]? = some o) (ho' : o' ∈ p.owners) (hcell : o'.cell = o.cell) : o' = o := by
  obtain ⟨j, hj⟩ := List.mem_iff_getElem?.1 ho'
  have hij := cell_unique hids hcheck (cell_of_owner ho) (hcell ▸ cell_of_owner hj)
  rw [← hij, ho] at hj
  exact (Option.some.inj hj).symm

/-- functions with a common parameter are one function -/
theorem function_unique (hids : p.ids.Nodup) (hcheck : p.check = .ok info) {f g : FunctionDecl} (hf : f ∈ p.functions)
    (hg : g ∈ p.functions) {c : Cell} (hcf : c ∈ f.frameCells) (hcg : c ∈ g.frameCells) : f = g := by
  have hnodup := p.cells_nodup hids (names_of_check hcheck).1
  rw [cells, List.append_assoc] at hnodup
  have hframes := (List.nodup_flatMap.1 (List.nodup_append.1 (List.nodup_append.1 hnodup).2.1).1).2
  have : Std.Symm (Function.onFun List.Disjoint FunctionDecl.frameCells) := ⟨fun _ _ h => h.symm⟩
  by_contra hne
  exact hframes.forall hf hg hne hcf hcg

/-! ## Lines that write a constant -/

/-- the checker lets no assignment or update name a constant -/
theorem stored_not_const (hids : p.ids.Nodup) (hcheck : p.check = .ok info) {id : NodeId}
    (hid : .store id ∈ p.purposes info) {w : Variable} (hw : info.variableOf id = some w) :
    ∃ v ∈ p.vars, v.decl = w.decl ∧ v.ty.isConst = false := by
  obtain ⟨x, hx, name, ho, n, hn, htarget⟩ := p.purposes_within hid rfl
  have hnode : (x.1, n) ∈ nodesAt p.exprs := List.mem_flatMap.2 ⟨x, hx, List.mem_map_of_mem hn⟩
  obtain ⟨t, -, -, htype⟩ := (exists_mem_of_forall₂ (check_sound hcheck).2.types).2 _ hnode
  obtain ⟨v, hmeans, hconst⟩ := htype.target_not_const htarget
  have hplace : (x.1, id, name) ∈ occurrencesAt p.exprs := List.mem_flatMap.2 ⟨x, hx, List.mem_map_of_mem ho⟩
  obtain ⟨v', hlookup, hmeans'⟩ := resolved_of_check hids hcheck hplace
  obtain rfl := hmeans.unique hmeans'
  have hdecl : v'.decl = w.decl := Option.some.inj (hlookup.symm.trans (info.resolved_of_variableOf hw))
  rw [Scope.Means, Scope.latest_iff] at hmeans
  obtain ⟨r, hr, -⟩ := visible_region hplace (List.mem_of_find?_eq_some hmeans)
  exact ⟨v', p.map_regions false ▸ List.mem_map_of_mem hr, hdecl, hconst⟩

/-- a line that writes the address of a constant gives it its first value or takes an argument into it -/
theorem writer_cases (hids : p.ids.Nodup) (hcheck : p.check = .ok info) {l : Line} {q : Purpose}
    (hserves : l.Serves p.cells info q) (hq : q ∈ p.purposes info) {v : Variable} (hv : v ∈ p.vars)
    (hconst : v.ty.isConst = true) {a : Address} (hcell : p.cells[a.index]? = some (.variable v.decl))
    (hw : l.writes a = true) : q = .init v.decl ∨ q = .reset v.decl ∨ ∃ callee, q = .pass callee v.decl := by
  obtain ⟨c, hc, hwrites⟩ := hserves.writes hw
  obtain rfl := Option.some.inj (hcell.symm.trans hc)
  cases q with
  | store id =>
    obtain ⟨w, hw', hdecl⟩ := hwrites
    obtain ⟨u, hu, hsame, hplain⟩ := stored_not_const hids hcheck hq hw'
    have huv : u = v := List.inj_on_of_nodup_map (vars_nodup hids) hu hv (hsame.trans (Cell.variable.inj hdecl).symm)
    rw [huv, hconst] at hplain
    cases hplain
  | init decl =>
    obtain rfl := Cell.variable.inj hwrites
    exact Or.inl rfl
  | reset decl =>
    obtain rfl := Cell.variable.inj hwrites
    exact Or.inr (Or.inl rfl)
  | pass callee decl =>
    obtain rfl := Cell.variable.inj hwrites
    exact Or.inr (Or.inr ⟨callee, rfl⟩)
  | leave function => cases hwrites
  | work | expose | load | call | fetch => cases hwrites

/-- a first value is that of a global or of a local reached -/
theorem owner_of_first {x : NodeId × Bool} (h : x ∈ p.firsts) :
    ∃ d, .variable d ∈ p.owners ∧ (d.id, d.init.isSome) = x := by
  rcases List.mem_append.1 h with h | h
  · obtain ⟨d, hd, rfl⟩ := List.mem_map.1 h
    exact ⟨d, mem_owners_variable.2 (Or.inl hd), rfl⟩
  · obtain ⟨f, hf, h⟩ := List.mem_flatMap.1 h
    obtain ⟨d, hd, rfl⟩ := List.mem_map.1 h
    obtain ⟨hlocal, hinit⟩ := List.mem_filter.1 hd
    exact ⟨d, mem_owners_variable.2 (Or.inr ⟨f, hf, hlocal⟩), by rw [hinit]⟩

theorem mem_firsts {q : Purpose} (hq : q ∈ p.purposes info) {x : NodeId × Bool} (hx : q.first? = some x) :
    x ∈ p.firsts := by
  rw [← p.filterMap_first info]
  exact List.mem_filterMap.2 ⟨q, hq, hx⟩

/-- an argument is taken into a parameter of the function that is called -/
theorem param_of_pass {callee : String} {decl : NodeId} (h : .pass callee decl ∈ p.purposes info) :
    ∃ f ∈ p.functions, f.name = callee ∧ ∃ q ∈ f.params, q.id = decl := by
  obtain ⟨j, hj⟩ := List.mem_iff_getElem?.1 h
  obtain ⟨before, f, after, hf, hqs, hle, hlt⟩ := p.purposes_grouped info j callee decl hj
  obtain ⟨hmem, hname⟩ := calledFunction_spec hf
  refine ⟨f, hmem, hname, ?_⟩
  rw [hqs, List.append_assoc, List.append_assoc, List.getElem?_append_right hle, List.getElem?_append_left] at hj
  · obtain ⟨q, hq, heq⟩ := List.mem_map.1 (List.mem_of_getElem? hj)
    exact ⟨q, List.mem_reverse.1 hq, (Purpose.pass.inj heq).2⟩
  · rw [List.length_map, List.length_reverse]
    omega

/-- a line that writes the address of a constant global or local takes the value of its initializer -/
theorem constant_writer (hids : p.ids.Nodup) (hcheck : p.check = .ok info) {l : Line} {q : Purpose}
    (hserves : l.Serves p.cells info q) (hq : q ∈ p.purposes info) {i : Nat} {d : VarDecl}
    (hd : p.owners[i]? = some (.variable d)) (hconst : d.ty.isConst = true) : l.writes ⟨i⟩ = true ↔ q = .init d.id := by
  have hcell : p.cells[i]? = some (.variable d.id) := cell_of_owner hd
  constructor
  · intro hw
    obtain ⟨⟨kind, hv⟩, hinit⟩ := variable_declared (check_sound hcheck).1 (List.mem_of_getElem? hd)
    rcases writer_cases hids hcheck hserves hq hv hconst hcell hw with h | h | ⟨callee, h⟩
    · exact h
    · obtain ⟨g, hg, heq⟩ := owner_of_first (mem_firsts hq (x := (d.id, false)) (by rw [h]; rfl))
      obtain ⟨hid, hnone⟩ := Prod.mk.inj heq
      cases owner_unique hids hcheck hd hg (congrArg Cell.variable hid)
      rw [Option.isSome_eq_false_iff, Option.isNone_iff_eq_none] at hnone
      exact absurd hnone (hinit hconst)
    · obtain ⟨f, hf, -, r, hr, hid⟩ := param_of_pass (h ▸ hq)
      cases owner_unique hids hcheck hd (mem_owners_param.2 ⟨f, hf, hr⟩) (congrArg Cell.variable hid)
  · rintro rfl
    obtain ⟨a, rfl, ha⟩ := hserves
    rw [Line.writes_popA, beq_iff_eq]
    exact cell_unique hids hcheck hcell ha

/-- a line that writes the address of a constant parameter takes an argument of a call of its function -/
theorem constant_param_writer (hids : p.ids.Nodup) (hcheck : p.check = .ok info) {l : Line} {q : Purpose}
    (hserves : l.Serves p.cells info q) (hq : q ∈ p.purposes info) {f : FunctionDecl} (hf : f ∈ p.functions) {r : Param}
    (hr : r ∈ f.params) (hconst : r.ty.isConst = true) {i : Nat} (hi : p.owners[i]? = some (.param r))
    (hw : l.writes ⟨i⟩ = true) : q = .pass f.name r.id := by
  have hcell : p.cells[i]? = some (.variable r.id) := cell_of_owner hi
  rcases writer_cases hids hcheck hserves hq (param_declared hf hr) hconst hcell hw with h | h | ⟨callee, h⟩
  · obtain ⟨d, hd, heq⟩ := owner_of_first (mem_firsts hq (x := (r.id, true)) (by rw [h]; rfl))
    cases owner_unique hids hcheck hi hd (congrArg Cell.variable (Prod.mk.inj heq).1)
  · obtain ⟨d, hd, heq⟩ := owner_of_first (mem_firsts hq (x := (r.id, false)) (by rw [h]; rfl))
    cases owner_unique hids hcheck hi hd (congrArg Cell.variable (Prod.mk.inj heq).1)
  · obtain ⟨g, hg, hname, r', hr', hid⟩ := param_of_pass (h ▸ hq)
    cases owner_unique hids hcheck hi (mem_owners_param.2 ⟨g, hg, hr'⟩) (congrArg Cell.variable hid)
    have hcells {k : FunctionDecl} (hk : r ∈ k.params) : r.cell ∈ k.frameCells :=
      List.mem_append_right _ (List.mem_map_of_mem hk)
    rw [h, ← hname, function_unique hids hcheck hf hg (hcells hr) (hcells hr')]
    rfl

/-! ## Counting -/

/-- no declaration is given a first value twice -/
theorem firsts_nodup (hids : p.ids.Nodup) (hcheck : p.check = .ok info) : p.firsts.Nodup := by
  have hsub : ((p.firsts.map Prod.fst).map Cell.variable).Sublist p.cells := by
    have hlocals :
        (p.functions.flatMap fun f => ((VarDecl.firsts (Stmt.localsOf f.body)).map Prod.fst).map Cell.variable).Sublist
        (p.functions.flatMap FunctionDecl.localCells) := by
      apply List.Sublist.flatMap_right
      intro f _
      simp only [VarDecl.firsts, List.map_map, FunctionDecl.localCells]
      exact (List.filter_sublist).map _
    have hglobals : ((p.globals.map fun d => (d.id, d.init.isSome)).map Prod.fst).map Cell.variable =
        p.globals.map VarDecl.cell := by
      simp only [List.map_map]
      rfl
    rw [firsts, List.map_append, List.map_append, List.map_flatMap, List.map_flatMap, hglobals, cells,
      List.append_assoc]
    exact (List.Sublist.refl _).append (hlocals.trans (List.sublist_append_right _ _))
  exact ((p.cells_nodup hids (names_of_check hcheck).1).sublist hsub).of_map.of_map

/-- one line gives a constant its first value -/
theorem constant_writes (hids : p.ids.Nodup) (hcheck : p.check = .ok info) (hgen : p.generate info = .ok out) {i : Nat}
    {d : VarDecl} (hd : p.owners[i]? = some (.variable d)) (hconst : d.ty.isConst = true) :
    out.lines.countP (·.writes ⟨i⟩) = 1 := by
  have hinit := (variable_declared (check_sound hcheck).1 (List.mem_of_getElem? hd)).2 hconst
  have hmem : (d.id, true) ∈ p.firsts := by
    have hsome : d.init.isSome = true := Option.isSome_iff_ne_none.2 hinit
    rcases mem_owners_variable.1 (List.mem_of_getElem? hd) with hglobal | ⟨f, hf, hlocal⟩
    · exact List.mem_append_left _ (List.mem_map.2 ⟨d, hglobal, by rw [hsome]⟩)
    · exact List.mem_append_right _
        (List.mem_flatMap.2 ⟨f, hf, List.mem_map.2 ⟨d, List.mem_filter.2 ⟨hlocal, hsome⟩, rfl⟩⟩)
  calc out.lines.countP (·.writes ⟨i⟩) = (p.purposes info).countP fun q => q.first? == some (d.id, true) := by
        apply countP_eq_of_forall₂ (generate_serves hgen)
        intro l q hq hserves
        rw [Bool.eq_iff_iff, beq_iff_eq, constant_writer hids hcheck hserves hq hd hconst]
        exact Purpose.first?_eq_init.symm
    _ = p.firsts.count (d.id, true) := by rw [← p.filterMap_first info, List.count_filterMap]
    _ = 1 := List.count_eq_one_of_mem (firsts_nodup hids hcheck) hmem

/-- the lines around one that writes a constant parameter: the arguments of a call of its function, the last first, and
the call -/
theorem constant_param_block (hids : p.ids.Nodup) (hcheck : p.check = .ok info) (hgen : p.generate info = .ok out)
    {f : FunctionDecl} (hf : f ∈ p.functions) {r : Param} (hr : r ∈ f.params) (hconst : r.ty.isConst = true) {i : Nat}
    (hi : p.owners[i]? = some (.param r)) {j : Nat} {l : Line} (hl : out.lines[j]? = some l)
    (hw : l.writes ⟨i⟩ = true) :
    ∃ before as after, out.lines = before ++ as.map (fun a => .instr (Codegen.popA a)) ++
        .instr (.jump .call (Codegen.functionLabel f.name)) :: after ∧
      before.length ≤ j ∧ j < before.length + as.length ∧
        Codegen.Places p.cells as (f.params.reverse.map Param.cell) := by
  have hserves := generate_serves hgen
  obtain ⟨q, hq, hlq⟩ := exists_getElem?_of_forall₂ hserves hl
  obtain rfl := constant_param_writer hids hcheck hlq (List.mem_of_getElem? hq) hf hr hconst hi hw
  obtain ⟨before, g, after, hg, hqs, hle, hlt⟩ := p.purposes_grouped info j f.name r.id hq
  obtain ⟨hmem, hname⟩ := calledFunction_spec hg
  obtain rfl : g = f := List.inj_on_of_nodup_map (names_of_check hcheck).1 hmem hf hname
  rw [hqs] at hserves
  obtain ⟨xs, ls, hxs, hfront, hafter⟩ := exists_append_of_forall₂ hserves
  obtain ⟨ls₁, ls₂, hls, hbefore, hblock⟩ := exists_append_of_forall₂ hfront
  obtain ⟨as, has, hplaced⟩ := Codegen.exists_addresses_of_pass hblock
  refine ⟨ls₁, as, ls, ?_, ?_, ?_, hplaced⟩
  · rw [hxs, hls, has]
    simp
  · rw [hbefore.length_eq]
    exact hle
  · have hcount := hplaced.length_eq
    rw [List.length_map, List.length_reverse] at hcount
    rw [hbefore.length_eq, hcount]
    exact hlt

end Program

/-- **Constants are written once.** In a source that compiles, the address of every constant global and of every
constant local that has one is written by one line: it takes the value of the initializer, right behind the code for it.
The address of a constant parameter is written only by lines that take the arguments of a call of its function, with the
call behind them. -/
theorem compile_constants_written_once {source : String} {g : Generated} (h : compile source = .ok g) :
    ∃ tokens p info, Lexer.tokenize source = .ok tokens ∧ Program.parse tokens = .ok p ∧ p.check = .ok info ∧
      p.generate info = .ok g ∧ g.destinations = destinationsOf p.owners ∧
      (∀ (i : Nat) (d : VarDecl), p.owners[i]? = some (.variable d) → d.ty.isConst = true →
        g.lines.countP (·.writes ⟨i⟩) = 1 ∧
        ∃ e cx slots frag before after, d.init = some e ∧ cx.info = info ∧
          Codegen.lowerExpr cx slots true e = .ok frag ∧
          g.lines = before ++ (frag.lines ++ [.instr (Codegen.popA ⟨i⟩)]) ++ after) ∧
      ∀ f ∈ p.functions, ∀ r ∈ f.params, r.ty.isConst = true → ∀ i : Nat, p.owners[i]? = some (.param r) →
        ∀ (j : Nat) (l : Line), g.lines[j]? = some l → l.writes ⟨i⟩ = true →
          ∃ before as after, g.lines = before ++ as.map (fun a => .instr (Codegen.popA a)) ++
              .instr (.jump .call (Codegen.functionLabel f.name)) :: after ∧
            before.length ≤ j ∧ j < before.length + as.length ∧
              Codegen.Places p.cells as (f.params.reverse.map Param.cell) := by
  obtain ⟨tokens, p, info, htokens, hparse, hcheck, hgen⟩ := compile_eq_ok h
  have hids : p.ids.Nodup := (wellFormed_of_source htokens hparse).distinct
  obtain ⟨parts⟩ := Program.nonempty_parts hgen
  refine ⟨tokens, p, info, htokens, hparse, hcheck, hgen,
    parts.destinations.trans parts.final_holds.destinations, ?_, ?_⟩
  · intro i d hd hconst
    refine ⟨Program.constant_writes hids hcheck hgen hd hconst, ?_⟩
    have hmem := List.mem_of_getElem? hd
    obtain ⟨e, he⟩ :=
      Option.ne_none_iff_exists'.1 ((Program.variable_declared (Program.check_sound hcheck).1 hmem).2 hconst)
    obtain ⟨cx, slots, frag, a, hinfo, hlower, hcell, before, after, hlines⟩ :=
      Program.generate_initializes hgen hmem e he
    have ha : a = ⟨i⟩ := congrArg Address.mk (Program.cell_unique hids hcheck hcell (Program.cell_of_owner hd))
    exact ⟨e, cx, slots, frag, before, after, he, hinfo, hlower, ha ▸ hlines.symm⟩
  · intro f hf r hr hconst i hi j l hl hw
    exact Program.constant_param_block hids hcheck hgen hf hr hconst hi hl hw

/-- a constant global, parameter and local -/
def threeConstants : String :=
  "const int k = 2; int f(const int n) { return n * k; } void main() { const int r = f(k); }"

/-- the global has the address 0, and one line writes it -/
theorem threeConstants_written_once : ∃ g, compile threeConstants = .ok g ∧ g.lines.countP (·.writes ⟨0⟩) = 1 := by
  have hglobals : ((Lexer.tokenize threeConstants).toOption.bind fun tokens =>
      (Program.parse tokens).toOption.map fun p => p.globals.map (·.ty.isConst)) = some [true] := by decide +kernel
  have hcompiles : (compile threeConstants).toOption.isSome = true := by decide +kernel
  cases hcompile : compile threeConstants with
  | error e =>
    rw [hcompile] at hcompiles
    cases hcompiles
  | ok g =>
    obtain ⟨tokens, p, info, htokens, hparse, -, -, -, hconstants, -⟩ := compile_constants_written_once hcompile
    rw [htokens] at hglobals
    have hconst : p.globals.map (·.ty.isConst) = [true] := by simpa [Except.toOption, hparse] using hglobals
    obtain ⟨d, hd, hty⟩ := List.map_eq_singleton_iff.1 hconst
    exact ⟨g, rfl, (hconstants 0 d (by rw [Program.owners, hd]; rfl) hty).1⟩

end C15

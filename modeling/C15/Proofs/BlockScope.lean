/-
Where a declaration is in force, by the text alone, and where an occurrence finds it.

A declaration in a block is in force behind it to the end of the block, one in the header of a `for` in the rest of that
`for`, a parameter in the body of its function, a global in the items behind it. A declaration that is the whole of a
branch or of a loop body is a block by itself, so that it is in force nowhere. `Program.regions true` lists the
declarations with the occurrences they are in force at.

The checker agrees but for one case: the body of a `while` or `do` that is a declaration belongs to the block around the
loop (`Program.regions false`). Results:
- `Stmt.visible_cases`: what is visible at an occurrence was visible in front of the statement or is in force by the
  regions;
- `Stmt.regions_cases`: the two readings differ at bodies of `while` and `do` that are declarations, and nowhere else;
- `Program.check_resolves_in_scope`: an occurrence resolves to a declaration that is in force there, up to exactly those
  bodies.
-/
import C15.Proofs.Storage
import C15.Proofs.TypeChecking

namespace C15

/-! ## Regions -/

/-- occurrences in an expression that may be absent -/
def Expr.optionalOccurrences (e : Option Expr) : List (NodeId × String) := e.elim [] Expr.occurrences

def ForInit.occurrences : ForInit → List (NodeId × String)
  | .nothing => []
  | .decl d => Expr.optionalOccurrences d.init
  | .expr _ e => e.occurrences

mutual

/-- the places in a statement where a variable is meant -/
def Stmt.occurrences : Stmt → List (NodeId × String)
  | .decl d => Expr.optionalOccurrences d.init
  | .ifThen _ cond yes => cond.occurrences ++ yes.occurrences
  | .ifElse _ cond yes no => cond.occurrences ++ (yes.occurrences ++ no.occurrences)
  | .while_ _ cond body => cond.occurrences ++ body.occurrences
  | .doWhile _ body cond => body.occurrences ++ cond.occurrences
  | .for_ _ init cond step body =>
    init.occurrences ++ Expr.optionalOccurrences cond ++ Expr.optionalOccurrences step ++ body.occurrences
  | .return_ _ value => Expr.optionalOccurrences value
  | .expr _ e => e.occurrences
  | .block _ body => Stmt.occurrencesOf body
  | .break_ _ | .continue_ _ | .empty _ => []

def Stmt.occurrencesOf : List Stmt → List (NodeId × String)
  | [] => []
  | s :: rest => s.occurrences ++ Stmt.occurrencesOf rest

end

def Item.occurrences : Item → List (NodeId × String)
  | .global d => Expr.optionalOccurrences d.init
  | .function f => Stmt.occurrencesOf f.body

def Program.occurrences (p : Program) : List (NodeId × String) := p.items.flatMap Item.occurrences

/-- a declaration and the occurrences it is in force at -/
abbrev Region := Variable × List (NodeId × String)

def ForInit.regions (rest : List (NodeId × String)) (init : ForInit) : List Region :=
  init.declared.map fun d => (d.variable .localVar, rest)

mutual

/-- the regions of the declarations in a statement, `rest` being what stands behind it in its block. A branch and the
body of a `for` have nothing behind them; the body of a `while` or `do` has not either if it counts as a block. -/
def Stmt.regions (blocks : Bool) (rest : List (NodeId × String)) : Stmt → List Region
  | .decl d => [(d.variable .localVar, rest)]
  | .ifThen _ _ yes => yes.regions blocks []
  | .ifElse _ _ yes no => yes.regions blocks [] ++ no.regions blocks []
  | .while_ _ _ body => body.regions blocks (if blocks then [] else rest)
  | .doWhile _ body cond => body.regions blocks (if blocks then [] else cond.occurrences ++ rest)
  | .for_ _ init cond step body =>
    init.regions (Expr.optionalOccurrences cond ++ Expr.optionalOccurrences step ++ body.occurrences) ++
      body.regions blocks []
  | .block _ body => Stmt.regionsOf blocks body
  | .break_ _ | .continue_ _ | .return_ .. | .expr .. | .empty _ => []

def Stmt.regionsOf (blocks : Bool) : List Stmt → List Region
  | [] => []
  | s :: rest => s.regions blocks (Stmt.occurrencesOf rest) ++ Stmt.regionsOf blocks rest

end

def FunctionDecl.regions (blocks : Bool) (f : FunctionDecl) : List Region :=
  f.params.map (fun q => (q.variable, Stmt.occurrencesOf f.body)) ++ Stmt.regionsOf blocks f.body

def Item.regionsOf (blocks : Bool) : List Item → List Region
  | [] => []
  | .global d :: rest => (d.variable .global, rest.flatMap Item.occurrences) :: Item.regionsOf blocks rest
  | .function f :: rest => f.regions blocks ++ Item.regionsOf blocks rest

/-- the declarations of a program with the occurrences they are in force at -/
def Program.regions (blocks : Bool) (p : Program) : List Region := Item.regionsOf blocks p.items

/-- the region of a declaration, among some, has an occurrence -/
def Region.Has (regions : List Region) (v : Variable) (o : NodeId × String) : Prop := ∃ r, (v, r) ∈ regions ∧ o ∈ r

/-- a declaration is in force at the occurrence with an identity -/
def Program.InForce (blocks : Bool) (p : Program) (v : Variable) (id : NodeId) : Prop :=
  ∃ name, Region.Has (p.regions blocks) v (id, name)

/-- the declaration that a statement is -/
def Stmt.own : Stmt → List Variable
  | .decl d => [d.variable .localVar]
  | _ => []

mutual

/-- declarations that are the whole body of a `while` or `do` -/
def Stmt.bareBodies : Stmt → List Variable
  | .ifThen _ _ yes => yes.bareBodies
  | .ifElse _ _ yes no => yes.bareBodies ++ no.bareBodies
  | .while_ _ _ body | .doWhile _ body _ => body.own ++ body.bareBodies
  | .for_ _ _ _ _ body => body.bareBodies
  | .block _ body => Stmt.bareBodiesOf body
  | .decl _ | .break_ _ | .continue_ _ | .return_ .. | .expr .. | .empty _ => []

def Stmt.bareBodiesOf : List Stmt → List Variable
  | [] => []
  | s :: rest => s.bareBodies ++ Stmt.bareBodiesOf rest

end

def Item.bareBodies : Item → List Variable
  | .global _ => []
  | .function f => Stmt.bareBodiesOf f.body

def Program.bareBodies (p : Program) : List Variable := p.items.flatMap Item.bareBodies

/-! ## Declarations -/

mutual

/-- the variables that a statement declares, in the order of the text -/
def Stmt.vars : Stmt → List Variable
  | .decl d => [d.variable .localVar]
  | .ifThen _ _ yes => yes.vars
  | .ifElse _ _ yes no => yes.vars ++ no.vars
  | .while_ _ _ body | .doWhile _ body _ => body.vars
  | .for_ _ init _ _ body => init.declared.map (·.variable .localVar) ++ body.vars
  | .block _ body => Stmt.varsOf body
  | .break_ _ | .continue_ _ | .return_ .. | .expr .. | .empty _ => []

def Stmt.varsOf : List Stmt → List Variable
  | [] => []
  | s :: rest => s.vars ++ Stmt.varsOf rest

end

def Item.vars : Item → List Variable
  | .global d => [d.variable .global]
  | .function f => f.params.map Param.variable ++ Stmt.varsOf f.body

def Program.vars (p : Program) : List Variable := p.items.flatMap Item.vars

theorem VarDecl.decl_sublist (d : VarDecl) : [d.id].Sublist d.ids := List.sublist_append_right _ _

mutual

theorem Stmt.vars_sublist (s : Stmt) : (s.vars.map (·.decl)).Sublist s.ids := by
  cases s with
  | decl d => exact d.decl_sublist
  | ifThen _ cond yes => exact (yes.vars_sublist).trans (List.sublist_append_right _ _)
  | ifElse _ cond yes no =>
    simp only [vars, List.map_append, ids]
    exact ((yes.vars_sublist).trans (List.sublist_append_right _ _)).append no.vars_sublist
  | while_ _ cond body => exact (body.vars_sublist).trans (List.sublist_append_right _ _)
  | doWhile _ body cond => exact (body.vars_sublist).trans (List.sublist_append_left _ _)
  | for_ _ init cond step body =>
    simp only [vars, List.map_append, List.map_map, ids, List.append_assoc]
    refine init.declared_sublist.append ?_
    exact (body.vars_sublist).trans ((List.sublist_append_right _ _).trans (List.sublist_append_right _ _))
  | block _ body => exact Stmt.varsOf_sublist body
  | break_ | continue_ | return_ | expr | empty => exact List.nil_sublist _

theorem Stmt.varsOf_sublist (ss : List Stmt) : ((Stmt.varsOf ss).map (·.decl)).Sublist (Stmt.idsOf ss) := by
  cases ss with
  | nil => exact .slnil
  | cons s rest =>
    simp only [Stmt.varsOf, List.map_append, Stmt.idsOf]
    exact s.vars_sublist.append (Stmt.varsOf_sublist rest)

end

theorem Item.vars_sublist (it : Item) : (it.vars.map (·.decl)).Sublist it.ids := by
  cases it with
  | global d => exact d.decl_sublist
  | function f =>
    simp only [vars, List.map_append, List.map_map, ids, FunctionDecl.ids]
    exact (List.Sublist.refl _).append (Stmt.varsOf_sublist f.body)

/-- no two declarations of a program have the same identity, if its identities are distinct -/
theorem Program.vars_nodup {p : Program} (hids : p.ids.Nodup) : (p.vars.map (·.decl)).Nodup := by
  refine List.Nodup.sublist ?_ hids
  unfold Program.vars Program.ids
  induction p.items with
  | nil => exact .slnil
  | cons it rest ih =>
    simp only [List.flatMap_cons, List.map_append]
    exact it.vars_sublist.append ih

/-! ## Regions of all declarations -/

theorem ForInit.map_regions (rest : List (NodeId × String)) (init : ForInit) :
    (init.regions rest).map Prod.fst = init.declared.map (·.variable .localVar) := by
  simp [regions]

mutual

theorem Stmt.map_regions (blocks : Bool) (rest : List (NodeId × String)) (s : Stmt) :
    (s.regions blocks rest).map Prod.fst = s.vars := by
  cases s with
  | decl d => rfl
  | ifThen _ cond yes => exact yes.map_regions blocks []
  | ifElse _ cond yes no => simp only [regions, List.map_append, vars, yes.map_regions, no.map_regions]
  | while_ _ cond body => exact body.map_regions blocks _
  | doWhile _ body cond => exact body.map_regions blocks _
  | for_ _ init cond step body => simp only [regions, List.map_append, vars, init.map_regions, body.map_regions]
  | block _ body => exact Stmt.map_regionsOf blocks body
  | break_ | continue_ | return_ | expr | empty => rfl

theorem Stmt.map_regionsOf (blocks : Bool) (ss : List Stmt) :
    (Stmt.regionsOf blocks ss).map Prod.fst = Stmt.varsOf ss := by
  cases ss with
  | nil => rfl
  | cons s rest =>
    simp only [Stmt.regionsOf, List.map_append, Stmt.varsOf, s.map_regions, Stmt.map_regionsOf blocks rest]

end

/-- every declaration of a program has one region, in either reading -/
theorem Program.map_regions (blocks : Bool) (p : Program) : (p.regions blocks).map Prod.fst = p.vars := by
  unfold Program.regions Program.vars
  induction p.items with
  | nil => rfl
  | cons it rest ih =>
    cases it with
    | global d => simp only [Item.regionsOf, List.map_cons, ih, List.flatMap_cons, Item.vars, List.singleton_append]
    | function f =>
      simp only [Item.regionsOf, FunctionDecl.regions, List.map_append, List.map_map, Stmt.map_regionsOf, ih,
        List.flatMap_cons, Item.vars]
      rfl

theorem Program.region_unique {p : Program} (hids : p.ids.Nodup) {blocks : Bool} {v : Variable}
    {r r' : List (NodeId × String)} (h : (v, r) ∈ p.regions blocks) (h' : (v, r') ∈ p.regions blocks) : r' = r := by
  have hnodup : ((p.regions blocks).map Prod.fst).Nodup := by
    rw [p.map_regions]
    exact (vars_nodup hids).of_map
  exact congrArg Prod.snd (List.inj_on_of_nodup_map hnodup h' h rfl)

/-! ## The two readings -/

/-- a body that is not a declaration has the same regions whatever stands behind it, if loop bodies are blocks -/
theorem Stmt.regions_of_rest {s : Stmt} {v : Variable} {r rest : List (NodeId × String)}
    (rest' : List (NodeId × String)) (h : (v, r) ∈ s.regions true rest) :
    (v, r) ∈ s.regions true rest' ∨ v ∈ s.own := by
  cases s with
  | decl d =>
    obtain ⟨rfl, -⟩ := Prod.mk.inj (List.mem_singleton.1 h)
    exact Or.inr (List.mem_singleton_self _)
  | _ => exact Or.inl h

mutual

/-- the readings differ at most at declarations that are bodies of `while` or `do` -/
theorem Stmt.regions_cases {s : Stmt} {v : Variable} {r rest : List (NodeId × String)}
    (h : (v, r) ∈ s.regions false rest) : (v, r) ∈ s.regions true rest ∨ v ∈ s.bareBodies := by
  cases s with
  | decl d => exact Or.inl h
  | ifThen _ cond yes => exact Stmt.regions_cases (s := yes) h
  | ifElse _ cond yes no =>
    simp only [regions, bareBodies, List.mem_append] at h ⊢
    rcases h with h | h
    · exact (Stmt.regions_cases h).imp Or.inl Or.inl
    · exact (Stmt.regions_cases h).imp Or.inr Or.inr
  | while_ _ cond body =>
    simp only [regions, bareBodies, List.mem_append, if_true] at h ⊢
    rcases Stmt.regions_cases h with h | h
    · exact (Stmt.regions_of_rest [] h).imp_right Or.inl
    · exact Or.inr (Or.inr h)
  | doWhile _ body cond =>
    simp only [regions, bareBodies, List.mem_append, if_true] at h ⊢
    rcases Stmt.regions_cases h with h | h
    · exact (Stmt.regions_of_rest [] h).imp_right Or.inl
    · exact Or.inr (Or.inr h)
  | for_ _ init cond step body =>
    simp only [regions, bareBodies, List.mem_append] at h ⊢
    rcases h with h | h
    · exact Or.inl (Or.inl h)
    · exact (Stmt.regions_cases h).imp_left Or.inr
  | block _ body =>
    simp only [regions, bareBodies] at h ⊢
    exact Stmt.regionsOf_cases h
  | break_ | continue_ | return_ | expr | empty => cases h

theorem Stmt.regionsOf_cases {ss : List Stmt} {v : Variable} {r : List (NodeId × String)}
    (h : (v, r) ∈ Stmt.regionsOf false ss) : (v, r) ∈ Stmt.regionsOf true ss ∨ v ∈ Stmt.bareBodiesOf ss := by
  cases ss with
  | nil => cases h
  | cons s rest =>
    simp only [Stmt.regionsOf, Stmt.bareBodiesOf, List.mem_append] at h ⊢
    rcases h with h | h
    · exact (Stmt.regions_cases h).imp Or.inl Or.inl
    · exact (Stmt.regionsOf_cases h).imp Or.inr Or.inr

end

theorem Stmt.own_region {s : Stmt} {v : Variable} (h : v ∈ s.own) (blocks : Bool) (rest : List (NodeId × String)) :
    (v, rest) ∈ s.regions blocks rest := by
  cases s with
  | decl d =>
    obtain rfl := List.mem_singleton.1 h
    exact List.mem_singleton_self _
  | _ => cases h

mutual

/-- a declaration that is the body of a `while` or `do` is in force nowhere, if loop bodies are blocks -/
theorem Stmt.bareBodies_region {s : Stmt} {v : Variable} (h : v ∈ s.bareBodies) (rest : List (NodeId × String)) :
    (v, []) ∈ s.regions true rest := by
  cases s with
  | ifThen _ cond yes => exact Stmt.bareBodies_region (s := yes) h []
  | ifElse _ cond yes no =>
    simp only [regions, bareBodies, List.mem_append] at h ⊢
    rcases h with h | h
    · exact Or.inl (Stmt.bareBodies_region h [])
    · exact Or.inr (Stmt.bareBodies_region h [])
  | while_ _ cond body | doWhile _ body cond =>
    simp only [regions, bareBodies, List.mem_append, if_true] at h ⊢
    rcases h with h | h
    · exact Stmt.own_region h true []
    · exact Stmt.bareBodies_region h []
  | for_ _ init cond step body => exact List.mem_append_right _ (Stmt.bareBodies_region (s := body) h [])
  | block _ body =>
    simp only [regions, bareBodies] at h ⊢
    exact Stmt.bareBodiesOf_region h
  | decl | break_ | continue_ | return_ | expr | empty => cases h

theorem Stmt.bareBodiesOf_region {ss : List Stmt} {v : Variable} (h : v ∈ Stmt.bareBodiesOf ss) :
    (v, []) ∈ Stmt.regionsOf true ss := by
  cases ss with
  | nil => cases h
  | cons s rest =>
    simp only [Stmt.regionsOf, Stmt.bareBodiesOf, List.mem_append] at h ⊢
    rcases h with h | h
    · exact Or.inl (Stmt.bareBodies_region h _)
    · exact Or.inr (Stmt.bareBodiesOf_region h)

end

theorem Item.regionsOf_cases {items : List Item} {v : Variable} {r : List (NodeId × String)}
    (h : (v, r) ∈ Item.regionsOf false items) :
    (v, r) ∈ Item.regionsOf true items ∨ v ∈ items.flatMap Item.bareBodies := by
  induction items with
  | nil => cases h
  | cons it rest ih =>
    rw [List.flatMap_cons, List.mem_append]
    cases it with
    | global d =>
      simp only [Item.regionsOf, List.mem_cons] at h ⊢
      rcases h with h | h
      · exact Or.inl (Or.inl h)
      · exact (ih h).imp Or.inr Or.inr
    | function f =>
      simp only [Item.regionsOf, FunctionDecl.regions, List.mem_append] at h ⊢
      rcases h with (h | h) | h
      · exact Or.inl (Or.inl (Or.inl h))
      · exact (Stmt.regionsOf_cases h).imp (fun h => Or.inl (Or.inr h)) Or.inl
      · exact (ih h).imp Or.inr Or.inr

theorem Item.bareBodies_region {items : List Item} {v : Variable} (h : v ∈ items.flatMap Item.bareBodies) :
    (v, []) ∈ Item.regionsOf true items := by
  induction items with
  | nil => cases h
  | cons it rest ih =>
    rw [List.flatMap_cons, List.mem_append] at h
    rcases h with h | h
    · cases it with
      | global d => cases h
      | function f => exact List.mem_append_left _ (List.mem_append_right _ (Stmt.bareBodiesOf_region h))
    · cases it with
      | global d => exact List.mem_cons_of_mem _ (ih h)
      | function f => exact List.mem_append_right _ (ih h)

/-! ## What is visible -/

theorem Region.Has.left {xs : List Region} {v : Variable} {o : NodeId × String} (h : Has xs v o) (ys : List Region) :
    Has (xs ++ ys) v o := by
  obtain ⟨r, hr, ho⟩ := h
  exact ⟨r, List.mem_append_left _ hr, ho⟩

theorem Region.Has.right {ys : List Region} {v : Variable} {o : NodeId × String} (h : Has ys v o) (xs : List Region) :
    Has (xs ++ ys) v o := by
  obtain ⟨r, hr, ho⟩ := h
  exact ⟨r, List.mem_append_right _ hr, ho⟩

/-- the occurrences of an expression that stands in a scope -/
@[simp] theorem occurrencesAt_place (Γ : Scope) (e : Option Expr) :
    occurrencesAt (Γ.place e) = (Expr.optionalOccurrences e).map (Γ, ·) := by
  cases e <;> simp [occurrencesAt, Scope.place, Expr.optionalOccurrences]

@[simp] theorem occurrencesAt_cons (Γ : Scope) (e : Expr) (xs : List (Scope × Expr)) :
    occurrencesAt ((Γ, e) :: xs) = e.occurrences.map (Γ, ·) ++ occurrencesAt xs := by
  simp [occurrencesAt]

@[simp] theorem occurrencesAt_nil : occurrencesAt [] = [] := rfl

@[simp] theorem occurrencesAt_init (Γ : Scope) (init : ForInit) :
    occurrencesAt (init.exprs Γ) = init.occurrences.map (Γ, ·) := by
  cases init <;> simp [ForInit.exprs, ForInit.occurrences]

/-- an occurrence in an expression is in the scope that the expression stands in -/
theorem eq_of_mem_map {Γ : Scope} {os : List (NodeId × String)} {o : Scope × NodeId × String} (h : o ∈ os.map (Γ, ·)) :
    o.1 = Γ ∧ o.2 ∈ os := by
  obtain ⟨x, hx, rfl⟩ := List.mem_map.1 h
  exact ⟨rfl, hx⟩

theorem map_snd_map (Γ : Scope) (os : List (NodeId × String)) : (os.map (Γ, ·)).map Prod.snd = os := by
  simp

mutual

/-- the occurrences in a statement are the same in every scope -/
theorem Stmt.map_occurrencesAt (Γ : Scope) (s : Stmt) : (occurrencesAt (s.exprs Γ)).map Prod.snd = s.occurrences := by
  cases s with
  | ifThen _ cond yes =>
    simp only [exprs, occurrencesAt_cons, List.map_append, map_snd_map, yes.map_occurrencesAt, occurrences]
  | ifElse _ cond yes no =>
    simp only [exprs, occurrencesAt_cons, occurrencesAt_append, List.map_append, map_snd_map, yes.map_occurrencesAt,
      no.map_occurrencesAt, occurrences]
  | while_ _ cond body =>
    simp only [exprs, occurrencesAt_cons, List.map_append, map_snd_map, body.map_occurrencesAt, occurrences]
  | doWhile _ body cond =>
    simp only [exprs, occurrencesAt_append, occurrencesAt_cons, occurrencesAt_nil, List.append_nil,
      List.map_append, map_snd_map, body.map_occurrencesAt, occurrences]
  | for_ _ init cond step body =>
    simp only [exprs, occurrencesAt_append, occurrencesAt_init, occurrencesAt_place, List.map_append, map_snd_map,
      body.map_occurrencesAt, occurrences]
  | block _ body => exact Stmt.map_occurrencesAtOf Γ.enter body
  | decl | return_ | expr | break_ | continue_ | empty => simp [exprs, occurrences]

theorem Stmt.map_occurrencesAtOf (Γ : Scope) (ss : List Stmt) :
    (occurrencesAt (Stmt.exprsOf Γ ss)).map Prod.snd = Stmt.occurrencesOf ss := by
  cases ss with
  | nil => rfl
  | cons s rest =>
    simp only [Stmt.exprsOf, occurrencesAt_append, List.map_append, s.map_occurrencesAt,
      Stmt.map_occurrencesAtOf _ rest, Stmt.occurrencesOf]

end

theorem Item.map_occurrencesAt (Γ : Scope) (items : List Item) :
    (occurrencesAt (Item.exprsOf Γ items)).map Prod.snd = items.flatMap Item.occurrences := by
  induction items generalizing Γ with
  | nil => rfl
  | cons it rest ih =>
    cases it with
    | global d =>
      simp only [exprsOf, occurrencesAt_append, occurrencesAt_place, List.map_append, map_snd_map, ih,
        List.flatMap_cons, occurrences]
    | function f =>
      simp only [exprsOf, occurrencesAt_append, List.map_append, Stmt.map_occurrencesAtOf, ih,
        List.flatMap_cons, occurrences]

theorem Stmt.mem_occurrences {Γ : Scope} {s : Stmt} {o : Scope × NodeId × String} (h : o ∈ occurrencesAt (s.exprs Γ)) :
    o.2 ∈ s.occurrences :=
  s.map_occurrencesAt Γ ▸ List.mem_map_of_mem h

theorem Stmt.mem_occurrencesOf {Γ : Scope} {ss : List Stmt} {o : Scope × NodeId × String}
    (h : o ∈ occurrencesAt (Stmt.exprsOf Γ ss)) : o.2 ∈ Stmt.occurrencesOf ss :=
  Stmt.map_occurrencesAtOf Γ ss ▸ List.mem_map_of_mem h

theorem Scope.mem_addAll {Γ : Scope} {vs : List Variable} {v : Variable} (h : v ∈ (Γ.addAll vs).visible) :
    v ∈ vs ∨ v ∈ Γ.visible := by
  induction vs generalizing Γ with
  | nil => exact Or.inr h
  | cons w vs ih =>
    rcases ih (Γ := Γ.add w) h with h | h
    · exact Or.inl (List.mem_cons_of_mem _ h)
    · rcases List.mem_cons.1 h with rfl | h
      · exact Or.inl List.mem_cons_self
      · exact Or.inr h

/-- what a statement declares around it is in force behind it, as the checker reads it -/
theorem Stmt.declared_region {s : Stmt} {v : Variable} (h : v ∈ s.declared.map (·.variable .localVar))
    (rest : List (NodeId × String)) :
    ∃ r, (v, r) ∈ s.regions false rest ∧ rest ⊆ r := by
  cases s with
  | decl d =>
    obtain rfl := List.mem_singleton.1 h
    exact ⟨rest, List.mem_singleton_self _, List.Subset.refl _⟩
  | while_ _ cond body => exact Stmt.declared_region (s := body) h rest
  | doWhile _ body cond =>
    obtain ⟨r, hr, hrest⟩ := Stmt.declared_region (s := body) h (cond.occurrences ++ rest)
    exact ⟨r, hr, List.Subset.trans (List.subset_append_right _ _) hrest⟩
  | ifThen | ifElse | for_ | break_ | continue_ | return_ | expr | block | empty => cases h

/-- what is visible behind a statement was visible in front of it or is in force there -/
theorem Stmt.visible_after {Γ : Scope} {s : Stmt} {v : Variable} (h : v ∈ (Γ.after s).visible)
    {rest : List (NodeId × String)} {o : NodeId × String} (ho : o ∈ rest) :
    v ∈ Γ.visible ∨ Region.Has (s.regions false rest) v o := by
  rcases Scope.mem_addAll h with h | h
  · obtain ⟨r, hr, hrest⟩ := Stmt.declared_region h rest
    exact Or.inr ⟨r, hr, hrest ho⟩
  · exact Or.inl h

/-- what is visible in a `for` was visible in front of it or is declared in its header -/
theorem ForInit.visible_after {Γ : Scope} {init : ForInit} {v : Variable}
    (h : v ∈ (Γ.enter.declare init.declared).visible) {rest : List (NodeId × String)} {o : NodeId × String}
    (ho : o ∈ rest) : v ∈ Γ.visible ∨ Region.Has (init.regions rest) v o := by
  rcases Scope.mem_addAll h with h | h
  · obtain ⟨d, hd, rfl⟩ := List.mem_map.1 h
    exact Or.inr ⟨rest, List.mem_map.2 ⟨d, hd, rfl⟩, ho⟩
  · exact Or.inl h

mutual

/-- what is visible at an occurrence was visible in front of the statement, or is declared in it and in force at the
occurrence -/
theorem Stmt.visible_cases {Γ : Scope} {s : Stmt} {o : Scope × NodeId × String} (ho : o ∈ occurrencesAt (s.exprs Γ))
    {v : Variable} (hv : v ∈ o.1.visible) (rest : List (NodeId × String)) :
    v ∈ Γ.visible ∨ Region.Has (s.regions false rest) v o.2 := by
  cases s with
  | decl d =>
    rw [exprs, occurrencesAt_place] at ho
    exact Or.inl ((eq_of_mem_map ho).1 ▸ hv)
  | ifThen _ cond yes =>
    rw [exprs, occurrencesAt_cons, List.mem_append] at ho
    rcases ho with ho | ho
    · exact Or.inl ((eq_of_mem_map ho).1 ▸ hv)
    · exact Stmt.visible_cases ho hv []
  | ifElse _ cond yes no =>
    rw [exprs, occurrencesAt_cons, occurrencesAt_append, List.mem_append, List.mem_append] at ho
    rcases ho with ho | ho | ho
    · exact Or.inl ((eq_of_mem_map ho).1 ▸ hv)
    · exact (Stmt.visible_cases ho hv []).imp_right fun h => h.left _
    · exact (Stmt.visible_cases ho hv []).imp_right fun h => h.right _
  | while_ _ cond body =>
    rw [exprs, occurrencesAt_cons, List.mem_append] at ho
    rcases ho with ho | ho
    · exact Or.inl ((eq_of_mem_map ho).1 ▸ hv)
    · exact Stmt.visible_cases ho hv rest
  | doWhile _ body cond =>
    rw [exprs, occurrencesAt_append, occurrencesAt_cons, occurrencesAt_nil, List.append_nil, List.mem_append] at ho
    rcases ho with ho | ho
    · exact Stmt.visible_cases ho hv _
    · -- the condition stands behind the body
      obtain ⟨hscope, ho⟩ := eq_of_mem_map ho
      rw [hscope] at hv
      exact Stmt.visible_after hv (List.mem_append_left rest ho)
  | for_ _ init cond step body =>
    simp only [exprs, occurrencesAt_append, occurrencesAt_init, occurrencesAt_place, List.mem_append] at ho
    rcases ho with ((ho | ho) | ho) | ho
    · rw [(eq_of_mem_map ho).1] at hv
      exact Or.inl hv
    · obtain ⟨hscope, ho⟩ := eq_of_mem_map ho
      rw [hscope] at hv
      exact (ForInit.visible_after hv (List.mem_append_left _ (List.mem_append_left _ ho))).imp_right fun h => h.left _
    · obtain ⟨hscope, ho⟩ := eq_of_mem_map ho
      rw [hscope] at hv
      exact (ForInit.visible_after hv (List.mem_append_left _ (List.mem_append_right _ ho))).imp_right fun h => h.left _
    · rcases Stmt.visible_cases ho hv [] with hv | hv
      · exact (ForInit.visible_after hv (List.mem_append_right _ (Stmt.mem_occurrences ho))).imp_right fun h => h.left _
      · exact Or.inr (hv.right _)
  | return_ _ value =>
    rw [exprs, occurrencesAt_place] at ho
    exact Or.inl ((eq_of_mem_map ho).1 ▸ hv)
  | expr _ e =>
    rw [exprs, occurrencesAt_cons, occurrencesAt_nil, List.append_nil] at ho
    exact Or.inl ((eq_of_mem_map ho).1 ▸ hv)
  | block _ body =>
    rw [exprs] at ho
    exact Stmt.visibleOf_cases ho hv
  | break_ | continue_ | empty => cases ho

theorem Stmt.visibleOf_cases {Γ : Scope} {ss : List Stmt} {o : Scope × NodeId × String}
    (ho : o ∈ occurrencesAt (Stmt.exprsOf Γ ss)) {v : Variable} (hv : v ∈ o.1.visible) :
    v ∈ Γ.visible ∨ Region.Has (Stmt.regionsOf false ss) v o.2 := by
  cases ss with
  | nil => cases ho
  | cons s rest =>
    rw [Stmt.exprsOf, occurrencesAt_append, List.mem_append] at ho
    rcases ho with ho | ho
    · exact (Stmt.visible_cases ho hv _).imp_right fun h => h.left _
    · rcases Stmt.visibleOf_cases ho hv with hv | hv
      · exact (Stmt.visible_after hv (Stmt.mem_occurrencesOf ho)).imp_right fun h => h.left _
      · exact Or.inr (hv.right _)

end

theorem Item.visible_cases {Γ : Scope} {items : List Item} {o : Scope × NodeId × String}
    (ho : o ∈ occurrencesAt (Item.exprsOf Γ items)) {v : Variable} (hv : v ∈ o.1.visible) :
    v ∈ Γ.visible ∨ Region.Has (Item.regionsOf false items) v o.2 := by
  induction items generalizing Γ with
  | nil => cases ho
  | cons it rest ih =>
    cases it with
    | global d =>
      rw [exprsOf, occurrencesAt_append, occurrencesAt_place, List.mem_append] at ho
      rcases ho with ho | ho
      · exact Or.inl ((eq_of_mem_map ho).1 ▸ hv)
      · rcases ih ho with hv | ⟨r, hr, hor⟩
        · rcases List.mem_cons.1 hv with rfl | hv
          · exact Or.inr ⟨_, List.mem_cons_self, Item.map_occurrencesAt _ rest ▸ List.mem_map_of_mem ho⟩
          · exact Or.inl hv
        · exact Or.inr ⟨r, List.mem_cons_of_mem _ hr, hor⟩
    | function f =>
      rw [exprsOf, occurrencesAt_append, List.mem_append] at ho
      rcases ho with ho | ho
      · rcases Stmt.visibleOf_cases ho hv with hv | hv
        · rcases Scope.mem_addAll hv with hv | hv
          · obtain ⟨q, hq, rfl⟩ := List.mem_map.1 hv
            have hparam : Region.Has (f.params.map fun q => (q.variable, Stmt.occurrencesOf f.body)) q.variable o.2 :=
              ⟨_, List.mem_map.2 ⟨q, hq, rfl⟩, Stmt.mem_occurrencesOf ho⟩
            exact Or.inr ((hparam.left _).left _)
          · exact Or.inl hv
        · exact Or.inr ((hv.right _).left _)
      · exact (ih ho).imp_right fun h => h.right _

/-! ## Programs -/

namespace Program

/-- what is visible at an occurrence of a program is in force there, as the checker reads it -/
theorem visible_region {p : Program} {o : Scope × NodeId × String} (ho : o ∈ occurrencesAt p.exprs) {v : Variable}
    (hv : v ∈ o.1.visible) : Region.Has (p.regions false) v o.2 := by
  rcases Item.visible_cases ho hv with h | h
  · cases h
  · exact h

/-- the readings differ exactly at declarations that are bodies of `while` or `do` -/
theorem inForce_blocks_iff {p : Program} (hids : p.ids.Nodup) {v : Variable} {id : NodeId} (h : p.InForce false v id) :
    p.InForce true v id ↔ v ∉ p.bareBodies := by
  constructor
  · rintro ⟨name, r, hr, hname⟩ hbare
    rw [region_unique hids (Item.bareBodies_region hbare) hr] at hname
    cases hname
  · intro hbare
    obtain ⟨name, r, hr, hname⟩ := h
    exact ⟨name, r, (Item.regionsOf_cases hr).resolve_right hbare, hname⟩

/-- the table of declarations of a checked program: what an occurrence resolves to is what its name means where it
stands -/
theorem resolved_of_check {p : Program} {info : TypeInfo} (hids : p.ids.Nodup) (h : p.check = .ok info)
    {o : Scope × NodeId × String} (ho : o ∈ occurrencesAt p.exprs) :
    ∃ v, info.facts.resolved.lookup o.2.1 = some v.decl ∧ o.1.Means o.2.2 v := by
  obtain ⟨hp, habout⟩ := check_sound h
  obtain ⟨v, hlookup, hmeans⟩ := (habout.exact hp.names (knows_of_check hids h)).resolved o ho
  exact ⟨v, hlookup, (hmeans v).2 rfl⟩

/-- **Block scoping.** Every occurrence of a variable in a checked program resolves to a declaration of its name that is
in force there, if the body of a `while` or `do` is read as a part of the block around the loop. If every branch and
every loop body is a block of its own, the declaration is in force at the occurrence exactly if it is not the whole body
of a `while` or `do`. -/
theorem check_resolves_in_scope {p : Program} {info : TypeInfo} (hids : p.ids.Nodup) (h : p.check = .ok info)
    {id : NodeId} {name : String} (hoccurrence : (id, name) ∈ p.occurrences) :
    ∃ v, info.facts.resolved.lookup id = some v.decl ∧ v.name = name ∧ p.InForce false v id ∧
      (p.InForce true v id ↔ v ∉ p.bareBodies) := by
  obtain ⟨⟨Γ, o⟩, ho, rfl⟩ : ∃ o ∈ occurrencesAt p.exprs, o.2 = (id, name) := by
    rw [occurrences, ← Item.map_occurrencesAt .empty] at hoccurrence
    exact List.mem_map.1 hoccurrence
  obtain ⟨v, hlookup, hmeans⟩ := resolved_of_check hids h ho
  rw [Scope.Means, Scope.latest_iff] at hmeans
  have hname : v.name = name := by simpa using List.find?_some hmeans
  have hforce : p.InForce false v id := ⟨name, visible_region ho (List.mem_of_find?_eq_some hmeans)⟩
  exact ⟨v, hlookup, hname, hforce, inForce_blocks_iff hids hforce⟩

end Program

/-- `void main() { while (0) int x = 1; x = 2; }` -/
def leaking : Program :=
  { span := ⟨0, 0⟩
    items :=
      [.function ⟨⟨0, 0⟩, "main", ⟨0, 0⟩, .plain .void, [], ⟨0, 0⟩,
        [.while_ ⟨0, 0⟩ (.literal 0 ⟨0, 0⟩ (.int 0))
          (.decl ⟨2, ⟨0, 0⟩, "x", ⟨0, 0⟩, .plain .int, some (.literal 1 ⟨0, 0⟩ (.int 1))⟩),
         .expr ⟨0, 0⟩ (.assign 5 ⟨0, 0⟩ none "x" ⟨0, 0⟩ (.literal 4 ⟨0, 0⟩ (.int 2)))]⟩] }

/-- the assignment behind the loop resolves to the declaration that is the body of the loop, which ends with it -/
theorem leaking_resolves : leaking.ids.Nodup ∧ (5, "x") ∈ leaking.occurrences ∧ ∃ info, leaking.check = .ok info ∧
    info.facts.resolved.lookup 5 = some 2 ∧ ∀ v, v.decl = 2 → ¬ leaking.InForce true v 5 := by
  refine ⟨by decide, by decide, _, rfl, rfl, ?_⟩
  rintro v - ⟨name, r, hr, hname⟩
  obtain ⟨-, rfl⟩ := Prod.mk.inj (List.mem_singleton.1 hr)
  cases hname

/-- `void main() { int x = 1; if (x) int x = 2; do int y = x; while (y); x = 3; }` -/
def shadowing : Program :=
  { span := ⟨0, 0⟩
    items :=
      [.function ⟨⟨0, 0⟩, "main", ⟨0, 0⟩, .plain .void, [], ⟨0, 0⟩,
        [.decl ⟨1, ⟨0, 0⟩, "x", ⟨0, 0⟩, .plain .int, some (.literal 0 ⟨0, 0⟩ (.int 1))⟩,
         .ifThen ⟨0, 0⟩ (.ident 2 ⟨0, 0⟩ "x")
          (.decl ⟨4, ⟨0, 0⟩, "x", ⟨0, 0⟩, .plain .int, some (.literal 3 ⟨0, 0⟩ (.int 2))⟩),
         .doWhile ⟨0, 0⟩ (.decl ⟨6, ⟨0, 0⟩, "y", ⟨0, 0⟩, .plain .int, some (.ident 5 ⟨0, 0⟩ "x")⟩)
           (.ident 7 ⟨0, 0⟩ "y"),
         .expr ⟨0, 0⟩ (.assign 9 ⟨0, 0⟩ none "x" ⟨0, 0⟩ (.literal 8 ⟨0, 0⟩ (.int 3)))]⟩] }

/-- the assigned `x` is the one in front of the `if`, and the tested `y` is found though it is the whole body of the
`do` -/
theorem shadowing_resolves : shadowing.ids.Nodup ∧ (∃ v, v.decl = 1 ∧ shadowing.InForce true v 9) ∧
    ∃ v ∈ shadowing.bareBodies, v.decl = 6 ∧ shadowing.InForce false v 7 := by
  have hids : shadowing.ids.Nodup := by decide
  obtain ⟨info, hcheck, hx, hy⟩ : ∃ info, shadowing.check = .ok info ∧ info.facts.resolved.lookup 9 = some 1 ∧
      info.facts.resolved.lookup 7 = some 6 := ⟨_, rfl, rfl, rfl⟩
  obtain ⟨v, hv, -, -, hvblocks⟩ :=
    Program.check_resolves_in_scope hids hcheck (show (9, "x") ∈ shadowing.occurrences by decide)
  obtain ⟨w, hw, -, hwforce, hwblocks⟩ :=
    Program.check_resolves_in_scope hids hcheck (show (7, "y") ∈ shadowing.occurrences by decide)
  have hvdecl : v.decl = 1 := Option.some.inj (hv.symm.trans hx)
  have hwdecl : w.decl = 6 := Option.some.inj (hw.symm.trans hy)
  refine ⟨hids, ⟨v, hvdecl, hvblocks.2 ?_⟩, w, ?_, hwdecl, hwforce⟩
  · intro hbare
    have hsix : ∀ u ∈ shadowing.bareBodies, u.decl = 6 := by decide
    exact absurd (hvdecl.symm.trans (hsix v hbare)) (by decide)
  · by_contra hbare
    obtain ⟨name, r, hr, hname⟩ := hwblocks.2 hbare
    have hempty : ∀ x ∈ shadowing.regions true, x.1.decl = 6 → x.2 = [] := by decide
    obtain rfl : r = [] := hempty _ hr hwdecl
    cases hname

end C15

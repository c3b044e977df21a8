/-
Phrases: expressions as they stand in the tokens.

A tree has lost the parentheses and the unary pluses it was read from, so it cannot say which tokens were assigned or
updated. A phrase keeps them.
- `Phrase.kinds` are the tokens of a phrase, and `Phrase.tree?` the tree it is read as. There is none if something other
  than the tree of a variable is assigned or updated.
- `Phrase.Placed`: what binds weaker stands inside something tighter only in parentheses. The levels of the binary
  operators are taken as one: which of them binds tighter has no part in what a target is.
- `Phrase.operands` are the operands of the assignments and of the marks `++` and `--` inside a phrase.
- `Reading`: a row of tokens cut into phrases and the tokens between them, and the trees of its phrases.

`Reading.variable_of_mem_operands`: without its pluses, each operand is a name, possibly inside parentheses.
-/
import C15.Proofs.Grammar
import C15.Program.Parser

namespace C15

open Grammar

/-! ## Marks -/

def UnOp.mark : UnOp → Punct
  | .neg => .minus
  | .not => .not
  | .bitNot => .tilde

/-- the tree with an operator in front; a minus goes into a literal -/
def UnOp.applied : UnOp → ExprTree → ExprTree
  | .neg, operand => operand.negate
  | op, operand => .unary op operand

def UpdateOp.mark (op : UpdateOp) : Punct := if op.isIncrement then .plusPlus else .minusMinus

/-- the variable that a tree is, if it is one -/
def ExprTree.ident? : ExprTree → Option String
  | .ident name => some name
  | _ => none

theorem ExprTree.ident?_eq_some {t : ExprTree} {x : String} : t.ident? = some x ↔ t = .ident x := by
  cases t <;> simp [ident?]

theorem UnOp.applied_ne_ident (op : UnOp) (t : ExprTree) (x : String) : op.applied t ≠ .ident x := by
  cases op <;> cases t <;> simp [applied, ExprTree.negate]

/-- a name, possibly inside parentheses -/
inductive Grammar.PlainVariable : Kinds → Prop where
  | name (x : String) : PlainVariable [.ident x]
  | parens {w : Kinds} (h : PlainVariable w) : PlainVariable (.punct .lparen :: (w ++ [.punct .rparen]))

theorem Grammar.PlainVariable.plus_not_mem {w : Kinds} (h : PlainVariable w) : .punct .plus ∉ w := by
  induction h with
  | name x => simp
  | parens _ ih => simp [ih]

/-! ## Phrases -/

mutual

/-- an expression with its parentheses and unary pluses -/
inductive Phrase where
  | literal (value : Literal)
  | ident (name : String)
  | parens (inner : Phrase)
  | call (name : String) (args : Phrases)
  | intrinsic (callee : Intrinsic) (args : Phrases)
  | plus (operand : Phrase)
  | unary (op : UnOp) (operand : Phrase)
  | update (op : UpdateOp) (operand : Phrase)
  | cast (base : Base) (operand : Phrase)
  | binary (op : BinOp) (lhs rhs : Phrase)
  | assign (mark : Punct) (target value : Phrase)

/-- arguments with commas between them; one may stand behind the last -/
inductive Phrases where
  | none
  | last (arg : Phrase)
  | more (arg : Phrase) (rest : Phrases)

end

mutual

/-- the tokens of a phrase -/
def Phrase.kinds : Phrase → Kinds
  | .literal value => [.literal value]
  | .ident name => [.ident name]
  | .parens inner => .punct .lparen :: (inner.kinds ++ [.punct .rparen])
  | .call name args => .ident name :: .punct .lparen :: (args.kinds ++ [.punct .rparen])
  | .intrinsic callee args => .intrinsic callee :: .punct .lparen :: (args.kinds ++ [.punct .rparen])
  | .plus operand => .punct .plus :: operand.kinds
  | .unary op operand => .punct op.mark :: operand.kinds
  | .update op operand => if op.isPost then operand.kinds ++ [.punct op.mark] else .punct op.mark :: operand.kinds
  | .cast base operand => .punct .lparen :: .keyword base.keyword :: .punct .rparen :: operand.kinds
  | .binary op lhs rhs => lhs.kinds ++ .punct op.mark :: rhs.kinds
  | .assign mark target value => target.kinds ++ .punct mark :: value.kinds

def Phrases.kinds : Phrases → Kinds
  | .none => []
  | .last arg => arg.kinds
  | .more arg rest => arg.kinds ++ .punct .comma :: rest.kinds

end

mutual

/-- the tree of a phrase; only the tree of a variable is assigned or updated -/
def Phrase.tree? : Phrase → Option ExprTree
  | .literal value => some (.literal value)
  | .ident name => some (.ident name)
  | .parens inner => inner.tree?
  | .call name args => args.trees?.map (.call name)
  | .intrinsic callee args => args.trees?.map (.intrinsic callee)
  | .plus operand => operand.tree?
  | .unary op operand => operand.tree?.map op.applied
  | .update op operand => (operand.tree?.bind ExprTree.ident?).map (.update op)
  | .cast base operand => operand.tree?.map (.cast base)
  | .binary op lhs rhs => lhs.tree?.bind fun a => rhs.tree?.map (.binary op a)
  | .assign mark target value => (Parser.assignOp? (.punct mark)).bind fun op =>
    (target.tree?.bind ExprTree.ident?).bind fun x => value.tree?.map (.assign op x)

def Phrases.trees? : Phrases → Option (List ExprTree)
  | .none => some []
  | .last arg => arg.tree?.map ([·])
  | .more arg rest => arg.tree?.bind fun t => rest.trees?.map (t :: ·)

end

/-- how tightly a phrase binds: assignments, binary operators, what stands in front, what stands behind, the rest -/
def Phrase.rank : Phrase → Nat
  | .assign .. => 0
  | .binary .. => 1
  | .plus _ | .unary .. | .cast .. => 2
  | .update op _ => if op.isPost then 3 else 2
  | .literal _ | .ident _ | .parens _ | .call .. | .intrinsic .. => 4

mutual

/-- what stands beside an operator binds tighter than it; arguments and what is in parentheses may be anything -/
def Phrase.Placed : Phrase → Prop
  | .literal _ | .ident _ => True
  | .parens inner => inner.Placed
  | .call _ args | .intrinsic _ args => args.Placed
  | .plus operand | .unary _ operand => 2 ≤ operand.rank ∧ operand.Placed
  | .cast base operand => base ≠ .void ∧ 2 ≤ operand.rank ∧ operand.Placed
  | .update op operand => (if op.isPost then 4 else 2) ≤ operand.rank ∧ operand.Placed
  | .binary _ lhs rhs => (1 ≤ lhs.rank ∧ lhs.Placed) ∧ 1 ≤ rhs.rank ∧ rhs.Placed
  | .assign _ target value => (1 ≤ target.rank ∧ target.Placed) ∧ value.Placed

def Phrases.Placed : Phrases → Prop
  | .none => True
  | .last arg => arg.Placed
  | .more arg rest => arg.Placed ∧ rest.Placed

end

mutual

/-- the operands of the assignments and of the marks `++` and `--` inside a phrase -/
def Phrase.operands : Phrase → List Phrase
  | .literal _ | .ident _ => []
  | .parens inner => inner.operands
  | .call _ args | .intrinsic _ args => args.operands
  | .plus operand | .unary _ operand | .cast _ operand => operand.operands
  | .update _ operand => operand :: operand.operands
  | .binary _ lhs rhs => lhs.operands ++ rhs.operands
  | .assign _ target value => target :: (target.operands ++ value.operands)

def Phrases.operands : Phrases → List Phrase
  | .none => []
  | .last arg => arg.operands
  | .more arg rest => arg.operands ++ rest.operands

end

/-! ## Tokens that are a phrase -/

/-- the tokens are a phrase that binds at least this tightly and is read as the tree -/
def Phrased (rank : Nat) (w : Kinds) (t : ExprTree) : Prop :=
  ∃ e : Phrase, e.kinds = w ∧ e.tree? = some t ∧ e.Placed ∧ rank ≤ e.rank

/-- the tokens are arguments that are read as the trees -/
def PhrasedAll (w : Kinds) (ts : List ExprTree) : Prop := ∃ es : Phrases, es.kinds = w ∧ es.trees? = some ts ∧ es.Placed

section

variable {rank : Nat} {w v : Kinds} {t u : ExprTree} {ts : List ExprTree} {x : String}

theorem Phrased.mono {least : Nat} (h : Phrased rank w t) (hle : least ≤ rank) : Phrased least w t := by
  obtain ⟨e, hw, ht, hp, hr⟩ := h
  exact ⟨e, hw, ht, hp, hle.trans hr⟩

theorem phrased_literal (value : Literal) : Phrased 4 [.literal value] (.literal value) :=
  ⟨.literal value, rfl, rfl, trivial, Nat.le_refl 4⟩

theorem phrased_ident (name : String) : Phrased 4 [.ident name] (.ident name) :=
  ⟨.ident name, rfl, rfl, trivial, Nat.le_refl 4⟩

theorem Phrased.parens (h : Phrased 0 w t) : Phrased 4 (.punct .lparen :: (w ++ [.punct .rparen])) t := by
  obtain ⟨e, rfl, ht, hp, -⟩ := h
  exact ⟨.parens e, rfl, ht, hp, Nat.le_refl 4⟩

theorem PhrasedAll.call (name : String) (h : PhrasedAll w ts) :
    Phrased 4 (.ident name :: .punct .lparen :: (w ++ [.punct .rparen])) (.call name ts) := by
  obtain ⟨es, rfl, hts, hp⟩ := h
  exact ⟨.call name es, rfl, by rw [Phrase.tree?, hts, Option.map_some], hp, Nat.le_refl 4⟩

theorem PhrasedAll.intrinsic (callee : Intrinsic) (h : PhrasedAll w ts) :
    Phrased 4 (.intrinsic callee :: .punct .lparen :: (w ++ [.punct .rparen])) (.intrinsic callee ts) := by
  obtain ⟨es, rfl, hts, hp⟩ := h
  exact ⟨.intrinsic callee es, rfl, by rw [Phrase.tree?, hts, Option.map_some], hp, Nat.le_refl 4⟩

theorem Phrased.plus (h : Phrased 2 w t) : Phrased 2 (.punct .plus :: w) t := by
  obtain ⟨e, rfl, ht, hp, hr⟩ := h
  exact ⟨.plus e, rfl, ht, ⟨hr, hp⟩, Nat.le_refl 2⟩

theorem Phrased.unary (op : UnOp) (h : Phrased 2 w t) : Phrased 2 (.punct op.mark :: w) (op.applied t) := by
  obtain ⟨e, rfl, ht, hp, hr⟩ := h
  exact ⟨.unary op e, rfl, by rw [Phrase.tree?, ht, Option.map_some], ⟨hr, hp⟩, Nat.le_refl 2⟩

theorem Phrased.cast {base : Base} (hbase : base ≠ .void) (h : Phrased 2 w t) :
    Phrased 2 (.punct .lparen :: .keyword base.keyword :: .punct .rparen :: w) (.cast base t) := by
  obtain ⟨e, rfl, ht, hp, hr⟩ := h
  exact ⟨.cast base e, rfl, by rw [Phrase.tree?, ht, Option.map_some], ⟨hbase, hr, hp⟩, Nat.le_refl 2⟩

/-- a mark behind stands closer to its operand than one in front -/
theorem Phrased.update (op : UpdateOp) (h : Phrased (if op.isPost then 4 else 2) w (.ident x)) :
    Phrased 2 (if op.isPost then w ++ [.punct op.mark] else .punct op.mark :: w) (.update op x) := by
  obtain ⟨e, rfl, ht, hp, hr⟩ := h
  refine ⟨.update op e, rfl, by rw [Phrase.tree?, ht]; rfl, ⟨hr, hp⟩, ?_⟩
  rw [Phrase.rank]
  split <;> decide

theorem Phrased.binary (op : BinOp) (h : Phrased 1 w t) (h' : Phrased 1 v u) :
    Phrased 1 (w ++ .punct op.mark :: v) (.binary op t u) := by
  obtain ⟨lhs, rfl, ht, hp, hr⟩ := h
  obtain ⟨rhs, rfl, hu, hp', hr'⟩ := h'
  refine ⟨.binary op lhs rhs, rfl, ?_, ⟨⟨hr, hp⟩, hr', hp'⟩, Nat.le_refl 1⟩
  rw [Phrase.tree?, ht, Option.bind_some, hu, Option.map_some]

theorem Phrased.assign {op : Option BinOp} {mark : Punct} (hmark : Parser.assignOp? (.punct mark) = some op)
    (h : Phrased 1 w (.ident x)) (h' : Phrased 0 v u) : Phrased 0 (w ++ .punct mark :: v) (.assign op x u) := by
  obtain ⟨target, rfl, ht, hp, hr⟩ := h
  obtain ⟨value, rfl, hu, hp', -⟩ := h'
  refine ⟨.assign mark target value, rfl, ?_, ⟨⟨hr, hp⟩, hp'⟩, Nat.le_refl 0⟩
  rw [Phrase.tree?, hmark, Option.bind_some, ht, hu]
  rfl

theorem phrasedAll_none : PhrasedAll [] [] := ⟨.none, rfl, rfl, trivial⟩

theorem Phrased.last (h : Phrased 0 w t) : PhrasedAll w [t] := by
  obtain ⟨e, rfl, ht, hp, -⟩ := h
  exact ⟨.last e, rfl, by rw [Phrases.trees?, ht, Option.map_some], hp⟩

theorem Phrased.more (h : Phrased 0 w t) (h' : PhrasedAll v ts) : PhrasedAll (w ++ .punct .comma :: v) (t :: ts) := by
  obtain ⟨e, rfl, ht, hp, -⟩ := h
  obtain ⟨es, rfl, hts, hps⟩ := h'
  exact ⟨.more e es, rfl, by rw [Phrases.trees?, ht, Option.bind_some, hts, Option.map_some], hp, hps⟩

end

/-! ## What is read as a variable -/

/-- tokens without the unary pluses among them -/
def Grammar.unsigned (w : Kinds) : Kinds := w.filter (· ≠ .punct .plus)

/-- without its pluses, what is read as a variable is a name in parentheses -/
theorem Phrase.variable_of_tree? {x : String} :
    (e : Phrase) → e.tree? = some (.ident x) → PlainVariable (unsigned e.kinds)
  | .literal _, h => by simp [tree?] at h
  | .ident name, _ => PlainVariable.name name
  | .parens inner, h => by
    have ih : PlainVariable (unsigned inner.kinds) := variable_of_tree? inner h
    have hkinds : unsigned (Phrase.parens inner).kinds =
        .punct .lparen :: (unsigned inner.kinds ++ [.punct .rparen]) := by
      simp [unsigned, kinds]
    rw [hkinds]
    exact ih.parens
  | .plus operand, h => by
    have ih : PlainVariable (unsigned operand.kinds) := variable_of_tree? operand h
    have hkinds : unsigned (Phrase.plus operand).kinds = unsigned operand.kinds := by
      simp [unsigned, kinds]
    rw [hkinds]
    exact ih
  | .call _ _, h => by simp [tree?] at h
  | .intrinsic _ _, h => by simp [tree?] at h
  | .unary op _, h => by
    obtain ⟨t, -, ht⟩ := Option.map_eq_some_iff.1 h
    exact absurd ht (op.applied_ne_ident t x)
  | .update _ _, h => by simp [tree?, Option.bind_eq_some_iff] at h
  | .cast _ _, h => by simp [tree?] at h
  | .binary _ _ _, h => by simp [tree?, Option.bind_eq_some_iff] at h
  | .assign _ _ _, h => by simp [tree?, Option.bind_eq_some_iff] at h

/-- the operand of an update or an assignment with a tree is read as a variable -/
theorem eq_ident_of_ident? {t? : Option ExprTree} {x : String} (h : t?.bind ExprTree.ident? = some x) :
    t? = some (.ident x) := by
  obtain ⟨t, ht, hx⟩ := Option.bind_eq_some_iff.1 h
  rw [ht, ExprTree.ident?_eq_some.1 hx]

mutual

/-- whatever is assigned or updated in a phrase with a tree is read as a variable -/
theorem Phrase.exists_ident_of_mem_operands {t : ExprTree} : (e : Phrase) → e.tree? = some t → ∀ o ∈ e.operands,
    ∃ x, o.tree? = some (.ident x)
  | .literal _, _, _, ho => absurd ho List.not_mem_nil
  | .ident _, _, _, ho => absurd ho List.not_mem_nil
  | .parens inner, h, o, ho => inner.exists_ident_of_mem_operands h o ho
  | .plus operand, h, o, ho => operand.exists_ident_of_mem_operands h o ho
  | .call _ args, h, o, ho => by
    obtain ⟨ts, hts, -⟩ := Option.map_eq_some_iff.1 h
    exact args.exists_ident_of_mem_operands hts o ho
  | .intrinsic _ args, h, o, ho => by
    obtain ⟨ts, hts, -⟩ := Option.map_eq_some_iff.1 h
    exact args.exists_ident_of_mem_operands hts o ho
  | .unary _ operand, h, o, ho => by
    obtain ⟨s, hs, -⟩ := Option.map_eq_some_iff.1 h
    exact operand.exists_ident_of_mem_operands hs o ho
  | .cast _ operand, h, o, ho => by
    obtain ⟨s, hs, -⟩ := Option.map_eq_some_iff.1 h
    exact operand.exists_ident_of_mem_operands hs o ho
  | .update _ operand, h, o, ho => by
    obtain ⟨x, hx, -⟩ := Option.map_eq_some_iff.1 h
    have hident := eq_ident_of_ident? hx
    rcases List.mem_cons.1 ho with rfl | ho
    · exact ⟨x, hident⟩
    · exact operand.exists_ident_of_mem_operands hident o ho
  | .binary _ lhs rhs, h, o, ho => by
    obtain ⟨a, ha, h⟩ := Option.bind_eq_some_iff.1 h
    obtain ⟨b, hb, -⟩ := Option.map_eq_some_iff.1 h
    rcases List.mem_append.1 ho with ho | ho
    · exact lhs.exists_ident_of_mem_operands ha o ho
    · exact rhs.exists_ident_of_mem_operands hb o ho
  | .assign _ target value, h, o, ho => by
    obtain ⟨op, -, h⟩ := Option.bind_eq_some_iff.1 h
    obtain ⟨x, hx, h⟩ := Option.bind_eq_some_iff.1 h
    obtain ⟨b, hb, -⟩ := Option.map_eq_some_iff.1 h
    have hident := eq_ident_of_ident? hx
    rcases List.mem_cons.1 ho with rfl | ho
    · exact ⟨x, hident⟩
    rcases List.mem_append.1 ho with ho | ho
    · exact target.exists_ident_of_mem_operands hident o ho
    · exact value.exists_ident_of_mem_operands hb o ho

theorem Phrases.exists_ident_of_mem_operands {ts : List ExprTree} :
    (es : Phrases) → es.trees? = some ts → ∀ o ∈ es.operands,
    ∃ x, o.tree? = some (.ident x)
  | .none, _, _, ho => absurd ho List.not_mem_nil
  | .last arg, h, o, ho => by
    obtain ⟨t, ht, -⟩ := Option.map_eq_some_iff.1 h
    exact arg.exists_ident_of_mem_operands ht o ho
  | .more arg rest, h, o, ho => by
    obtain ⟨t, ht, h⟩ := Option.bind_eq_some_iff.1 h
    obtain ⟨us, hus, -⟩ := Option.map_eq_some_iff.1 h
    rcases List.mem_append.1 ho with ho | ho
    · exact arg.exists_ident_of_mem_operands ht o ho
    · exact rest.exists_ident_of_mem_operands hus o ho

end

/-! ## Phrases among other tokens -/

/-- names, keywords, brackets, separators and the `=` of a declaration may stand outside of phrases -/
def TokenKind.standsBetween : TokenKind → Bool
  | .ident _ | .keyword _ => true
  | .punct mark => mark ∈ [Punct.lparen, .rparen, .lbrace, .rbrace, .comma, .semicolon, .assign]
  | _ => false

/-- a piece of a source -/
inductive Segment where
  | token (kind : TokenKind)
  | phrase (e : Phrase)

namespace Segment

def kinds : Segment → Kinds
  | .token kind => [kind]
  | .phrase e => e.kinds

def phrase? : Segment → Option Phrase
  | .token _ => none
  | .phrase e => some e

def Placed : Segment → Prop
  | .token kind => kind.standsBetween = true
  | .phrase e => e.Placed

end Segment

/-- tokens cut into phrases and what stands between them, and the trees of the phrases in their order -/
structure Reading (w : Kinds) (trees : List ExprTree) where
  segments : List Segment
  kinds : segments.flatMap Segment.kinds = w
  trees : (segments.filterMap Segment.phrase?).map Phrase.tree? = trees.map some
  placed : ∀ s ∈ segments, s.Placed

namespace Reading

variable {w : Kinds} {ts : List ExprTree}

/-- what is assigned or updated in the phrases -/
def operands (r : Reading w ts) : List Phrase := (r.segments.filterMap Segment.phrase?).flatMap Phrase.operands

/-- every phrase of a reading has a tree -/
theorem tree?_of_mem (r : Reading w ts) {e : Phrase} (he : e ∈ r.segments.filterMap Segment.phrase?) :
    ∃ t ∈ ts, e.tree? = some t := by
  have hmem : e.tree? ∈ ts.map some := r.trees ▸ List.mem_map_of_mem he
  obtain ⟨t, ht, heq⟩ := List.mem_map.1 hmem
  exact ⟨t, ht, heq.symm⟩

/-- without its pluses, whatever is assigned or updated is a name, possibly inside parentheses -/
theorem variable_of_mem_operands (r : Reading w ts) {o : Phrase} (ho : o ∈ r.operands) :
    PlainVariable (unsigned o.kinds) := by
  obtain ⟨e, he, ho⟩ := List.mem_flatMap.1 ho
  obtain ⟨t, -, ht⟩ := r.tree?_of_mem he
  obtain ⟨x, hx⟩ := e.exists_ident_of_mem_operands ht o ho
  exact o.variable_of_tree? hx

end Reading

/-- the tokens can be cut so that their phrases have these trees -/
def Readable (w : Kinds) (trees : List ExprTree) : Prop := Nonempty (Reading w trees)

namespace Readable

variable {w v : Kinds} {ts us : List ExprTree}

theorem nil : Readable [] [] := ⟨[], rfl, rfl, by simp⟩

theorem append (h : Readable w ts) (h' : Readable v us) : Readable (w ++ v) (ts ++ us) := by
  obtain ⟨r⟩ := h
  obtain ⟨q⟩ := h'
  refine ⟨r.segments ++ q.segments, ?_, ?_, fun s hs => (List.mem_append.1 hs).elim (r.placed s) (q.placed s)⟩
  · rw [List.flatMap_append, r.kinds, q.kinds]
  · rw [List.filterMap_append, List.map_append, List.map_append, r.trees, q.trees]

theorem token (kind : TokenKind) (hkind : kind.standsBetween = true) (h : Readable w ts) : Readable (kind :: w) ts := by
  have one : Readable [kind] [] := ⟨[.token kind], rfl, rfl, by simpa [Segment.Placed] using hkind⟩
  exact one.append h

end Readable

theorem Phrased.readable {w : Kinds} {t : ExprTree} (h : Phrased 0 w t) : Readable w [t] := by
  obtain ⟨e, rfl, ht, hp, -⟩ := h
  exact ⟨[.phrase e], by simp [Segment.kinds], by simp [Segment.phrase?, ht], by simpa [Segment.Placed] using hp⟩

/-- tokens without a plus are their own unsigned form, and a variable has none -/
theorem Grammar.variable_iff_plus_not_mem {w : Kinds} (h : PlainVariable (unsigned w)) :
    PlainVariable w ↔ .punct .plus ∉ w := by
  constructor
  · exact fun hw => hw.plus_not_mem
  · intro hplus
    have hself : unsigned w = w := List.filter_eq_self.2 fun k hk => decide_eq_true fun heq => hplus (heq ▸ hk)
    exact hself ▸ h

end C15

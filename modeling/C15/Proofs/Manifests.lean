/-
The manifest of a new project.

It is a text with the project's name between quotes, put in as it is. `Manifest.template_reads_iff` says when the name
is read back from it: exactly if all its characters stand for themselves there (`Toml.isPlain`). Then everything else is
read as it was meant, too. For the other direction nothing is known about the text behind the opening quote: it may end
early, or go on over several lines, and other statements may be found in it. But what a string spells is never longer
than its spelling (`Toml.Spells`), and the first value given to a key stays (`Toml.Node.Grows`).

Results:
- `Toml.readText_plain`, `Toml.plain_of_readText`: between quotes a text is read as itself exactly if it is plain;
- `Toml.foldlM_grows`: statements of a document lose no values of earlier ones;
- `Manifest.parse?_template`, `Manifest.template_reads_iff`: what is read from the text of a new manifest.
-/
import C15.Manifest
import C15.Proofs.Checking
import Mathlib.Data.List.Infix

namespace C15

open C15.Text

namespace Toml

/-! ## Strings between quotes -/

/-- characters that stand for themselves between quotes -/
def isPlain (c : Char) : Bool := isTextChar c && c != '"' && c != '\\'

theorem before?_eq_some {c : Option Char} {read : Option (List Char × List Char)} {text rest : List Char} :
    before? c read = some (text, rest) ↔ ∃ x cs, c = some x ∧ read = some (cs, rest) ∧ text = x :: cs := by
  rcases read with _ | ⟨cs, rest'⟩
  · simp [before?]
  · cases c with
    | none => simp [before?]
    | some x =>
      simp only [before?, Option.bind_eq_bind, Option.bind_some, Option.pure_def, Option.some.injEq, Prod.mk.injEq]
      constructor
      · rintro ⟨rfl, rfl⟩
        exact ⟨x, cs, rfl, ⟨rfl, rfl⟩, rfl⟩
      · rintro ⟨y, ds, rfl, ⟨rfl, rfl⟩, rfl⟩
        exact ⟨rfl, rfl⟩

/-- What a string on one line can spell. A text is at most as long as its spelling, and of the same length only if it
spells itself. -/
structure Spells (raw text : List Char) : Prop where
  oneLine : '\n' ∉ raw
  length_le : text.length ≤ raw.length
  self : raw.length ≤ text.length → raw = text ∧ ∀ c ∈ text, isPlain c = true

theorem Spells.nil : Spells [] [] := ⟨List.not_mem_nil, Nat.le_refl _, fun _ => ⟨rfl, List.forall_mem_nil _⟩⟩

theorem Spells.cons {raw text : List Char} {c : Char} (h : Spells raw text) (hc : isPlain c = true) :
    Spells (c :: raw) (c :: text) := by
  have hnewline : c ≠ '\n' := by
    rintro rfl
    exact absurd hc (by decide)
  refine ⟨List.not_mem_cons_of_ne_of_not_mem hnewline.symm h.oneLine, Nat.succ_le_succ h.length_le, fun hle => ?_⟩
  obtain ⟨rfl, hplain⟩ := h.self (Nat.le_of_succ_le_succ hle)
  exact ⟨rfl, List.forall_mem_cons.2 ⟨hc, hplain⟩⟩

/-- an escape takes more than one character -/
theorem Spells.escape {raw text code : List Char} (h : Spells raw text) (x : Char) (hcode : '\n' ∉ code)
    (hlong : 2 ≤ code.length) : Spells (code ++ raw) (x :: text) := by
  have hle := h.length_le
  refine ⟨fun hmem => (List.mem_append.1 hmem).elim hcode h.oneLine, ?_, fun hshort => ?_⟩
  · rw [List.length_append, List.length_cons]
    omega
  · rw [List.length_append, List.length_cons] at hshort
    omega

theorem newline_not_mem_of_coded {digits : List Char} {x : Char} (h : coded? digits = some x) : '\n' ∉ digits := by
  intro hmem
  unfold coded? at h
  split at h
  · next hd =>
    have hall := List.all_eq_true.1 (Bool.and_eq_true_iff.1 hd).1 _ hmem
    exact absurd hall (by decide)
  · cases h

theorem newline_ne_of_escaped {e x : Char} (h : escaped? e = some x) : '\n' ≠ e := by
  rintro rfl
  cases h

theorem spells_of_basicText {cs text rest : List Char} (h : basicText cs = some (text, rest)) :
    ∃ raw, cs = raw ++ '"' :: rest ∧ Spells raw text := by
  fun_induction basicText cs generalizing text with
  | case1 => cases h
  | case2 cs =>
    cases h
    exact ⟨[], rfl, Spells.nil⟩
  | case3 a b c d cs ih =>
    obtain ⟨x, tail, hx, htail, rfl⟩ := before?_eq_some.1 h
    obtain ⟨raw, rfl, hraw⟩ := ih htail
    refine ⟨['\\', 'u', a, b, c, d] ++ raw, rfl, hraw.escape x ?_ (by simp)⟩
    simpa using newline_not_mem_of_coded hx
  | case4 a b c d e f g k cs ih =>
    obtain ⟨x, tail, hx, htail, rfl⟩ := before?_eq_some.1 h
    obtain ⟨raw, rfl, hraw⟩ := ih htail
    refine ⟨['\\', 'U', a, b, c, d, e, f, g, k] ++ raw, rfl, hraw.escape x ?_ (by simp)⟩
    simpa using newline_not_mem_of_coded hx
  | case5 e cs hu hU ih =>
    obtain ⟨x, tail, hx, htail, rfl⟩ := before?_eq_some.1 h
    obtain ⟨raw, rfl, hraw⟩ := ih htail
    refine ⟨['\\', e] ++ raw, rfl, hraw.escape x ?_ (by simp)⟩
    simpa using newline_ne_of_escaped hx
  | case6 c cs hquote _ _ hback hc ih =>
    obtain ⟨x, tail, hx, htail, rfl⟩ := before?_eq_some.1 h
    cases hx
    -- a backslash that begins no escape is the last character, and a text does not end with it
    have hbackslash : c ≠ '\\' := by
      intro hc
      cases cs with
      | nil => cases htail
      | cons e cs => exact hback e cs hc rfl
    obtain ⟨raw, rfl, hraw⟩ := ih htail
    exact ⟨c :: raw, rfl, hraw.cons (by simpa [isPlain, hc, hbackslash] using hquote)⟩
  | case7 c cs => cases h

/-- a plain text spells itself -/
theorem basicText_plain {text : List Char} (h : ∀ c ∈ text, isPlain c = true) (rest : List Char) :
    basicText (text ++ '"' :: rest) = some (text, rest) := by
  induction text with
  | nil => rfl
  | cons c text ih =>
    obtain ⟨hc, htext⟩ := List.forall_mem_cons.1 h
    have hparts : (isTextChar c = true ∧ c ≠ '"') ∧ c ≠ '\\' := by simpa [isPlain] using hc
    obtain ⟨⟨hchar, hquote⟩, hbackslash⟩ := hparts
    rw [List.cons_append, basicText, if_pos hchar, ih htext]
    · rfl
    all_goals grind

/-- a text that is closed by three quotes, behind a spelling that is not shorter than what it spells -/
def Closes (cs text rest : List Char) : Prop := ∃ raw, cs = raw ++ '"' :: '"' :: '"' :: rest ∧ text.length ≤ raw.length

theorem Closes.skip {cs text rest : List Char} (h : Closes cs text rest) (code : List Char) :
    Closes (code ++ cs) text rest := by
  obtain ⟨raw, rfl, hle⟩ := h
  refine ⟨code ++ raw, (List.append_assoc _ _ _).symm, ?_⟩
  rw [List.length_append]
  omega

theorem Closes.before {cs text rest : List Char} {c : Option Char} {read : Option (List Char × List Char)}
    (h : before? c read = some (text, rest)) (hread : ∀ text, read = some (text, rest) → Closes cs text rest)
    (first : Char) (others : List Char) : Closes (first :: others ++ cs) text rest := by
  obtain ⟨x, tail, -, htail, rfl⟩ := before?_eq_some.1 h
  obtain ⟨raw, rfl, hle⟩ := hread tail htail
  refine ⟨first :: others ++ raw, (List.append_assoc _ _ _).symm, ?_⟩
  rw [List.length_append, List.length_cons, List.length_cons]
  omega

theorem closes_of_multilineText {trim : Bool} {cs text rest : List Char}
    (h : multilineText trim cs = some (text, rest)) : Closes cs text rest := by
  fun_induction multilineText trim cs generalizing text with
  | case1 => cases h
  | case2 =>
    cases h
    exact ⟨['"', '"'], rfl, Nat.le_refl _⟩
  | case3 =>
    cases h
    exact ⟨['"'], rfl, Nat.le_refl _⟩
  | case4 =>
    cases h
    exact ⟨[], rfl, Nat.le_refl _⟩
  | case5 cs ih => exact (ih h).skip ['\r', '\n']
  | case6 _ cs _ ih => exact Closes.before h (fun _ => ih) '\r' ['\n']
  | case7 _ a b c d cs ih => exact Closes.before h (fun _ => ih) '\\' ['u', a, b, c, d]
  | case8 _ a b c d e f g k cs ih => exact Closes.before h (fun _ => ih) '\\' ['U', a, b, c, d, e, f, g, k]
  | case9 _ cs _ _ _ ih => exact (ih h).skip ['\\']
  | case10 => cases h
  | case11 _ e cs _ _ _ ih => exact Closes.before h (fun _ => ih) '\\' [e]
  | case12 _ c cs _ _ _ _ _ _ _ _ ih => exact (ih h).skip [c]
  | case13 _ c cs _ _ _ _ _ _ _ _ _ ih => exact Closes.before h (fun _ => ih) c []
  | case14 => cases h

theorem dropNewline_suffix (cs : List Char) : dropNewline cs <:+ cs := by
  unfold dropNewline
  split
  · exact List.suffix_cons _ _
  · exact (List.suffix_cons _ _).trans (List.suffix_cons _ _)
  · exact List.suffix_refl _

/-- a text that is read as itself from the quote before it is plain: reading may stop inside it or go on behind it, but
what is read then is shorter, or runs over the end of the line -/
theorem plain_of_basicText {name more rest : List Char}
    (h : basicText (name ++ '"' :: '\n' :: more) = some (name, rest)) : ∀ c ∈ name, isPlain c = true := by
  obtain ⟨raw, hraw, hspells⟩ := spells_of_basicText h
  have hlength := hspells.length_le
  rcases List.append_eq_append_iff.1 hraw with ⟨behind, rfl, hbehind⟩ | ⟨inside, rfl, -⟩
  · rcases behind with _ | ⟨c, _ | ⟨d, behind⟩⟩
    · rw [List.append_nil] at hspells
      exact (hspells.self (Nat.le_refl _)).2
    · cases hbehind
    · cases hbehind
      exact absurd hspells.oneLine (by simp)
  · rw [List.length_append] at hlength
    exact (hspells.self (by rw [List.length_append]; omega)).2

/-- nor can it be read as itself as a string of several lines, unless three quotes follow to end it -/
theorem not_multiline {name more cs rest : List Char} (hmore : ¬ ['"', '"', '"'] <:+: '\n' :: more)
    (hcs : name ++ '"' :: '\n' :: more = '"' :: '"' :: cs) :
    multilineText false (dropNewline cs) ≠ some (name, rest) := by
  intro h
  obtain ⟨raw, hraw, hle⟩ := closes_of_multilineText h
  have hdrop := dropNewline_suffix cs
  have hend : '"' :: '"' :: '"' :: rest <:+ name ++ '"' :: '\n' :: more := by
    rw [hcs]
    exact ((List.suffix_append raw _).trans (hraw ▸ hdrop)).trans ⟨['"', '"'], rfl⟩
  have htail : '\n' :: more <:+ name ++ '"' :: '\n' :: more := ⟨name ++ ['"'], by simp⟩
  have hshort : ('"' :: '"' :: '"' :: rest).length ≤ ('\n' :: more).length := by
    have hlength := congrArg List.length hcs
    have hdropped := hdrop.length_le
    rw [hraw] at hdropped
    simp only [List.length_append, List.length_cons] at hlength hdropped ⊢
    omega
  have hsuffix := List.suffix_of_suffix_length_le hend htail hshort
  exact hmore ((List.prefix_append ['"', '"', '"'] rest).isInfix.trans hsuffix.isInfix)

/-- between quotes at the end of a line, without three quotes to follow, only a plain text is read as itself -/
theorem plain_of_readText {name more rest : List Char} (hmore : ¬ ['"', '"', '"'] <:+: '\n' :: more)
    (h : readText ('"' :: (name ++ '"' :: '\n' :: more)) = some (name, rest)) : ∀ c ∈ name, isPlain c = true := by
  generalize hcs : '"' :: (name ++ '"' :: '\n' :: more) = cs at h
  unfold readText at h
  split at h
  · exact absurd h (not_multiline hmore (List.cons.inj hcs).2)
  · rw [← (List.cons.inj hcs).2] at h
    exact plain_of_basicText h
  · cases hcs
  · cases hcs
  · cases h

theorem readText_plain {name more : List Char} (h : ∀ c ∈ name, isPlain c = true) :
    readText ('"' :: (name ++ '"' :: '\n' :: more)) = some (name, '\n' :: more) := by
  have hbasic := basicText_plain h ('\n' :: more)
  cases name with
  | nil => exact hbasic
  | cons c name =>
    have hc : c ≠ '"' := by
      rintro rfl
      exact absurd (h '"' List.mem_cons_self) (by decide)
    rw [readText]
    · exact hbasic
    · grind

/-! ## What a document has said stays said -/

/-- the value at a path through tables -/
def Node.leaf? : List String → Node → Option Toml
  | [], .leaf value => some value
  | name :: path, .table _ es => (es.lookup name).bind fun node => node.leaf? path
  | _, _ => none

/-- a later node, with the values of an earlier one -/
def Node.Grows (old new : Node) : Prop := ∀ path value, old.leaf? path = some value → new.leaf? path = some value

theorem Entries.lookup_set (name : String) (node : Node) (es : Entries) (first : String) :
    (set name node es).lookup first = (es.lookup first).map fun old => if first = name then node else old := by
  induction es with
  | nil => rfl
  | cons entry es ih =>
    obtain ⟨n, old⟩ := entry
    have hset : set name node ((n, old) :: es) = (n, if n = name then node else old) :: set name node es := by
      by_cases hn : n = name <;> simp [set, hn]
    rw [hset, List.lookup_cons, List.lookup_cons]
    by_cases hfirst : first = n
    · rw [hfirst, beq_self_eq_true]
      rfl
    · rw [beq_false_of_ne hfirst]
      exact ih

namespace Node.Grows

theorem trans {a b c : Node} (h : Grows a b) (h' : Grows b c) : Grows a c :=
  fun path value hv => h' path value (h path value hv)

/-- lists of tables have no values that could be lost -/
theorem tables (last : Entries) (earlier : List Entries) (new : Node) : Grows (.tables last earlier) new := by
  intro path value hv
  cases path <;> cases hv

/-- what made a table does not matter -/
theorem origin (o o' : Origin) (es : Entries) : Grows (.table o es) (.table o' es) := by
  intro path value hv
  cases path with
  | nil => cases hv
  | cons first path => exact hv

/-- an entry behind the others -/
theorem append (o : Origin) (es : Entries) (name : String) (node : Node) :
    Grows (.table o es) (.table o (es ++ [(name, node)])) := by
  intro path value hv
  cases path with
  | nil => cases hv
  | cons first path =>
    obtain ⟨found, hfirst, hv⟩ := Option.bind_eq_some_iff.1 hv
    refine Option.bind_eq_some_iff.2 ⟨found, ?_, hv⟩
    rw [List.lookup_append, hfirst, Option.some_or]

/-- an entry in place of another -/
theorem set {o : Origin} {es : Entries} {name : String} {old new : Node} (hold : es.lookup name = some old)
    (h : Grows old new) : Grows (.table o es) (.table o (Entries.set name new es)) := by
  intro path value hv
  cases path with
  | nil => cases hv
  | cons first path =>
    obtain ⟨found, hfirst, hv⟩ := Option.bind_eq_some_iff.1 hv
    refine Option.bind_eq_some_iff.2 ?_
    rw [Entries.lookup_set, hfirst]
    by_cases hname : first = name
    · subst hname
      rw [hold, Option.some.injEq] at hfirst
      subst hfirst
      exact ⟨new, by simp, h path value hv⟩
    · exact ⟨found, by simp [hname], hv⟩

end Node.Grows

/-- changes that lose no values -/
def Entries.Safe (change : Entries → Option Entries) : Prop :=
  ∀ o es es', change es = some es' → Node.Grows (.table o es) (.table o es')

theorem Entries.insert_safe (name : String) (value : Toml) (parents : List String) :
    Safe (insert name value parents) := by
  induction parents with
  | nil =>
    intro o es es' h
    unfold insert at h
    split at h
    · cases h
    · cases h
      exact Node.Grows.append o es name _
  | cons p ps ih =>
    intro o es es' h
    unfold insert at h
    split at h
    · obtain ⟨sub, -, rfl⟩ := Option.map_eq_some_iff.1 h
      exact Node.Grows.append o es p _
    · next sub hp =>
      obtain ⟨sub', hsub, rfl⟩ := Option.map_eq_some_iff.1 h
      exact Node.Grows.set hp (ih _ _ _ hsub)
    · next sub hp =>
      split at h
      · cases h
      · obtain ⟨sub', hsub, rfl⟩ := Option.map_eq_some_iff.1 h
        exact Node.Grows.set hp (ih _ _ _ hsub)
    · next last earlier hp =>
      split at h
      · cases h
      · obtain ⟨last', -, rfl⟩ := Option.map_eq_some_iff.1 h
        exact Node.Grows.set hp (Node.Grows.tables _ _ _)
    · cases h
    · cases h

theorem Entries.modifyAt_safe {change : Entries → Option Entries} (hchange : Safe change) (path : List String) :
    Safe (modifyAt change path) := by
  induction path with
  | nil => exact hchange
  | cons p ps ih =>
    intro o es es' h
    unfold modifyAt at h
    split at h
    · obtain ⟨sub, -, rfl⟩ := Option.map_eq_some_iff.1 h
      exact Node.Grows.append o es p _
    · next origin sub hp =>
      obtain ⟨sub', hsub, rfl⟩ := Option.map_eq_some_iff.1 h
      exact Node.Grows.set hp (ih _ _ _ hsub)
    · next last earlier hp =>
      obtain ⟨last', -, rfl⟩ := Option.map_eq_some_iff.1 h
      exact Node.Grows.set hp (Node.Grows.tables _ _ _)
    · cases h

theorem Entries.openTable_safe (k : Key) : Safe (openTable k) := by
  refine modifyAt_safe (fun o es es' h => ?_) _
  split at h
  · cases h
    exact Node.Grows.append o es k.name _
  · next sub hname =>
    cases h
    exact Node.Grows.set hname (Node.Grows.origin _ _ sub)
  · cases h

theorem Entries.openTables_safe (k : Key) : Safe (openTables k) := by
  refine modifyAt_safe (fun o es es' h => ?_) _
  split at h
  · cases h
    exact Node.Grows.append o es k.name _
  · next last earlier hname =>
    cases h
    exact Node.Grows.set hname (Node.Grows.tables _ _ _)
  · cases h

/-- one statement -/
theorem Item.apply_grows {i : Item} {s t : List String × Entries} (h : i.apply s = some t) :
    Node.Grows (.table .header s.2) (.table .header t.2) := by
  cases i with
  | table k =>
    obtain ⟨es, hes, rfl⟩ := Option.map_eq_some_iff.1 h
    exact Entries.openTable_safe k _ _ _ hes
  | tables k =>
    obtain ⟨es, hes, rfl⟩ := Option.map_eq_some_iff.1 h
    exact Entries.openTables_safe k _ _ _ hes
  | pair k value =>
    obtain ⟨es, hes, rfl⟩ := Option.map_eq_some_iff.1 h
    exact Entries.modifyAt_safe (Entries.insert_safe _ _ _) _ _ _ _ hes

/-- all statements -/
theorem foldlM_grows {is : List Item} {s t : List String × Entries} (h : is.foldlM Item.apply s = some t) :
    Node.Grows (.table .header s.2) (.table .header t.2) := by
  induction is generalizing s with
  | nil =>
    cases h
    exact fun _ _ hv => hv
  | cons i is ih =>
    rw [List.foldlM_cons] at h
    obtain ⟨u, hu, h⟩ := Option.bind_eq_some_iff.1 h
    exact (Item.apply_grows hu).trans (ih h)

theorem lookup_entryValues (es : Entries) (name : String) :
    (entryValues es).lookup name = (es.lookup name).map Node.value := by
  induction es with
  | nil => rw [entryValues, List.lookup_nil, List.lookup_nil, Option.map_none]
  | cons entry es ih =>
    obtain ⟨n, node⟩ := entry
    rw [entryValues, List.lookup_cons, List.lookup_cons]
    cases name == n with
    | true => rfl
    | false => exact ih

/-! ## Keys and statements -/

namespace Reader

variable {α β : Type}

theorem run_bind (x : Reader α) (f : α → Reader β) (cs : List Char) : (x >>= f) cs = (x cs).bind fun p => f p.1 p.2 :=
  rfl

theorem bind_of_some {x : Reader α} {a : α} {cs rest : List Char} (h : x cs = some (a, rest)) (f : α → Reader β) :
    (x >>= f) cs = f a rest := by
  rw [run_bind, h]
  rfl

theorem run_get (cs : List Char) : (get : Reader (List Char)) cs = some (cs, cs) := rfl

end Reader

theorem accept_self (c : Char) (cs : List Char) : accept c (c :: cs) = some (true, cs) := if_pos rfl

theorem accept_other {c d : Char} (h : d ≠ c) (cs : List Char) : accept c (d :: cs) = some (false, d :: cs) := if_neg h

theorem expect_self (c : Char) (cs : List Char) : expect c (c :: cs) = some ((), cs) := by
  unfold expect
  rw [Reader.bind_of_some (accept_self c cs)]
  rfl

/-- a word that is a key without quotes -/
def IsBare (word : List Char) : Prop := word ≠ [] ∧ word.all isBareChar = true

instance (word : List Char) : Decidable (IsBare word) := inferInstanceAs (Decidable (_ ∧ _))

/-- its first character is none of those with a meaning -/
theorem IsBare.exists_cons {word : List Char} (h : IsBare word) :
    ∃ w ws, word = w :: ws ∧ ∀ c, isBareChar c = false → w ≠ c := by
  obtain ⟨w, ws, rfl⟩ := List.exists_cons_of_ne_nil h.1
  refine ⟨w, ws, rfl, ?_⟩
  rintro c hc rfl
  exact absurd (List.all_eq_true.1 h.2 w List.mem_cons_self) (by simp [hc])

theorem keyPart_bare {word : List Char} (h : IsBare word) {c : Char} (hc : isBareChar c = false) (cs : List Char) :
    keyPart (word ++ c :: cs) = some (String.ofList word, c :: cs) := by
  have hword := List.all_eq_true.1 h.2
  have htake : (word ++ c :: cs).takeWhile isBareChar = word := by
    rw [List.takeWhile_append_of_pos hword, List.takeWhile_cons_of_neg (by simp [hc]), List.append_nil]
  have hdrop : (word ++ c :: cs).dropWhile isBareChar = c :: cs := by
    rw [List.dropWhile_append_of_pos hword, List.dropWhile_cons_of_neg (by simp [hc])]
  obtain ⟨w, ws, hcons, hother⟩ := h.exists_cons
  unfold keyPart
  split
  · next heq =>
    rw [hcons] at heq
    exact absurd (List.cons.inj heq).1 (hother _ (by decide))
  · next heq =>
    rw [hcons] at heq
    exact absurd (List.cons.inj heq).1 (hother _ (by decide))
  · dsimp only
    rw [htake, hdrop, if_neg (by simpa using h.1)]

theorem dropWhile_isSpace_bare {word : List Char} (h : IsBare word) (cs : List Char) :
    (word ++ cs).dropWhile isSpace = word ++ cs := by
  obtain ⟨w, ws, rfl, hother⟩ := h.exists_cons
  have hspace : isSpace w = false := by simp [isSpace, hother ' ' (by decide), hother '\t' (by decide)]
  rw [List.cons_append, List.dropWhile_cons_of_neg (by simp [hspace])]

/-- a key of one word, up to what follows it -/
theorem key_bare {word : List Char} (h : IsBare word) {c d : Char} {cs rest : List Char} (hc : isBareChar c = false)
    (hrest : (c :: cs).dropWhile isSpace = d :: rest) (hd : d ≠ '.') :
    key (word ++ c :: cs) = some (⟨[], String.ofList word⟩, d :: rest) := by
  have hpart : spaces (word ++ c :: cs) = some ((), word ++ c :: cs) := by
    change some ((), (word ++ c :: cs).dropWhile isSpace) = _
    rw [dropWhile_isSpace_bare h]
  have hspaces : spaces (c :: cs) = some ((), d :: rest) := by
    change some ((), (c :: cs).dropWhile isSpace) = _
    rw [hrest]
  have hparts (count : Nat) : keyParts (count + 1) (word ++ c :: cs) = some ([String.ofList word], d :: rest) := by
    rw [keyParts, Reader.bind_of_some hpart, Reader.bind_of_some (keyPart_bare h hc cs), Reader.bind_of_some hspaces,
      Reader.bind_of_some (accept_other hd rest)]
    rfl
  exact Reader.bind_of_some (hparts 78) _

theorem endOfLine_newline (cs : List Char) : endOfLine ('\n' :: cs) = some ((), cs) := rfl

theorem accept_bare {word : List Char} (h : IsBare word) {c : Char} (hc : isBareChar c = false) (cs : List Char) :
    accept c (word ++ cs) = some (false, word ++ cs) := by
  obtain ⟨w, ws, rfl, hother⟩ := h.exists_cons
  exact accept_other (hother c hc) _

/-- the header of a table -/
theorem item_header {word : List Char} (h : IsBare word) (cs : List Char) :
    item ('[' :: (word ++ ']' :: '\n' :: cs)) = some (.table ⟨[], String.ofList word⟩, cs) := by
  unfold item
  rw [Reader.bind_of_some (Reader.run_get _), Reader.bind_of_some (accept_self '[' _), if_pos rfl,
    Reader.bind_of_some (accept_bare h (by decide) _), if_neg Bool.false_ne_true,
    Reader.bind_of_some (key_bare h (by decide) (by rfl) (by decide)), Reader.bind_of_some (expect_self ']' _),
    Reader.bind_of_some (endOfLine_newline _)]
  rfl

/-- a key and its value on one line -/
theorem item_pair {word : List Char} (h : IsBare word) {c : Char} (hspace : isSpace c = false)
    (hopen : c ≠ '[' ∧ c ≠ '{') (cs : List Char) :
    item (word ++ ' ' :: '=' :: ' ' :: c :: cs) =
      (scalar? (c :: cs)).bind fun x => (endOfLine x.2).map fun rest =>
        (.pair ⟨[], String.ofList word⟩ x.1, rest.2) := by
  have hspaces : spaces (' ' :: c :: cs) = some ((), c :: cs) := by
    change some ((), (' ' :: c :: cs).dropWhile isSpace) = _
    rw [List.dropWhile_cons_of_pos (by decide), List.dropWhile_cons_of_neg (by simp [hspace])]
  have hvalue (fuel depth : Nat) : value (fuel + 1) depth (c :: cs) = scalar? (c :: cs) := by
    rw [value, Reader.bind_of_some (accept_other hopen.1 cs), if_neg Bool.false_ne_true,
      Reader.bind_of_some (accept_other hopen.2 cs), if_neg Bool.false_ne_true]
  unfold item
  rw [Reader.bind_of_some (Reader.run_get _), Reader.bind_of_some (accept_bare h (by decide) _),
    if_neg Bool.false_ne_true, Reader.bind_of_some (key_bare h (by decide) (by rfl) (by decide)),
    Reader.bind_of_some (expect_self '=' _), Reader.bind_of_some hspaces, Reader.run_bind, hvalue]
  cases scalar? (c :: cs) with
  | none => rfl
  | some x =>
    rw [Option.bind_some, Option.bind_some, Reader.run_bind]
    cases endOfLine x.2 <;> rfl

/-- a text that starts with a statement, apart from blanks and newlines -/
theorem statements_step {cs cs' : List Char} (hlines : skipLines false cs = some cs') (hne : cs' ≠ []) (n : Nat) :
    statements (n + 1) cs = (item cs').bind fun p => (statements n p.2).map fun q => (p.1 :: q.1, q.2) := by
  have hskip : lines cs = some ((), cs') := by
    unfold lines
    rw [hlines]
    rfl
  have hmore : ¬ cs'.isEmpty = true := by simpa using hne
  rw [statements, Reader.bind_of_some hskip, Reader.bind_of_some (Reader.run_get _), if_neg hmore, Reader.run_bind]
  cases item cs' with
  | none => rfl
  | some p =>
    rw [Option.bind_some, Option.bind_some, Reader.run_bind]
    cases statements n p.2 <;> rfl

theorem statements_newline (n : Nat) (cs : List Char) : statements n ('\n' :: cs) = statements n cs := by
  cases n with
  | zero => rfl
  | succ n =>
    have hskip : lines ('\n' :: cs) = lines cs := rfl
    rw [statements, Reader.run_bind, Reader.run_bind, hskip]

theorem skipLines_bare {word : List Char} (h : IsBare word) (cs : List Char) :
    skipLines false (word ++ cs) = some (word ++ cs) := by
  obtain ⟨w, ws, rfl, hother⟩ := h.exists_cons
  have hspace : isSpace w = false := by simp [isSpace, hother ' ' (by decide), hother '\t' (by decide)]
  rw [List.cons_append, skipLines, if_neg Bool.false_ne_true, if_neg (by simp [hspace]),
    if_neg (hother '#' (by decide))]
  · exact hother '\n' (by decide)
  · exact fun _ h => absurd h (hother '\r' (by decide))

theorem statements_header {word : List Char} (h : IsBare word) (n : Nat) (cs : List Char) :
    statements (n + 1) ('[' :: (word ++ ']' :: '\n' :: cs)) =
      (statements n cs).map fun q => (.table ⟨[], String.ofList word⟩ :: q.1, q.2) := by
  have hskip : skipLines false ('[' :: (word ++ ']' :: '\n' :: cs)) = some ('[' :: (word ++ ']' :: '\n' :: cs)) := rfl
  rw [statements_step hskip (List.cons_ne_nil _ _), item_header h, Option.bind_some]

theorem statements_pair {word : List Char} (h : IsBare word) (n : Nat) {c : Char} (hspace : isSpace c = false)
    (hopen : c ≠ '[' ∧ c ≠ '{') {cs rest : List Char} {x : Toml} (hx : scalar? (c :: cs) = some (x, '\n' :: rest)) :
    statements (n + 1) (word ++ ' ' :: '=' :: ' ' :: c :: cs) =
      (statements n rest).map fun q => (.pair ⟨[], String.ofList word⟩ x :: q.1, q.2) := by
  rw [statements_step (skipLines_bare h _) (by simp), item_pair h hspace hopen, hx]
  rfl

theorem scalar?_plain {text : List Char} (h : ∀ c ∈ text, isPlain c = true) (cs : List Char) :
    scalar? ('"' :: (text ++ '"' :: '\n' :: cs)) = some (.string (String.ofList text), '\n' :: cs) := by
  rw [scalar?, readText_plain h]
  rfl

/-- a key and a plain string -/
theorem statements_string {word text : List Char} (h : IsBare word) (htext : ∀ c ∈ text, isPlain c = true) (n : Nat)
    (cs : List Char) :
    statements (n + 1) (word ++ ' ' :: '=' :: ' ' :: '"' :: (text ++ '"' :: '\n' :: cs)) =
      (statements n cs).map fun q => (.pair ⟨[], String.ofList word⟩ (.string (String.ofList text)) :: q.1, q.2) :=
  statements_pair h n (by decide) (by decide) (scalar?_plain htext cs)

end Toml

namespace Manifest

open C15.Toml

/-- the text of a new manifest behind the name, statement by statement -/
def templateRest : List Char :=
  ['v', 'e', 'r', 's', 'i', 'o', 'n'] ++ ' ' :: '=' :: ' ' :: '"' ::
    (['0', '.', '1', '.', '0'] ++ '"' :: '\n' :: '\n' ::
  '[' :: (['b', 'u', 'i', 'l', 'd'] ++ ']' :: '\n' ::
  (['e', 'n', 't', 'r', 'y'] ++ ' ' :: '=' :: ' ' :: '"' ::
    (['m', 'a', 'i', 'n', '.', 'c', '1', '5', 's'] ++ '"' :: '\n' ::
  (['o', 'u', 't', '_', 'd', 'i', 'r'] ++ ' ' :: '=' :: ' ' :: '"' :: (['d', 'i', 's', 't'] ++ '"' :: '\n' ::
  (['e', 'm', 'i', 't', '_', 'a', 's', 'm'] ++ ' ' :: '=' :: ' ' :: 't' :: 'r' :: 'u' :: 'e' :: '\n' :: '\n' ::
  '[' :: (['t', 'a', 'r', 'g', 'e', 't'] ++ ']' :: '\n' ::
  (['m', 'e', 'm', 'o', 'r', 'y', '_', 'l', 'i', 'm', 'i', 't'] ++ ' ' :: '=' :: ' ' :: '5' :: ['0', '0', '\n'])))))))))

theorem template_toList (name : String) :
    (template name).toList = '[' :: (['p', 'a', 'c', 'k', 'a', 'g', 'e'] ++ ']' :: '\n' ::
      (['n', 'a', 'm', 'e'] ++ ' ' :: '=' :: ' ' :: '"' :: (name.toList ++ '"' :: '\n' :: templateRest))) := by
  have hfront : "[package]\nname = \"".toList =
      '[' :: (['p', 'a', 'c', 'k', 'a', 'g', 'e'] ++ ']' :: '\n' ::
        (['n', 'a', 'm', 'e'] ++ [' ', '=', ' ', '"'])) := by decide +kernel
  have hback : "\"\nversion = \"0.1.0\"\n\n[build]\nentry = \"main.c15s\"\nout_dir = \"dist\"\n".toList ++
      "emit_asm = true\n\n[target]\nmemory_limit = 500\n".toList = '"' :: '\n' :: templateRest := by decide +kernel
  change ((("[package]\nname = \"" ++ name) ++
    "\"\nversion = \"0.1.0\"\n\n[build]\nentry = \"main.c15s\"\nout_dir = \"dist\"\n") ++
    "emit_asm = true\n\n[target]\nmemory_limit = 500\n").toList = _
  rw [String.toList_append, String.toList_append, String.toList_append, List.append_assoc, hback, hfront]
  simp only [List.cons_append, List.nil_append]

theorem statements_templateRest (n : Nat) :
    statements (n + 8) templateRest = some ([.pair ⟨[], "version"⟩ (.string "0.1.0"), .table ⟨[], "build"⟩,
      .pair ⟨[], "entry"⟩ (.string "main.c15s"), .pair ⟨[], "out_dir"⟩ (.string "dist"),
      .pair ⟨[], "emit_asm"⟩ (.boolean true), .table ⟨[], "target"⟩,
      .pair ⟨[], "memory_limit"⟩ (.integer 500)], []) := by
  have htrue (cs : List Char) : scalar? ('t' :: 'r' :: 'u' :: 'e' :: '\n' :: cs) = some (.boolean true, '\n' :: cs) :=
    rfl
  have hlimit : scalar? ('5' :: ['0', '0', '\n']) = some (.integer 500, ['\n']) := rfl
  have hend : statements (n + 1) [] = some ([], []) := rfl
  rw [templateRest, statements_string (by decide) (List.all_eq_true.1 (by decide)), statements_newline,
    statements_header (by decide), statements_string (by decide) (List.all_eq_true.1 (by decide)),
    statements_string (by decide) (List.all_eq_true.1 (by decide)),
    statements_pair (by decide) _ (by decide) (by decide) (htrue _), statements_newline, statements_header (by decide),
    statements_pair (by decide) _ (by decide) (by decide) hlimit, hend]
  rfl

/-- the text of a new manifest starts with no mark, and has room for ten statements -/
theorem parse?_eq (name : String) : ∃ n, Toml.parse? (template name) =
    (statements (n + 10) (template name).toList).bind fun found => ofItems? found.1 := by
  have hmark : dropMark (template name).toList = (template name).toList := by
    rw [template_toList]
    rfl
  have hlength : 9 ≤ (template name).toList.length := by
    rw [template_toList]
    simp only [List.length_cons, List.length_append, List.length_nil]
    omega
  refine ⟨(template name).toList.length - 9, ?_⟩
  unfold Toml.parse?
  rw [hmark]
  have : (template name).toList.length - 9 + 10 = (template name).toList.length + 1 := by omega
  rw [this]
  rfl

/-- a plain name is read back, with the defaults -/
theorem parse?_template {name : String} (h : ∀ c ∈ name.toList, isPlain c = true) :
    parse? (template name) = some ⟨name, "0.1.0", "main.c15s", "dist", true, 500⟩ := by
  obtain ⟨n, hn⟩ := parse?_eq name
  unfold parse?
  rw [hn, template_toList, statements_header (by decide), statements_string (by decide) h, statements_templateRest]
  simp only [Option.map_some, Option.bind_some, String.ofList_toList]
  rfl

/-- the name of a manifest is the value under its key -/
theorem name_of_ofToml? {es : Entries} {x : Toml} {m : Manifest} (h : ofToml? (.table (entryValues es)) = some m)
    {o : Origin} (hx : (Node.table o es).leaf? ["package", "name"] = some x) : x.string? = some m.name := by
  obtain ⟨package, hpackage, hx⟩ := Option.bind_eq_some_iff.1 hx
  cases package with
  | leaf value => cases hx
  | tables last earlier => cases hx
  | table origin sub =>
    obtain ⟨leaf, hleaf, hx⟩ := Option.bind_eq_some_iff.1 hx
    cases leaf with
    | table origin sub => cases hx
    | tables last earlier => cases hx
    | leaf value =>
      cases hx
      have hfield : (entryValues es).lookup "package" = some (.table (entryValues sub)) := by
        rw [lookup_entryValues, hpackage, Option.map_some, Node.value]
      have hname : (entryValues sub).lookup "name" = some x := by
        rw [lookup_entryValues, hleaf, Option.map_some, Node.value]
      simp only [ofToml?, fields?, List.map_cons, List.map_nil, hfield, hname] at h
      split at h
      · next heq _ _ =>
        simp only [Option.some.injEq, List.cons.injEq] at heq
        obtain ⟨rfl, -, -⟩ := heq
        obtain ⟨text, htext, h⟩ := Option.bind_eq_some_iff.1 h
        rw [htext]
        simp only [Option.bind_eq_bind, Option.bind_eq_some_iff, Option.pure_def, Option.some.injEq] at h
        obtain ⟨_, -, _, -, _, -, _, -, _, -, rfl⟩ := h
        rfl
      · cases h

/-- the first two statements of a new manifest -/
theorem named_of_foldlM {x : Toml} {is : List Toml.Item} {t : List String × Entries}
    (h : (.table ⟨[], "package"⟩ :: .pair ⟨[], "name"⟩ x :: is : List Toml.Item).foldlM Item.apply ([], []) = some t) :
    (Node.table .header t.2).leaf? ["package", "name"] = some x := by
  have hheader : Item.apply ([], []) (.table ⟨[], "package"⟩) = some (["package"], [("package", .table .header [])]) :=
    rfl
  have hname : Item.apply (["package"], [("package", .table .header [])]) (.pair ⟨[], "name"⟩ x) =
      some (["package"], [("package", .table .header [("name", .leaf x)])]) := rfl
  rw [List.foldlM_cons, hheader, Option.bind_eq_bind, Option.bind_some, List.foldlM_cons, hname, Option.bind_eq_bind,
    Option.bind_some] at h
  exact foldlM_grows h ["package", "name"] x rfl

/-- in the text of a new manifest, the name is what the first string spells -/
theorem name_of_template {name : String} {m : Manifest} (h : parse? (template name) = some m) :
    ∃ rest, readText ('"' :: (name.toList ++ '"' :: '\n' :: templateRest)) = some (m.name.toList, rest) := by
  obtain ⟨n, hn⟩ := parse?_eq name
  obtain ⟨toml, htoml, hm⟩ := Option.bind_eq_some_iff.1 h
  rw [hn, template_toList, statements_header (by decide)] at htoml
  obtain ⟨found, hfound, hitems⟩ := Option.bind_eq_some_iff.1 htoml
  obtain ⟨q, hq, rfl⟩ := Option.map_eq_some_iff.1 hfound
  rw [statements_step (skipLines_bare (by decide) _) (by simp), item_pair (by decide) (by decide) (by decide)] at hq
  obtain ⟨p, hp, hq⟩ := Option.bind_eq_some_iff.1 hq
  obtain ⟨q', -, rfl⟩ := Option.map_eq_some_iff.1 hq
  obtain ⟨x, hx, hp⟩ := Option.bind_eq_some_iff.1 hp
  obtain ⟨r, -, rfl⟩ := Option.map_eq_some_iff.1 hp
  obtain ⟨⟨text, rest⟩, htext, rfl⟩ := Option.map_eq_some_iff.1 hx
  obtain ⟨t, ht, rfl⟩ := Option.map_eq_some_iff.1 hitems
  have hname : (Toml.string (String.ofList text)).string? = some m.name := name_of_ofToml? hm (named_of_foldlM ht)
  rw [← Option.some.inj hname, String.toList_ofList]
  exact ⟨rest, htext⟩

/-- **Names of new projects.** The name that is read from the manifest of a new project is the one it was made with
exactly if all characters of that stand for themselves between quotes. -/
theorem template_reads_iff (name : String) :
    (∃ m, parse? (template name) = some m ∧ m.name = name) ↔ ∀ c ∈ name.toList, isPlain c = true := by
  have hrest : ¬ ['"', '"', '"'] <:+: '\n' :: templateRest := by decide +kernel
  constructor
  · rintro ⟨m, hm, rfl⟩
    obtain ⟨rest, hread⟩ := name_of_template hm
    exact plain_of_readText hrest hread
  · intro h
    exact ⟨_, parse?_template h, rfl⟩

end Manifest

end C15

/-
Several calls of one reader.

A reader is asked for expressions and programs in any order, and it is asked again after a call that failed. What a
failed call took is gone: its tokens, and the identities it drew for nodes that nobody gets to see. `Reader.step` is one
call, `Reader.run` a sequence of them from the first token on. The counter never goes back, so what a call returns has
identities that no earlier call has drawn.

Results:
- `Reader.step_numbered`: a call keeps identities apart and below the counter, failing or not;
- `Reader.run_identities_apart`: so does any sequence of calls.
-/
import C15.Proofs.Identity

namespace C15

open C15.Parser (State)

/-- what a reader is asked for -/
inductive Request where
  | expression
  | program
deriving DecidableEq, Repr

/-- what a call returns -/
inductive Tree where
  | expression (e : Expr)
  | program (p : Program)
deriving Repr

/-- identities of the declarations, parameters and expressions of a tree -/
def Tree.ids : Tree → List NodeId
  | .expression e => e.ids
  | .program p => p.ids

def Request.read : Request → Parser Tree
  | .expression => do return .expression (← Parser.expression)
  | .program => do return .program (← Parser.program)

/-- a reader between two calls: where it stands, and the answers to the calls so far -/
structure Reader where
  state : State
  answers : List (Except (Located GrammarCause) Tree)

namespace Reader

/-- one call; the state that a failed one leaves is kept -/
def step (r : Reader) (q : Request) : Reader :=
  match q.read r.state with
  | .ok tree s => ⟨s, r.answers ++ [.ok tree]⟩
  | .error e s => ⟨s, r.answers ++ [.error e]⟩

/-- calls one after the other, from the first of some tokens on -/
def run (tokens : List Token) (qs : List Request) : Reader := qs.foldl step ⟨.start tokens, []⟩

/-- the trees that were returned -/
def trees (r : Reader) : List Tree := r.answers.filterMap Except.toOption

/-- identities of all trees that were returned -/
def ids (r : Reader) : List NodeId := r.trees.flatMap Tree.ids

/-- identities are distinct and were drawn before the counter -/
def Numbered (r : Reader) : Prop := Fresh 0 r.state.nextId r.ids

theorem ids_ok (s : State) (answers : List (Except (Located GrammarCause) Tree)) (tree : Tree) :
    ids ⟨s, answers ++ [.ok tree]⟩ = ids ⟨s, answers⟩ ++ tree.ids := by
  simp [ids, trees, Except.toOption]

theorem ids_error (s : State) (answers : List (Except (Located GrammarCause) Tree)) (e : Located GrammarCause) :
    ids ⟨s, answers ++ [.error e]⟩ = ids ⟨s, answers⟩ := by
  simp [ids, trees, Except.toOption]

end Reader

/-- a program has identities that were drawn while it was read -/
theorem Parser.draws_program (c : Nat) : Draws .all c program fun p n => Fresh c n p.ids :=
  quiet_get.andThen fun s => (draws_items s.calls c).bind fun _ _ _ hitems => quiet_get.andThen fun _ =>
    draws_pure hitems.1

/-- what a call returns has identities that the call has drawn -/
theorem Request.draws (q : Request) (c : Nat) : Parser.Draws .all c q.read fun tree n => Fresh c n tree.ids := by
  cases q with
  | expression => exact (Parser.draws_expression c).bind fun e n _ he => Parser.draws_pure he.1
  | program => exact (Parser.draws_program c).bind fun p n _ hp => Parser.draws_pure hp

namespace Reader

/-- **One call.** It keeps the identities of what was returned so far, and adds new ones. -/
theorem step_numbered {r : Reader} (h : r.Numbered) (q : Request) : (r.step q).Numbered := by
  have hdraws := q.draws r.state.nextId r.state rfl fun t _ => t.kind.in_all
  unfold step
  cases hread : q.read r.state with
  | ok tree s =>
    rw [hread] at hdraws
    obtain ⟨hle, -, hfresh⟩ := hdraws
    unfold Numbered
    rw [ids_ok]
    exact Fresh.append h hfresh (Nat.zero_le _) hle
  | error e s =>
    rw [hread] at hdraws
    unfold Numbered
    rw [ids_error]
    exact Fresh.mono h (Nat.zero_le _) hdraws

/-- calls one after the other -/
theorem foldl_numbered {r : Reader} (h : r.Numbered) (qs : List Request) : (qs.foldl step r).Numbered := by
  induction qs generalizing r with
  | nil => exact h
  | cons q qs ih => exact ih (step_numbered h q)

/-- every call is answered -/
theorem length_answers (r : Reader) (qs : List Request) :
    (qs.foldl step r).answers.length = r.answers.length + qs.length := by
  induction qs generalizing r with
  | nil => rfl
  | cons q qs ih =>
    have hstep : (r.step q).answers.length = r.answers.length + 1 := by
      unfold step
      cases q.read r.state <;> simp
    rw [List.foldl_cons, ih, hstep, List.length_cons]
    omega

/-- **Identities are never used twice.** After any sequence of calls of one reader, whichever of them failed, there is
an answer to each, and the identities of the declarations, parameters and expressions in all the trees that were
returned are distinct and below the counter. -/
theorem run_identities_apart (tokens : List Token) (qs : List Request) :
    (run tokens qs).answers.length = qs.length ∧ (run tokens qs).ids.Nodup ∧
      ∀ id ∈ (run tokens qs).ids, id < (run tokens qs).state.nextId := by
  have hstart : Numbered ⟨.start tokens, []⟩ := Fresh.nil 0 0
  have hrun : (run tokens qs).Numbered := foldl_numbered hstart qs
  refine ⟨?_, hrun.nodup, fun id hid => (hrun.bounds id hid).2⟩
  rw [run, length_answers]
  exact Nat.zero_add _

/-- `( 1 2`: the call that misses the closing parenthesis takes the first literal and its identity with it -/
example :
  (run [⟨.punct .lparen, "(", ⟨0, 1⟩⟩, ⟨.literal (.int 1), "1", ⟨2, 3⟩⟩, ⟨.literal (.int 2), "2", ⟨4, 5⟩⟩,
  ⟨.eof, "", ⟨5, 5⟩⟩]
    [.expression, .expression, .program]).ids = [1] := by
  decide +kernel

end Reader

end C15

/-
Who owns an address.

Every address of a generated program belongs to one global, parameter, local or result, and is listed with its name,
type and place. `Program.owners` lists the owners by address, read off the program alone. Results:
- `Program.Parts.final_holds`: the destinations are those of the owners, in order, and there is room for them;
- `Program.cell_unique`: in a checked program with distinct identities no two addresses belong to one declaration;
- `Program.generate_separates`: storage is never shared. A line that is there for an occurrence of a variable uses the
  address of the declaration that the occurrence resolves to.
-/
import C15.Proofs.BlockScope
import C15.Proofs.Provenance

namespace C15

/-! ## Owners -/

/-- what an address belongs to -/
inductive Owner where
  | variable (d : VarDecl)
  | param (q : Param)
  | result (f : FunctionDecl)

namespace Owner

def cell : Owner → Cell
  | .variable d => d.cell
  | .param q => q.cell
  | .result f => .result f.name

/-- how an owner is listed, if it has this address -/
def destination (address : Nat) : Owner → Destination
  | .variable d => ⟨⟨address⟩, d.name, d.ty, d.nameSpan⟩
  | .param q => ⟨⟨address⟩, q.name, q.ty, q.span⟩
  | .result f => ⟨⟨address⟩, f.name ++ ".return", f.result, f.nameSpan⟩

@[simp] theorem address_destination (address : Nat) (o : Owner) : (o.destination address).address = ⟨address⟩ := by
  cases o <;> rfl

end Owner

/-- owners listed from the address 0 on -/
def destinationsOf (owners : List Owner) : List Destination := owners.mapIdx Owner.destination

namespace FunctionDecl

def frameOwners (f : FunctionDecl) : List Owner := (if f.result.isVoid then [] else [.result f]) ++ f.params.map .param

def localOwners (f : FunctionDecl) : List Owner := (Stmt.localsOf f.body).map .variable

theorem map_frameOwners (f : FunctionDecl) : f.frameOwners.map Owner.cell = f.frameCells := by
  unfold frameOwners frameCells
  cases f.result.isVoid <;> simp [Owner.cell, Function.comp_def]

theorem map_localOwners (f : FunctionDecl) : f.localOwners.map Owner.cell = f.localCells := by
  simp [localOwners, localCells, Owner.cell, Function.comp_def]

end FunctionDecl

/-- the owners of the addresses of a program, in order -/
def Program.owners (p : Program) : List Owner :=
  p.globals.map .variable ++ p.functions.flatMap FunctionDecl.frameOwners ++ p.functions.flatMap
    FunctionDecl.localOwners

theorem Program.map_owners (p : Program) : p.owners.map Owner.cell = p.cells := by
  simp only [owners, cells, List.map_append, List.map_flatMap, List.map_map, FunctionDecl.map_frameOwners,
    FunctionDecl.map_localOwners]
  rfl

namespace Codegen

/-! ## Destinations -/

/-- the addresses given out are those of these owners -/
structure Storage.Holds (st : Storage) (owners : List Owner) : Prop where
  destinations : st.destinations.toList = destinationsOf owners
  room : owners.length ≤ maxAddress + 1

namespace Storage.Holds

variable {st st' : Storage} {owners : List Owner}

theorem size (h : st.Holds owners) : st.destinations.size = owners.length := by
  rw [← Array.length_toList, h.destinations, destinationsOf, List.length_mapIdx]

theorem push (h : st.Holds owners) (hroom : st.destinations.size ≤ maxAddress) (o : Owner)
    (hst : st'.destinations = st.destinations.push (o.destination st.destinations.size)) :
    st'.Holds (owners ++ [o]) := by
  constructor
  · rw [hst, Array.toList_push, h.destinations, h.size]
    simp [destinationsOf]
  · rw [h.size] at hroom
    simpa using hroom

theorem kept (owners : List Owner) : Storage.Kept fun st ds => st.Holds (owners ++ ds.map .variable) where
  numbered h := ⟨h.destinations, h.room⟩
  growFor d h hroom := by simpa using h.push hroom (.variable d) rfl

end Storage.Holds

section Program

variable {cx : Context} {frag : Fragment} {st st' : Storage} {owners : List Owner}

theorem bindGlobals_holds (ds : List VarDecl) {as : List Address} (h : (bindGlobals ds).run st = .ok (as, st'))
    (hst : st.Holds owners) : st'.Holds (owners ++ ds.map .variable) := by
  induction ds generalizing st owners as with
  | nil =>
    simp only [bindGlobals, run_pure_eq_ok] at h
    obtain ⟨-, rfl⟩ := h
    simpa using hst
  | cons d rest ih =>
    simp only [bindGlobals, run_bind_eq_ok, run_bindSlot_eq_ok, run_pure_eq_ok] at h
    obtain ⟨_, _, ⟨hroom, rfl, rfl⟩, more, _, hm, -, rfl⟩ := h
    simpa using ih hm (hst.push hroom (.variable d) rfl)

theorem bindParams_holds (ps : List Param) {as : List Address} (h : (bindParams ps).run st = .ok (as, st'))
    (hst : st.Holds owners) : st'.Holds (owners ++ ps.map .param) := by
  induction ps generalizing st owners as with
  | nil =>
    simp only [bindParams, run_pure_eq_ok] at h
    obtain ⟨-, rfl⟩ := h
    simpa using hst
  | cons q rest ih =>
    simp only [bindParams, run_bind_eq_ok, run_bindSlot_eq_ok, run_pure_eq_ok] at h
    obtain ⟨_, _, ⟨hroom, rfl, rfl⟩, more, _, hm, -, rfl⟩ := h
    simpa using ih hm (hst.push hroom (.param q) rfl)

theorem bindFrame_holds {f : FunctionDecl} {frame : Frame} (h : (bindFrame f).run st = .ok (frame, st'))
    (hst : st.Holds owners) : st'.Holds (owners ++ f.frameOwners) := by
  unfold FunctionDecl.frameOwners
  cases hvoid : f.result.isVoid with
  | true =>
    simp only [bindFrame, hvoid, if_true, run_bind_eq_ok, run_pure_eq_ok] at h
    obtain ⟨_, _, ⟨rfl, rfl⟩, params, _, hp, -, rfl⟩ := h
    simpa using bindParams_holds f.params hp hst
  | false =>
    simp only [bindFrame, hvoid, Bool.false_eq_true, if_false, run_bind_eq_ok, run_pure_eq_ok, run_map_eq_ok,
      run_allocate_eq_ok] at h
    obtain ⟨_, _, ⟨_, ⟨hroom, rfl, rfl⟩, rfl⟩, params, _, hp, -, rfl⟩ := h
    simpa using bindParams_holds f.params hp (hst.push hroom (.result f) rfl)

theorem bindFrames_holds (fs : List FunctionDecl) {seen frames : List (String × Frame)}
    (h : (bindFrames seen fs).run st = .ok (frames, st')) (hst : st.Holds owners) :
    st'.Holds (owners ++ fs.flatMap FunctionDecl.frameOwners) := by
  induction fs generalizing st owners seen with
  | nil =>
    simp only [bindFrames, run_pure_eq_ok] at h
    obtain ⟨-, rfl⟩ := h
    simpa using hst
  | cons f rest ih =>
    simp only [bindFrames, run_bind_eq_ok] at h
    obtain ⟨frame, _, hf, hr⟩ := h
    simpa using ih hr (bindFrame_holds hf hst)

theorem lowerFunctions_holds (fs : List FunctionDecl) (h : (lowerFunctions cx fs).run st = .ok (frag, st'))
    (hst : st.Holds owners) : st'.Holds (owners ++ fs.flatMap FunctionDecl.localOwners) := by
  induction fs generalizing st owners frag with
  | nil =>
    obtain ⟨rfl, -⟩ := lowerFunctions_nil h
    simpa using hst
  | cons f rest ih =>
    obtain ⟨_, _, _, hf, hm, -⟩ := lowerFunctions_cons h
    obtain ⟨_, hb, -⟩ := lowerFunction_eq_ok hf
    have hst' : st.Holds (owners ++ [].map .variable) := by simpa using hst
    have hbody := lowerStmts_keeps (Storage.Holds.kept owners) f.body hb hst'
    simpa [FunctionDecl.localOwners] using ih hm hbody

end Program

end Codegen

/-! ## Programs -/

/-- the variable that an occurrence means is the one it resolves to -/
theorem TypeInfo.resolved_of_variableOf (info : TypeInfo) {id : NodeId} {v : Variable}
    (h : info.variableOf id = some v) : info.facts.resolved.lookup id = some v.decl := by
  obtain ⟨decl, hdecl, hfind⟩ := Option.bind_eq_some_iff.1 h
  have hsame : v.decl = decl := by simpa using List.find?_some hfind
  rw [hdecl, hsame]

namespace Purpose

/-- the occurrence that a line is there for, if it is there for one -/
def occurrence? : Purpose → Option NodeId
  | .load id | .store id => some id
  | _ => none

end Purpose

namespace Line

/-- a line that moves a value to or from an address -/
def Moves (l : Line) (a : Address) : Prop :=
  l = .instr (Codegen.pushA a) ∨ l = .instr (Codegen.popA a) ∨ l = .instr (Codegen.saveA a) ∨
    l = .instr (Codegen.loadA a)

variable {cells : List Cell} {info : TypeInfo} {l : Line} {purpose : Purpose}

/-- a line that has a purpose uses addresses that belong to cells -/
theorem Serves.addresses_lt (h : l.Serves cells info purpose) : ∀ a ∈ l.addresses, a < cells.length := by
  have hlt {a : Address} {c : Cell} (hc : cells[a.index]? = some c) : a.index < cells.length :=
    (List.getElem?_eq_some_iff.1 hc).1
  cases purpose with
  | work =>
    rw [show l.addresses = [] from h]
    exact List.forall_mem_nil _
  | expose decl =>
    obtain ⟨a, name, rfl, hc⟩ := h
    exact List.forall_mem_singleton.2 (hlt hc)
  | load id | store id =>
    obtain ⟨a, v, rfl | rfl, -, hc⟩ := h
    · exact List.forall_mem_singleton.2 (hlt hc)
    · exact List.forall_mem_singleton.2 (hlt hc)
  | init | pass | fetch | leave =>
    obtain ⟨a, rfl, hc⟩ := h
    exact List.forall_mem_singleton.2 (hlt hc)
  | reset decl =>
    obtain ⟨a, value, rfl, hc⟩ := h
    exact List.forall_mem_singleton.2 (hlt hc)
  | call callee =>
    rw [show l = .instr (.jump .call (Codegen.functionLabel callee)) from h]
    exact List.forall_mem_nil _

/-- a line that is there for an occurrence uses the address of the declaration that the occurrence resolves to -/
theorem Serves.moves (h : l.Serves cells info purpose) {id : NodeId} (hid : purpose.occurrence? = some id) :
    ∃ a decl, l.Moves a ∧ info.facts.resolved.lookup id = some decl ∧ cells[a.index]? = some (.variable decl) := by
  cases purpose with
  | load =>
    obtain rfl := Option.some.inj hid
    obtain ⟨a, v, hl, hv, hc⟩ := h
    exact ⟨a, v.decl, hl.elim Or.inl fun hl => Or.inr (Or.inr (Or.inr hl)), info.resolved_of_variableOf hv, hc⟩
  | store =>
    obtain rfl := Option.some.inj hid
    obtain ⟨a, v, hl, hv, hc⟩ := h
    exact ⟨a, v.decl, Or.inr (hl.imp id Or.inl), info.resolved_of_variableOf hv, hc⟩
  | work | expose | init | reset | pass | call | fetch | leave => cases hid

end Line

namespace Program

variable {p : Program} {info : TypeInfo} {out : Generated}

/-- **The destinations of a generated program are those of its owners.** -/
theorem Parts.final_holds (parts : p.Parts info out) : parts.final.Holds p.owners := by
  have hempty : Codegen.Storage.Holds ⟨#[], [], 0⟩ [] := ⟨rfl, Nat.zero_le _⟩
  have hbound := Codegen.bindGlobals_holds p.globals parts.bindGlobals hempty
  have hframed := Codegen.bindFrames_holds p.functions parts.bindFrames hbound
  rw [← parts.entered_eq] at hframed
  exact Codegen.lowerFunctions_holds p.functions parts.lowerFunctions hframed

/-- the i-th line lets the host read the i-th global -/
theorem Parts.read_line (parts : p.Parts info out) {i : Nat} {g : VarDecl} (hg : p.globals[i]? = some g) :
    out.lines[i]? = some (.read ⟨i⟩ g.name) := by
  obtain ⟨hi, -⟩ := List.getElem?_eq_some_iff.1 hg
  have haddress : parts.addresses[i]? = some ⟨i⟩ := by
    rw [parts.addresses_eq, Codegen.addressesFrom, List.getElem?_map, List.getElem?_range' hi]
    simp
  have hread : ((p.globals.zip parts.addresses).map fun x => Line.read x.2 x.1.name)[i]? = some (.read ⟨i⟩ g.name) := by
    have hzip : (p.globals.zip parts.addresses)[i]? = some (g, ⟨i⟩) := List.getElem?_zip_eq_some.2 ⟨hg, haddress⟩
    rw [List.getElem?_map, hzip]
    rfl
  obtain ⟨hlt, -⟩ := List.getElem?_eq_some_iff.1 hread
  rw [parts.lines, List.append_assoc, List.append_assoc, List.getElem?_append_left hlt]
  exact hread

/-- an address that belongs to the declaration with an identity, listed for it, and no other address belongs to that
declaration -/
structure Owns (p : Program) (out : Generated) (decl : NodeId) (a : Address) : Prop where
  listed : ∃ o, o.cell = .variable decl ∧ p.owners[a.index]? = some o ∧
    out.destinations[a.index]? = some (o.destination a.index)
  only : ∀ (i : Nat) (o : Owner), p.owners[i]? = some o → o.cell = .variable decl → i = a.index

theorem cell_of_owner {i : Nat} {o : Owner} (h : p.owners[i]? = some o) : p.cells[i]? = some o.cell := by
  rw [← p.map_owners, List.getElem?_map, h]
  rfl

/-- one address for each cell -/
theorem cell_unique (hids : p.ids.Nodup) (hcheck : p.check = .ok info) {i j : Nat} {c : Cell}
    (hi : p.cells[i]? = some c) (hj : p.cells[j]? = some c) : i = j := by
  have hnodup := p.cells_nodup hids (names_of_check hcheck).1
  obtain ⟨hlt, -⟩ := List.getElem?_eq_some_iff.1 hi
  exact (List.getElem?_inj hlt hnodup).1 (hi.trans hj.symm)

/-- what a line is there for is an occurrence in the text -/
theorem occurrence_of_purpose {q : Purpose} (hq : q ∈ p.purposes info) {id : NodeId}
    (hid : q.occurrence? = some id) : ∃ name, (id, name) ∈ p.occurrences := by
  have hplain : q.isPlain = false := by
    cases q with
    | load | store => rfl
    | work | expose | init | reset | pass | call | fetch | leave => cases hid
  obtain ⟨x, hx, hwithin⟩ := p.purposes_within hq hplain
  have hmem (o : NodeId × String) (ho : o ∈ x.2.occurrences) : o ∈ p.occurrences := by
    rw [occurrences, ← Item.map_occurrencesAt .empty]
    exact List.mem_map.2 ⟨(x.1, o), List.mem_flatMap.2 ⟨x, hx, List.mem_map_of_mem ho⟩, rfl⟩
  cases q with
  | load =>
    obtain rfl := Option.some.inj hid
    obtain ⟨name, ho⟩ := hwithin
    exact ⟨name, hmem _ ho⟩
  | store =>
    obtain rfl := Option.some.inj hid
    obtain ⟨name, ho, -⟩ := hwithin
    exact ⟨name, hmem _ ho⟩
  | work | expose | init | reset | pass | call | fetch | leave => cases hid

/-- **Storage is never shared.** Whatever facts a program is generated by, its destinations are those of its owners,
each at its own address and 4096 at most, no line uses any other address, and the i-th global has the address i. If the
facts are those of the program and identities are distinct, every line that is there for an occurrence moves a value to
or from the one address that belongs to the declaration which the occurrence resolves to. -/
theorem generate_separates (h : p.generate info = .ok out) :
    out.destinations = destinationsOf p.owners ∧ out.destinations.length ≤ 4096 ∧
    (∀ (i : Nat) (d : Destination), out.destinations[i]? = some d → d.address = ⟨i⟩) ∧
    (∀ l ∈ out.lines, ∀ a ∈ l.addresses, a < out.destinations.length) ∧
    (∀ (i : Nat) (g : VarDecl), p.globals[i]? = some g → p.owners[i]? = some (.variable g) ∧
      out.lines[i]? = some (.read ⟨i⟩ g.name)) ∧
    (p.ids.Nodup → p.check = .ok info →
      List.Forall₂ (fun l purpose => ∀ id, purpose.occurrence? = some id →
        ∃ a decl, l.Moves a ∧ info.facts.resolved.lookup id = some decl ∧ p.Owns out decl a)
        out.lines (p.purposes info) ∧
      ∀ purpose ∈ p.purposes info, ∀ id, purpose.occurrence? = some id → ∃ name, (id, name) ∈ p.occurrences) := by
  have hserves := generate_serves h
  obtain ⟨parts⟩ := nonempty_parts h
  have hholds := parts.final_holds
  have hdestinations : out.destinations = destinationsOf p.owners := parts.destinations.trans hholds.destinations
  have hlength : out.destinations.length = p.owners.length := by rw [hdestinations, destinationsOf, List.length_mapIdx]
  have hcells : p.cells.length = out.destinations.length := by rw [hlength, ← p.map_owners, List.length_map]
  refine ⟨hdestinations, hlength ▸ hholds.room, ?_, ?_, ?_, ?_⟩
  · intro i d hd
    rw [hdestinations, destinationsOf, List.getElem?_mapIdx, Option.map_eq_some_iff] at hd
    obtain ⟨o, -, rfl⟩ := hd
    exact o.address_destination i
  · intro l hl
    obtain ⟨purpose, -, hpurpose⟩ := (exists_mem_of_forall₂ hserves).1 l hl
    rw [← hcells]
    exact hpurpose.addresses_lt
  · intro i g hg
    refine ⟨?_, parts.read_line hg⟩
    have hmap : (p.globals.map Owner.variable)[i]? = some (.variable g) := by rw [List.getElem?_map, hg]; rfl
    obtain ⟨hi, -⟩ := List.getElem?_eq_some_iff.1 hmap
    rw [owners, List.append_assoc, List.getElem?_append_left hi]
    exact hmap
  · intro hids hcheck
    refine ⟨hserves.imp ?_, fun purpose hpurpose id hid => occurrence_of_purpose hpurpose hid⟩
    intro l purpose hl id hid
    obtain ⟨a, decl, hmoves, hresolved, hc⟩ := hl.moves hid
    refine ⟨a, decl, hmoves, hresolved, ?_, ?_⟩
    · rw [← p.map_owners, List.getElem?_map, Option.map_eq_some_iff] at hc
      obtain ⟨o, ho, hcell⟩ := hc
      refine ⟨o, hcell, ho, ?_⟩
      rw [hdestinations, destinationsOf, List.getElem?_mapIdx, ho]
      rfl
    · intro i o ho hcell
      exact cell_unique hids hcheck (hcell ▸ cell_of_owner ho) hc

end Program

/-- `int x; int f(int x) { return x; } void main() { int x = 3; { int x = 4; x = 5; } x++; }` -/
def namesakes : Program :=
  { span := ⟨0, 0⟩
    items :=
      [.global ⟨0, ⟨0, 0⟩, "x", ⟨0, 0⟩, .plain .int, none⟩,
       .function ⟨⟨0, 0⟩, "f", ⟨0, 0⟩, .plain .int, [⟨1, ⟨0, 0⟩, "x", .plain .int⟩], ⟨0, 0⟩,
        [.return_ ⟨0, 0⟩ (some (.ident 2 ⟨0, 0⟩ "x"))]⟩,
       .function ⟨⟨0, 0⟩, "main", ⟨0, 0⟩, .plain .void, [], ⟨0, 0⟩,
        [.decl ⟨4, ⟨0, 0⟩, "x", ⟨0, 0⟩, .plain .int, some (.literal 3 ⟨0, 0⟩ (.int 3))⟩,
         .block ⟨0, 0⟩
          [.decl ⟨6, ⟨0, 0⟩, "x", ⟨0, 0⟩, .plain .int, some (.literal 5 ⟨0, 0⟩ (.int 4))⟩,
           .expr ⟨0, 0⟩ (.assign 8 ⟨0, 0⟩ none "x" ⟨0, 0⟩ (.literal 7 ⟨0, 0⟩ (.int 5)))],
         .expr ⟨0, 0⟩ (.update 10 ⟨0, 0⟩ .postInc 9 ⟨0, 0⟩ "x")]⟩] }

/-- of five cells, four of them with one name, the assignment in the block uses that of the innermost declaration -/
theorem namesakes_separated :
    namesakes.ids.Nodup ∧ ∃ info out, namesakes.check = .ok info ∧ namesakes.generate info = .ok out ∧
    out.destinations.length = 5 ∧ ∃ l ∈ out.lines, l.Moves ⟨4⟩ ∧ namesakes.Owns out 6 ⟨4⟩ := by
  have hids : namesakes.ids.Nodup := by decide
  obtain ⟨info, out, hcheck, hgen, hresolved, hpurpose⟩ : ∃ info out, namesakes.check = .ok info ∧
      namesakes.generate info = .ok out ∧
      info.facts.resolved.lookup 8 = some 6 ∧ .store 8 ∈ namesakes.purposes info :=
        ⟨_, _, rfl, rfl, rfl, by decide +kernel⟩
  obtain ⟨hdestinations, -, -, -, -, hown⟩ := Program.generate_separates hgen
  obtain ⟨l, hl, hmoves⟩ := (exists_mem_of_forall₂ (hown hids hcheck).1).2 _ hpurpose
  obtain ⟨a, decl, hla, hdecl, howns⟩ := hmoves 8 rfl
  obtain rfl : decl = 6 := Option.some.inj (hdecl.symm.trans hresolved)
  have hfour : a = ⟨4⟩ := congrArg Address.mk (howns.only 4 _ rfl rfl).symm
  exact ⟨hids, info, out, hcheck, hgen, hdestinations ▸ rfl, l, hl, hfour ▸ hla, hfour ▸ howns⟩

end C15

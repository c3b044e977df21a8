/-
Tables as a document builds them up.

A table is opened by a header, implied by a longer header, or made by a dotted key. The rules: a name is given once; a
header opens a table that is absent or was only implied; a dotted key extends only tables that dotted keys made, though
it may pass through implied ones; a list of tables grows by its own kind of header, and stands for its last table inside
longer names; a value is never extended.
-/
import C15.Toml

namespace C15.Toml

/-- what made a table -/
inductive Origin where
  | header
  | implied
  | dotted
deriving DecidableEq, Repr

/-- what stands under a name while a document is read -/
inductive Node where
  | leaf (value : Toml)
  | table (origin : Origin) (entries : List (String × Node))
  /-- a list of tables: the last one, and those before it from last to first -/
  | tables (last : List (String × Node)) (earlier : List (List (String × Node)))
deriving Repr

abbrev Entries := List (String × Node)

/-- a name with the names of the tables that it stands in -/
structure Key where
  parents : List String
  name : String
deriving DecidableEq, Repr

def Key.path (k : Key) : List String := k.parents ++ [k.name]

namespace Entries

/-- put a node under a name that is there -/
def set (name : String) (node : Node) (es : Entries) : Entries :=
  es.map fun (n, old) => if n == name then (n, node) else (n, old)

/-- give a value to a dotted key -/
def insert (name : String) (value : Toml) : List String → Entries → Option Entries
  | [], es => if (es.lookup name).isSome then none else some (es ++ [(name, .leaf value)])
  | p :: ps, es =>
    match es.lookup p with
    | none => (insert name value ps []).map fun sub => es ++ [(p, .table .dotted sub)]
    | some (.table .dotted sub) => (insert name value ps sub).map fun sub => set p (.table .dotted sub) es
    -- the key may pass through, but a table that is only implied gets no entry of its own this way
    | some (.table .implied sub) =>
      if ps.isEmpty then none else (insert name value ps sub).map fun sub => set p (.table .implied sub) es
    | some (.tables last earlier) =>
      if ps.isEmpty then none else (insert name value ps last).map fun last => set p (.tables last earlier) es
    | some (.table .header _) | some (.leaf _) => none

/-- change the entries of the table at a path, with the tables on the way implied -/
def modifyAt (change : Entries → Option Entries) : List String → Entries → Option Entries
  | [], es => change es
  | p :: ps, es =>
    match es.lookup p with
    | none => (modifyAt change ps []).map fun sub => es ++ [(p, .table .implied sub)]
    | some (.table origin sub) => (modifyAt change ps sub).map fun sub => set p (.table origin sub) es
    | some (.tables last earlier) => (modifyAt change ps last).map fun last => set p (.tables last earlier) es
    | some (.leaf _) => none

/-- open a table by its header -/
def openTable (k : Key) : Entries → Option Entries :=
  modifyAt (fun es =>
    match es.lookup k.name with
    | none => some (es ++ [(k.name, .table .header [])])
    | some (.table .implied sub) => some (set k.name (.table .header sub) es)
    | some _ => none) k.parents

/-- add a table to a list of tables by its header -/
def openTables (k : Key) : Entries → Option Entries :=
  modifyAt (fun es =>
    match es.lookup k.name with
    | none => some (es ++ [(k.name, .tables [] [])])
    | some (.tables last earlier) => some (set k.name (.tables [] (last :: earlier)) es)
    | some _ => none) k.parents

end Entries

mutual

/-- the value of a finished node -/
def Node.value : Node → Toml
  | .leaf value => value
  | .table _ es => .table (entryValues es)
  | .tables last earlier => .array ((tableValues earlier).reverse ++ [.table (entryValues last)])

def entryValues : List (String × Node) → List (String × Toml)
  | [] => []
  | (name, node) :: es => (name, node.value) :: entryValues es

def tableValues : List (List (String × Node)) → List Toml
  | [] => []
  | es :: ess => .table (entryValues es) :: tableValues ess

end

/-- one statement of a document -/
inductive Item where
  | table (k : Key)
  | tables (k : Key)
  | pair (k : Key) (value : Toml)
deriving Repr

/-- carry out a statement, inside the table opened last -/
def Item.apply : List String × Entries → Item → Option (List String × Entries)
  | (_, root), .table k => (root.openTable k).map (k.path, ·)
  | (_, root), .tables k => (root.openTables k).map (k.path, ·)
  | (current, root), .pair k value => (root.modifyAt (Entries.insert k.name value k.parents) current).map (current, ·)

/-- the value of a document, if its statements agree with one another -/
def ofItems? (items : List Item) : Option Toml :=
  (items.foldlM Item.apply ([], [])).map fun (_, root) => .table (entryValues root)

/-- the value of a table written on one line -/
def ofPairs? (pairs : List (Key × Toml)) : Option Toml :=
  (pairs.foldlM (fun es (pair : Key × Toml) => Entries.insert pair.1.name pair.2 pair.1.parents es) []).map fun es =>
    .table (entryValues es)

end C15.Toml

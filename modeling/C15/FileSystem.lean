/-
The file operations that projects need, and a disk in memory that provides them.

A disk is a tree of directories and files with a current directory. Names are looked up one after another: each but the
last has to be a directory, `..` leads to the directory above, and a slash at the end asks for a directory. Of several
reasons to fail the first one met is given. Making a directory makes those above it first, and these stay when it fails.

What is assumed of the operating system is what the disk does: there are no links and no permissions, space does not run
out, nothing else uses the disk meanwhile, and errors have the messages they have on Linux. Results about projects rest
on this.
-/
import C15.Path
import C15.Text.Lines

namespace C15

open C15.Text

/-- why a file operation fails -/
inductive FileError where
  | notFound
  | alreadyExists
  | notDirectory
  | isDirectory
  | nameTooLong
  | nulInName
  | notUtf8
  | other (message : String)
deriving DecidableEq, Repr

def FileError.message : FileError → String
  | .notFound => "No such file or directory (os error 2)"
  | .alreadyExists => "File exists (os error 17)"
  | .notDirectory => "Not a directory (os error 20)"
  | .isDirectory => "Is a directory (os error 21)"
  | .nameTooLong => "File name too long (os error 36)"
  | .nulInName => "file name contained an unexpected NUL byte"
  | .notUtf8 => "stream did not contain valid UTF-8"
  | .other message => message

/-- file operations in a monad -/
class FileSystem (m : Type → Type) where
  readText : Path → m (Except FileError String)
  /-- replace or make a file -/
  writeText : Path → String → m (Except FileError Unit)
  /-- make a directory and those above it -/
  makeDirs : Path → m (Except FileError Unit)
  isDirectory : Path → m Bool
  isFile : Path → m Bool

/-- there is something at a path -/
def FileSystem.isThere {m : Type → Type} [Monad m] [FileSystem m] (p : Path) : m Bool := do
  if ← FileSystem.isDirectory p then return true
  FileSystem.isFile p

/-! ## A disk in memory -/

inductive Entry where
  | directory
  | file (content : ByteArray)

def Entry.isDirectory : Entry → Bool
  | .directory => true
  | .file _ => false

/-- names from the root down -/
abbrev Place := List (List Char)

structure Disk where
  /-- what there is below the root, every place once -/
  entries : List (Place × Entry)
  /-- where relative paths start -/
  current : Place

namespace Disk

/-- an empty directory in a directory for temporary files -/
def empty : Disk :=
  let current : Place := ["tmp".toList, "work".toList]
  ⟨[(["tmp".toList], .directory), (current, .directory)], current⟩

/-- what is at a place -/
def get? (d : Disk) (place : Place) : Option Entry := if place = [] then some .directory else d.entries.lookup place

/-- put something at a place -/
def put (d : Disk) (place : Place) (e : Entry) : Disk :=
  { d with entries := d.entries.filter (·.1 != place) ++ [(place, e)] }

theorem get?_put_self (d : Disk) {place : Place} (h : place ≠ []) (e : Entry) :
    (d.put place e).get? place = some e := by
  have absent : (d.entries.filter (·.1 != place)).lookup place = none := by
    rw [List.lookup_eq_none_iff]
    intro q hq
    have hne := bne_iff_ne.1 (List.mem_filter.1 hq).2
    exact bne_iff_ne.2 (Ne.symm hne)
  simp [get?, put, h, List.lookup_append, absent]

/-- the longest name, in bytes -/
def maxName : Nat := 255

/-- the longest path, in bytes -/
def maxPath : Nat := 4095

/-- go from a place by one name -/
def enter (d : Disk) (place : Place) (name : List Char) : Except FileError Place :=
  match d.get? place with
  | none => .error .notFound
  | some (.file _) => .error .notDirectory
  | some .directory =>
    if Path.isMeaningless name then .ok place
    else if name = ['.', '.'] then .ok place.dropLast
    else if maxName < width name then .error .nameTooLong
    else .ok (place ++ [name])

/-- go from a place by several names; the last need not be there -/
def walk (d : Disk) : Place → List (List Char) → Except FileError Place
  | place, [] => .ok place
  | place, name :: rest => do d.walk (← d.enter place name) rest

/-- the place where a path starts, if it can be looked up at all -/
def start (d : Disk) (p : Path) : Except FileError Place :=
  if '\x00' ∈ p.chars then .error .nulInName
  else if p.chars.isEmpty then .error .notFound
  else if maxPath < width p.chars then .error .nameTooLong
  else .ok (if p.isAbsolute then [] else d.current)

/-- the place of a path and what is there -/
def locate (d : Disk) (p : Path) : Except FileError (Place × Entry) := do
  let place ← d.walk (← d.start p) p.names
  match d.get? place with
  | some e => return (place, e)
  | none => throw .notFound

def isDirectory (d : Disk) (p : Path) : Bool :=
  match d.locate p with
  | .ok (_, e) => e.isDirectory
  | .error _ => false

def isFile (d : Disk) (p : Path) : Bool :=
  match d.locate p with
  | .ok (_, e) => !e.isDirectory
  | .error _ => false

def readText (d : Disk) (p : Path) : Except FileError String := do
  match ← d.locate p with
  | (_, .directory) => throw .isDirectory
  | (_, .file content) =>
    match String.fromUTF8? content with
    | some text => return text
    | none => throw .notUtf8

/-- the directory above the last name of a path, and that name; slashes after it do not count -/
def locateParent (d : Disk) (p : Path) : Except FileError (Place × List Char) := do
  let names := (p.names.reverse.dropWhile (·.isEmpty)).reverse
  let place ← d.walk (← d.start p) names.dropLast
  return (← d.enter place [], names.getLast?.getD [])

/-- replace or make a file; a name with a slash after it means a directory -/
def write (d : Disk) (p : Path) (content : ByteArray) : Except FileError Disk := do
  let (place, name) ← d.locateParent p
  -- a parent that is not there is reported before the slash
  if p.chars.getLast? = some '/' then throw .isDirectory
  let target ← d.enter place name
  match d.get? target with
  | some .directory => throw .isDirectory
  | _ => return d.put target (.file content)

/-- make one directory -/
def makeDir (d : Disk) (p : Path) : Except FileError Disk := do
  let (place, name) ← d.locateParent p
  let target ← d.enter place name
  match d.get? target with
  | some _ => throw .alreadyExists
  | none => return d.put target .directory

/-- make a directory, given with all its parents; what was made stays on failure -/
def makeDirs (d : Disk) : List Path → Except FileError Unit × Disk
  | [] => (.ok (), d)
  | p :: parents =>
    if p.text.isEmpty then (.ok (), d)
    else
      match d.makeDir p with
      | .ok made => (.ok (), made)
      -- only a missing parent is made; any other failure is final unless the directory is there
      | .error .notFound =>
        match d.makeDirs parents with
        | (.error e, above) => (.error e, above)
        | (.ok (), above) =>
          match above.makeDir p with
          | .ok made => (.ok (), made)
          | .error e => (if above.isDirectory p then .ok () else .error e, above)
      | .error e => (if d.isDirectory p then .ok () else .error e, d)

instance : FileSystem (StateM Disk) where
  readText p := return (← get).readText p
  writeText p text := modifyGet fun d =>
    match d.write p text.toUTF8 with
    | .ok written => (.ok (), written)
    | .error e => (.error e, d)
  makeDirs p := modifyGet fun d => d.makeDirs p.ancestors
  isDirectory p := return (← get).isDirectory p
  isFile p := return (← get).isFile p

/-- what is below the current directory, by the names from there -/
def listing (d : Disk) : List (String × Entry) :=
  d.entries.filterMap fun (place, e) =>
    if d.current.isPrefixOf place && place != d.current then
      some ((Path.build [] (place.drop d.current.length)).text, e)
    else none

end Disk

end C15

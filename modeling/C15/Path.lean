/-
Paths as text: names with slashes between them.

A path that starts with a slash is absolute. Empty names and names `.` mean nothing, but for a single point at the very
start, and are never removed by joining: joining puts texts together, and an absolute path replaces what it is joined
to. Parents are taken from the end, where names without meaning are passed over.
-/
import C15.Text.Blank

namespace C15

open C15.Text

structure Path where
  text : String
deriving DecidableEq, Repr, Inhabited

namespace Path

def chars (p : Path) : List Char := p.text.toList

def isAbsolute (p : Path) : Bool := p.chars.head? == some '/'

def join (p q : Path) : Path :=
  if q.isAbsolute then q
  else if p.text.isEmpty || p.chars.getLast? == some '/' then ⟨p.text ++ q.text⟩
  else ⟨p.text ++ "/" ++ q.text⟩

/-- names between slashes, those without meaning included -/
def names (p : Path) : List (List Char) := pieces (· == '/') p.chars

/-- the start that is no name: a slash, or a point alone before a slash or the end -/
def lead (p : Path) : List Char :=
  match p.chars with
  | '/' :: _ => ['/']
  | ['.'] | '.' :: '/' :: _ => ['.']
  | _ => []

def isMeaningless (name : List Char) : Bool := name == [] || name == ['.']

/-- the names after the start, up to the last one with a meaning -/
def body (p : Path) : List (List Char) :=
  dropMeaningless (pieces (· == '/') (p.chars.drop p.lead.length))
where
  dropMeaningless (names : List (List Char)) : List (List Char) :=
    (names.reverse.dropWhile isMeaningless).reverse

/-- a path from its start and its names -/
def build (lead : List Char) (names : List (List Char)) : Path :=
  ⟨String.ofList (lead ++ (names.intersperse ['/']).flatten)⟩

/-- the path without its last name; the root and the empty path have none -/
def parent (p : Path) : Option Path :=
  match p.body with
  | [] => if p.lead = ['.'] then some ⟨""⟩ else none
  | names => some (build p.lead (body.dropMeaningless names.dropLast))

/-- at most so many paths: this one, its parent, and so on -/
def ancestorsWithin : Nat → Path → List Path
  | 0, p => [p]
  | n + 1, p => p :: p.parent.elim [] (ancestorsWithin n)

/-- the path and all its parents; a parent has a shorter text -/
def ancestors (p : Path) : List Path := ancestorsWithin p.chars.length p

/-- the last name, unless it leads upwards -/
def fileName (p : Path) : Option (List Char) :=
  match p.body.getLast? with
  | some name => if name = ['.', '.'] then none else some name
  | none => none

/-- a name cut at its last point, if something stands before it -/
def splitExtension (name : List Char) : List Char × Option (List Char) :=
  let after := (name.reverse.takeWhile (· != '.')).reverse
  let before := (name.take (name.length - after.length)).dropLast
  if before.isEmpty then (name, none) else (before, some after)

/-- the last name without its extension -/
def fileStem (p : Path) : Option String := p.fileName.map fun name => String.ofList (splitExtension name).1

/-- what follows the last point of the last name -/
def extension (p : Path) : Option String :=
  p.fileName.bind fun name => (splitExtension name).2.map String.ofList

/-- the path up to its extension: the point before it stays -/
def beforeExtension (p : Path) : Path :=
  match p.fileName.map splitExtension with
  | some (stem, some _) => build p.lead (p.body.dropLast ++ [stem ++ ['.']])
  | _ => p

/-- the path with an extension after the stem of its last name; what follows that name is dropped -/
def setExtension (p : Path) (ext : String) : Path :=
  match p.fileName with
  | none => p
  | some name => build p.lead (p.body.dropLast ++ [(splitExtension name).1 ++ '.' :: ext.toList])

/-- the path with another extension. The old one goes first: where this leaves two points, the path leads upwards and
has no name that could take the new one. -/
def withExtension (p : Path) (ext : String) : Path := p.beforeExtension.setExtension ext

end Path

end C15

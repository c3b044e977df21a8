/-
Projects: a directory with a manifest, and files compiled on their own.
-/
import C15.Build
import C15.FileSystem
import C15.Manifest

namespace C15

/-- why a manifest is not to be had -/
inductive ManifestError where
  | unreadable (path : Path) (e : FileError)
  | invalid
deriving DecidableEq, Repr

/-- a file that cannot be read -/
def unreadableMessage (path : Path) (e : FileError) : String := s!"failed to read {path.text}: {e.message}"

def ManifestError.message : ManifestError → String
  | .unreadable path e => unreadableMessage path e
  | .invalid => "invalid manifest: not TOML, or a field is missing or of another kind"

namespace Manifest

/-- name of the file that makes a directory a project -/
def fileName : Path := ⟨"c15.toml"⟩

def entryPath (m : Manifest) (root : Path) : Path := root.join ⟨m.entry⟩

def outPath (m : Manifest) (root : Path) : Path := root.join ⟨m.outDir⟩

end Manifest

namespace Project

variable {m : Type → Type} [Monad m] [FileSystem m]

/-- read a manifest -/
def loadManifest (path : Path) : m (Except ManifestError Manifest) := do
  match ← FileSystem.readText path with
  | .error e => return .error (.unreadable path e)
  | .ok text =>
    match Manifest.parse? text with
    | some manifest => return .ok manifest
    | none => return .error .invalid

/-- the nearest of a path and its parents that holds a manifest -/
def findRoot (path : Path) : m (Option Path) :=
  path.ancestors.findM? fun p => FileSystem.isFile (p.join Manifest.fileName)

/-- compile a file -/
def compileFile (path : Path) : m (Except (List Diagnostic) Generated) := do
  match ← FileSystem.readText path with
  | .error e => return .error [.errorOf (unreadableMessage path e)]
  | .ok source => return (compile source).mapError fun e => [e.toDiagnostic]

/-- build a file -/
def buildFile (path : Path) (limit : Nat) : m (Except BuildFailure Build) := do
  match ← FileSystem.readText path with
  | .error e => return .error ⟨[.errorOf (unreadableMessage path e)], none⟩
  | .ok source => return build source limit

end Project

end C15

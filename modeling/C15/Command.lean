/-
The commands: make a new project, compile a source, assemble a text, build a project or a source, check a file.

A command writes to two streams and may fail, after which one more line says why and it ends with 1. What it wrote to
the streams and the disk before stays.
-/
import C15.Image.Document
import C15.Project

namespace C15

inductive Command where
  | new (name : String)
  | compile (path : Path) (output : Option Path)
  | assemble (path : Path) (output : Option Path) (memoryLimit : UInt32)
  | build (path : Path)
  | check (path : Path)
deriving DecidableEq, Repr

/-- why a command fails -/
inductive CommandError where
  | directoryExists (path : Path)
  | invalidName (path : Path)
  | file (e : FileError)
  | unreadable (path : Path) (e : FileError)
  | unwritable (path : Path) (e : FileError)
  | noManifest (path : Path)
  | manifest (e : ManifestError)
  | notBuildable
  | compilationFailed
  | assemblyFailed
  | buildFailed
  | checkFailed
deriving DecidableEq, Repr

def CommandError.message : CommandError → String
  | .directoryExists path => s!"Directory already exists: {path.text}"
  | .invalidName path => s!"Invalid project name: {path.text}"
  | .file e => e.message
  | .unreadable path e => unreadableMessage path e
  | .unwritable path e => s!"failed to write {path.text}: {e.message}"
  | .noManifest path => s!"No {Manifest.fileName.text} found in {path.text}"
  | .manifest e => e.message
  | .notBuildable => "Expected a .c15s file or a project directory"
  | .compilationFailed => "Compilation failed"
  | .assemblyFailed => "Assembly failed"
  | .buildFailed => "Build failed"
  | .checkFailed => "Check failed"

/-- what a command wrote to the two streams -/
structure Streams where
  out : String
  err : String
deriving DecidableEq, Repr

/-- a command at work -/
abbrev Action (m : Type → Type) (α : Type) := ExceptT CommandError (StateT Streams m) α

namespace Action

variable {m : Type → Type} [Monad m] [FileSystem m]

def print (text : String) : Action m Unit := modify fun s => { s with out := s.out ++ text }

def printError (text : String) : Action m Unit := modify fun s => { s with err := s.err ++ text }

/-- show diagnostics with the lines they are about -/
def report (path : Path) (source : String) (assembly : Option String) (ds : List Diagnostic) : Action m Unit :=
  (Diagnostic.renderAll path.text source assembly ds).forM fun text => printError (text ++ "\n")

/-- do something that is no command itself -/
def perform {α : Type} (operation : m α) : Action m α := liftM operation

/-- a file operation that may fail -/
def attempt {α : Type} (cause : FileError → CommandError) (operation : m (Except FileError α)) : Action m α := do
  match ← perform operation with
  | .ok a => return a
  | .error e => throw (cause e)

def load (path : Path) : Action m String := attempt (.unreadable path) (FileSystem.readText path)

/-- write a file, in a directory that is made if need be -/
def store (path : Path) (text : String) : Action m Unit := do
  if let some parent := path.parent then
    -- a bare name lies in the current directory, which need not be made
    unless parent.text.isEmpty do attempt .file (FileSystem.makeDirs parent)
  attempt (.unwritable path) (FileSystem.writeText path text)

def loadManifest (path : Path) : Action m Manifest := do
  match ← perform (Project.loadManifest path) with
  | .ok manifest => return manifest
  | .error e => throw (.manifest e)

end Action

namespace Command

open C15.Action

variable {m : Type → Type} [Monad m] [FileSystem m]

/-- the source of a new project:
```
// Count up on the LEDs.
void main() {
    uint count = 0u;
    while (count < 16u) {
        _setled(count);
        count++;
    }
}
``` -/
def sourceTemplate : String :=
  "// Count up on the LEDs.\nvoid main() \x7b\n    uint count = 0u;\n    while (count < 16u) \x7b\n" ++
    "        _setled(count);\n        count++;\n    \x7d\n\x7d\n"

/-- make the directory of a new project with a manifest and a source -/
def createProject (dir : Path) : Action m Unit := do
  if ← perform (FileSystem.isThere dir) then throw (.directoryExists dir)
  match dir.fileName with
  | none => throw (.invalidName dir)
  | some name =>
    attempt .file (FileSystem.makeDirs dir)
    attempt .file (FileSystem.writeText (dir.join Manifest.fileName) (Manifest.template (String.ofList name)))
    attempt .file (FileSystem.writeText (dir.join ⟨"main.c15s"⟩) sourceTemplate)

def runNew (name : String) : Action m Unit := do
  createProject ⟨name⟩
  print s!"Created project {name}\n"

def runCompile (path : Path) (output : Option Path) : Action m Unit := do
  let source ← load path
  match C15.compile source with
  | .error e =>
    report path source none [e.toDiagnostic]
    throw .compilationFailed
  | .ok g =>
    report path source none g.warnings
    match output with
    | some out =>
      store out g.assembly
      print s!"Wrote {out.text}\n"
    | none => print g.assembly

/-- write an image and say how large it is -/
def writeImage (out : Path) (a : Assembled) : Action m Unit := do
  store out a.image.print
  print s!"Wrote {out.text} ({a.usage.total} / {a.usage.limit} words)\n"

def runAssemble (path : Path) (output : Option Path) (limit : Nat) : Action m Unit := do
  let text ← load path
  match C15.assemble text limit with
  | .error ds =>
    report path text (some text) ds
    throw .assemblyFailed
  | .ok a =>
    report path text (some text) a.warnings
    writeImage (output.getD (path.withExtension "json")) a

/-- what is built, and where it is put -/
structure Plan where
  entry : Path
  outDir : Path
  name : String
  emitAssembly : Bool
  limit : Nat
deriving DecidableEq, Repr

/-- a directory is built by its manifest. A source is built by the manifest of the nearest directory above that has one,
else by the defaults, beside itself. -/
def planBuild (path : Path) : Action m Plan := do
  if ← perform (FileSystem.isDirectory path) then
    let manifestPath := path.join Manifest.fileName
    unless ← perform (FileSystem.isFile manifestPath) do throw (.noManifest path)
    let manifest ← loadManifest manifestPath
    return ⟨manifest.entryPath path, manifest.outPath path, manifest.name, manifest.emitAssembly,
      manifest.memoryLimit.toNat⟩
  unless path.extension == some "c15s" do throw .notBuildable
  let name := path.fileStem.getD "main"
  match ← perform (Project.findRoot path) with
  | some root =>
    let manifest ← loadManifest (root.join Manifest.fileName)
    return ⟨path, manifest.outPath root, name, manifest.emitAssembly, manifest.memoryLimit.toNat⟩
  | none => return ⟨path, (path.parent.getD ⟨"."⟩).join ⟨"dist"⟩, name, true, defaultMemoryLimit⟩

def runBuild (path : Path) : Action m Unit := do
  let plan ← planBuild path
  let source ← load plan.entry
  match C15.build source plan.limit with
  | .error f =>
    report plan.entry source f.assembly f.diagnostics
    throw .buildFailed
  | .ok b =>
    let assembly := b.generated.assembly
    report plan.entry source (some assembly) b.warnings
    if plan.emitAssembly then store (plan.outDir.join ⟨plan.name ++ ".c15"⟩) assembly
    writeImage (plan.outDir.join ⟨plan.name ++ ".json"⟩) b.assembled

/-- check a text of assembly -/
def checkAssembly (path : Path) (text : String) : Action m Unit := do
  match C15.assemble text defaultMemoryLimit with
  | .error ds =>
    report path text (some text) ds
    throw .checkFailed
  | .ok a => report path text (some text) a.warnings

/-- words of the CPU a source is checked for: those of its manifest if it is a good one, else the default -/
def checkLimit (path : Path) : Action m Nat := do
  match ← perform (Project.findRoot path) with
  | none => return defaultMemoryLimit
  | some root =>
    match ← perform (Project.loadManifest (root.join Manifest.fileName)) with
    | .ok manifest => return manifest.memoryLimit.toNat
    -- unlike a build, a check goes on without its manifest
    | .error _ => return defaultMemoryLimit

/-- check a source -/
def checkSource (path : Path) (source : String) : Action m Unit := do
  match C15.build source (← checkLimit path) with
  | .error f =>
    report path source f.assembly f.diagnostics
    throw .checkFailed
  | .ok b => report path source (some b.generated.assembly) b.warnings

def runCheck (path : Path) : Action m Unit := do
  let text ← load path
  if path.extension == some "c15" then checkAssembly path text else checkSource path text
  print s!"{path.text}: ok\n"

def action : Command → Action m Unit
  | .new name => runNew name
  | .compile path output => runCompile path output
  | .assemble path output limit => runAssemble path output limit.toNat
  | .build path => runBuild path
  | .check path => runCheck path

/-- what a finished command wrote, and its exit code -/
structure Outcome where
  streams : Streams
  code : Nat
deriving DecidableEq, Repr

/-- run a command -/
def run (c : Command) : m Outcome := do
  match ← (c.action : Action m Unit).run.run ⟨"", ""⟩ with
  | (.ok (), streams) => return ⟨streams, 0⟩
  | (.error e, streams) => return ⟨{ streams with err := streams.err ++ s!"error: {e.message}\n" }, 1⟩

end Command

end C15

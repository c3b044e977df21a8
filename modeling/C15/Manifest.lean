/-
The manifest of a project: its name and version, what to build and where to put it, and how many words the CPU holds.

Only the package has to be there; other sections and fields have defaults, and what a manifest does not know is passed
over.
-/
import C15.Toml.Reader

namespace C15

structure Manifest where
  name : String
  version : String
  /-- the source to build, relative to the root of the project -/
  entry : String
  /-- the directory of what is built, relative to the root of the project -/
  outDir : String
  /-- whether the assembly is written beside the image -/
  emitAssembly : Bool
  /-- words of code and data together -/
  memoryLimit : UInt32
deriving DecidableEq, Repr

namespace Manifest

/-- a field that is read if it is given -/
def field {α : Type} (read : Toml → Option α) (default : α) : Option Toml → Option α
  | none => some default
  | some x => read x

/-- a section that is left out has no fields -/
def fieldsOr (names : List String) (x : Option Toml) : Option (List (Option Toml)) :=
  (x.getD (.table [])).fields? names

/-- the manifest that a table denotes -/
def ofToml? (x : Toml) : Option Manifest :=
  match x.fields? ["package", "build", "target"] with
  | some [some package, build, target] =>
    match package.fields? ["name", "version"], fieldsOr ["entry", "out_dir", "emit_asm"] build,
      fieldsOr ["memory_limit"] target with
    | some [some name, some version], some [entry, outDir, emitAssembly], some [memoryLimit] => do
      return {
        name := ← name.string?
        version := ← version.string?
        entry := ← field Toml.string? "main.c15s" entry
        outDir := ← field Toml.string? "dist" outDir
        emitAssembly := ← field Toml.boolean? true emitAssembly
        memoryLimit := ← field Toml.word? 500 memoryLimit }
    | _, _, _ => none
  | _ => none

/-- the manifest that a text spells -/
def parse? (text : String) : Option Manifest := (Toml.parse? text).bind ofToml?

/-- the text of a new project's manifest; the name is put in as it is -/
def template (name : String) : String :=
  s!"[package]\nname = \"{name}\"\nversion = \"0.1.0\"\n\n[build]\nentry = \"main.c15s\"\nout_dir = \"dist\"\n" ++
    "emit_asm = true\n\n[target]\nmemory_limit = 500\n"

end Manifest

end C15

/-
The command on the real file system.
-/
import C15.CommandLine

namespace C15.Main

/-- an error of the operating system -/
def fileError : IO.Error → FileError
  | .noFileOrDirectory .. => .notFound
  | .alreadyExists .. => .alreadyExists
  | .inappropriateType .. => .notDirectory
  | e => .other (toString e)

def attempt {α : Type} (operation : IO α) : IO (Except FileError α) := do
  match ← operation.toBaseIO with
  | .ok a => return .ok a
  | .error e => return .error (fileError e)

/-- a directory can be opened, but not read from -/
def isDirectory (p : Path) : IO Bool := do
  match ← attempt (IO.FS.Handle.mk p.text .read) with
  | .error _ => return false
  | .ok handle => return !(← attempt (handle.read 1)).isOk

instance : FileSystem IO where
  readText p := do
    if ← isDirectory p then return .error .isDirectory
    match ← attempt (IO.FS.readBinFile p.text) with
    | .error e => return .error e
    | .ok content =>
      match String.fromUTF8? content with
      | some text => return .ok text
      | none => return .error .notUtf8
  writeText p text := do
    if ← isDirectory p then return .error .isDirectory
    attempt (IO.FS.writeFile p.text text)
  makeDirs p := attempt (IO.FS.createDirAll p.text)
  isDirectory p := isDirectory p
  isFile p := do
    if ← isDirectory p then return false
    return (← attempt (IO.FS.Handle.mk p.text .read)).isOk

end C15.Main

def main (words : List String) : IO UInt32 := do
  let outcome ← C15.CommandLine.run words
  IO.print outcome.streams.out
  IO.eprint outcome.streams.err
  return UInt32.ofNat outcome.code

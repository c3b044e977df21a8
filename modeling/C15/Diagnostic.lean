/-
Diagnostics: an error or a warning, with the place it is about if it has one, and two ways to show it: on one line, or
with the source line and a row of carets under the place.
-/
import C15.Position
import C15.Span

namespace C15

open C15.Text

inductive Level where
  | error
  | warning
deriving DecidableEq, Repr

def Level.text : Level → String
  | .error => "error"
  | .warning => "warning"

structure Diagnostic where
  level : Level
  message : String
  location : Option Location
deriving DecidableEq, Repr

namespace Diagnostic

/-- an error at a span of a text -/
def errorAt (file : FileId) (span : Span) (message : String) : Diagnostic := ⟨.error, message, some ⟨file, span⟩⟩

/-- a warning at a span of a text -/
def warningAt (file : FileId) (span : Span) (message : String) : Diagnostic := ⟨.warning, message, some ⟨file, span⟩⟩

/-- an error about no place in particular -/
def errorOf (message : String) : Diagnostic := ⟨.error, message, none⟩

def isError (d : Diagnostic) : Bool := d.level == .error

/-- the diagnostic on one line -/
def text (d : Diagnostic) : String :=
  match d.location with
  | some l => s!"{d.level.text} at {l.span.text}: {d.message}"
  | none => s!"{d.level.text}: {d.message}"

/-- carets under columns `p` to `q` of a line, one caret when they do not lie on it in this order -/
def underline (line : List Char) (p q : Position) : String :=
  let carets := if q.line = p.line ∧ p.column < q.column ∧ q.column ≤ width line + 1 then q.column - p.column else 1
  String.ofList (List.replicate (p.column - 1) ' ' ++ List.replicate carets '^')

/-- the diagnostic with the line of `content` it points at -/
def render (content : List Char) (name : String) (d : Diagnostic) : String :=
  match d.location with
  | none => s!"{name}: {d.level.text}: {d.message}"
  | some l =>
    let p := Position.ofOffset content l.span.start
    let q := Position.ofOffset content l.span.stop
    let line := lineAt content p.line
    let under := underline line p q
    s!"{name}:{p.line}:{p.column}: {d.level.text}: {d.message}\n  {p.line} | {String.ofList line}\n  {p.line} | {under}"

/-- render each diagnostic against the text it is about: those located in the assembly against `assembly`, when there is
one, the others against `source` -/
def renderAll (name : String) (source : String) (assembly : Option String) (ds : List Diagnostic) : List String :=
  ds.map fun d =>
    match assembly with
    | some text =>
      if d.location.map (·.file) = some .assembly then render text.toList s!"{name} (assembly)" d
      else render source.toList name d
    | none => render source.toList name d

end Diagnostic

end C15

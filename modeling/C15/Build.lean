/-
Building: compile a source, then assemble what it was compiled to.
-/
import C15.Compilation
import C15.Image

namespace C15

structure Build where
  generated : Generated
  assembled : Assembled

/-- warnings of the compiler, then of the assembler -/
def Build.warnings (b : Build) : List Diagnostic := b.generated.warnings ++ b.assembled.warnings

/-- why a build gave nothing; the assembly is there if compiling went well -/
structure BuildFailure where
  diagnostics : List Diagnostic
  assembly : Option String

/-- build a source for a CPU of so many words -/
def build (source : String) (limit : Nat) : Except BuildFailure Build :=
  match compile source with
  | .error e => .error ⟨[e.toDiagnostic], none⟩
  | .ok g =>
    match assemble g.assembly limit with
    | .ok a => .ok ⟨g, a⟩
    | .error ds => .error ⟨g.warnings ++ ds, some g.assembly⟩

end C15

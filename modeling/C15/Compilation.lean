/-
Compiling a source: tokens, program, facts, assembly. The first failure of any of the four ends it.
-/
import C15.Codegen
import C15.Program.Parser
import C15.Token.Lexer

namespace C15

/-- the first failure of a compilation, by the stage that found it -/
inductive CompileError where
  | lexical (e : Located LexicalCause)
  | grammar (e : Located GrammarCause)
  | typing (e : TypeError)
  | codegen (e : CodegenError)
deriving DecidableEq, Repr

namespace CompileError

/-- the stage as it is named in messages -/
def stage : CompileError → String
  | .lexical _ => "lexical"
  | .grammar _ => "syntax"
  | .typing _ => "type"
  | .codegen _ => "codegen"

def message : CompileError → String
  | .lexical e => e.value.message
  | .grammar e => e.value.message
  | .typing e => e.value.message
  | .codegen e => e.value.message

def span : CompileError → Span
  | .lexical e => e.span
  | .grammar e => e.span
  | .typing e => e.span
  | .codegen e => e.span

def text (e : CompileError) : String := s!"{e.stage} error at {e.span.text}: {e.message}"

def toDiagnostic (e : CompileError) : Diagnostic := .errorAt .source e.span e.message

end CompileError

/-- the assembly text of generated code -/
def Generated.assembly (g : Generated) : String := Line.print g.lines

/-- words of the generated code once assembled -/
def Generated.wordCount (g : Generated) : Nat := (g.lines.map Line.wordCount).foldr (· + ·) 0

namespace Compile

def tokens (source : String) : Except CompileError (List Token) := (Lexer.tokenize source).mapError .lexical

def parse (ts : List Token) : Except CompileError Program := (Program.parse ts).mapError .grammar

def check (p : Program) : Except CompileError TypeInfo := p.check.mapError .typing

def generate (p : Program) (info : TypeInfo) : Except CompileError Generated := (p.generate info).mapError .codegen

end Compile

/-- compile a source -/
def compile (source : String) : Except CompileError Generated := do
  let p ← Compile.parse (← Compile.tokens source)
  Compile.generate p (← Compile.check p)

end C15

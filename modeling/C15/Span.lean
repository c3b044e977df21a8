/-
Spans: half-open ranges of byte offsets in one text, and the text they lie in.
-/
namespace C15

/-- bytes `start` up to, not including, `stop`; offsets of 32 bits are the same in texts of less than `2 ^ 32` bytes -/
structure Span where
  start : Nat
  stop : Nat
deriving DecidableEq, Repr, Inhabited

namespace Span

/-- the smallest span that covers both -/
def merge (a b : Span) : Span := ⟨min a.start b.start, max a.stop b.stop⟩

/-- bytes covered; none when the ends are crossed -/
def size (s : Span) : Nat := s.stop - s.start

def isEmpty (s : Span) : Bool := s.size == 0

def text (s : Span) : String := s!"{s.start}..{s.stop}"

end Span

/-- something found at a span -/
structure Located (α : Type) where
  value : α
  span : Span
deriving DecidableEq, Repr

/-- which text a span lies in -/
structure FileId where
  index : Nat
deriving DecidableEq, Repr

namespace FileId

/-- the source being compiled -/
def source : FileId := ⟨0⟩

/-- the assembly produced from it -/
def assembly : FileId := ⟨1⟩

end FileId

/-- a span in a text -/
structure Location where
  file : FileId
  span : Span
deriving DecidableEq, Repr

end C15

/-!
Source spans. Lines and columns count from 1; a vertex made without a source has the zero span.
-/

namespace ApexPaths

/-- A stretch of source text from its first character to just after its last one. -/
structure Span where
  startLine : Nat := 0
  startColumn : Nat := 0
  endLine : Nat := 0
  endColumn : Nat := 0
  deriving DecidableEq, Repr, Inhabited

def Span.zero : Span := {}

end ApexPaths

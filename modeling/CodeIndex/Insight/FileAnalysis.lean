import CodeIndex.Insight.DesignPattern
import CodeIndex.Insight.Metrics
import CodeIndex.Insight.Relation

/-!
# The analysis of a file

A description with what follows from it: design patterns, metrics and the edges of the file.
-/

namespace CodeIndex

/-- Everything derived from the description of a file. -/
structure FileAnalysis where
  description : Description
  patterns : List DesignPattern
  metrics : CodeMetrics
  relations : List Relation
  deriving Repr, Inhabited

/-- The analysis of a file with a path, a text and its description. -/
def FileAnalysis.of (path : String) (t : Text) (d : Description) : FileAnalysis :=
  ⟨d, detectPatterns d, .of d t.lines.length, relationsOf path d⟩

end CodeIndex

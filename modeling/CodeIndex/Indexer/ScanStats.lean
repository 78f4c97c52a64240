/-!
# Scan statistics

How many files a scan has seen and what became of them. The first hundred errors are kept.
-/

namespace CodeIndex

/-- The counts of a scan. -/
structure ScanStats where
  scanned : Nat := 0
  indexed : Nat := 0
  cached : Nat := 0
  skipped : Nat := 0
  failed : Nat := 0
  errors : List (String × String) := []
  deriving DecidableEq, Repr, Inhabited

namespace ScanStats

/-- The largest number of errors kept. -/
def maxErrors : Nat := 100

/-- Counts a file that failed, with its error. -/
def addError (s : ScanStats) (path error : String) : ScanStats :=
  { s with
    errors := if s.errors.length < maxErrors then s.errors ++ [(path, error)] else s.errors
    failed := s.failed + 1 }

/-- The files dealt with so far. -/
def processed (s : ScanStats) : Nat :=
  s.indexed + s.cached + s.skipped + s.failed

end ScanStats

end CodeIndex

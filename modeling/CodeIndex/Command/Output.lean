import CodeIndex.Decimal.Fixed
import CodeIndex.Indexer.ScanStats
import CodeIndex.Json.Printer

/-!
# Output

What a command prints: lines, a document, or the report of a scan. The report also tells how long the scan
took, which is only known behind it.
-/

namespace CodeIndex

/-- What a command prints. -/
inductive Output where
  | lines (list : List String)
  | document (v : Json)
  | report (s : ScanStats)

/-- The number of errors that a report shows. -/
def shownErrors : Nat := 5

/-- The lines of a report on errors. -/
def errorLines (errors : List (String × String)) : List String :=
  if errors.isEmpty then []
  else
    ["", "Errors (showing first " ++ toString (min errors.length shownErrors) ++ "):"]
      ++ (errors.take shownErrors).map (fun (path, e) => "  " ++ path ++ ": " ++ e)
      ++ if shownErrors < errors.length then
          ["  ... and " ++ toString (errors.length - shownErrors) ++ " more errors"]
        else []

/-- The lines of the report of a scan that took some seconds. -/
def ScanStats.report (s : ScanStats) (seconds : Float) : List String :=
  ["", "Indexing Complete:",
    "  Files scanned: " ++ toString s.scanned,
    "  Files indexed: " ++ toString s.indexed,
    "  Files cached: " ++ toString s.cached,
    "  Files skipped: " ++ toString s.skipped,
    "  Files failed: " ++ toString s.failed,
    "  Time elapsed: " ++ fixedPlaces 2 seconds ++ "s"]
    ++ (if s.indexed > 0 && seconds > 0.0 then
        ["  Performance: " ++ fixedPlaces 0 (s.indexed.toFloat / seconds) ++ " files/second"]
      else [])
    ++ errorLines s.errors

/-- The lines of an output, of a command that took some seconds. -/
def Output.toLines (seconds : Float) : Output → List String
  | .lines list => list
  | .document v => [v.pretty 0]
  | .report s => s.report seconds

end CodeIndex

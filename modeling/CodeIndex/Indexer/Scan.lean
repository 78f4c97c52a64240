import CodeIndex.Indexer.Basic
import CodeIndex.Indexer.ScanStats
import CodeIndex.Watch.Event

/-!
# Scanning directories

The files of a walk are taken in batches. The files of a batch are prepared against the store as it is
before the batch, and their entries are written afterwards in order. Whether to go on is asked before
each batch, and the progress is told behind each.
-/

namespace CodeIndex

/-! ### Preparing files -/

/-- What became of a file before anything is written. -/
inductive Prepared where
  | entry (e : FileEntry)
  | cached
  | unsupported
  | failed (reason : String)
  deriving Repr

/-- The reason for leaving out a file whose structure cannot be extracted. -/
def extractionFailure (p : Path) (language : Language) (e : FileEntry) : String :=
  (IndexError.extraction p.toString language.displayName (e.metadata.summary.error.getD "")).message

/-- Prepares a text as the content of a file. -/
def Indexer.prepareText (x : Indexer) (s : Store) (p : Path) (language : Language) (t : Text) :
    Prepared :=
  let key := x.keyOf p
  match s.contentHash key with
  | .error e => .failed e.message
  | .ok stored =>
    if stored = some (CodeIndex.contentHash t) then .cached
    else
      let e := x.entryOf key language t
      if e.analysis.isNone then .failed (extractionFailure p language e) else .entry e

/-- Prepares the file at a path. -/
def Indexer.prepare (x : Indexer) (root : Tree) (s : Store) (p : Path) : Prepared :=
  match Language.ofPath? p with
  | none => .unsupported
  | some language =>
    match root.textAt p with
    | .error e => .failed ("Failed to read file: " ++ e.message)
    | .ok t => x.prepareText s p language t

/-! ### Batches -/

/-- The batches of a list, each but the last of `size` items (`fuel` bounds their number). -/
def batches {α : Type} (size : Nat) : (fuel : Nat) → List α → List (List α)
  | 0, _ => []
  | fuel + 1, list =>
    if list.isEmpty then []
    else list.take size :: batches size fuel (list.drop size)

/-- Writes what was prepared and counts it; a store that fails ends this. -/
def settle (now : String) : List (Path × Prepared) → ScanStats → StoreAction ScanStats
  | [], stats, s => (.ok stats, s)
  | (p, outcome) :: rest, stats, s =>
    match outcome with
    | .cached => settle now rest { stats with cached := stats.cached + 1 } s
    | .unsupported => settle now rest { stats with skipped := stats.skipped + 1 } s
    | .failed reason => settle now rest (stats.addError p.toString reason) s
    | .entry e =>
      match persist now e s with
      | (.error error, s) => (.error error, s)
      | (.ok (), s) => settle now rest { stats with indexed := stats.indexed + 1 } s

/-- The progress of a scan: files dealt with, and all files. -/
abbrev ScanProgress := Nat × Nat

/-- Takes batch after batch. `isCancelled` is asked with the number of batches done; the progress behind
each batch is given too. -/
def Indexer.scanBatches (x : Indexer) (now : String) (root : Tree) (isCancelled : Nat → Bool) :
    (done : Nat) → List (List Path) → ScanStats → Store →
      Except IndexError ScanStats × List ScanProgress × Store
  | _, [], stats, s => (.ok stats, [], s)
  | done, batch :: rest, stats, s =>
    if isCancelled done then (.error (.cancelled stats.processed stats.scanned), [], s)
    else
      let prepared := batch.map fun p => (p, x.prepare root s p)
      match settle now prepared stats s with
      | (.error e, s) => (.error e, [], s)
      | (.ok stats, s) =>
        let (result, progress, s) := scanBatches x now root isCancelled (done + 1) rest stats s
        (result, (stats.processed, stats.scanned) :: progress, s)

def Indexer.scanFiles (x : Indexer) (now : String) (root : Tree) (isCancelled : Nat → Bool)
    (files : List Path) (s : Store) : Except IndexError ScanStats × List ScanProgress × Store :=
  let size := max x.settings.indexing.batchSize 1
  x.scanBatches now root isCancelled 0 (batches size files.length files)
    { scanned := files.length } s

/-- Scans the directory at a path. -/
def Indexer.scan (x : Indexer) (now : String) (root : Tree) (isCancelled : Nat → Bool) (p : Path)
    (s : Store) : Except IndexError ScanStats × List ScanProgress × Store :=
  x.scanFiles now root isCancelled (root.walk x.settings.walkOptions p) s

/-! ### Changes -/

/-- Reacts to a change of a file: a changed or deleted file is forgotten, and a created one waits for its
first use. Tells whether anything was removed. -/
def Indexer.handleEvent (x : Indexer) (e : FileEvent) : StoreAction Bool := fun s =>
  match e.kind with
  | .created => (.ok false, s)
  | _ => x.forget e.path s

end CodeIndex

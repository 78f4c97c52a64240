import CodeIndex.Command.Run
import CodeIndex.Store.File
import CodeIndex.Time.Instant

/-!
# The program

Reads the files, variables and the clock that a command line needs, runs it, prints what it says, and
writes the files that it has changed. All else is decided by `runWords`.
-/

namespace CodeIndex

/-! ### Reading -/

/-- How deep directories are read. -/
def readingDepth : Nat := 64

/-- The tree of a path; what cannot be read is an empty directory (`depth` bounds how far it is read). -/
def readTree : (depth : Nat) → (p : String) → IO Tree
  | 0, _ => return .empty
  | depth + 1, p => do
    let place ← IO.FS.realPath p
    if ← place.isDir then
      let entries ← try place.readDir catch _ => pure #[]
      let read ← entries.toList.mapM fun e => do
        return (e.fileName.toList, ← readTree depth (p ++ "/" ++ e.fileName))
      return .directory read
    else
      try return .file (.ofBytes (← IO.FS.readBinFile p).toList)
      catch _ => return .file (.bytes [])

/-- The names of an absolute path. -/
def namesOf (p : Path) : List Text :=
  p.components.filterMap fun
    | .name n => some n
    | _ => none

/-- A tree with what is found at a path, if anything is there. -/
def withPath (t : Tree) (p : Path) : IO Tree := do
  try
    let place ← IO.FS.realPath p.toString
    if ← place.pathExists then
      return t.put (namesOf p) (← readTree readingDepth p.toString)
    else return t
  catch _ => return t

/-- The paths that a command line may look at: the settings and ignore files of the directories above,
the current directory, and what its words name. -/
def pathsToRead (directory : Path) (words : List Text) : List Path :=
  let names := [settingsDirectory, ".gitignore", ".ignore", ".codesenseignore"]
  let above := directory.upwards.flatMap fun d => names.map fun n => d.join (.ofString n)
  let named := (words.filter (!·.isEmpty)).map fun w => (Path.mk w).absolute directory
  above ++ named ++ [directory]

/-- The variables that are set. -/
def readVariables : IO (List Variable) := do
  let found ← Settings.variableNames.mapM fun name => do
    return (← IO.getEnv name).map fun v => (⟨name.toList, v.toList⟩ : Variable)
  return found.filterMap id

def readProcessors : IO Nat := do
  try
    let t ← IO.FS.readFile "/proc/cpuinfo"
    return max 1 ((Text.lines t.toList).filter (·.startsWith "processor".toList)).length
  catch _ => return 1

/-- The current time, which a file made now bears. -/
def readClock : IO Instant := do
  let (_, p) ← IO.FS.createTempFile
  let stamp := (← p.metadata).modified
  IO.FS.removeFile p
  return ⟨stamp.sec, stamp.nsec.toNat⟩

/-! ### Writing -/

/-- Writes the file of a tree at a path. -/
def writePath (t : Tree) (p : Path) : IO Unit := do
  match t.contentAt p with
  | .error _ => return
  | .ok c =>
    if let some parent := p.parent? then IO.FS.createDirAll parent.toString
    IO.FS.writeBinFile p.toString ⟨c.toBytes.toArray⟩

/-- Runs a command line. -/
def runProgram (words : List Text) : IO UInt32 := do
  let directory := Path.ofString (← IO.currentDir).toString
  let tree ← (pathsToRead directory words).foldlM withPath Tree.empty
  let x : Surroundings :=
    { tree, directory, environment := ← readVariables, processors := ← readProcessors }
  let now ← readClock
  let start ← IO.monoMsNow
  let o := runWords x now.text words
  o.messages.forM IO.eprintln
  o.written.forM (writePath o.tree)
  let seconds := ((← IO.monoMsNow) - start).toFloat / 1000.0
  (o.output.toLines seconds).forM IO.println
  return UInt32.ofNat o.exit

end CodeIndex

/-- The program. -/
def main (args : List String) : IO UInt32 :=
  CodeIndex.runProgram (args.map (·.toList))

import CodeIndex.Text.Blank
import CodeIndex.Tree.Basic
import CodeIndex.Tree.Glob

/-!
# Ignore rules

A line of an ignore file is a rule: a name pattern for what lies below the directory of the file, or an
exception from the rules before it. A pattern without an inner slash holds for names at any depth, and
one that ends in a slash for directories alone. The last rule that holds for a path decides.
-/

namespace CodeIndex

/-- A rule of an ignore file. -/
structure IgnoreRule where
  glob : Glob
  isException : Bool
  directoriesOnly : Bool
  deriving DecidableEq, Repr

/-- What a rule says of a path. -/
inductive Verdict where
  | ignored
  | kept
  deriving DecidableEq, Repr

/-! ### Reading rules -/

/-- A line of an ignore file without its trailing white space, unless that is escaped. -/
def ignoreLine (line : Text) : Text :=
  if line.endsWith ['\\', ' '] then line else line.trimEnd

/-- A line without its marks: whether it is an exception and whether it is tied to the directory of the
file, and its pattern. -/
def ignoreMarks (line : Text) : Bool × Bool × Text :=
  match line with
  | '\\' :: '!' :: rest => (false, false, '!' :: rest)
  | '\\' :: '#' :: rest => (false, false, '#' :: rest)
  | '!' :: '/' :: rest => (true, true, rest)
  | '!' :: rest => (true, false, rest)
  | '/' :: rest => (false, true, rest)
  | _ => (false, false, line)

/-- A pattern without a slash at its end, and whether it had one; a backslash before it goes too. -/
def dropFinalSlash (pattern : Text) : Text × Bool :=
  match pattern.reverse with
  | '/' :: '\\' :: rest => (rest.reverse, true)
  | '/' :: rest => (rest.reverse, true)
  | _ => (pattern, false)

/-- A pattern as it is matched: without a slash it holds at any depth, and one for all that is below a
directory does not hold for the directory. -/
def wholePattern (isTied : Bool) (pattern : Text) : Text :=
  let everywhere := "**/".toList
  let pattern :=
    if isTied ∨ pattern.contains '/' ∨ pattern = ['*', '*'] then pattern else everywhere ++ pattern
  if pattern.endsWith "/**".toList then pattern ++ "/*".toList else pattern

/-- The rule of a line, if it has one. -/
def IgnoreRule.ofLine? (line : Text) : Option IgnoreRule :=
  let line' := ignoreLine line
  if line.startsWith ['#'] ∨ line'.isEmpty then none
  else
    let (isException, isTied, pattern) := ignoreMarks line'
    let (pattern, directoriesOnly) := dropFinalSlash pattern
    (Glob.ofText? (wholePattern isTied pattern)).map (⟨·, isException, directoriesOnly⟩)

/-- The lines of bytes up to the first that is not UTF-8 (`fuel` bounds their number). -/
def byteLines : (fuel : Nat) → List UInt8 → List Text
  | 0, _ => []
  | fuel + 1, bytes =>
    if bytes.isEmpty then []
    else
      let line := bytes.takeWhile (· != 10)
      match Text.ofBytes? line with
      | none => []
      | some t =>
        Text.dropLineEnd (if line.length < bytes.length then t ++ ['\n'] else t)
          :: byteLines fuel (bytes.drop (line.length + 1))

/-- The lines of a file up to the first that is not UTF-8. -/
def Content.lines : Content → List Text
  | .text t => t.lines
  | .bytes b => byteLines b.length b
  | .store _ => []

/-- The lines without a byte order mark at the start of the first. -/
def dropOrderMark : List Text → List Text
  | [] => []
  | line :: rest => line.dropWhile (· == '\uFEFF') :: rest

/-- The rules of a file. -/
def Content.ignoreRules (c : Content) : List IgnoreRule :=
  (dropOrderMark c.lines).filterMap IgnoreRule.ofLine?

/-! ### Judging paths -/

/-- Whether a rule holds for a path, in bytes, below the directory of its file. -/
def IgnoreRule.holds (r : IgnoreRule) (path : List UInt8) (isDirectory : Bool) : Bool :=
  (isDirectory || !r.directoriesOnly) && r.glob.matches path

/-- What the last rule that holds for a path says. -/
def verdict? (rules : List IgnoreRule) (path : List UInt8) (isDirectory : Bool) : Option Verdict :=
  (rules.reverse.find? (·.holds path isDirectory)).map fun r =>
    if r.isException then .kept else .ignored

/-! ### Directories with rules -/

/-- The rules of the ignore files of a directory, by kind of file, the most important first; `names`
leads from there to the directory at hand. -/
structure IgnoreLayer where
  names : List Text
  rules : List (List IgnoreRule)
  deriving Repr

/-- The places of the ignore files in a directory, the most important first. -/
def ignoreFiles : List (List Text) :=
  [[".codesenseignore".toList], [".ignore".toList], [".gitignore".toList],
    [".git".toList, "info".toList, "exclude".toList]]

/-- The rules of a file below a directory, if there is one. -/
def rulesAt (directory : Tree) (names : List Text) : List IgnoreRule :=
  match directory.descend? names with
  | some (.file c) => c.ignoreRules
  | _ => []

def IgnoreLayer.of (directory : Tree) : IgnoreLayer :=
  ⟨[], ignoreFiles.map (rulesAt directory)⟩

/-- The layer as seen from a directory in the directory at hand. -/
def IgnoreLayer.enter (name : Text) (l : IgnoreLayer) : IgnoreLayer :=
  { l with names := l.names ++ [name] }

/-- The bytes of the path of an entry of the directory at hand, from the directory of the layer. -/
def IgnoreLayer.pathTo (l : IgnoreLayer) (name : Text) : List UInt8 :=
  (Text.join ['/'] (l.names ++ [name])).bytes

/-- What the layers, the deepest first, say of an entry by the files of one kind. -/
def kindVerdict? (layers : List IgnoreLayer) (kind : Nat) (name : Text) (isDirectory : Bool) :
    Option Verdict :=
  layers.findSome? fun l => verdict? (l.rules.getD kind []) (l.pathTo name) isDirectory

/-- What the layers say of an entry: by the most important kind of file that says anything. -/
def layersVerdict? (layers : List IgnoreLayer) (name : Text) (isDirectory : Bool) : Option Verdict :=
  (List.range ignoreFiles.length).findSome? fun kind => kindVerdict? layers kind name isDirectory

end CodeIndex

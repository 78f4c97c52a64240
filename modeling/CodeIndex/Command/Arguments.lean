import CodeIndex.Json.Reader
import CodeIndex.Number.Bound

/-!
# Arguments

The words of a command line are options, their values, and one word that stands alone. An option has a long
name and perhaps a letter; letters may share one dash. Its value is the next word, or follows an equals
sign, or the letter itself. Behind two dashes all words stand alone.
-/

namespace CodeIndex

/-! ### Rules -/

/-- What the word of a value has to be. -/
inductive ValueType where
  | text
  /-- A path, which is not empty. -/
  | path
  /-- A count in 64 bits. -/
  | size
  deriving DecidableEq, Repr

/-- The count that a word spells, with or without a plus sign. -/
def readSize? (t : Text) : Option Nat :=
  let digits := match t with
    | '+' :: rest => rest
    | t => t
  if digits.isEmpty || !digits.all Char.isDigit then none
  else
    let n := Json.digitsValue digits
    if n < bound64 then some n else none

/-- Whether a word fits a type. -/
def ValueType.accepts : ValueType → Text → Bool
  | .text, _ => true
  | .path, t => !t.isEmpty
  | .size, t => (readSize? t).isSome

structure OptionRule where
  name : String
  letter : Option Char := none
  /-- What its value has to be; a flag has none. -/
  value : Option ValueType := none
  /-- Whether it may be given several times. -/
  repeats : Bool := false
  about : String := ""
  deriving Repr

/-- A word that stands alone. -/
structure PositionRule where
  name : String
  type : ValueType
  required : Bool := false
  /-- What it is when it is not given. -/
  standard : Option String := none
  about : String := ""
  deriving Repr

/-- Which options and words may be given. -/
structure ArgumentRules where
  options : List OptionRule := []
  position : Option PositionRule := none
  /-- Whether the first word that stands alone starts arguments with rules of their own. -/
  branches : Bool := false
  deriving Repr

/-! ### Outcomes -/

/-- What is wrong with arguments. -/
inductive UsageError where
  | unexpected (word : Text)
  | missingValue (option : String)
  | invalidValue (what : String) (word : Text)
  | repeated (option : String)
  | missing (what : String)
  | conflict (a b : String)
  deriving DecidableEq, Repr

def UsageError.message : UsageError → String
  | .unexpected word => "unexpected argument '" ++ String.ofList word ++ "' found"
  | .missingValue option => "a value is required for '--" ++ option ++ "' but none was supplied"
  | .invalidValue what word => "invalid value '" ++ String.ofList word ++ "' for '" ++ what ++ "'"
  | .repeated option => "the argument '--" ++ option ++ "' cannot be used multiple times"
  | .missing what => "the following required arguments were not provided: " ++ what
  | .conflict a b => "the argument '" ++ a ++ "' cannot be used with '" ++ b ++ "'"

/-- Why reading stops. -/
inductive Stop where
  | help
  | version
  | wrong (e : UsageError)
  deriving DecidableEq, Repr

/-- What has been given. -/
structure Given where
  flags : List String := []
  /-- The options with their values, in order. -/
  values : List (String × Text) := []
  position : Option Text := none
  deriving DecidableEq, Repr

namespace Given

/-- Whether a flag has been given. -/
def flag (g : Given) (name : String) : Bool := g.flags.contains name

/-- The last value of an option. -/
def value? (g : Given) (name : String) : Option Text :=
  (g.values.reverse.lookup name)

/-- All values of an option, in order. -/
def all (g : Given) (name : String) : List Text :=
  (g.values.filter (·.1 == name)).map (·.2)

/-- The count that an option has been given. -/
def size? (g : Given) (name : String) : Option Nat := (g.value? name).bind readSize?

def withFlag (g : Given) (o : OptionRule) : Except Stop Given :=
  if o.name = "help" then .error .help
  else if o.name = "version" then .error .version
  else if g.flag o.name then .error (.wrong (.repeated o.name))
  else .ok { g with flags := g.flags ++ [o.name] }

def withValue (g : Given) (o : OptionRule) (type : ValueType) (word : Text) : Except Stop Given :=
  if !type.accepts word then .error (.wrong (.invalidValue ("--" ++ o.name) word))
  else if !o.repeats && (g.value? o.name).isSome then .error (.wrong (.repeated o.name))
  else .ok { g with values := g.values ++ [(o.name, word)] }

/-- With a word that stands alone. -/
def withPosition (g : Given) (rules : ArgumentRules) (word : Text) : Except Stop Given :=
  match rules.position with
  | none => .error (.wrong (.unexpected word))
  | some p =>
    if g.position.isSome then .error (.wrong (.unexpected word))
    else if !p.type.accepts word then .error (.wrong (.invalidValue p.name word))
    else .ok { g with position := some word }

end Given

/-! ### Reading -/

namespace ArgumentRules

/-- Whether a word starts an option, so that it is no value. -/
def startsOption : Text → Bool
  | '-' :: _ :: _ => true
  | _ => false

/-- The option with a long name. -/
def named? (rules : ArgumentRules) (name : Text) : Option OptionRule :=
  rules.options.find? (·.name.toList == name)

def lettered? (rules : ArgumentRules) (letter : Char) : Option OptionRule :=
  rules.options.find? (·.letter == some letter)

/-- Reads letters behind one dash. When the last option still needs a value, that option is given too. -/
def readLetters (rules : ArgumentRules) (word : Text) (g : Given) :
    Text → Except Stop (Given × Option (OptionRule × ValueType))
  | [] => .ok (g, none)
  | c :: rest =>
    match rules.lettered? c with
    | none => .error (.wrong (.unexpected word))
    | some o =>
      match o.value, rest with
      | none, rest => do readLetters rules word (← g.withFlag o) rest
      | some type, [] => .ok (g, some (o, type))
      | some type, '=' :: value => do return (← g.withValue o type value, none)
      | some type, value => do return (← g.withValue o type value, none)

/-- Reads a word behind two dashes, with what an equals sign gives it. -/
def readLong (rules : ArgumentRules) (word : Text) (g : Given) (t : Text) :
    Except Stop (Given × Option (OptionRule × ValueType)) :=
  let (name, attached) := t.span (· != '=')
  match rules.named? name with
  | none => .error (.wrong (.unexpected word))
  | some o =>
    match o.value, attached with
    | none, [] => do return (← g.withFlag o, none)
    | none, _ => .error (.wrong (.unexpected word))
    | some type, [] => .ok (g, some (o, type))
    | some type, _ :: value => do return (← g.withValue o type value, none)

/-- Reads words; where another set of rules starts, the rest is given as it is. `pending` is an option
that still needs its value. -/
def readFrom (rules : ArgumentRules) :
    (pending : Option (OptionRule × ValueType)) → Given → List Text →
      Except Stop (Given × List Text)
  | some (o, _), _, [] => .error (.wrong (.missingValue o.name))
  | none, g, [] => .ok (g, [])
  | some (o, type), g, word :: rest =>
    if startsOption word then .error (.wrong (.missingValue o.name))
    else do readFrom rules none (← g.withValue o type word) rest
  | none, g, word :: rest =>
    match word with
    | ['-', '-'] => do return (← rest.foldlM (·.withPosition rules) g, [])
    | '-' :: '-' :: t => do
      let (g, pending) ← rules.readLong word g t
      readFrom rules pending g rest
    | '-' :: c :: t => do
      let (g, pending) ← rules.readLetters word g (c :: t)
      readFrom rules pending g rest
    | _ =>
      if rules.branches then .ok (g, word :: rest)
      else do readFrom rules none (← g.withPosition rules word) rest

/-- Reads words from the first one on. -/
def read (rules : ArgumentRules) (words : List Text) : Except Stop (Given × List Text) := do
  let (g, rest) ← rules.readFrom none {} words
  match rules.position, g.position with
  | some p, none =>
    if p.required then throw (.wrong (.missing p.name)) else return (g, rest)
  | _, _ => return (g, rest)

end ArgumentRules

end CodeIndex

import CodeIndex.Json.Reader
import CodeIndex.Number.Bound
import CodeIndex.Settings.Value
import CodeIndex.Time.Calendar

/-!
# TOML scalars

Strings in their four spellings, whole numbers in four bases, real numbers, truth values and dates, each
read from the start of a text with what follows it. Digits may be parted by single underscores.
-/

namespace CodeIndex.Toml

/-! ### Characters -/

/-- Whether a character may stand in a comment, or in a string that keeps all characters. -/
def isPrintable (c : Char) : Bool :=
  c == '\t' || (32 ≤ c.toNat && c.toNat != 127)

/-- Whether a character may stand in a bare key. -/
def isBareKey (c : Char) : Bool :=
  c.isAlphanum || c == '_' || c == '-'

/-- The text without leading spaces and tabs. -/
def skipBlanks (t : Text) : Text :=
  t.dropWhile fun c => c == ' ' || c == '\t'

/-- What follows a line end. -/
def lineEnd? : Text → Option Text
  | '\n' :: rest => some rest
  | '\r' :: '\n' :: rest => some rest
  | _ => none

/-- What follows one of the given words. -/
def word? (word : String) (t : Text) : Option Text :=
  Text.dropStart? word.toList t

/-! ### Strings -/

/-- The character of a number, unless it is none. -/
def scalarChar? (n : Nat) : Option Char :=
  if n < 0xD800 ∨ (0xE000 ≤ n ∧ n < 0x110000) then some (Char.ofNat n) else none

/-- The value of hexadecimal digits. -/
def hexValue? (digits : Text) : Option Nat :=
  digits.foldlM (fun n c => (Json.hexDigit? c).map (n * 16 + ·)) 0

/-- The character of an escape behind its backslash, and what follows. -/
def escape? : Text → Option (Char × Text)
  | 'u' :: rest =>
    if 4 ≤ rest.length then
      ((hexValue? (rest.take 4)).bind scalarChar?).map (·, rest.drop 4)
    else none
  | 'U' :: rest =>
    if 8 ≤ rest.length then
      ((hexValue? (rest.take 8)).bind scalarChar?).map (·, rest.drop 8)
    else none
  | c :: rest =>
    ([('b', '\x08'), ('t', '\t'), ('n', '\n'), ('f', '\x0c'), ('r', '\r'), ('"', '"'),
      ('\\', '\\')].lookup c).map (·, rest)
  | [] => none

/-- The rest of a string in double quotes, with the characters read so far in reverse (`fuel` bounds their
number). -/
def readBasic : (fuel : Nat) → (done : Text) → Text → Option (Text × Text)
  | 0, _, _ => none
  | fuel + 1, done, t =>
    match t with
    | [] => none
    | '"' :: rest => some (done.reverse, rest)
    | '\\' :: rest =>
      match escape? rest with
      | some (c, rest) => readBasic fuel (c :: done) rest
      | none => none
    | c :: rest => if isPrintable c then readBasic fuel (c :: done) rest else none

/-- The rest of a string in single quotes. -/
def readLiteral (t : Text) : Option (Text × Text) :=
  let (inner, rest) := t.span fun c => isPrintable c && c != '\''
  match rest with
  | '\'' :: rest => some (inner, rest)
  | _ => none

/-- The text without leading blanks and line ends. -/
def skipBlankLines : Text → Text
  | ' ' :: rest => skipBlankLines rest
  | '\t' :: rest => skipBlankLines rest
  | '\n' :: rest => skipBlankLines rest
  | '\r' :: '\n' :: rest => skipBlankLines rest
  | t => t

/-- A text without the line end that it may start with. -/
def dropFirstLineEnd (t : Text) : Text :=
  (lineEnd? t).getD t

/-- The end of a string of several lines behind its three closing quotes: up to two more belong to the
string. -/
def closing (quote : Char) (done : Text) : Text → Text × Text
  | a :: b :: rest =>
    if a = quote ∧ b = quote then ((quote :: quote :: done).reverse, rest)
    else if a = quote then ((quote :: done).reverse, b :: rest)
    else (done.reverse, a :: b :: rest)
  | [a] => if a = quote then ((quote :: done).reverse, []) else (done.reverse, [a])
  | [] => (done.reverse, [])

/-- The rest of a string of several lines in double quotes. A backslash at the end of a line takes away
all white space up to the next character. -/
def readLongBasic : (fuel : Nat) → (done : Text) → Text → Option (Text × Text)
  | 0, _, _ => none
  | fuel + 1, done, t =>
    match t with
    | [] => none
    | '"' :: '"' :: '"' :: rest => some (closing '"' done rest)
    | '\\' :: rest =>
      match escape? rest with
      | some (c, rest) => readLongBasic fuel (c :: done) rest
      | none =>
        match lineEnd? (skipBlanks rest) with
        | some rest => readLongBasic fuel done (skipBlankLines rest)
        | none => none
    | '\r' :: '\n' :: rest => readLongBasic fuel ('\n' :: done) rest
    | '\n' :: rest => readLongBasic fuel ('\n' :: done) rest
    | c :: rest => if isPrintable c then readLongBasic fuel (c :: done) rest else none

/-- The rest of a string of several lines in single quotes. -/
def readLongLiteral : (fuel : Nat) → (done : Text) → Text → Option (Text × Text)
  | 0, _, _ => none
  | fuel + 1, done, t =>
    match t with
    | [] => none
    | '\'' :: '\'' :: '\'' :: rest => some (closing '\'' done rest)
    | '\r' :: '\n' :: rest => readLongLiteral fuel ('\n' :: done) rest
    | '\n' :: rest => readLongLiteral fuel ('\n' :: done) rest
    | c :: rest => if isPrintable c then readLongLiteral fuel (c :: done) rest else none

/-- A string on one line. -/
def shortString? : Text → Option (Text × Text)
  | '"' :: rest => readBasic (rest.length + 1) [] rest
  | '\'' :: rest => readLiteral rest
  | _ => none

def string? : Text → Option (Text × Text)
  | '"' :: '"' :: '"' :: rest => readLongBasic (rest.length + 1) [] (dropFirstLineEnd rest)
  | '\'' :: '\'' :: '\'' :: rest => readLongLiteral (rest.length + 1) [] (dropFirstLineEnd rest)
  | t => shortString? t

/-! ### Numbers -/

/-- The digits that a text starts with, with single underscores between them left out, and what follows;
there is at least one. -/
def digitRun? (isDigit : Char → Bool) : Text → Option (Text × Text)
  | [] => none
  | c :: rest =>
    if isDigit c then
      match rest with
      | '_' :: d :: more =>
        if isDigit d then (digitRun? isDigit (d :: more)).map fun (ds, r) => (c :: ds, r)
        else some ([c], rest)
      | d :: more =>
        if isDigit d then (digitRun? isDigit (d :: more)).map fun (ds, r) => (c :: ds, r)
        else some ([c], rest)
      | [] => some ([c], [])
    else none

/-- A whole number in 64 bits with a sign. -/
def inRange? (n : Int) : Option ConfigValue :=
  if -bound63 ≤ n ∧ n < bound63 then some (.whole n) else none

/-- A sign, true for minus, and what follows. -/
def sign : Text → Option Bool × Text
  | '-' :: rest => (some true, rest)
  | '+' :: rest => (some false, rest)
  | t => (none, t)

def baseValue (base : Nat) (digits : Text) : Nat :=
  digits.foldl (fun n c => n * base + (Json.hexDigit? c).getD 0) 0

/-- The digits of a decimal whole number: no zero stands before another digit. -/
def decimalDigits? (t : Text) : Option (Text × Text) :=
  match digitRun? Char.isDigit t with
  | some ('0' :: d :: _, _) => if d.isDigit then some (['0'], t.drop 1) else none
  | other => other

/-- A whole number in hexadecimal, octal or binary digits, behind its zero. -/
def baseNumber? : Text → Option (ConfigValue × Text)
  | 'x' :: rest => read 16 (fun c => (Json.hexDigit? c).isSome) rest
  | 'o' :: rest => read 8 (fun c => '0' ≤ c && c ≤ '7') rest
  | 'b' :: rest => read 2 (fun c => c == '0' || c == '1') rest
  | _ => none
where
  read (base : Nat) (isDigit : Char → Bool) (t : Text) : Option (ConfigValue × Text) := do
    let (digits, rest) ← digitRun? isDigit t
    let v ← inRange? (baseValue base digits)
    return (v, rest)

/-- The exponent behind its letter. -/
def exponent? : Text → Option (Int × Text)
  | [] => none
  | e :: rest =>
    if e = 'e' ∨ e = 'E' then do
      let (negative, rest) := sign rest
      let (digits, rest) ← digitRun? Char.isDigit rest
      let n : Int := Json.digitsValue digits
      some (if negative = some true then -n else n, rest)
    else none

/-- The fraction behind its point. -/
def fraction? : Text → Option (Text × Text)
  | '.' :: rest => digitRun? Char.isDigit rest
  | _ => none

def signedReal (negative : Bool) (x : Float) : ConfigValue :=
  .real (if negative then -x else x)

/-- A real number: decimal digits with a fraction, an exponent, or both; or a special value. Only a
negative number may be too large. -/
def real? (t : Text) : Option (ConfigValue × Text) := do
  let (minus, body) := sign t
  let negative := minus = some true
  match word? "inf" body, word? "nan" body with
  | some rest, _ => some (signedReal negative (1.0 / 0.0), rest)
  | _, some rest => some (signedReal negative (0.0 / 0.0), rest)
  | none, none =>
    let (whole, rest) ← decimalDigits? body
    let (fraction, exponent, rest) ←
      match fraction? rest with
      | some (fraction, rest) =>
        match exponent? rest with
        | some (e, rest) => some (fraction, e, rest)
        | none => some (fraction, 0, rest)
      | none => (exponent? rest).map fun (e, rest) => ([], e, rest)
    let x := Json.nearestFloat (Json.digitsValue (whole ++ fraction)) (exponent - fraction.length)
    if x.isInf && !negative then none else some (signedReal negative x, rest)

/-- A whole number. -/
def whole? (t : Text) : Option (ConfigValue × Text) :=
  match t with
  | '0' :: rest =>
    match baseNumber? rest with
    | some found => some found
    | none => decimal t
  | _ => decimal t
where
  /-- A whole number in decimal digits. -/
  decimal (t : Text) : Option (ConfigValue × Text) := do
    let (minus, body) := sign t
    let (digits, rest) ← decimalDigits? body
    let n : Int := Json.digitsValue digits
    let v ← inRange? (if minus = some true then -n else n)
    return (v, rest)

/-! ### Dates -/

/-- The number that the first `count` characters spell, and what follows. -/
def fixedDigits? (count : Nat) (t : Text) : Option (Nat × Text) :=
  let head := t.take count
  if head.length = count ∧ head.all Char.isDigit then some (Json.digitsValue head, t.drop count)
  else none

/-- What follows a time of day. -/
def timeOfDay? (t : Text) : Option Text := do
  let (hour, t) ← fixedDigits? 2 t
  let t ← word? ":" t
  let (minute, t) ← fixedDigits? 2 t
  let t ← word? ":" t
  let (second, t) ← fixedDigits? 2 t
  if hour < 24 ∧ minute < 60 ∧ second ≤ 60 then
    match t with
    | '.' :: rest => if (Json.takeDigits rest).1.isEmpty then some t else some (Json.takeDigits rest).2
    | _ => some t
  else none

/-- What follows an offset from universal time. -/
def offset? : Text → Option Text
  | [] => none
  | c :: rest =>
    if c = 'Z' ∨ c = 'z' then some rest
    else if c = '+' ∨ c = '-' then do
      let (hour, t) ← fixedDigits? 2 rest
      let t ← word? ":" t
      let (minute, t) ← fixedDigits? 2 t
      if hour < 24 ∧ minute < 60 then some t else none
    else none

/-- What follows a day. -/
def day? (t : Text) : Option Text := do
  let (year, t) ← fixedDigits? 4 t
  let t ← word? "-" t
  let (month, t) ← fixedDigits? 2 t
  let t ← word? "-" t
  let (day, t) ← fixedDigits? 2 t
  let _ ← CalendarDay.of? year month day
  return t

/-- What follows the time of a day with an offset, if there is one. -/
def timeBehindDay (t : Text) : Text :=
  match t with
  | c :: rest =>
    if c = 'T' ∨ c = 't' ∨ c = ' ' then
      match timeOfDay? rest with
      | some t => (offset? t).getD t
      | none => t
    else t
  | [] => t

/-- A day, a time of day, or both. It counts as a table with its spelling in it. -/
def date? (t : Text) : Option (ConfigValue × Text) :=
  match (day? t).map timeBehindDay <|> timeOfDay? t with
  | some rest =>
    let spelling := t.take (t.length - rest.length)
    some (.table [("date".toList, .text spelling)], rest)
  | none => none

/-! ### Scalars -/

/-- A value that is no list and no table. -/
def scalar? (t : Text) : Option (ConfigValue × Text) :=
  match t with
  | [] => none
  | c :: _ =>
    if c = '"' ∨ c = '\'' then (string? t).map fun (s, rest) => (.text s, rest)
    else if c = 't' then (word? "true" t).map (.boolean true, ·)
    else if c = 'f' then (word? "false" t).map (.boolean false, ·)
    else if c = 'i' ∨ c = 'n' ∨ c = '+' ∨ c = '-' ∨ c.isDigit then
      date? t <|> real? t <|> whole? t
    else none

end CodeIndex.Toml

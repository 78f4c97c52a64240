import CodeIndex.Decimal.Fixed
import CodeIndex.Text.Basic
import CodeIndex.Time.Calendar

/-!
# Instants

A point in time, and its text by the internet profile of dates: a day, a time of day with an optional
fraction, and an offset. The text of an instant is in universal time, marked `Z`.
-/

namespace CodeIndex

/-- A point in time: whole seconds since the start of 1970, and nanoseconds; a leap second is the
second before it with a whole second of nanoseconds more. -/
structure Instant where
  seconds : Int
  nanoseconds : Nat
  deriving DecidableEq, Repr, Inhabited

namespace Instant

/-- The start of 1970. -/
def epoch : Instant := ⟨0, 0⟩

/-! ### Reading -/

/-- The number that the first `count` characters spell in digits, and what follows. -/
def digits? (count : Nat) (t : Text) : Option (Nat × Text) :=
  let head := t.take count
  if head.length = count ∧ head.all Char.isDigit then
    some (head.foldl (fun n c => n * 10 + (c.toNat - 48)) 0, t.drop count)
  else none

/-- What follows a character. -/
def after? (c : Char) : Text → Option Text
  | d :: rest => if c = d then some rest else none
  | [] => none

/-- The nanoseconds of a fraction, of which nine digits count, and what follows. -/
def fraction? (t : Text) : Option (Nat × Text) :=
  match t with
  | '.' :: rest =>
    let digits := rest.takeWhile Char.isDigit
    let kept := digits.take 9
    if digits.isEmpty then none
    else
      some (kept.foldl (fun n c => n * 10 + (c.toNat - 48)) 0 * Nat.pow 10 (9 - kept.length),
        rest.dropWhile Char.isDigit)
  | _ => some (0, t)

/-- The offset from universal time in seconds, and what follows: `Z`, or a sign with hours and
minutes. -/
def offset? : Text → Option (Int × Text)
  | [] => none
  | sign :: rest =>
    if sign = 'Z' ∨ sign = 'z' then some (0, rest)
    else if sign = '+' ∨ sign = '-' ∨ sign = '−' then do
      let (hours, rest) ← digits? 2 rest
      let rest ← after? ':' rest
      let (minutes, rest) ← digits? 2 rest
      if hours < 24 ∧ minutes < 60 then
        let seconds : Int := (hours * 60 + minutes) * 60
        some (if sign = '+' then seconds else -seconds, rest)
      else none
    else none

/-- The instant that a text spells. -/
def ofText? (t : Text) : Option Instant := do
  let (year, t) ← digits? 4 t
  let t ← after? '-' t
  let (month, t) ← digits? 2 t
  let t ← after? '-' t
  let (day, t) ← digits? 2 t
  let t ← after? 'T' t <|> after? 't' t <|> after? ' ' t
  let (hour, t) ← digits? 2 t
  let t ← after? ':' t
  let (minute, t) ← digits? 2 t
  let t ← after? ':' t
  let (second, t) ← digits? 2 t
  let (nanoseconds, t) ← fraction? t
  let (offset, t) ← offset? t
  let date ← CalendarDay.of? year month day
  if t.isEmpty ∧ hour < 24 ∧ minute < 60 ∧ second ≤ 60 then
    let timeOfDay : Int := (hour * 60 + minute) * 60 + min second 59
    let leap := if second = 60 then 1000000000 else 0
    some ⟨date.toDays * 86400 + timeOfDay - offset, nanoseconds + leap⟩
  else none

/-! ### Writing -/

/-- The text of a year: four digits, and a sign when it has more digits or is below 0. -/
def yearText (year : Int) : String :=
  if 0 ≤ year ∧ year ≤ 9999 then padZeros 4 year.toNat
  else (if year < 0 then "-" else "+") ++ padZeros 4 year.natAbs

/-- The text of a fraction of a second: none, or three, six or nine digits. -/
def fractionText (nanoseconds : Nat) : String :=
  if nanoseconds = 0 then ""
  else if nanoseconds % 1000000 = 0 then "." ++ padZeros 3 (nanoseconds / 1000000)
  else if nanoseconds % 1000 = 0 then "." ++ padZeros 6 (nanoseconds / 1000)
  else "." ++ padZeros 9 nanoseconds

/-- The day of an instant in universal time. -/
def day (i : Instant) : CalendarDay := .ofDays (i.seconds.fdiv 86400)

def text (i : Instant) : String :=
  let d := i.day
  let timeOfDay := (i.seconds.fmod 86400).toNat
  let second := timeOfDay % 60 + i.nanoseconds / 1000000000
  yearText d.year ++ "-" ++ padZeros 2 d.month ++ "-" ++ padZeros 2 d.day ++ "T"
    ++ padZeros 2 (timeOfDay / 3600) ++ ":" ++ padZeros 2 (timeOfDay / 60 % 60) ++ ":"
    ++ padZeros 2 second ++ fractionText (i.nanoseconds % 1000000000) ++ "Z"

end Instant

end CodeIndex

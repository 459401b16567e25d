import LogRules.Number.Reading
import LogRules.Text.Blank
import LogRules.Text.Reader

/-!
Instants: when a message arrived. They are read with any offset from universal time, and written in
universal time with as many digits of the second as are needed, in groups of three.
-/
namespace LogRules

/-- Seconds since the start of 1970 and billionths of a second. A leap second is the sixtieth
second of a minute with a billion or more billionths. -/
structure Instant where
  seconds : Int
  nanos : Nat
deriving DecidableEq, Inhabited, Repr

namespace Instant

-- The instances of the core library, whatever else a file has in scope.
attribute [local instance (high)] instPowNat Zero.ofOfNat0

def epoch : Instant := ⟨0, 0⟩

/-- Whether a year of the Gregorian calendar, carried back without end, has a leap day. -/
def isLeapYear (year : Int) : Bool := year % 4 == 0 && (year % 100 != 0 || year % 400 == 0)

def daysInMonth (year : Int) (month : Nat) : Nat :=
  match month with
  | 2 => if isLeapYear year then 29 else 28
  | 4 | 6 | 9 | 11 => 30
  | _ => 31

/-- Days from the start of 1970 to the start of a year. -/
def daysToYear (year : Int) : Int :=
  let y := year - 1
  365 * (year - 1970) + (y / 4 - y / 100 + y / 400) - 477

/-- Days from the start of a year to the start of a month. -/
def daysToMonth (year : Int) (month : Nat) : Nat :=
  ((List.range (month - 1)).map fun m => daysInMonth year (m + 1)).sum

def firstYear : Int := -262143

def lastYear : Int := 262142

/-- The number of a day, counted from the start of 1970; nothing if there is no such day. -/
def day? (year : Int) (month day : Nat) : Option Int :=
  if firstYear ≤ year ∧ year ≤ lastYear ∧ 1 ≤ month ∧ month ≤ 12 ∧ 1 ≤ day ∧
      day ≤ daysInMonth year month then
    some (daysToYear year + daysToMonth year month + day - 1)
  else none

/-- The year that holds a day. The first guess is off by at most one. -/
def yearOfDay (day : Int) : Int :=
  let guess := 1970 + day * 400 / 146097
  if day < daysToYear guess then guess - 1
  else if daysToYear (guess + 1) ≤ day then guess + 1
  else guess

/-- Year, month and day of the month of a day. -/
def calendar (day : Int) : Int × Nat × Nat :=
  let year := yearOfDay day
  let ofYear := (day - daysToYear year).toNat
  let months := [12, 11, 10, 9, 8, 7, 6, 5, 4, 3, 2, 1]
  let month := (months.find? fun m => daysToMonth year m ≤ ofYear).getD 1
  (year, month, ofYear - daysToMonth year month + 1)

open Text (Reader)

def readNumber (most : Nat) : Reader Nat := fun text =>
  let digits := (text.take most).takeWhile Char.isDigit
  if digits.isEmpty then none else some (Digits.value digits, text.drop digits.length)

/-- A year: up to four digits, or any number of them behind a sign. -/
def readYear : Reader Int := fun text =>
  match Text.trimStart text with
  | '-' :: rest => (readNumber rest.length rest).map fun (n, rest) => (-(n : Int), rest)
  | '+' :: rest => (readNumber rest.length rest).map fun (n, rest) => ((n : Int), rest)
  | rest => (readNumber 4 rest).map fun (n, rest) => ((n : Int), rest)

/-- A separator and one or two digits, blanks allowed around the separator. -/
def readPart (separator : Char) : Reader Nat := fun text =>
  match Text.trimStart text with
  | c :: rest => if c = separator then readNumber 2 (Text.trimStart rest) else none
  | [] => none

/-- A fraction of a second in billionths; digits past the ninth are dropped. -/
def readFraction : Reader Nat := fun text =>
  match text with
  | '.' :: rest =>
    let digits := rest.takeWhile Char.isDigit
    if digits.isEmpty then none
    else
      let kept := digits.take 9
      some (Digits.value kept * 10 ^ (9 - kept.length), rest.drop digits.length)
  | _ => some (0, text)

def readPair : Reader Nat := fun text =>
  match text with
  | a :: b :: rest =>
    if a.isDigit ∧ b.isDigit then some (Digits.value [a, b], rest) else none
  | _ => none

/-- The offset from universal time in seconds: `Z`, `UTC`, or a sign, hours and minutes. -/
def readOffset : Reader Int := fun text =>
  match Text.trimStart text with
  | 'Z' :: rest => some (0, rest)
  | 'z' :: rest => some (0, rest)
  | c :: rest =>
    if ((c :: rest).take 3).map Char.toLower = ['u', 't', 'c'] then some (0, (c :: rest).drop 3)
    else if c = '+' ∨ c = '-' ∨ c = '\u2212' then do
      let (hours, rest) ← readPair rest
      let (minutes, rest) ← readPair (rest.dropWhile fun c => c = ':' || Text.isBlank c)
      if 60 ≤ minutes ∨ 24 ≤ hours then none
      else
        let offset : Int := hours * 3600 + minutes * 60
        some (if c = '+' then offset else -offset, rest)
    else none
  | [] => none

/-- Whether the date in universal time lies in one of the years that there are. -/
def hasDate (t : Instant) : Bool :=
  let day := t.seconds / 86400
  daysToYear firstYear ≤ day && day < daysToYear (lastYear + 1)

/-- Date, time and offset. A `T` or a blank stands between date and time. -/
def read? (text : String) : Option Instant := do
  let (year, rest) ← readYear text.toList
  let (month, rest) ← readPart '-' rest
  let (dayOfMonth, rest) ← readPart '-' rest
  let (hour, rest) ← match rest with
    | c :: rest =>
      if c = 'T' ∨ c = 't' ∨ c = ' ' then readNumber 2 (Text.trimStart rest) else none
    | [] => none
  let (minute, rest) ← readPart ':' rest
  let (second, rest) ← readPart ':' rest
  let (fraction, rest) ← readFraction rest
  let (offset, rest) ← readOffset rest
  let day ← day? year month dayOfMonth
  if (Text.trimStart rest).isEmpty ∧ hour < 24 ∧ minute < 60 ∧ second ≤ 60 then
    let leap := second = 60
    let ofDay : Int := hour * 3600 + minute * 60 + (if leap then 59 else second)
    let nanos := fraction + (if leap then 1000000000 else 0)
    Option.guard hasDate ⟨day * 86400 + ofDay - offset, nanos⟩
  else none

def padded (width n : Nat) : List Char :=
  let digits := (toString n).toList
  List.replicate (width - digits.length) '0' ++ digits

/-- Years of four digits have no sign. -/
def yearText (year : Int) : List Char :=
  if 0 ≤ year ∧ year ≤ 9999 then padded 4 year.toNat
  else (if year < 0 then '-' else '+') :: padded 4 year.natAbs

/-- The fraction with three, six or nine digits, or nothing if it is zero. -/
def fractionText (nanos : Nat) : List Char :=
  if nanos = 0 then []
  else if nanos % 1000000 = 0 then '.' :: padded 3 (nanos / 1000000)
  else if nanos % 1000 = 0 then '.' :: padded 6 (nanos / 1000)
  else '.' :: padded 9 nanos

def text (t : Instant) : String :=
  let (year, month, day) := calendar (t.seconds / 86400)
  let ofDay := (t.seconds % 86400).toNat
  let leap := 1000000000 ≤ t.nanos
  let second := ofDay % 60 + (if leap then 1 else 0)
  let nanos := t.nanos - (if leap then 1000000000 else 0)
  String.ofList (yearText year ++ '-' :: padded 2 month ++ '-' :: padded 2 day ++
    'T' :: padded 2 (ofDay / 3600) ++ ':' :: padded 2 (ofDay / 60 % 60) ++
    ':' :: padded 2 second ++ fractionText nanos ++ ['Z'])

end Instant

end LogRules

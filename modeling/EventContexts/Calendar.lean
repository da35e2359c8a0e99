import EventContexts.Text.Blank

namespace EventContexts

/-- Whole seconds from the start of 1970 and the nanoseconds past them. A leap second is written
as the second before it with a thousand million nanoseconds more. -/
structure Instant where
  seconds : Int
  nanos : Nat
  deriving DecidableEq, Repr, Inhabited

structure Day where
  year : Int
  month : Nat
  day : Nat
  deriving DecidableEq, Repr

namespace Day

/-- Counts from 1970-01-01. Years begin in March here, so that the leap day comes last, and
400 years make one cycle of 146097 days. -/
def ofCount (n : Int) : Day :=
  let z := n + 719468
  let cycle := z / 146097
  let dayOfCycle := (z % 146097).toNat
  let yearOfCycle :=
    (dayOfCycle - dayOfCycle / 1460 + dayOfCycle / 36524 - dayOfCycle / 146096) / 365
  let dayOfYear := dayOfCycle - (365 * yearOfCycle + yearOfCycle / 4 - yearOfCycle / 100)
  let monthFromMarch := (5 * dayOfYear + 2) / 153
  let month := if monthFromMarch < 10 then monthFromMarch + 3 else monthFromMarch - 9
  { year := yearOfCycle + cycle * 400 + (if month ≤ 2 then 1 else 0)
    month
    day := dayOfYear - (153 * monthFromMarch + 2) / 5 + 1 }

def toCount (d : Day) : Int :=
  let year := if d.month ≤ 2 then d.year - 1 else d.year
  let yearOfCycle := (year % 400).toNat
  let monthFromMarch := if d.month ≤ 2 then d.month + 9 else d.month - 3
  let dayOfYear := (153 * monthFromMarch + 2) / 5 + d.day - 1
  let dayOfCycle := yearOfCycle * 365 + yearOfCycle / 4 - yearOfCycle / 100 + dayOfYear
  year / 400 * 146097 + (dayOfCycle : Int) - 719468

def isLeapYear (year : Int) : Bool := year % 4 == 0 && (year % 100 != 0 || year % 400 == 0)

def monthLength (year : Int) (month : Nat) : Nat :=
  if month = 2 then (if isLeapYear year then 29 else 28)
  else if month = 4 ∨ month = 6 ∨ month = 9 ∨ month = 11 then 30
  else 31

def exists? (d : Day) : Bool :=
  decide (1 ≤ d.month ∧ d.month ≤ 12 ∧ 1 ≤ d.day ∧ d.day ≤ monthLength d.year d.month)

end Day

def padded (width n : Nat) : String :=
  let digits := toString n
  String.ofList (List.replicate (width - digits.length) '0') ++ digits

/-- Four digits, and a sign outside the years 0 to 9999. -/
def yearText (year : Int) : String :=
  if 0 ≤ year ∧ year ≤ 9999 then padded 4 year.natAbs
  else (if year < 0 then "-" else "+") ++ padded 4 year.natAbs

namespace Instant

def firstMillis : Int := -8334601228800000

def lastMillis : Int := 8210266876799999

def inRange (t : Instant) : Bool :=
  decide (firstMillis ≤ t.seconds * 1000 ∧ t.seconds * 1000 ≤ lastMillis)

def epoch : Instant := ⟨0, 0⟩

def millis (t : Instant) : Int := t.seconds * 1000 + t.nanos / 1000000

def ofMillis? (ms : Int) : Option Instant :=
  if firstMillis ≤ ms ∧ ms ≤ lastMillis then
    some ⟨ms / 1000, (ms % 1000).toNat * 1000000⟩
  else none

def secondText (t : Instant) : String :=
  let day := Day.ofCount (t.seconds / 86400)
  let rest := (t.seconds % 86400).toNat
  let second := rest % 60 + t.nanos / 1000000000
  yearText day.year ++ "-" ++ padded 2 day.month ++ "-" ++ padded 2 day.day ++ "T" ++
    padded 2 (rest / 3600) ++ ":" ++ padded 2 (rest / 60 % 60) ++ ":" ++ padded 2 second

/-- No fraction, or as many groups of three digits as it takes. -/
def fractionText (nanos : Nat) : String :=
  if nanos = 0 then ""
  else if nanos % 1000000 = 0 then "." ++ padded 3 (nanos / 1000000)
  else if nanos % 1000 = 0 then "." ++ padded 6 (nanos / 1000)
  else "." ++ padded 9 nanos

def text (t : Instant) : String :=
  t.secondText ++ fractionText (t.nanos % 1000000000) ++ "Z"

def millisText (ms : Int) : String :=
  match ofMillis? ms with
  | some t => "@" ++ t.secondText ++ "." ++ padded 3 (t.nanos / 1000000) ++ "Z"
  | none => "@" ++ toString ms ++ "ms"

section Reading

open Text

def readDigits (width : Nat) (cs : List Char) : Option (Nat × List Char) :=
  let digits := (cs.take width).takeWhile Char.isDigit
  if digits.isEmpty then none
  else some (digits.foldl (fun n c => n * 10 + (c.toNat - 48)) 0, cs.drop digits.length)

def readField (width : Nat) (cs : List Char) : Option (Nat × List Char) :=
  readDigits width (skipBlank cs)

def readYear (cs : List Char) : Option (Int × List Char) :=
  match skipBlank cs with
  | '-' :: rest => (readDigits rest.length rest).map fun (n, rest) => (-(n : Int), rest)
  | '+' :: rest => (readDigits rest.length rest).map fun (n, rest) => ((n : Int), rest)
  | rest => (readDigits 4 rest).map fun (n, rest) => ((n : Int), rest)

def expect (c : Char) (cs : List Char) : Option (List Char) :=
  match cs with
  | d :: rest => if d = c then some rest else none
  | [] => none

/-- The digits after a decimal point, as nanoseconds; digits past the ninth are dropped. -/
def readFraction (cs : List Char) : Option (Nat × List Char) :=
  match cs with
  | '.' :: rest =>
      (readDigits 9 rest).map fun (n, after) =>
        (n * Nat.pow 10 (9 - (rest.length - after.length)), after.dropWhile Char.isDigit)
  | _ => some (0, cs)

def readOffset (cs : List Char) : Option (Int × List Char) :=
  if (cs.take 3).map Char.toUpper = ['U', 'T', 'C'] then some (0, cs.drop 3)
  else match cs with
    | [] => none
    | c :: rest =>
        if c = 'Z' ∨ c = 'z' then some (0, rest)
        else if c = '+' ∨ c = '-' ∨ c.toNat = 0x2212 then
          match rest with
          | h₁ :: h₂ :: rest =>
              if h₁.isDigit ∧ h₂.isDigit then
                match rest.dropWhile (fun c => c = ':' || isBlank c) with
                | m₁ :: m₂ :: rest =>
                    if m₁.isDigit ∧ m₂.isDigit ∧ m₁.toNat < 54 then
                      let hours := (h₁.toNat - 48) * 10 + (h₂.toNat - 48)
                      let minutes := (m₁.toNat - 48) * 10 + (m₂.toNat - 48)
                      let seconds : Int := hours * 3600 + minutes * 60
                      some (if c = '+' then seconds else -seconds, rest)
                    else none
                | _ => none
              else none
          | _ => none
        else none

/-- Date and time with an offset. Blanks may stand before each part, and one blank may take the
place of the `T`. -/
def read? (text : String) : Option Instant := do
  let (year, cs) ← readYear text.toList
  let cs ← expect '-' (skipBlank cs)
  let (month, cs) ← readField 2 cs
  let cs ← expect '-' (skipBlank cs)
  let (day, cs) ← readField 2 cs
  let cs ← match cs with
    | c :: rest => if c = 'T' ∨ c = 't' ∨ c = ' ' then some rest else none
    | [] => none
  let (hour, cs) ← readField 2 cs
  let cs ← expect ':' (skipBlank cs)
  let (minute, cs) ← readField 2 cs
  let cs ← expect ':' (skipBlank cs)
  let (second, cs) ← readField 2 cs
  let (nanos, cs) ← readFraction cs
  let (offset, cs) ← readOffset (skipBlank cs)
  let date : Day := { year, month, day }
  guard (skipBlank cs).isEmpty
  guard (date.exists? && decide (hour ≤ 23 ∧ minute ≤ 59 ∧ second ≤ 60))
  guard (decide (offset.natAbs < 86400))
  let clock := hour * 3600 + minute * 60 + min second 59
  let local' : Instant :=
    { seconds := date.toCount * 86400 + clock
      nanos := nanos + (if second = 60 then 1000000000 else 0) }
  let universal := { local' with seconds := local'.seconds - offset }
  guard (local'.inRange && universal.inRange)
  return universal

end Reading

end Instant

end EventContexts

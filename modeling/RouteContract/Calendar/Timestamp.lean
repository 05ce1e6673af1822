import RouteContract.Calendar.Date

/-! # Timestamps

A local date and time with its offset from universal time. A timestamp is read with all fields at
full width; second 60 stands for a leap second, and digits of a second beyond the ninth are dropped.
It is written with no, three, six or nine of these digits, and with `Z` for offset zero. -/

set_option autoImplicit false

namespace RouteContract.Calendar

open Number (digit? ofDigits)

structure Timestamp where
  date : Date
  hour : Nat
  minute : Nat
  second : Nat
  nanosecond : Nat
  /-- Minutes ahead of universal time. -/
  offset : Int
deriving DecidableEq, Repr

def readWidth (n : Nat) (cs : List Char) : Option (Nat × List Char) :=
  let ds := cs.take n
  if ds.length = n && ds.all Char.isDigit then
    some (ofDigits 10 (ds.filterMap digit?), cs.drop n)
  else none

def readFractionOfSecond : List Char → Option (Nat × List Char)
  | '.' :: rest =>
    let ds := rest.takeWhile Char.isDigit
    if ds.isEmpty then none
    else
      let kept := ds.take 9
      some (ofDigits 10 (kept.filterMap digit?) * Nat.pow 10 (9 - kept.length), rest.drop ds.length)
  | rest => some (0, rest)

def minusSign : Char := Char.ofNat 0x2212

def readHoursMinutes (cs : List Char) : Option (Nat × List Char) := do
  let (hours, rest) ← readWidth 2 cs
  let rest ← expect ':' rest
  let (minutes, rest) ← readWidth 2 rest
  if minutes < 60 && hours < 24 then some (hours * 60 + minutes, rest) else none

def readOffset : List Char → Option (Int × List Char)
  | [] => none
  | c :: rest =>
    if c = 'Z' ∨ c = 'z' then some (0, rest)
    else if c = '+' then (readHoursMinutes rest).map fun (n, rest) => ((n : Int), rest)
    else if c = '-' ∨ c = minusSign then
      (readHoursMinutes rest).map fun (n, rest) => (-(n : Int), rest)
    else none

def readSeparator : List Char → Option (List Char)
  | [] => none
  | c :: rest => if c = 'T' ∨ c = 't' ∨ c = ' ' then some rest else none

namespace Timestamp

def parse? (cs : List Char) : Option Timestamp := do
  let (year, rest) ← readWidth 4 cs
  let rest ← expect '-' rest
  let (month, rest) ← readWidth 2 rest
  let rest ← expect '-' rest
  let (day, rest) ← readWidth 2 rest
  let rest ← readSeparator rest
  let (hour, rest) ← readWidth 2 rest
  let rest ← expect ':' rest
  let (minute, rest) ← readWidth 2 rest
  let rest ← expect ':' rest
  let (second, rest) ← readWidth 2 rest
  let (nanosecond, rest) ← readFractionOfSecond rest
  let (offset, rest) ← readOffset rest
  let d : Date := ⟨year, month, day⟩
  if rest.isEmpty && d.isValid && hour < 24 && minute < 60 && second ≤ 60 then
    some ⟨d, hour, minute, second, nanosecond, offset⟩
  else none

def fractionText (nanosecond : Nat) : List Char :=
  if nanosecond = 0 then []
  else if nanosecond % 1000000 = 0 then '.' :: padded 3 (nanosecond / 1000000)
  else if nanosecond % 1000 = 0 then '.' :: padded 6 (nanosecond / 1000)
  else '.' :: padded 9 nanosecond

def offsetText (offset : Int) : List Char :=
  if offset = 0 then ['Z']
  else
    (if offset < 0 then '-' else '+')
      :: (padded 2 (offset.natAbs / 60) ++ ':' :: padded 2 (offset.natAbs % 60))

def text (t : Timestamp) : String :=
  String.ofList (t.date.chars ++ 'T' :: (padded 2 t.hour ++ ':' :: (padded 2 t.minute
    ++ ':' :: (padded 2 t.second ++ fractionText t.nanosecond ++ offsetText t.offset))))

end Timestamp

end RouteContract.Calendar

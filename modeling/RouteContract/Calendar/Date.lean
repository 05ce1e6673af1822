import RouteContract.Number.Reader
import RouteContract.Text.Blank

/-! # Calendar dates

Dates of the proleptic calendar. A date is read as year, month and day between hyphens, with blanks
allowed before each number; a signed year may have any number of digits, an unsigned one at most
four. -/

set_option autoImplicit false

namespace RouteContract.Calendar

open Number (digit? ofDigits)

structure Date where
  year : Int
  month : Nat
  day : Nat
deriving DecidableEq, Repr

def padded (width n : Nat) : List Char :=
  let ds := Nat.toDigits 10 n
  List.replicate (width - ds.length) '0' ++ ds

namespace Date

def isLeap (year : Int) : Bool := year % 4 = 0 && (year % 100 ≠ 0 || year % 400 = 0)

def daysIn (year : Int) (month : Nat) : Nat :=
  match month with
  | 2 => if isLeap year then 29 else 28
  | 4 | 6 | 9 | 11 => 30
  | _ => 31

def isValid (d : Date) : Bool :=
  -262143 ≤ d.year && d.year ≤ 262142 && 1 ≤ d.month && d.month ≤ 12
    && 1 ≤ d.day && d.day ≤ daysIn d.year d.month

def yearText (year : Int) : List Char :=
  let ds := padded 4 year.natAbs
  if year < 0 then '-' :: ds else if 9999 < year then '+' :: ds else ds

def chars (d : Date) : List Char :=
  yearText d.year ++ '-' :: (padded 2 d.month ++ '-' :: padded 2 d.day)

def text (d : Date) : String := String.ofList d.chars

end Date

def readUpTo (most : Option Nat) (cs : List Char) : Option (Nat × List Char) :=
  let ds := cs.takeWhile Char.isDigit
  let ds := match most with
    | some n => ds.take n
    | none => ds
  if ds.isEmpty then none else some (ofDigits 10 (ds.filterMap digit?), cs.drop ds.length)

def expect (c : Char) : List Char → Option (List Char)
  | [] => none
  | d :: rest => if c = d then some rest else none

def readYear (cs : List Char) : Option (Int × List Char) :=
  match Text.trimStart cs with
  | '-' :: rest => (readUpTo none rest).map fun (n, rest) => (-(n : Int), rest)
  | '+' :: rest => (readUpTo none rest).map fun (n, rest) => ((n : Int), rest)
  | rest => (readUpTo (some 4) rest).map fun (n, rest) => ((n : Int), rest)

def Date.parse? (cs : List Char) : Option Date := do
  let (year, rest) ← readYear cs
  let rest ← expect '-' rest
  let (month, rest) ← readUpTo (some 2) (Text.trimStart rest)
  let rest ← expect '-' rest
  let (day, rest) ← readUpTo (some 2) (Text.trimStart rest)
  let d : Date := ⟨year, month, day⟩
  if rest.isEmpty && d.isValid then some d else none

end RouteContract.Calendar

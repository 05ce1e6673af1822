import RouteContract.Json.Basic
import RouteContract.Number.Reader

/-! # Numbers in JSON text

The digits of a literal are collected in a 64-bit significand; digits beyond it only move the point.
An integer literal whose digits all fit is that integer. Any other literal is the significand,
rounded to a double and then scaled by a rounded power of ten. -/

set_option autoImplicit false

namespace RouteContract.Json

open Number

structure NumberText where
  negative : Bool
  whole : List Char
  fraction? : Option (List Char)
  exponent? : Option (Bool × Nat)

def readFraction? : List Char → Option (Option (List Char) × List Char)
  | '.' :: rest =>
    let (ds, rest) := spanDigits rest
    if ds.isEmpty then none else some (some ds, rest)
  | rest => some (none, rest)

def readExponent? : List Char → Option (Option (Bool × Nat) × List Char)
  | mark :: rest =>
    if mark = 'e' ∨ mark = 'E' then
      let (negative, rest) := splitSign rest
      let (ds, rest) := spanDigits rest
      if ds.isEmpty then none
      else some (some (negative, ofDigits 10 (ds.filterMap digit?)), rest)
    else some (none, mark :: rest)
  | [] => some (none, [])

def readWhole? (cs : List Char) : Option (List Char × List Char) :=
  let (ds, rest) := spanDigits cs
  if ds.isEmpty || (ds.head? = some '0' && 1 < ds.length) then none else some (ds, rest)

def splitMinus : List Char → Bool × List Char
  | '-' :: rest => (true, rest)
  | cs => (false, cs)

def readNumberText? (cs : List Char) : Option (NumberText × List Char) := do
  let (negative, rest) := splitMinus cs
  let (whole, rest) ← readWhole? rest
  let (fraction?, rest) ← readFraction? rest
  let (exponent?, rest) ← readExponent? rest
  return (⟨negative, whole, fraction?, exponent?⟩, rest)

/-- Collects digits while the significand fits 64 bits. Answers the significand and the number of
digits taken. -/
def collect (significand : Nat) : List Char → Nat × Nat
  | [] => (significand, 0)
  | c :: cs =>
    let next := significand * 10 + (digit? c).getD 0
    if next < Nat.pow 2 64 then
      let (s, taken) := collect next cs
      (s, taken + 1)
    else (significand, 0)

def power10? (k : Nat) : Option Binary64 :=
  if k ≤ 308 then Binary64.ofDecimal? false 1 k else none

/-- Scales by a power of ten, in two steps when the inverse power itself is too small for a
double. -/
def scaled? (x : Binary64) (exponent : Int) : Option Binary64 :=
  if 0 ≤ exponent then
    if x.isZero then some x else (power10? exponent.toNat).bind x.mul?
  else
    let k := (-exponent).toNat
    if k ≤ 308 then (power10? k).bind x.div?
    else if k ≤ 616 then
      (power10? 308).bind fun p => (x.div? p).bind fun y => (power10? (k - 308)).bind y.div?
    else some (Binary64.zero x.negative)

def significandFloat? (negative : Bool) (significand : Nat) (shift : Int) :
    Option (Bool × Nat) → Option Binary64
  | none => signed? (scaled? · shift)
  | some (down, n) =>
    if n < Nat.pow 2 31 then signed? (scaled? · (shift + if down then -(n : Int) else n))
    else if significand ≠ 0 ∧ !down then none
    else some (Binary64.zero negative)
where
  signed? (f : Binary64 → Option Binary64) : Option Binary64 :=
    (Binary64.ofInt? significand).bind fun x =>
      (f x).map fun y => if negative then y.neg else y

def NumberText.value? (t : NumberText) : Option Json :=
  let (wholePart, kept) := collect 0 t.whole
  let (significand, taken) := collect wholePart (t.fraction?.getD [])
  let n := Binary64.signed t.negative significand
  if kept = t.whole.length ∧ t.fraction? = none ∧ t.exponent? = none ∧ fits n
      ∧ ¬(t.negative ∧ significand = 0) then
    some (.integer n)
  else
    (significandFloat? t.negative significand ((t.whole.length : Int) - kept - taken)
      t.exponent?).map .float

def readNumber? (cs : List Char) : Option (Json × List Char) := do
  let (t, rest) ← readNumberText? cs
  let v ← t.value?
  return (v, rest)

end RouteContract.Json
